import ShardDB.Lib.History
import ShardDB.Storage.Gc
import ShardDB.Storage.OnePhase

/-!
# Who owns an intent, and where a version comes from

Runs of arbitrary operations from the empty store: the mutating calls of any transactions,
garbage collection and reads, with or without success. An intent is in the lock table as long
as its owner does nothing more to the key, and nobody else can write the key in that time.
A commit installs the value of the last `Prepare` of its transaction. Every version in the
tree goes back to a call that committed it, and no later call has written the same key at the
same timestamp (`intents_owned`).

A call whose key is locked by somebody else, and a call that fails, leave the store as it is;
everything else follows from `locks_exec` and from the list of installed versions.
-/

namespace ShardDB.Storage

open ShardDB.Lib

/-- A step of a run. Reads return no store, so they are one case. -/
inductive Operation where
  | call (c : Call)
  | runGC (safeTs : UInt64)
  | read
  deriving DecidableEq, Repr

namespace Operation

/-- The store after an operation. -/
def exec (s : MemoryStore) : Operation → MemoryStore
  | call c => (c.exec s).1
  | runGC safeTs => (s.runGC safeTs).1
  | read => s

/-- A successful call of transaction `t` that involves `k`. -/
def OwnCall (t k : Bytes) (s : MemoryStore) : Operation → Prop
  | call c => c.txnID = t ∧ k ∈ c.keys ∧ (c.exec s).2 = none
  | _ => False

/-- A successful `Prepare(k, v, t)`. -/
def Prepares (t k : Bytes) (v : Slice) (s : MemoryStore) (o : Operation) : Prop :=
  o = call (.prepare k v t) ∧ (s.prepare k v t).2 = none

/-- A successful call that commits `v` as the version of `k` at `ts`: a `Commit` whose
transaction intends `v`, a `OnePhaseCommit` whose last operation on `k` has the value `v`, or
a `Put`, which commits at timestamp one. -/
def Writes (k : Bytes) (ts : UInt64) (v : Slice) (s : MemoryStore) : Operation → Prop
  | call (.commit key t ts') =>
    (key = k ∧ ts' = ts) ∧ (s.commit key t ts').2 = none ∧ s.locks.find? key = some ⟨t, v⟩
  | call (.onePhaseCommit ops t ts') =>
    ts' = ts ∧ (s.onePhaseCommit ops t ts').2 = none ∧
      SortedMap.lastBinding (ops.map BatchOp.binding) k = some v
  | call (.put key value) => (key = k ∧ ts = 1) ∧ (s.put key value).2 = none ∧ value = v
  | _ => False

end Operation

/-! ## Calls without effect -/

/-- A call that fails changes nothing. -/
theorem exec_of_error {s : MemoryStore} {c : Call} (h : (c.exec s).2 ≠ none) :
    (c.exec s).1 = s := by
  cases c with
  | prepare key value t =>
    exact (MemoryStore.prepare_of_not_free value (mt MemoryStore.prepare_ok_iff.mpr h)).1
  | commit key t ts =>
    cases hIntent : s.intent? t key with
    | none => exact (MemoryStore.commit_of_no_intent ts hIntent).1
    | some v =>
      refine absurd ?_ h
      rw [Call.exec, MemoryStore.commit_of_intent ts hIntent]
  | abort key t =>
    cases hIntent : s.intent? t key with
    | none => exact MemoryStore.abort_of_no_intent hIntent
    | some v =>
      refine absurd ?_ h
      rw [Call.exec, MemoryStore.abort_of_intent hIntent]
  | onePhaseCommit ops t ts =>
    refine (MemoryStore.onePhaseCommit_of_not_free ts fun hFree => h ?_).1
    rw [Call.exec, MemoryStore.onePhaseCommit_of_free ts hFree]
  | put key value =>
    refine (MemoryStore.put_of_not_free value fun hFree => h ?_).1
    rw [Call.exec, MemoryStore.put_of_free value hFree]

/-- A call that involves a key locked by another transaction changes nothing. -/
theorem exec_of_taken {s : MemoryStore} {c : Call} {k : Bytes} (hk : k ∈ c.keys)
    (hTaken : ¬ s.FreeFor c.txnID k) : (c.exec s).1 = s := by
  have hNoIntent : s.intent? c.txnID k = none := by
    cases hIntent : s.intent? c.txnID k with
    | none => rfl
    | some v => exact absurd (MemoryStore.freeFor_of_intent? hIntent) hTaken
  cases c with
  | prepare key value t =>
    rw [List.mem_singleton.mp hk] at hTaken
    exact (MemoryStore.prepare_of_not_free value hTaken).1
  | commit key t ts =>
    rw [List.mem_singleton.mp hk] at hNoIntent
    exact (MemoryStore.commit_of_no_intent ts hNoIntent).1
  | abort key t =>
    rw [List.mem_singleton.mp hk] at hNoIntent
    exact MemoryStore.abort_of_no_intent hNoIntent
  | onePhaseCommit ops t ts =>
    refine (MemoryStore.onePhaseCommit_of_not_free ts fun hFree => hTaken ?_).1
    exact freeFor_of_mem_keys hFree hk
  | put key value =>
    rw [List.mem_singleton.mp hk] at hTaken
    exact (MemoryStore.put_of_not_free value hTaken).1

/-! ## The versions an operation writes -/

/-- Versions put at one timestamp, looked up at another one or at the same. -/
theorem lastBinding_encodeKey (l : List (Bytes × Slice)) (k : Bytes) (ts ts' : UInt64) :
    SortedMap.lastBinding (l.map fun e => (encodeKey e.1 ts', e.2)) (encodeKey k ts) =
      if ts' = ts then SortedMap.lastBinding l k else none := by
  split_ifs with hTs
  · subst hTs
    exact SortedMap.lastBinding_map_key (f := fun k => encodeKey k ts')
      (fun _ _ h => (encodeKey_inj h).1) l k
  · rw [SortedMap.lastBinding_eq_none_iff, List.map_map]
    intro hMem
    obtain ⟨e, -, he⟩ := List.mem_map.mp hMem
    exact hTs (encodeKey_inj he).2

/-- The version that a call writes is the last one it installs. -/
theorem writes_call_iff {k : Bytes} {ts : UInt64} {v : Slice} {s : MemoryStore} {c : Call} :
    (Operation.call c).Writes k ts v s ↔
      SortedMap.lastBinding ((c.installs s).map fun i => (encodeKey i.key i.ts, i.value))
        (encodeKey k ts) = some v := by
  cases c with
  | prepare key value t => simp [Operation.Writes, Call.installs]
  | abort key t => simp [Operation.Writes, Call.installs]
  | commit key t ts' =>
    rw [Operation.Writes, Call.installs]
    cases hIntent : s.intent? t key with
    | none => simp [(MemoryStore.commit_of_no_intent ts' hIntent).2]
    | some w =>
      have hLast : SortedMap.lastBinding ([(⟨t, key, ts', w⟩ : Install)].map
          fun i => (encodeKey i.key i.ts, i.value)) (encodeKey k ts) = _ :=
        lastBinding_encodeKey [(key, w)] k ts ts'
      dsimp only
      rw [MemoryStore.commit_of_intent ts' hIntent, MemoryStore.intent?_eq_some_iff.mp hIntent,
        hLast]
      by_cases hTs : ts' = ts <;> by_cases hKey : key = k <;>
        simp [hTs, hKey, SortedMap.lastBinding]
  | onePhaseCommit ops t ts' =>
    rw [Operation.Writes, Call.installs]
    by_cases hFree : ∀ op ∈ ops, s.FreeFor t op.key
    · have hPairs : (ops.map fun op => (⟨t, op.key, ts', op.value⟩ : Install)).map
          (fun i => (encodeKey i.key i.ts, i.value)) =
          (ops.map BatchOp.binding).map fun e => (encodeKey e.1 ts', e.2) := by
        rw [List.map_map, List.map_map]
        rfl
      rw [MemoryStore.onePhaseCommit_of_free ts' hFree, if_pos hFree, hPairs,
        lastBinding_encodeKey]
      by_cases hTs : ts' = ts <;> simp [hTs]
    · simp [(MemoryStore.onePhaseCommit_of_not_free ts' hFree).2, hFree]
  | put key value =>
    rw [Operation.Writes, Call.installs]
    by_cases hFree : s.FreeFor MemoryStore.legacyTxn key
    · have hLast : SortedMap.lastBinding ([(⟨MemoryStore.legacyTxn, key, 1, value⟩ : Install)].map
          fun i => (encodeKey i.key i.ts, i.value)) (encodeKey k ts) = _ :=
        lastBinding_encodeKey [(key, value)] k ts 1
      rw [MemoryStore.put_of_free value hFree, if_pos hFree, hLast]
      by_cases hTs : 1 = ts
      · by_cases hKey : key = k <;> simp [← hTs, hKey, SortedMap.lastBinding]
      · simp [hTs, Ne.symm hTs]
    · simp [(MemoryStore.put_of_not_free value hFree).2, hFree]

theorem mem_keys_of_writes {k : Bytes} {ts : UInt64} {v : Slice} {s : MemoryStore} {c : Call}
    (h : (Operation.call c).Writes k ts v s) : k ∈ c.keys := by
  obtain ⟨i, hi, he⟩ := List.mem_map.mp (SortedMap.mem_of_lastBinding (writes_call_iff.mp h))
  rw [← (encodeKey_inj (Prod.ext_iff.mp he).1).1]
  exact key_of_mem_installs hi

/-- A version after an operation is written by it, or it was there and is not rewritten. -/
theorem hasVersion_exec {k : Bytes} {ts : UInt64} {v : Slice} {s : MemoryStore} {o : Operation}
    (h : (o.exec s).HasVersion k ts v) :
    o.Writes k ts v s ∨ s.HasVersion k ts v ∧ ¬ ∃ v', o.Writes k ts v' s := by
  cases o with
  | call c =>
    rw [Operation.exec, MemoryStore.HasVersion, tree_exec, find?_putVersions_eq] at h
    cases hLast : SortedMap.lastBinding
        ((c.installs s).map fun i => (encodeKey i.key i.ts, i.value)) (encodeKey k ts) with
    | none =>
      rw [hLast, Option.none_or] at h
      refine Or.inr ⟨h, ?_⟩
      rintro ⟨v', hWrites⟩
      cases hLast.symm.trans (writes_call_iff.mp hWrites)
    | some w =>
      rw [hLast, Option.some_or] at h
      exact Or.inl (writes_call_iff.mpr (hLast.trans h))
  | runGC safeTs =>
    refine Or.inr ⟨(MemoryStore.hasVersion_runGC.mp h).1, ?_⟩
    rintro ⟨v', hWrites⟩
    exact hWrites
  | read =>
    refine Or.inr ⟨h, ?_⟩
    rintro ⟨v', hWrites⟩
    exact hWrites

/-! ## The lock of a key -/

/-- A successful call leaves each of its keys locked by itself, when it is a `Prepare`, or
unlocked. -/
theorem locks_of_success {s : MemoryStore} {c : Call} {k : Bytes} (hk : k ∈ c.keys)
    (hOk : (c.exec s).2 = none) :
    (∃ v, c = .prepare k v c.txnID ∧ (c.exec s).1.locks.find? k = some ⟨c.txnID, v⟩) ∨
      (c.exec s).1.locks.find? k = none := by
  cases c with
  | prepare key value t =>
    obtain rfl := List.mem_singleton.mp hk
    rw [Call.exec, MemoryStore.prepare_of_free value (MemoryStore.prepare_ok_iff.mp hOk)]
    exact Or.inl ⟨value, rfl, SortedMap.find?_insert_self ..⟩
  | commit key t ts =>
    obtain rfl := List.mem_singleton.mp hk
    right
    cases hIntent : s.intent? t k with
    | none => exact absurd hOk (MemoryStore.commit_of_no_intent ts hIntent).2
    | some v =>
      rw [Call.exec, MemoryStore.commit_of_intent ts hIntent]
      exact SortedMap.find?_erase_self ..
  | abort key t =>
    obtain rfl := List.mem_singleton.mp hk
    right
    rw [Call.exec] at hOk ⊢
    unfold MemoryStore.abort at hOk ⊢
    cases hFind : s.locks.find? k with
    | none => exact hFind
    | some lock =>
      by_cases hOwner : lock.txnID = t
      · simp [hOwner]
      · simp [hFind, hOwner] at hOk
  | onePhaseCommit ops t ts =>
    right
    by_cases hFree : ∀ op ∈ ops, s.FreeFor t op.key
    · rw [Call.exec, MemoryStore.onePhaseCommit_of_free ts hFree,
        MemoryStore.locks_foldl_install]
      exact if_pos hk
    · exact absurd hOk (MemoryStore.onePhaseCommit_of_not_free ts hFree).2
  | put key value =>
    obtain rfl := List.mem_singleton.mp hk
    right
    by_cases hFree : s.FreeFor MemoryStore.legacyTxn k
    · rw [Call.exec, MemoryStore.put_of_free value hFree]
      exact SortedMap.find?_erase_self ..
    · exact absurd hOk (MemoryStore.put_of_not_free value hFree).2

/-- As long as the owner does nothing more to the key, its lock stays and no version of the
key is added or overwritten. -/
theorem locked_exec {s : MemoryStore} {t k : Bytes} {v : Slice} {o : Operation}
    (hLock : s.locks.find? k = some ⟨t, v⟩) (hOther : ¬ o.OwnCall t k s) :
    (o.exec s).locks.find? k = some ⟨t, v⟩ ∧
      ∀ ts v', (o.exec s).HasVersion k ts v' → s.HasVersion k ts v' := by
  cases o with
  | call c =>
    by_cases hk : k ∈ c.keys
    · -- the call fails, or meets the lock of somebody else
      have hSame : (c.exec s).1 = s := by
        by_cases hTxn : c.txnID = t
        · exact exec_of_error fun hOk => hOther ⟨hTxn, hk, hOk⟩
        · exact exec_of_taken hk fun hFree => hTxn (hFree _ hLock).symm
      rw [Operation.exec, hSame]
      exact ⟨hLock, fun _ _ h => h⟩
    · refine ⟨((locks_exec s c k).resolve_right fun h => hk h.1).trans hLock, fun ts v' h => ?_⟩
      exact ((hasVersion_exec h).resolve_left fun hWrites => hk (mem_keys_of_writes hWrites)).1
  | runGC safeTs => exact ⟨hLock, fun ts v' h => (MemoryStore.hasVersion_runGC.mp h).1⟩
  | read => exact ⟨hLock, fun _ _ h => h⟩

/-- A lock after an operation was put there by it, or it was there and its owner did nothing
to the key. -/
theorem locked_origin {s : MemoryStore} {t k : Bytes} {v : Slice} {o : Operation}
    (h : (o.exec s).locks.find? k = some ⟨t, v⟩) :
    o.Prepares t k v s ∨ s.locks.find? k = some ⟨t, v⟩ ∧ ¬ o.OwnCall t k s := by
  cases o with
  | call c =>
    rw [Operation.exec] at h
    by_cases hOwn : (Operation.call c).OwnCall t k s
    · obtain ⟨rfl, hk, hOk⟩ := hOwn
      rcases locks_of_success hk hOk with ⟨w, hCall, hLock⟩ | hNone
      · cases hLock.symm.trans h
        exact Or.inl ⟨congrArg Operation.call hCall, by rwa [hCall] at hOk⟩
      · cases hNone.symm.trans h
    · refine Or.inr ⟨?_, hOwn⟩
      rcases locks_exec s c k with hSame | ⟨hk, hNone | ⟨w, hLock⟩⟩
      · exact hSame.symm.trans h
      · cases hNone.symm.trans h
      · cases hLock.symm.trans h
        rw [← exec_of_error fun hOk => hOwn ⟨rfl, hk, hOk⟩]
        exact hLock
  | runGC safeTs => exact Or.inr ⟨h, fun hOwn => hOwn⟩
  | read => exact Or.inr ⟨h, fun hOwn => hOwn⟩

/-! ## Runs -/

/-- In every run from the empty store: from a successful `Prepare` until the next successful
call of its transaction on the key, the intent stays and nobody writes the key; a `Commit`
that succeeds installs the value of the last successful `Prepare` of its transaction; every
version was committed by the last call that wrote its key at its timestamp. -/
theorem intents_owned (ops : List Operation) :
    let s := ops.foldl Operation.exec newMemoryStore
    (∀ t k v, Since Operation.exec (fun s o => ¬ o.OwnCall t k s) (Operation.Prepares t k v)
        newMemoryStore ops →
      s.locks.find? k = some ⟨t, v⟩ ∧ ∀ o : Operation, ¬ o.OwnCall t k s →
        (o.exec s).locks.find? k = some ⟨t, v⟩ ∧
          ∀ ts v', (o.exec s).HasVersion k ts v' → s.HasVersion k ts v') ∧
      (∀ k t ts, (s.commit k t ts).2 = none →
        ∃ v, Since Operation.exec (fun s o => ¬ o.OwnCall t k s) (Operation.Prepares t k v)
            newMemoryStore ops ∧
          (s.commit k t ts).1 = ⟨s.tree.insert (encodeKey k ts) v, s.locks.erase k⟩) ∧
      ∀ k ts v, s.HasVersion k ts v →
        Since Operation.exec (fun s o => ¬ ∃ v', o.Writes k ts v' s) (Operation.Writes k ts v)
          newMemoryStore ops := by
  refine ⟨fun t k v hSince => ?_, fun k t ts hOk => ?_, fun k ts v hVersion => ?_⟩
  · have hLock := hSince.invariant (I := fun s => s.locks.find? k = some ⟨t, v⟩)
      (fun s o h => by
        obtain ⟨rfl, hOk⟩ := h
        rw [Operation.exec, Call.exec,
          MemoryStore.prepare_of_free v (MemoryStore.prepare_ok_iff.mp hOk)]
        exact SortedMap.find?_insert_self ..)
      fun s o h hOther => (locked_exec h hOther).1
    exact ⟨hLock, fun o hOther => locked_exec hLock hOther⟩
  · cases hIntent : (ops.foldl Operation.exec newMemoryStore).intent? t k with
    | none => exact absurd hOk (MemoryStore.commit_of_no_intent ts hIntent).2
    | some v =>
      refine ⟨v, ?_, congrArg Prod.fst (MemoryStore.commit_of_intent ts hIntent)⟩
      refine since_of_holds (I := fun s => s.locks.find? k = some ⟨t, v⟩) (by simp [newMemoryStore])
        (fun s o h => locked_origin h) (MemoryStore.intent?_eq_some_iff.mp hIntent)
  · exact since_of_holds (I := fun s => s.HasVersion k ts v)
      (by simp [MemoryStore.HasVersion, newMemoryStore]) (fun s o h => hasVersion_exec h) hVersion

/-- A key prepared by one transaction, in vain by another, and committed. -/
def preparedTwice : List Operation :=
  [.call (.prepare (ascii "k") (some (ascii "1")) (ascii "t1")),
    .call (.prepare (ascii "k") (some (ascii "2")) (ascii "t2")), .read,
    .call (.commit (ascii "k") (ascii "t1") 7)]

theorem intents_owned_preparedTwice :
    (preparedTwice.foldl Operation.exec newMemoryStore).HasVersion (ascii "k") 7
        (some (ascii "1")) ∧
      Since Operation.exec (fun s o => ¬ ∃ v', o.Writes (ascii "k") 7 v' s)
        (Operation.Writes (ascii "k") 7 (some (ascii "1"))) newMemoryStore preparedTwice :=
  have hVersion : (preparedTwice.foldl Operation.exec newMemoryStore).HasVersion (ascii "k") 7
      (some (ascii "1")) := by decide
  ⟨hVersion, (intents_owned preparedTwice).2.2 _ _ _ hVersion⟩

end ShardDB.Storage
