import ShardDB.Storage.Intents

/-!
# The view of one transaction

As long as the calls of a transaction are granted, that is, as long as they find their keys
not locked by others, what the transaction sees of the store (its own intents, the versions
installed for it) is a function of its own calls alone, whatever other transactions do in
between (`view_run`). The function is `ownRun`; it needs no store. Its results for the calls
of the two commit paths are computed here once: prepares followed by commits in any order,
and a one-phase commit.
-/

namespace ShardDB.Storage

open ShardDB.Lib

namespace Call

/-- The keys a call touches. -/
def keys : Call → List Bytes
  | prepare key _ _ => [key]
  | commit key _ _ => [key]
  | abort key _ => [key]
  | onePhaseCommit ops _ _ => ops.map BatchOp.key
  | put key _ => [key]

/-- A call that asks for locks finds its keys free. -/
def Granted (s : MemoryStore) : Call → Prop
  | prepare key _ txnID => s.FreeFor txnID key
  | onePhaseCommit ops txnID _ => ∀ op ∈ ops, s.FreeFor txnID op.key
  | put key _ => s.FreeFor MemoryStore.legacyTxn key
  | commit _ _ _ => True
  | abort _ _ => True

instance (s : MemoryStore) (c : Call) : Decidable (c.Granted s) :=
  match c with
  | prepare key _ txnID => inferInstanceAs (Decidable (s.FreeFor txnID key))
  | commit _ _ _ => .isTrue trivial
  | abort _ _ => .isTrue trivial
  | onePhaseCommit ops txnID _ => inferInstanceAs (Decidable (∀ op ∈ ops, s.FreeFor txnID op.key))
  | put key _ => inferInstanceAs (Decidable (s.FreeFor MemoryStore.legacyTxn key))

/-- The effect of a granted call on the intents of its transaction, and the versions it
installs. -/
def own (m : Bytes → Option Slice) : Call → (Bytes → Option Slice) × List Install
  | prepare key value _ => (fun k => if k = key then some value else m k, [])
  | commit key txnID ts =>
    (fun k => if k = key then none else m k,
      match m key with
      | some value => [⟨txnID, key, ts, value⟩]
      | none => [])
  | abort key _ => (fun k => if k = key then none else m k, [])
  | onePhaseCommit ops txnID ts =>
    (fun k => if k ∈ ops.map BatchOp.key then none else m k,
      ops.map fun op => ⟨txnID, op.key, ts, op.value⟩)
  | put key value =>
    (fun k => if k = key then none else m k, [⟨MemoryStore.legacyTxn, key, 1, value⟩])

end Call

/-- The calls of one transaction, run on its own intents. -/
def ownRun (m : Bytes → Option Slice) : List Call → (Bytes → Option Slice) × List Install
  | [] => (m, [])
  | c :: calls => ((ownRun (c.own m).1 calls).1, (c.own m).2 ++ (ownRun (c.own m).1 calls).2)

/-- Every call of the transaction is granted when its turn comes. -/
def GrantedFor (t : Bytes) : MemoryStore → List Call → Prop
  | _, [] => True
  | s, c :: calls => (c.txnID = t → c.Granted s) ∧ GrantedFor t (c.exec s).1 calls

/-- The calls of a transaction in a run. -/
def callsOf (t : Bytes) (calls : List Call) : List Call := calls.filter fun c => c.txnID = t

theorem view_exec {s : MemoryStore} {c : Call} (hGranted : c.Granted s) :
    (c.exec s).1.intent? c.txnID = (c.own (s.intent? c.txnID)).1 ∧
      c.installs s = (c.own (s.intent? c.txnID)).2 := by
  cases c with
  | prepare key value t =>
    exact ⟨funext (intent?_prepare_of_free value hGranted), rfl⟩
  | commit key t ts =>
    refine ⟨funext (intent?_commit s t key ts), ?_⟩
    cases hIntent : s.intent? t key <;> simp [Call.installs, Call.own, Call.txnID, hIntent]
  | abort key t =>
    exact ⟨funext (intent?_abort s t key), rfl⟩
  | onePhaseCommit ops t ts =>
    refine ⟨funext fun k => ?_, if_pos hGranted⟩
    rw [Call.exec, MemoryStore.onePhaseCommit_of_free ts hGranted,
      MemoryStore.intent?_foldl_install]
    rfl
  | put key value =>
    refine ⟨funext fun k => ?_, if_pos hGranted⟩
    rw [Call.exec, MemoryStore.put_of_free value hGranted, MemoryStore.intent?_erase]
    rfl

/-- The view of a transaction whose calls are granted is computed from its own calls. -/
theorem view_run {t : Bytes} {s : MemoryStore} {calls : List Call}
    (hGranted : GrantedFor t s calls) :
    (s.run calls).intent? t = (ownRun (s.intent? t) (callsOf t calls)).1 ∧
      installsOf t (s.runInstalls calls) = (ownRun (s.intent? t) (callsOf t calls)).2 := by
  induction calls generalizing s with
  | nil => exact ⟨rfl, rfl⟩
  | cons c calls ih =>
    obtain ⟨hHead, hTail⟩ := hGranted
    obtain ⟨hRun, hRest⟩ := ih hTail
    by_cases hTxn : c.txnID = t
    · subst hTxn
      obtain ⟨hIntents, hInstalls⟩ := view_exec (hHead rfl)
      have hFilter : callsOf c.txnID (c :: calls) = c :: callsOf c.txnID calls :=
        List.filter_cons_of_pos (by simp)
      rw [hIntents] at hRun hRest
      rw [hFilter, ownRun, MemoryStore.runInstalls, installsOf_append,
        installsOf_installs_self rfl, hRest, hInstalls]
      exact ⟨hRun, rfl⟩
    · have hFilter : callsOf t (c :: calls) = callsOf t calls :=
        List.filter_cons_of_neg (by simpa using hTxn)
      rw [funext (intent?_exec_of_ne hTxn)] at hRun hRest
      rw [hFilter, MemoryStore.runInstalls, installsOf_append, installsOf_installs_of_ne hTxn, hRest]
      exact ⟨hRun, rfl⟩

/-- A version is installed only for a key of the call. -/
theorem key_of_mem_installs {s : MemoryStore} {c : Call} {i : Install}
    (h : i ∈ c.installs s) : i.key ∈ c.keys := by
  rcases installs_cases h with rfl | ⟨ops, rfl, hKey⟩ | ⟨value, rfl, -⟩
  · exact List.mem_cons_self
  · exact hKey
  · exact List.mem_cons_self

/-- A version is installed at the timestamp of some call. -/
theorem ts?_of_mem_ownRun {m : Bytes → Option Slice} {calls : List Call} {i : Install}
    (h : i ∈ (ownRun m calls).2) : ∃ c ∈ calls, c.ts? = some i.ts := by
  induction calls generalizing m with
  | nil => cases h
  | cons c calls ih =>
    rcases List.mem_append.mp h with h | h
    · refine ⟨c, List.mem_cons_self, ?_⟩
      cases c with
      | prepare key value t => cases h
      | commit key t ts =>
        simp only [Call.own] at h
        split at h
        · rw [List.mem_singleton.mp h]
          rfl
        · cases h
      | abort key t => cases h
      | onePhaseCommit ops t ts =>
        obtain ⟨op, -, rfl⟩ := List.mem_map.mp h
        rfl
      | put key value =>
        rw [List.mem_singleton.mp h]
        rfl
    · obtain ⟨c', hc', hTs⟩ := ih h
      exact ⟨c', List.mem_cons_of_mem _ hc', hTs⟩

/-! ## The commit paths -/

theorem ownRun_append (m : Bytes → Option Slice) (calls calls' : List Call) :
    ownRun m (calls ++ calls') =
      ((ownRun (ownRun m calls).1 calls').1,
        (ownRun m calls).2 ++ (ownRun (ownRun m calls).1 calls').2) := by
  induction calls generalizing m with
  | nil => rfl
  | cons c calls ih => simp only [List.cons_append, ownRun, ih, List.append_assoc]

/-- Prepares leave the last value of every key as the intent and install nothing. -/
theorem ownRun_prepares (t : Bytes) (m : Bytes → Option Slice) (writes : List (Bytes × Slice)) :
    ownRun m (writes.map fun w => .prepare w.1 w.2 t) =
      (fun k => (SortedMap.lastBinding writes k).or (m k), []) := by
  induction writes using List.reverseRecOn with
  | nil => rfl
  | append_singleton writes w ih =>
    rw [List.map_append, ownRun_append, ih]
    simp only [List.map_cons, List.map_nil, ownRun, Call.own, List.append_nil, Prod.mk.injEq,
      and_true]
    funext k
    rw [SortedMap.lastBinding_concat]
    by_cases hk : w.1 = k
    · simp [hk]
    · simp [hk, Ne.symm hk]

/-- The key and the value of a version. -/
def Install.binding (i : Install) : Bytes × Slice := (i.key, i.value)

/-- Commits install the intent of each of their keys and leave the intents of other keys. -/
theorem ownRun_commits (t : Bytes) (ts : UInt64) (m : Bytes → Option Slice) (keys : List Bytes)
    (k : Bytes) :
    (ownRun m (keys.map fun key => .commit key t ts)).1 k = (if k ∈ keys then none else m k) ∧
      SortedMap.lastBinding
          ((ownRun m (keys.map fun key => .commit key t ts)).2.map Install.binding) k =
        if k ∈ keys then m k else none := by
  induction keys generalizing m with
  | nil => simp [ownRun]
  | cons key keys ih =>
    obtain ⟨hMap, hLast⟩ := ih fun k => if k = key then none else m k
    simp only [List.map_cons, ownRun, Call.own]
    refine ⟨?_, ?_⟩
    · rw [hMap]
      by_cases hk : k = key
      · simp [hk]
      · simp [hk]
    · rw [List.map_append, SortedMap.lastBinding_append, hLast]
      by_cases hk : k = key
      · subst hk
        cases m k <;> simp [SortedMap.lastBinding, Install.binding]
      · have hHead : SortedMap.lastBinding ((match m key with
            | some value => [(⟨t, key, ts, value⟩ : Install)]
            | none => []).map Install.binding) k = none := by
          cases m key <;> simp [SortedMap.lastBinding, Install.binding, Ne.symm hk]
        simp [hk, hHead]

/-! ## Locks of a single transaction at work -/

/-- A call changes the lock of a key of its own only, and only to its own lock or none. -/
theorem locks_exec (s : MemoryStore) (c : Call) (k : Bytes) :
    (c.exec s).1.locks.find? k = s.locks.find? k ∨
      k ∈ c.keys ∧ ((c.exec s).1.locks.find? k = none ∨
        ∃ v, (c.exec s).1.locks.find? k = some ⟨c.txnID, v⟩) := by
  have hErase : ∀ key, (s.locks.erase key).find? k = s.locks.find? k ∨
      k ∈ [key] ∧ (s.locks.erase key).find? k = none := by
    intro key
    by_cases hk : k = key
    · exact Or.inr ⟨by simp [hk], by rw [hk, SortedMap.find?_erase_self]⟩
    · exact Or.inl (SortedMap.find?_erase_of_ne _ hk)
  cases c with
  | prepare key value t =>
    by_cases hFree : s.FreeFor t key
    · rw [Call.exec, MemoryStore.prepare_of_free value hFree]
      by_cases hk : k = key
      · subst hk
        exact Or.inr ⟨List.mem_cons_self, Or.inr ⟨value, SortedMap.find?_insert_self ..⟩⟩
      · exact Or.inl (SortedMap.find?_insert_of_ne _ _ hk)
    · rw [Call.exec, (MemoryStore.prepare_of_not_free value hFree).1]
      exact Or.inl rfl
  | commit key t ts =>
    cases hIntent : s.intent? t key with
    | none =>
      rw [Call.exec, (MemoryStore.commit_of_no_intent ts hIntent).1]
      exact Or.inl rfl
    | some v =>
      rw [Call.exec, MemoryStore.commit_of_intent ts hIntent]
      exact (hErase key).imp_right fun h => ⟨h.1, Or.inl h.2⟩
  | abort key t =>
    cases hIntent : s.intent? t key with
    | none =>
      rw [Call.exec, MemoryStore.abort_of_no_intent hIntent]
      exact Or.inl rfl
    | some v =>
      rw [Call.exec, MemoryStore.abort_of_intent hIntent]
      exact (hErase key).imp_right fun h => ⟨h.1, Or.inl h.2⟩
  | onePhaseCommit ops t ts =>
    by_cases hFree : ∀ op ∈ ops, s.FreeFor t op.key
    · rw [Call.exec, MemoryStore.onePhaseCommit_of_free ts hFree,
        MemoryStore.locks_foldl_install]
      split_ifs with hk
      · exact Or.inr ⟨hk, Or.inl rfl⟩
      · exact Or.inl rfl
    · rw [Call.exec, (MemoryStore.onePhaseCommit_of_not_free ts hFree).1]
      exact Or.inl rfl
  | put key value =>
    by_cases hFree : s.FreeFor MemoryStore.legacyTxn key
    · rw [Call.exec, MemoryStore.put_of_free value hFree]
      exact (hErase key).imp_right fun h => ⟨h.1, Or.inl h.2⟩
    · rw [Call.exec, (MemoryStore.put_of_not_free value hFree).1]
      exact Or.inl rfl

theorem freeFor_exec {s : MemoryStore} {t k : Bytes} (h : s.FreeFor t k) {c : Call}
    (hTxn : c.txnID = t) : (c.exec s).1.FreeFor t k := by
  intro lock hLock
  rcases locks_exec s c k with hSame | ⟨-, hNone | ⟨v, hOwn⟩⟩
  · exact h lock (hSame.symm.trans hLock)
  · rw [hNone] at hLock
    cases hLock
  · rw [hOwn] at hLock
    cases hLock
    exact hTxn

/-- A transaction that works alone keeps its keys free for itself. -/
theorem freeFor_run {s : MemoryStore} {t k : Bytes} (h : s.FreeFor t k) {calls : List Call}
    (hTxn : ∀ c ∈ calls, c.txnID = t) : (s.run calls).FreeFor t k := by
  induction calls generalizing s with
  | nil => exact h
  | cons c calls ih =>
    exact ih (freeFor_exec h (hTxn c List.mem_cons_self)) fun c hc => hTxn c (List.mem_cons_of_mem _ hc)

/-- The calls of a transaction that works alone on free keys are all granted. -/
theorem grantedFor_of_free {s : MemoryStore} {t : Bytes} {calls : List Call}
    (hTxn : ∀ c ∈ calls, c.txnID = t) (hFree : ∀ c ∈ calls, ∀ k ∈ c.keys, s.FreeFor t k) :
    GrantedFor t s calls := by
  induction calls generalizing s with
  | nil => trivial
  | cons c calls ih =>
    have hHead : c.txnID = t := hTxn c List.mem_cons_self
    refine ⟨fun _ => ?_, ih (fun c hc => hTxn c (List.mem_cons_of_mem _ hc)) fun c' hc' k hk =>
      freeFor_exec (hFree c' (List.mem_cons_of_mem _ hc') k hk) hHead⟩
    have hKeys := hFree c List.mem_cons_self
    subst hHead
    cases c with
    | prepare key value t => exact hKeys key List.mem_cons_self
    | commit key t ts => trivial
    | abort key t => trivial
    | onePhaseCommit ops t ts => exact fun op hop => hKeys op.key (List.mem_map_of_mem hop)
    | put key value => exact hKeys key List.mem_cons_self

theorem locks_run_of_not_mem {s : MemoryStore} {k : Bytes} {calls : List Call}
    (h : ∀ c ∈ calls, k ∉ c.keys) : (s.run calls).locks.find? k = s.locks.find? k := by
  induction calls generalizing s with
  | nil => rfl
  | cons c calls ih =>
    refine (ih fun c hc => h c (List.mem_cons_of_mem _ hc)).trans ?_
    exact (locks_exec s c k).resolve_right fun hKey => h c List.mem_cons_self hKey.1

end ShardDB.Storage
