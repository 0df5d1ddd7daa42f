import ShardDB.Lib.MultiVersion
import ShardDB.Lib.Simulation
import ShardDB.Storage.GcRuns
import ShardDB.Storage.View

/-!
# The engine as a multi-version map

What the engine is for: a map from keys to versions by timestamp, with one intent per key
(`MultiVersion`). `MemoryStore.versions` forgets how versions are kept in the tree. The mutating
calls commute with it whatever the keys are (`versions_call`). Reads and collections do so as long
as the versions of a key are neighbours in the tree, and that is the case if no key in use is a
proper prefix of another one (`PrefixFree.apart`).

So on prefix-free keys nobody can tell the engine from the map: every sequence of requests gets
the same replies, and the versions and intents are the same at the end
(`engine_refines_multiVersion`).
-/

namespace ShardDB.Storage

open ShardDB.Lib

/-! ## Requests -/

/-- A call of the engine, of a mutating method or of `GetTxn` or `RunGC`. -/
inductive Request where
  | call (c : Call)
  | getTxn (key : Bytes) (readTs : UInt64)
  | runGC (safeTs : UInt64)
  deriving DecidableEq, Repr

/-- What the caller learns. The texts of errors are left out. -/
inductive Reply where
  | done
  | refused
  | value (v : Slice)
  | deleted (n : Nat)
  deriving DecidableEq, Repr

namespace Request

def keys : Request → List Bytes
  | call c => c.keys
  | getTxn key _ => [key]
  | runGC _ => []

def exec (s : MemoryStore) : Request → MemoryStore × Reply
  | call c => ((c.exec s).1, if (c.exec s).2 = none then .done else .refused)
  | getTxn key readTs =>
    match s.getTxn key readTs with
    | .ok v => (s, .value v)
    | .error _ => (s, .refused)
  | runGC safeTs => ((s.runGC safeTs).1, .deleted (s.runGC safeTs).2)

end Request

/-! ## The specification -/

abbrev Versions := MultiVersion Bytes UInt64 Slice Bytes

def granted (r : Versions × Bool) : Versions × Reply := (r.1, if r.2 then .done else .refused)

noncomputable def Call.spec (m : Versions) : Call → Versions × Bool
  | .prepare key value txnID => m.prepare key value txnID
  | .commit key txnID commitTs => m.commit key txnID commitTs
  | .abort key txnID => m.abort key txnID
  | .onePhaseCommit ops txnID commitTs =>
    m.commitAll (ops.map fun op => (op.key, op.value)) txnID commitTs
  | .put key value => m.commitAll [(key, value)] MemoryStore.legacyTxn 1

/-- A read of a key that carries an intent is refused, and a key without a visible version reads
as nil. -/
noncomputable def Request.spec (m : Versions) : Request → Versions × Reply
  | call c => granted (c.spec m)
  | getTxn key readTs =>
    match m.intent key with
    | none => (m, .value ((m.read key readTs).getD none))
    | some _ => (m, .refused)
  | runGC safeTs => ((m.collect safeTs).1, .deleted (m.collect safeTs).2)

/-! ## The view of a store -/

/-- The versions and intents of a store. -/
def MemoryStore.versions (s : MemoryStore) : Versions where
  version key ts := s.tree.find? (encodeKey key ts)
  intent key := (s.locks.find? key).map fun lock => (lock.txnID, lock.value)

namespace MemoryStore

variable {s : MemoryStore} {t k : Bytes} {v : Slice}

theorem versions_freeFor : s.versions.FreeFor t k ↔ s.FreeFor t k := by
  simp [MultiVersion.FreeFor, FreeFor, versions]

theorem versions_intent_of_intent? (h : s.intent? t k = some v) :
    s.versions.intent k = some (t, v) := by
  simp only [versions, intent?_eq_some_iff.mp h, Option.map_some]

theorem versions_install (ts : UInt64) (s : MemoryStore) (op : BatchOp) :
    (install ts s op).versions = s.versions.install ts (op.key, op.value) := by
  apply MultiVersion.ext
  · funext k u
    simp only [versions, install, MultiVersion.install, SortedMap.find?_insert]
    by_cases hSame : k = op.key ∧ u = ts
    · rw [if_pos hSame, hSame.1, hSame.2, if_pos rfl]
    · rw [if_neg hSame, if_neg fun hKey => hSame (encodeKey_inj hKey)]
  · funext k
    simp only [versions, install, MultiVersion.install, MultiVersion.setIntent,
      SortedMap.find?_erase]
    split_ifs <;> rfl

theorem versions_foldl_install (ts : UInt64) (s : MemoryStore) (ops : List BatchOp) :
    (ops.foldl (install ts) s).versions =
      (ops.map fun op => (op.key, op.value)).foldl (MultiVersion.install ts) s.versions := by
  induction ops generalizing s with
  | nil => rfl
  | cons op ops ih => rw [List.foldl_cons, ih, versions_install, List.map_cons, List.foldl_cons]

theorem versions_insert (s : MemoryStore) (k t : Bytes) (v : Slice) :
    ({ s with locks := s.locks.insert k ⟨t, v⟩ } : MemoryStore).versions =
      s.versions.setIntent k (some (t, v)) := by
  apply MultiVersion.ext
  · rfl
  · funext k'
    simp only [versions, MultiVersion.setIntent, SortedMap.find?_insert]
    split_ifs <;> rfl

theorem versions_erase (s : MemoryStore) (k : Bytes) :
    ({ s with locks := s.locks.erase k } : MemoryStore).versions =
      s.versions.setIntent k none := by
  apply MultiVersion.ext
  · rfl
  · funext k'
    simp only [versions, MultiVersion.setIntent, SortedMap.find?_erase]
    split_ifs <;> rfl

/-- A mutating call does to the versions and intents what the specification says, and it fails
exactly when that refuses it. -/
theorem versions_call (s : MemoryStore) (c : Call) :
    ((c.exec s).1.versions, decide ((c.exec s).2 = none)) = c.spec s.versions := by
  cases c with
  | prepare key value t =>
    rw [Call.exec, Call.spec, MultiVersion.prepare]
    by_cases hFree : s.FreeFor t key
    · rw [if_pos (versions_freeFor.mpr hFree), prepare_of_free value hFree, versions_insert]
      rfl
    · obtain ⟨hSame, hError⟩ := prepare_of_not_free value hFree
      rw [if_neg (mt versions_freeFor.mp hFree), hSame, decide_eq_false hError]
  | commit key t ts =>
    rw [Call.exec, Call.spec, MultiVersion.commit]
    cases hIntent : s.intent? t key with
    | some v =>
      rw [versions_intent_of_intent? hIntent, commit_of_intent ts hIntent]
      simp only [if_true]
      rw [← versions_install ts s ⟨key, v⟩]
      rfl
    | none =>
      obtain ⟨hSame, hError⟩ := commit_of_no_intent ts hIntent
      rw [hSame, decide_eq_false hError]
      cases hLock : s.locks.find? key with
      | none => simp [versions, hLock]
      | some lock => simp [versions, hLock, owner_ne_of_intent?_none hIntent hLock]
  | abort key t =>
    rw [Call.exec, Call.spec, MultiVersion.abort]
    cases hIntent : s.intent? t key with
    | some v =>
      rw [versions_intent_of_intent? hIntent, abort_of_intent hIntent, versions_erase]
      simp
    | none =>
      cases hLock : s.locks.find? key with
      | none => simp [versions, MemoryStore.abort, hLock]
      | some lock =>
        simp [versions, MemoryStore.abort, hLock, owner_ne_of_intent?_none hIntent hLock]
  | onePhaseCommit ops t ts =>
    have hFree : (∀ p ∈ ops.map fun op => (op.key, op.value), s.versions.FreeFor t p.1) ↔
        ∀ op ∈ ops, s.FreeFor t op.key := by
      simp [versions_freeFor]
    rw [Call.exec, Call.spec, MultiVersion.commitAll]
    by_cases hAll : ∀ op ∈ ops, s.FreeFor t op.key
    · rw [if_pos (hFree.mpr hAll), onePhaseCommit_of_free ts hAll, versions_foldl_install]
      rfl
    · obtain ⟨hSame, hError⟩ := onePhaseCommit_of_not_free ts hAll
      rw [if_neg (mt hFree.mp hAll), hSame, decide_eq_false hError]
  | put key value =>
    rw [Call.exec, Call.spec, MultiVersion.commitAll]
    by_cases hFree : s.FreeFor legacyTxn key
    · rw [if_pos (by simpa [versions_freeFor] using hFree), put_of_free value hFree]
      exact Prod.ext (versions_install 1 s ⟨key, value⟩) rfl
    · obtain ⟨hSame, hError⟩ := put_of_not_free value hFree
      rw [if_neg (by simpa [versions_freeFor] using hFree), hSame, decide_eq_false hError]

end MemoryStore

/-! ## Prefix-free keys -/

/-- No key is a proper prefix of another one. -/
def PrefixFree (keys : Set Bytes) : Prop := ∀ k ∈ keys, ∀ k' ∈ keys, k <+: k' → k = k'

/-- The versions of two such keys do not mix in the tree. -/
theorem PrefixFree.apart {keys : Set Bytes} (h : PrefixFree keys) {k k' : Bytes} (hk : k ∈ keys)
    (hk' : k' ∈ keys) (hNe : k ≠ k') {t t' : UInt64} (hLe : encodeKey k t ≤ encodeKey k' t')
    (u u' : UInt64) : encodeKey k u < encodeKey k' u' := by
  rcases le_total k k' with hOrder | hOrder
  · rcases prefix_or_append_lt_of_le hOrder with hPrefix | hLt
    · exact absurd (h k hk k' hk' hPrefix) hNe
    · exact hLt _ _
  · rcases prefix_or_append_lt_of_le hOrder with hPrefix | hLt
    · exact absurd (h k' hk' k hk hPrefix).symm hNe
    · exact absurd (hLt _ _) (not_lt.mpr hLe)

/-- The store holds versions of the given keys only. -/
structure StoresOnly (keys : Set Bytes) (s : MemoryStore) : Prop where
  encoded : MemoryStore.Encoded s.tree
  mem : ∀ key ts v, s.HasVersion key ts v → key ∈ keys

section Requests

variable {keys : Set Bytes} {s : MemoryStore} (hFree : PrefixFree keys)
  (hStores : StoresOnly keys s)

theorem StoresOnly.call {c : Call} (h : StoresOnly keys s) (hKeys : ∀ k ∈ c.keys, k ∈ keys) :
    StoresOnly keys (c.exec s).1 where
  encoded := by
    rw [tree_exec]
    exact MemoryStore.encoded_putVersions h.encoded _
  mem key ts v hVersion := by
    rw [MemoryStore.HasVersion, tree_exec] at hVersion
    rcases MemoryStore.find?_putVersions hVersion with ⟨i, hi, hKey, -⟩ | hOld
    · rw [(encodeKey_inj hKey).1]
      exact hKeys _ (key_of_mem_installs hi)
    · exact h.mem key ts v hOld

theorem StoresOnly.runGC (h : StoresOnly keys s) (safeTs : UInt64) :
    StoresOnly keys (s.runGC safeTs).1 where
  encoded := MemoryStore.encoded_runGC h.encoded safeTs
  mem key ts v hVersion := h.mem key ts v (MemoryStore.hasVersion_runGC.mp hVersion).1

include hFree hStores

theorem not_shadowed {key : Bytes} (hKey : key ∈ keys) {readTs : UInt64}
    (hVisible : s.Visible key readTs) : ¬ s.Shadowed key readTs := by
  rintro ⟨key', t, w, hNe, hVersion, hSeek, hBefore⟩
  obtain ⟨c, v, hc, hOwn⟩ := hVisible
  have hLt := hFree.apart hKey (hStores.mem key' t w hVersion) hNe.symm hSeek c t
  exact lt_asymm hLt (hBefore c v hc hOwn)

/-- A read of an unlocked key returns the newest visible version, or nil if there is none. -/
theorem getTxn_eq_read {key : Bytes} (hKey : key ∈ keys) (readTs : UInt64)
    (hUnlocked : s.locks.find? key = none) :
    s.getTxn key readTs = .ok ((s.versions.read key readTs).getD none) := by
  by_cases hVisible : s.Visible key readTs
  · obtain ⟨v, hGet⟩ := (hVisible.found_iff hStores.encoded).mpr
      (not_shadowed hFree hStores hKey hVisible)
    obtain ⟨ts, -, hFirst⟩ := MemoryStore.mvccGetLocked_eq_iff.mp hGet
    have hNewest : s.versions.Newest key readTs ts v := hFirst.newestUpTo
    rw [MemoryStore.getTxn_of_found hUnlocked hGet, MultiVersion.read_of_newest hNewest]
    rfl
  · have hNone : s.versions.read key readTs = none :=
      MultiVersion.read_of_none fun u v hNewest => hVisible ⟨u, v, hNewest.1, hNewest.2.1⟩
    have hMissed : ∀ v, s.lookupAt (encodeKey key readTs) key ≠ (v, true) := by
      intro v hFound
      obtain ⟨ts, hTs, hVersion, -⟩ := (MemoryStore.lookupAt_eq_iff le_rfl).mp hFound
      exact hVisible ⟨ts, v, hTs, hVersion⟩
    rw [MemoryStore.getTxn_eq hUnlocked, MemoryStore.lookupAt_of_not_found hMissed, hNone]
    rfl

/-- The collection takes every superseded version. -/
theorem garbage_iff_superseded {key : Bytes} {ts safeTs : UInt64} {v : Slice}
    (hVersion : s.HasVersion key ts v) :
    encodeKey key ts ∈ s.garbage safeTs ↔ s.versions.Superseded safeTs key ts := by
  rw [MemoryStore.mem_garbage_iff hStores.encoded hVersion]
  constructor
  · rintro ⟨ts', v', hNewer, hSafe, hVersion', -⟩
    exact ⟨ts', v', hNewer, hSafe, hVersion'⟩
  · rintro ⟨ts', v', hNewer, hSafe, hVersion'⟩
    refine ⟨ts', v', hNewer, hSafe, hVersion', ?_⟩
    -- a version of another key between the two would have to be on one side of both
    intro key' t w hOther hAfter hBefore
    by_contra hNe
    have hLt := hFree.apart (hStores.mem _ _ _ hVersion) (hStores.mem _ _ _ hOther) (Ne.symm hNe)
      hAfter.le ts t
    exact lt_asymm hLt hBefore

theorem versions_runGC (safeTs : UInt64) :
    ((s.runGC safeTs).1.versions, (s.runGC safeTs).2) = s.versions.collect safeTs := by
  have hGarbage := @garbage_iff_superseded keys s hFree hStores
  apply Prod.ext
  · apply MultiVersion.ext
    · funext key ts
      apply Option.ext
      intro v
      have hKept := @MemoryStore.hasVersion_runGC s safeTs key ts v
      have hView (s : MemoryStore) : s.versions.version key ts = some v ↔ s.HasVersion key ts v :=
        Iff.rfl
      rw [hView, hKept]
      simp only [MultiVersion.collect]
      split_ifs with hSuper
      · simp only [iff_false, not_and, not_not]
        exact fun hVersion => (hGarbage hVersion).mpr hSuper
      · rw [hView]
        exact and_iff_left_of_imp fun hVersion => mt (hGarbage hVersion).mp hSuper
    · rfl
  · have hSet : (fun p : Bytes × UInt64 => encodeKey p.1 p.2) ''
        {p | s.versions.version p.1 p.2 ≠ none ∧ s.versions.Superseded safeTs p.1 p.2} =
        ((s.garbage safeTs).toFinset : Set Bytes) := by
      ext j
      simp only [Set.mem_image, Set.mem_ofPred_eq, List.coe_toFinset]
      constructor
      · rintro ⟨⟨key, ts⟩, ⟨hSome, hSuper⟩, rfl⟩
        obtain ⟨v, hVersion⟩ := Option.ne_none_iff_exists'.mp hSome
        exact (hGarbage hVersion).mpr hSuper
      · intro hj
        obtain ⟨v, hFind⟩ := MemoryStore.mem_keys_iff.mp ((s.garbage_invariant safeTs).1.subset hj)
        obtain ⟨key, ts, rfl⟩ := hStores.encoded j v hFind
        exact ⟨(key, ts), ⟨Option.ne_none_iff_exists'.mpr ⟨v, hFind⟩, (hGarbage hFind).mp hj⟩, rfl⟩
    have hInj : Function.Injective fun p : Bytes × UInt64 => encodeKey p.1 p.2 :=
      fun p q h => Prod.ext (encodeKey_inj h).1 (encodeKey_inj h).2
    have hNodup : (s.garbage safeTs).Nodup :=
      (List.pairwise_map.mpr (s.tree.sorted.imp fun hLt => hLt.ne)).sublist
        (s.garbage_invariant safeTs).1
    rw [MemoryStore.runGC_snd]
    simp only [MultiVersion.collect]
    rw [← Set.ncard_image_of_injective _ hInj, hSet, Set.ncard_coe_finset,
      List.toFinset_card_of_nodup hNodup]

end Requests

/-! ## Runs -/

/-- The store is seen as the given map, and it holds versions of the given keys only. -/
def Represents (keys : Set Bytes) (s : MemoryStore) (m : Versions) : Prop :=
  s.versions = m ∧ StoresOnly keys s

theorem simulates_exec {keys : Set Bytes} (hFree : PrefixFree keys) :
    Simulates Request.exec Request.spec (Represents keys) fun r => ∀ k ∈ r.keys, k ∈ keys := by
  rintro s m r ⟨rfl, hStores⟩ hKeys
  cases r with
  | call c =>
    have hSpec := MemoryStore.versions_call s c
    refine ⟨⟨congrArg Prod.fst hSpec, hStores.call hKeys⟩, ?_⟩
    rw [Request.exec, Request.spec, granted, ← hSpec]
    simp only [decide_eq_true_eq]
  | getTxn key readTs =>
    simp only [Request.exec, Request.spec]
    cases hLock : s.locks.find? key with
    | none =>
      have hIntent : s.versions.intent key = none := by
        simp only [MemoryStore.versions, hLock, Option.map_none]
      rw [getTxn_eq_read hFree hStores (hKeys key List.mem_cons_self) readTs hLock, hIntent]
      exact ⟨⟨rfl, hStores⟩, rfl⟩
    | some lock =>
      have hIntent : s.versions.intent key = some (lock.txnID, lock.value) := by
        simp only [MemoryStore.versions, hLock, Option.map_some]
      rw [MemoryStore.getTxn, hLock, hIntent]
      exact ⟨⟨rfl, hStores⟩, rfl⟩
  | runGC safeTs =>
    have hSpec := versions_runGC hFree hStores safeTs
    refine ⟨⟨congrArg Prod.fst hSpec, hStores.runGC safeTs⟩, ?_⟩
    rw [Request.exec, Request.spec, ← hSpec]

/-- On prefix-free keys the engine is a multi-version map with intents: a sequence of requests,
started on an empty store, gets the replies of the map, and in the end the store holds the
versions and intents of the map. -/
theorem engine_refines_multiVersion {keys : Set Bytes} (hFree : PrefixFree keys)
    (requests : List Request) (hKeys : ∀ r ∈ requests, ∀ k ∈ r.keys, k ∈ keys) :
    trace Request.exec newMemoryStore requests =
        trace Request.spec MultiVersion.empty requests ∧
      (runOps Request.exec newMemoryStore requests).versions =
        runOps Request.spec MultiVersion.empty requests := by
  have hStart : Represents keys newMemoryStore MultiVersion.empty := by
    refine ⟨rfl, ?_, ?_⟩
    · intro j v hFind
      cases hFind
    · intro key ts v hVersion
      cases hVersion
  obtain ⟨hEnd, hTrace⟩ := (simulates_exec hFree).run hStart hKeys
  exact ⟨hTrace, hEnd.1⟩

/-- Two keys of one letter: a commit, a read, a lock, a refused read and a collection. -/
theorem engine_refines_two_keys :
    let requests : List Request :=
      [.call (.put (ascii "a") (some (ascii "1"))), .getTxn (ascii "a") 5,
        .call (.prepare (ascii "b") (some (ascii "2")) (ascii "x")), .getTxn (ascii "b") 5,
        .runGC 7]
    trace Request.spec MultiVersion.empty requests =
      requests.zip [.done, .value (some (ascii "1")), .done, .refused, .deleted 0] := by
  have hFree : PrefixFree {ascii "a", ascii "b"} := by
    rintro k (rfl | rfl) k' (rfl | rfl) hPrefix
    · rfl
    · exact absurd hPrefix (by decide)
    · exact absurd hPrefix (by decide)
    · rfl
  exact (engine_refines_multiVersion hFree _ (by decide)).1.symm.trans (by decide)

end ShardDB.Storage
