import ShardDB.Storage.Memory

/-!
# What a call does

Two views of a store describe the effect of every call. `intent? s t k` is the value that
transaction `t` intends to write to `k`; a call changes only the intents of its own
transaction (`intent?_exec_of_ne`). `Call.installs s c` lists the versions the call puts in
the tree, with the transaction that puts them; the tree changes by these versions and by
nothing else (`tree_exec`).
-/

namespace ShardDB.Storage

open ShardDB.Lib

namespace MemoryStore

/-- No other transaction holds a lock on the key. -/
def FreeFor (s : MemoryStore) (t k : Bytes) : Prop :=
  ∀ lock, s.locks.find? k = some lock → lock.txnID = t

/-- The value transaction `t` intends to write to `k`, if it holds the lock. -/
def intent? (s : MemoryStore) (t k : Bytes) : Option Slice :=
  match s.locks.find? k with
  | some lock => if lock.txnID = t then some lock.value else none
  | none => none

theorem lockedByOther_eq_none_iff {s : MemoryStore} {k t : Bytes} :
    s.lockedByOther k t = none ↔ s.FreeFor t k := by
  unfold lockedByOther FreeFor
  cases s.locks.find? k with
  | none => simp
  | some lock => simp

instance (s : MemoryStore) (t k : Bytes) : Decidable (s.FreeFor t k) :=
  decidable_of_iff _ lockedByOther_eq_none_iff

theorem intent?_eq_some_iff {s : MemoryStore} {t k : Bytes} {v : Slice} :
    s.intent? t k = some v ↔ s.locks.find? k = some ⟨t, v⟩ := by
  unfold intent?
  cases hFind : s.locks.find? k with
  | none => simp
  | some lock =>
    obtain ⟨owner, value⟩ := lock
    by_cases hOwner : owner = t <;> simp [hOwner]

/-- Without an intent of the transaction, a lock on the key is another one's. -/
theorem owner_ne_of_intent?_none {s : MemoryStore} {t k : Bytes} (h : s.intent? t k = none)
    {lock : Lock} (hFind : s.locks.find? k = some lock) : lock.txnID ≠ t := by
  intro hOwner
  have hSome : s.intent? t k = some lock.value := by
    rw [intent?_eq_some_iff, hFind, ← hOwner]
  rw [h] at hSome
  cases hSome

/-- A key that is free for one transaction carries no intent of another. -/
theorem FreeFor.intent?_eq_none {s : MemoryStore} {t t' k : Bytes} (h : s.FreeFor t' k)
    (hne : t' ≠ t) : s.intent? t k = none := by
  cases hIntent : s.intent? t k with
  | none => rfl
  | some v => exact absurd (h _ (intent?_eq_some_iff.mp hIntent)).symm hne

/-- A transaction that owns the lock may use the key. -/
theorem freeFor_of_intent? {s : MemoryStore} {t k : Bytes} {v : Slice}
    (h : s.intent? t k = some v) : s.FreeFor t k := by
  intro lock hLock
  rw [intent?_eq_some_iff.mp h] at hLock
  cases hLock
  rfl

/-- Every transaction may use a key that is not locked. -/
theorem freeFor_of_unlocked {s : MemoryStore} {k : Bytes} (h : s.locks.find? k = none)
    (t : Bytes) : s.FreeFor t k := by
  intro lock hLock
  rw [h] at hLock
  cases hLock

/-- A key free for a transaction that has no intent on it is not locked at all. -/
theorem FreeFor.unlocked {s : MemoryStore} {t k : Bytes} (h : s.FreeFor t k)
    (hNone : s.intent? t k = none) : s.locks.find? k = none := by
  cases hFind : s.locks.find? k with
  | none => rfl
  | some lock => exact absurd (h lock hFind) (owner_ne_of_intent?_none hNone hFind)

theorem intent?_insert (s : MemoryStore) (key owner : Bytes) (v : Slice) (t k : Bytes) :
    ({ s with locks := s.locks.insert key ⟨owner, v⟩ } : MemoryStore).intent? t k =
      if k = key then (if owner = t then some v else none) else s.intent? t k := by
  simp only [intent?, SortedMap.find?_insert]
  split_ifs <;> simp_all

theorem intent?_erase (s : MemoryStore) (tree : SortedMap Bytes Slice) (key t k : Bytes) :
    (⟨tree, s.locks.erase key⟩ : MemoryStore).intent? t k =
      if k = key then none else s.intent? t k := by
  simp only [intent?, SortedMap.find?_erase]
  split_ifs <;> rfl

/-! ## Results of the calls -/

theorem prepare_of_free {s : MemoryStore} {k t : Bytes} (v : Slice) (h : s.FreeFor t k) :
    s.prepare k v t = ({ s with locks := s.locks.insert k ⟨t, v⟩ }, none) := by
  rw [prepare, lockedByOther_eq_none_iff.mpr h]

theorem prepare_of_not_free {s : MemoryStore} {k t : Bytes} (v : Slice) (h : ¬ s.FreeFor t k) :
    (s.prepare k v t).1 = s ∧ (s.prepare k v t).2 ≠ none := by
  unfold prepare
  cases hOther : s.lockedByOther k t with
  | none => exact absurd (lockedByOther_eq_none_iff.mp hOther) h
  | some err => simp

theorem prepare_ok_iff {s : MemoryStore} {k t : Bytes} {v : Slice} :
    (s.prepare k v t).2 = none ↔ s.FreeFor t k := by
  by_cases h : s.FreeFor t k
  · simp [prepare_of_free v h, h]
  · simp [(prepare_of_not_free v h).2, h]

theorem commit_of_intent {s : MemoryStore} {k t : Bytes} {v : Slice} (ts : UInt64)
    (h : s.intent? t k = some v) :
    s.commit k t ts = (⟨s.tree.insert (encodeKey k ts) v, s.locks.erase k⟩, none) := by
  simp [commit, intent?_eq_some_iff.mp h]

theorem commit_of_no_intent {s : MemoryStore} {k t : Bytes} (ts : UInt64)
    (h : s.intent? t k = none) : (s.commit k t ts).1 = s ∧ (s.commit k t ts).2 ≠ none := by
  unfold commit
  cases hFind : s.locks.find? k with
  | none => simp
  | some lock => simp [owner_ne_of_intent?_none h hFind]

theorem abort_of_intent {s : MemoryStore} {k t : Bytes} {v : Slice}
    (h : s.intent? t k = some v) : s.abort k t = ({ s with locks := s.locks.erase k }, none) := by
  simp [abort, intent?_eq_some_iff.mp h]

theorem abort_of_no_intent {s : MemoryStore} {k t : Bytes} (h : s.intent? t k = none) :
    (s.abort k t).1 = s := by
  unfold abort
  cases hFind : s.locks.find? k with
  | none => simp
  | some lock => simp [owner_ne_of_intent?_none h hFind]

theorem onePhaseCommit_of_free {s : MemoryStore} {ops : List BatchOp} {t : Bytes} (ts : UInt64)
    (h : ∀ op ∈ ops, s.FreeFor t op.key) :
    s.onePhaseCommit ops t ts = (ops.foldl (install ts) s, none) := by
  have hNone : (ops.findSome? fun op => s.lockedByOther op.key t) = none := by
    rw [List.findSome?_eq_none_iff]
    exact fun op hop => lockedByOther_eq_none_iff.mpr (h op hop)
  rw [onePhaseCommit, hNone]

theorem onePhaseCommit_of_not_free {s : MemoryStore} {ops : List BatchOp} {t : Bytes}
    (ts : UInt64) (h : ¬ ∀ op ∈ ops, s.FreeFor t op.key) :
    (s.onePhaseCommit ops t ts).1 = s ∧ (s.onePhaseCommit ops t ts).2 ≠ none := by
  unfold onePhaseCommit
  cases hOther : ops.findSome? fun op => s.lockedByOther op.key t with
  | none =>
    rw [List.findSome?_eq_none_iff] at hOther
    exact absurd (fun op hop => lockedByOther_eq_none_iff.mp (hOther op hop)) h
  | some err => simp

theorem put_of_free {s : MemoryStore} {k : Bytes} (v : Slice) (h : s.FreeFor legacyTxn k) :
    s.put k v = (⟨s.tree.insert (encodeKey k 1) v, s.locks.erase k⟩, none) := by
  have hIntent : ({ s with locks := s.locks.insert k ⟨legacyTxn, v⟩ } : MemoryStore).intent?
      legacyTxn k = some v := by
    rw [intent?_insert, if_pos rfl, if_pos rfl]
  rw [put, prepare_of_free v h]
  dsimp only
  rw [commit_of_intent 1 hIntent]
  congr 2
  ext1 k'
  rw [SortedMap.find?_erase, SortedMap.find?_erase, SortedMap.find?_insert]
  split_ifs <;> rfl

theorem put_of_not_free {s : MemoryStore} {k : Bytes} (v : Slice) (h : ¬ s.FreeFor legacyTxn k) :
    (s.put k v).1 = s ∧ (s.put k v).2 ≠ none := by
  obtain ⟨hSame, hErr⟩ := prepare_of_not_free v h
  unfold put
  generalize s.prepare k v legacyTxn = r at hSame hErr
  obtain ⟨s', err⟩ := r
  cases err with
  | none => exact absurd rfl hErr
  | some e => exact ⟨hSame, by simp⟩

/-! ## The commit loop of `OnePhaseCommit` -/

theorem locks_foldl_install (ts : UInt64) (s : MemoryStore) (ops : List BatchOp) (k : Bytes) :
    (ops.foldl (install ts) s).locks.find? k =
      if k ∈ ops.map BatchOp.key then none else s.locks.find? k := by
  induction ops generalizing s with
  | nil => rfl
  | cons op rest ih =>
    rw [List.foldl_cons, ih, List.map_cons]
    by_cases hRest : k ∈ rest.map BatchOp.key
    · rw [if_pos hRest, if_pos (List.mem_cons_of_mem _ hRest)]
    · rw [if_neg hRest]
      by_cases hk : k = op.key
      · rw [if_pos (hk ▸ List.mem_cons_self), hk]
        exact SortedMap.find?_erase_self _ _
      · rw [if_neg (by simp [hk, hRest])]
        exact SortedMap.find?_erase_of_ne _ hk

theorem intent?_foldl_install (ts : UInt64) (s : MemoryStore) (ops : List BatchOp)
    (t k : Bytes) :
    (ops.foldl (install ts) s).intent? t k =
      if k ∈ ops.map BatchOp.key then none else s.intent? t k := by
  unfold intent?
  rw [locks_foldl_install]
  split_ifs <;> rfl

end MemoryStore

/-! ## Versions put in the tree -/

/-- A version put in the tree, with the transaction that put it there. -/
structure Install where
  txnID : Bytes
  key : Bytes
  ts : UInt64
  value : Slice
  deriving DecidableEq, Repr

/-- Put versions in a tree, one after another. -/
def putVersions (tree : SortedMap Bytes Slice) (l : List Install) : SortedMap Bytes Slice :=
  l.foldl (fun tree i => tree.insert (encodeKey i.key i.ts) i.value) tree

theorem putVersions_append (tree : SortedMap Bytes Slice) (l l' : List Install) :
    putVersions tree (l ++ l') = putVersions (putVersions tree l) l' :=
  List.foldl_append

/-- A version in the tree is the last one put under its version key, or an old one. -/
theorem find?_putVersions_eq (tree : SortedMap Bytes Slice) (l : List Install) (j : Bytes) :
    (putVersions tree l).find? j =
      (SortedMap.lastBinding (l.map fun i => (encodeKey i.key i.ts, i.value)) j).or (tree.find? j) := by
  rw [← SortedMap.find?_insertAll, SortedMap.insertAll, List.foldl_map]
  rfl

/-- The versions a call puts in the tree. -/
def Call.installs (s : MemoryStore) : Call → List Install
  | .prepare _ _ _ => []
  | .commit key txnID commitTs =>
    match s.intent? txnID key with
    | some value => [⟨txnID, key, commitTs, value⟩]
    | none => []
  | .abort _ _ => []
  | .onePhaseCommit ops txnID commitTs =>
    if ∀ op ∈ ops, s.FreeFor txnID op.key then
      ops.map fun op => ⟨txnID, op.key, commitTs, op.value⟩
    else []
  | .put key value =>
    if s.FreeFor MemoryStore.legacyTxn key then [⟨MemoryStore.legacyTxn, key, 1, value⟩] else []

theorem tree_foldl_install (t : Bytes) (ts : UInt64) (s : MemoryStore) (ops : List BatchOp) :
    (ops.foldl (MemoryStore.install ts) s).tree =
      putVersions s.tree (ops.map fun op => ⟨t, op.key, ts, op.value⟩) := by
  induction ops generalizing s with
  | nil => rfl
  | cons op rest ih =>
    rw [List.foldl_cons, ih]
    rfl

/-- The tree changes by the installed versions and by nothing else. -/
theorem tree_exec (s : MemoryStore) (c : Call) :
    (c.exec s).1.tree = putVersions s.tree (c.installs s) := by
  cases c with
  | prepare key value t =>
    by_cases h : s.FreeFor t key
    · rw [Call.exec, MemoryStore.prepare_of_free value h]
      rfl
    · rw [Call.exec, (MemoryStore.prepare_of_not_free value h).1]
      rfl
  | commit key t ts =>
    cases h : s.intent? t key with
    | none =>
      rw [Call.exec, (MemoryStore.commit_of_no_intent ts h).1, Call.installs, h]
      rfl
    | some v =>
      rw [Call.exec, MemoryStore.commit_of_intent ts h, Call.installs, h]
      rfl
  | abort key t =>
    cases h : s.intent? t key with
    | none =>
      rw [Call.exec, MemoryStore.abort_of_no_intent h]
      rfl
    | some v =>
      rw [Call.exec, MemoryStore.abort_of_intent h]
      rfl
  | onePhaseCommit ops t ts =>
    by_cases h : ∀ op ∈ ops, s.FreeFor t op.key
    · rw [Call.exec, MemoryStore.onePhaseCommit_of_free ts h, Call.installs, if_pos h]
      exact tree_foldl_install t ts s ops
    · rw [Call.exec, (MemoryStore.onePhaseCommit_of_not_free ts h).1, Call.installs, if_neg h]
      rfl
  | put key value =>
    by_cases h : s.FreeFor MemoryStore.legacyTxn key
    · rw [Call.exec, MemoryStore.put_of_free value h, Call.installs, if_pos h]
      rfl
    · rw [Call.exec, (MemoryStore.put_of_not_free value h).1, Call.installs, if_neg h]
      rfl

/-- The calls that install a version. -/
theorem installs_cases {s : MemoryStore} {c : Call} {i : Install} (h : i ∈ c.installs s) :
    c = .commit i.key i.txnID i.ts ∨
      (∃ ops, c = .onePhaseCommit ops i.txnID i.ts ∧ i.key ∈ ops.map BatchOp.key) ∨
      ∃ value, c = .put i.key value ∧ i.txnID = MemoryStore.legacyTxn ∧ i.ts = 1 := by
  cases c with
  | prepare key value t => cases h
  | commit key t ts =>
    simp only [Call.installs] at h
    split at h
    · rw [List.mem_singleton.mp h]
      exact Or.inl rfl
    · cases h
  | abort key t => cases h
  | onePhaseCommit ops t ts =>
    simp only [Call.installs] at h
    split_ifs at h
    · obtain ⟨op, hop, rfl⟩ := List.mem_map.mp h
      exact Or.inr (Or.inl ⟨ops, rfl, List.mem_map_of_mem hop⟩)
    · cases h
  | put key value =>
    simp only [Call.installs] at h
    split_ifs at h
    · rw [List.mem_singleton.mp h]
      exact Or.inr (Or.inr ⟨value, rfl, rfl, rfl⟩)
    · cases h

/-- A version is installed only for the transaction of the call. -/
theorem txnID_of_mem_installs {s : MemoryStore} {c : Call} {i : Install}
    (h : i ∈ c.installs s) : i.txnID = c.txnID := by
  rcases installs_cases h with rfl | ⟨ops, rfl, -⟩ | ⟨value, rfl, hTxn, -⟩
  · rfl
  · rfl
  · exact hTxn

/-- The timestamp at which a call commits. -/
def Call.ts? : Call → Option UInt64
  | .commit _ _ ts => some ts
  | .onePhaseCommit _ _ ts => some ts
  | .put _ _ => some 1
  | _ => none

/-- A version is installed only at the timestamp of the call. -/
theorem ts?_of_mem_installs {s : MemoryStore} {c : Call} {i : Install}
    (h : i ∈ c.installs s) : c.ts? = some i.ts := by
  rcases installs_cases h with rfl | ⟨ops, rfl, -⟩ | ⟨value, rfl, -, hTs⟩
  · rfl
  · rfl
  · rw [hTs]
    rfl

/-! ## The versions of a run -/

/-- The versions a run of calls puts in the tree, in order. -/
def MemoryStore.runInstalls (s : MemoryStore) : List Call → List Install
  | [] => []
  | c :: calls => c.installs s ++ (c.exec s).1.runInstalls calls

theorem mem_runInstalls {s : MemoryStore} {calls : List Call} {i : Install}
    (h : i ∈ s.runInstalls calls) : ∃ c ∈ calls, ∃ s' : MemoryStore, i ∈ c.installs s' := by
  induction calls generalizing s with
  | nil => cases h
  | cons c calls ih =>
    rcases List.mem_append.mp h with h | h
    · exact ⟨c, List.mem_cons_self, s, h⟩
    · obtain ⟨c', hc', hi⟩ := ih h
      exact ⟨c', List.mem_cons_of_mem _ hc', hi⟩

theorem tree_run (s : MemoryStore) (calls : List Call) :
    (s.run calls).tree = putVersions s.tree (s.runInstalls calls) := by
  induction calls generalizing s with
  | nil => rfl
  | cons c calls ih =>
    rw [MemoryStore.runInstalls, putVersions_append, ← tree_exec]
    exact ih _

theorem MemoryStore.runInstalls_append (s : MemoryStore) (calls calls' : List Call) :
    s.runInstalls (calls ++ calls') = s.runInstalls calls ++ (s.run calls).runInstalls calls' := by
  induction calls generalizing s with
  | nil => rfl
  | cons c calls ih =>
    rw [List.cons_append, runInstalls, runInstalls, ih, List.append_assoc]
    rfl

/-- The versions installed for a transaction. -/
def installsOf (t : Bytes) (history : List Install) : List Install :=
  history.filter fun i => i.txnID = t

theorem mem_installsOf {t : Bytes} {history : List Install} {i : Install} :
    i ∈ installsOf t history ↔ i ∈ history ∧ i.txnID = t := by
  simp [installsOf]

theorem installsOf_append (t : Bytes) (l l' : List Install) :
    installsOf t (l ++ l') = installsOf t l ++ installsOf t l' := List.filter_append ..

theorem installsOf_installs_of_ne {t : Bytes} {c : Call} (h : c.txnID ≠ t) (s : MemoryStore) :
    installsOf t (c.installs s) = [] := by
  rw [installsOf, List.filter_eq_nil_iff]
  intro i hi
  simpa [txnID_of_mem_installs hi] using h

theorem installsOf_installs_self {t : Bytes} {c : Call} (h : c.txnID = t) (s : MemoryStore) :
    installsOf t (c.installs s) = c.installs s := by
  rw [installsOf, List.filter_eq_self]
  intro i hi
  simpa [txnID_of_mem_installs hi] using h

/-! ## The intents of other transactions -/

/-- A call leaves the intents of every other transaction as they are. -/
theorem intent?_exec_of_ne {s : MemoryStore} {c : Call} {t : Bytes} (h : c.txnID ≠ t)
    (k : Bytes) : (c.exec s).1.intent? t k = s.intent? t k := by
  cases c with
  | prepare key value t' =>
    by_cases hFree : s.FreeFor t' key
    · rw [Call.exec, MemoryStore.prepare_of_free value hFree, MemoryStore.intent?_insert]
      split_ifs with hk ht
      · exact absurd ht h
      · rw [hk, hFree.intent?_eq_none h]
      · rfl
    · rw [Call.exec, (MemoryStore.prepare_of_not_free value hFree).1]
  | commit key t' ts =>
    cases hIntent : s.intent? t' key with
    | none => rw [Call.exec, (MemoryStore.commit_of_no_intent ts hIntent).1]
    | some v =>
      rw [Call.exec, MemoryStore.commit_of_intent ts hIntent, MemoryStore.intent?_erase]
      split_ifs with hk
      · rw [hk, (MemoryStore.freeFor_of_intent? hIntent).intent?_eq_none h]
      · rfl
  | abort key t' =>
    cases hIntent : s.intent? t' key with
    | none => rw [Call.exec, MemoryStore.abort_of_no_intent hIntent]
    | some v =>
      rw [Call.exec, MemoryStore.abort_of_intent hIntent, MemoryStore.intent?_erase]
      split_ifs with hk
      · rw [hk, (MemoryStore.freeFor_of_intent? hIntent).intent?_eq_none h]
      · rfl
  | onePhaseCommit ops t' ts =>
    by_cases hFree : ∀ op ∈ ops, s.FreeFor t' op.key
    · rw [Call.exec, MemoryStore.onePhaseCommit_of_free ts hFree,
        MemoryStore.intent?_foldl_install]
      split_ifs with hk
      · obtain ⟨op, hop, rfl⟩ := List.mem_map.mp hk
        exact ((hFree op hop).intent?_eq_none h).symm
      · rfl
    · rw [Call.exec, (MemoryStore.onePhaseCommit_of_not_free ts hFree).1]
  | put key value =>
    by_cases hFree : s.FreeFor MemoryStore.legacyTxn key
    · rw [Call.exec, MemoryStore.put_of_free value hFree, MemoryStore.intent?_erase]
      split_ifs with hk
      · rw [hk, hFree.intent?_eq_none h]
      · rfl
    · rw [Call.exec, (MemoryStore.put_of_not_free value hFree).1]

/-! ## The intents of the calling transaction -/

theorem intent?_prepare_of_free {s : MemoryStore} {t k : Bytes} (v : Slice) (h : s.FreeFor t k)
    (k' : Bytes) :
    (s.prepare k v t).1.intent? t k' = if k' = k then some v else s.intent? t k' := by
  rw [MemoryStore.prepare_of_free v h, MemoryStore.intent?_insert, if_pos rfl]

/-- After `Commit`, successful or not, the transaction has no intent on the key. -/
theorem intent?_commit (s : MemoryStore) (t k : Bytes) (ts : UInt64) (k' : Bytes) :
    (s.commit k t ts).1.intent? t k' = if k' = k then none else s.intent? t k' := by
  cases h : s.intent? t k with
  | none =>
    rw [(MemoryStore.commit_of_no_intent ts h).1]
    split_ifs with hk
    · rw [hk, h]
    · rfl
  | some v => rw [MemoryStore.commit_of_intent ts h, MemoryStore.intent?_erase]

/-- After `Abort`, successful or not, the transaction has no intent on the key. -/
theorem intent?_abort (s : MemoryStore) (t k k' : Bytes) :
    (s.abort k t).1.intent? t k' = if k' = k then none else s.intent? t k' := by
  cases h : s.intent? t k with
  | none =>
    rw [MemoryStore.abort_of_no_intent h]
    split_ifs with hk
    · rw [hk, h]
    · rfl
  | some v => rw [MemoryStore.abort_of_intent h, MemoryStore.intent?_erase]

/-- `OnePhaseCommit` creates no intent. -/
theorem intent?_onePhaseCommit_eq_none {s : MemoryStore} {t k : Bytes} (ops : List BatchOp)
    (ts : UInt64) (h : s.intent? t k = none) :
    (s.onePhaseCommit ops t ts).1.intent? t k = none := by
  by_cases hFree : ∀ op ∈ ops, s.FreeFor t op.key
  · rw [MemoryStore.onePhaseCommit_of_free ts hFree, MemoryStore.intent?_foldl_install, h]
    exact ite_self none
  · rw [(MemoryStore.onePhaseCommit_of_not_free ts hFree).1, h]

end ShardDB.Storage
