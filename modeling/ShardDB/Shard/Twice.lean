import ShardDB.Shard.Entry
import ShardDB.Storage.OnePhase

/-!
# Entries that are applied twice

A node that restarts may apply an entry of its log again. In a row this is harmless for every
kind of entry, from every store and whatever the first application did to the locks
(`apply_apply`). Each engine call is idempotent (`exec_exec`): one that fails changes nothing, a
`COMMIT` or `ABORT` that succeeds leaves no lock for the second one, and what writes versions
writes the same versions again. The two calls of an insert are one batch.
-/

namespace ShardDB.Storage

open ShardDB.Lib

theorem putVersions_putVersions (tree : SortedMap Bytes Slice) (l : List Install) :
    putVersions (putVersions tree l) l = putVersions tree l := by
  ext1 j
  rw [find?_putVersions_eq, find?_putVersions_eq]
  generalize SortedMap.lastBinding (l.map fun i => (encodeKey i.key i.ts, i.value)) j = last
  cases last <;> rfl

/-- A batch that is written again. -/
theorem foldl_install_twice (ts : UInt64) (s : MemoryStore) (ops : List BatchOp) :
    ops.foldl (MemoryStore.install ts) (ops.foldl (MemoryStore.install ts) s) =
      ops.foldl (MemoryStore.install ts) s := by
  refine MemoryStore.ext ?_ ?_
  · rw [tree_foldl_install [], tree_foldl_install [], putVersions_putVersions]
  · ext1 k
    rw [MemoryStore.locks_foldl_install, MemoryStore.locks_foldl_install]
    split_ifs <;> rfl

/-- A call made twice in a row leaves the store as the first one does. -/
theorem exec_exec (s : MemoryStore) (c : Call) : (c.exec (c.exec s).1).1 = (c.exec s).1 := by
  have hUnchanged : (c.exec s).1 = s → (c.exec (c.exec s).1).1 = (c.exec s).1 := by
    intro hSame
    rw [hSame, hSame]
  cases c with
  | prepare key value t =>
    by_cases hFree : s.FreeFor t key
    · have hAgain := freeFor_exec hFree (c := .prepare key value t) rfl
      simp only [Call.exec, MemoryStore.prepare_of_free value hFree] at hAgain ⊢
      rw [MemoryStore.prepare_of_free value hAgain, SortedMap.insert_insert_self]
    · exact hUnchanged (MemoryStore.prepare_of_not_free value hFree).1
  | commit key t ts =>
    cases hIntent : s.intent? t key with
    | some v =>
      -- the lock is gone, so the second call fails
      simp only [Call.exec, MemoryStore.commit_of_intent ts hIntent]
      exact (MemoryStore.commit_of_no_intent ts (by simp [MemoryStore.intent?])).1
    | none => exact hUnchanged (MemoryStore.commit_of_no_intent ts hIntent).1
  | abort key t =>
    cases hIntent : s.intent? t key with
    | some v =>
      simp only [Call.exec, MemoryStore.abort_of_intent hIntent]
      exact MemoryStore.abort_of_no_intent (by simp [MemoryStore.intent?])
    | none => exact hUnchanged (MemoryStore.abort_of_no_intent hIntent)
  | onePhaseCommit ops t ts =>
    by_cases hFree : ∀ op ∈ ops, s.FreeFor t op.key
    · have hAgain : ∀ op ∈ ops, ((Call.onePhaseCommit ops t ts).exec s).1.FreeFor t op.key :=
        fun op hop => freeFor_exec (hFree op hop) rfl
      simp only [Call.exec, MemoryStore.onePhaseCommit_of_free ts hFree] at hAgain ⊢
      rw [MemoryStore.onePhaseCommit_of_free ts hAgain, foldl_install_twice]
    · exact hUnchanged (MemoryStore.onePhaseCommit_of_not_free ts hFree).1
  | put key value =>
    by_cases hFree : s.FreeFor MemoryStore.legacyTxn key
    · have hAgain := freeFor_exec hFree (c := .put key value) rfl
      simp only [Call.exec, MemoryStore.put_of_free value hFree] at hAgain ⊢
      rw [MemoryStore.put_of_free value hAgain, SortedMap.insert_insert_self,
        SortedMap.erase_erase_self]
    · exact hUnchanged (MemoryStore.put_of_not_free value hFree).1

/-- A prepare and the commit after it are a batch of one operation. -/
theorem run_prepare_commit (s : MemoryStore) (k : Bytes) (v : Slice) (t : Bytes) (ts : UInt64) :
    s.run [.prepare k v t, .commit k t ts] = ((Call.onePhaseCommit [⟨k, v⟩] t ts).exec s).1 := by
  by_cases hFree : s.FreeFor t k
  · have hOps : ∀ op ∈ [(⟨k, v⟩ : BatchOp)], s.FreeFor t op.key := by simpa using hFree
    have hOrder : ∀ key, key ∈ [k] ↔ key ∈ [(⟨k, v⟩ : BatchOp)].map BatchOp.key := by simp
    rw [Call.exec, MemoryStore.onePhaseCommit_of_free ts hOps]
    exact run_twoPhase ts hOps hOrder
  · have hNoIntent : s.intent? t k = none :=
      Option.eq_none_iff_forall_ne_some.mpr fun w hw => hFree (MemoryStore.freeFor_of_intent? hw)
    have hOps : ¬ ∀ op ∈ [(⟨k, v⟩ : BatchOp)], s.FreeFor t op.key := by simpa using hFree
    simp only [MemoryStore.run, List.foldl_cons, List.foldl_nil, Call.exec]
    rw [(MemoryStore.prepare_of_not_free v hFree).1,
      (MemoryStore.commit_of_no_intent ts hNoIntent).1,
      (MemoryStore.onePhaseCommit_of_not_free ts hOps).1]

end ShardDB.Storage

namespace ShardDB.Shard

open ShardDB.Lib ShardDB.Storage ShardDB.Sql

/-- Every command is at most one call, an insert being a batch. -/
theorem Command.exec_eq_call (c : Command) :
    (∀ s, c.exec s = s) ∨ ∃ call : Call, ∀ s, c.exec s = (call.exec s).1 := by
  cases c with
  | prepare key value txnID => exact Or.inr ⟨.prepare key (some value) txnID, fun _ => rfl⟩
  | commit key txnID ts => exact Or.inr ⟨.commit key txnID ts, fun _ => rfl⟩
  | abort key txnID => exact Or.inr ⟨.abort key txnID, fun _ => rfl⟩
  | oneShot req => exact Or.inr ⟨.onePhaseCommit req.batch req.txn.1 req.ts, fun _ => rfl⟩
  | ignored => exact Or.inl fun _ => rfl
  | sql plan =>
    cases plan with
    | insert table columns values =>
      cases values with
      | nil => exact Or.inl fun _ => rfl
      | cons pk values =>
        refine Or.inr ⟨.onePhaseCommit [⟨rowKey table pk, some ((ascii ",").intercalate
          (pk :: values))⟩] (autoTxn sqlTs) sqlTs, fun s => ?_⟩
        rw [Command.exec, execute_eq_run]
        exact run_prepare_commit s _ _ _ _
    | scan table => exact Or.inl fun _ => rfl
    | pointGet table key => exact Or.inl fun _ => rfl
    | project input columns => exact Or.inl fun _ => rfl
    | filter input expr => exact Or.inl fun _ => rfl

/-- Applying an entry twice in a row leaves the version tree and the lock table as applying it
once does. -/
theorem apply_apply (libs : Libs) (s : MemoryStore) (data : Bytes) :
    apply libs (apply libs s data) data = apply libs s data := by
  unfold apply
  rcases (decode libs data).exec_eq_call with hSame | ⟨call, hCall⟩
  · rw [hSame, hSame]
  · rw [hCall, hCall, exec_exec]

end ShardDB.Shard
