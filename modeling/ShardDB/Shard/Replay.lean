import ShardDB.Shard.Entry
import ShardDB.Storage.Snapshot

/-!
# A snapshot and the rest of the log

A shard that falls behind restores a snapshot of another shard and applies the entries
after it. The snapshot holds the version tree only. The lock table, on which the outcome of
later entries depends, is neither part of the snapshot nor cleared by a restore, so the
result is the one of the whole log, for every continuation, exactly when the target already
holds the lock table of the cut (`snapshotPlusSuffix_iff`). A cut between a `PREPARE` and
its `COMMIT` loses the write (`not_snapshotPlusSuffix`).
-/

namespace ShardDB.Shard

open ShardDB.Lib ShardDB.Storage

variable (json : Codec JsonObject) (libs : Libs)

/-- Restore in `t` the snapshot taken after `log₁`, then apply `log₂`: the result is the one
of applying both to an empty shard. -/
def SnapshotPlusSuffix (log₁ log₂ : List Bytes) (t : MemoryStore) : Prop :=
  ∀ data, (applyAll libs newMemoryStore log₁).getSnapshotData json = .ok data →
    applyAll libs (t.restoreSnapshot json data).1 log₂ = applyAll libs newMemoryStore (log₁ ++ log₂)

variable {json} in
/-- What a restore leaves: the tree of the snapshot with the locks of the target. -/
theorem restoreSnapshot_of_roundTrips {s t : MemoryStore} (h : MemoryStore.RoundTrips json s t)
    {data : Bytes} (hData : s.getSnapshotData json = .ok data) :
    (t.restoreSnapshot json data).1 = ⟨s.tree, t.locks⟩ := by
  rw [MemoryStore.getSnapshotData_eq] at hData
  cases hData
  rw [MemoryStore.restoreSnapshot_enc, MemoryStore.roundTrips_iff_jsonMap.mp h]

/-- The cut after `log₁` is safe for a target, whatever follows, exactly when the target
holds the locks of the cut. -/
theorem snapshotPlusSuffix_iff (log₁ : List Bytes) (t : MemoryStore)
    (hRound : MemoryStore.RoundTrips json (applyAll libs newMemoryStore log₁) t) :
    (∀ log₂, SnapshotPlusSuffix json libs log₁ log₂ t) ↔
      t.locks = (applyAll libs newMemoryStore log₁).locks := by
  constructor
  · intro h
    -- already with nothing after the cut the two lock tables are compared
    have hNil : (⟨(applyAll libs newMemoryStore log₁).tree, t.locks⟩ : MemoryStore) =
        applyAll libs newMemoryStore log₁ := by
      have hData := MemoryStore.getSnapshotData_eq json (applyAll libs newMemoryStore log₁)
      rw [← restoreSnapshot_of_roundTrips hRound hData]
      exact (h [] _ hData).trans (by rw [List.append_nil])
    rw [← hNil]
  · intro hLocks log₂ data hData
    rw [restoreSnapshot_of_roundTrips hRound hData, hLocks, applyAll_append]

/-- Libraries whose SQL parser accepts nothing. -/
def noSql : Libs := compactJson fun _ => .error (ascii "syntax error")

/-- A one-shot write of the key `a` at the greatest timestamp. -/
def oneShotOfA : Bytes :=
  oneShotEntry (noSql.marshal ⟨JsonString.ofBytes (ascii "txn-1"), maxUint64,
    [⟨JsonString.ofBytes (ascii "a"), JsonString.ofBytes (ascii "1")⟩]⟩)

/-- After a one-shot write no lock is held, and an empty target holds none either. -/
theorem snapshotPlusSuffix_oneShot :
    MemoryStore.RoundTrips objectLine (applyAll noSql newMemoryStore [oneShotOfA]) newMemoryStore ∧
      ∀ log₂, SnapshotPlusSuffix objectLine noSql [oneShotOfA] log₂ newMemoryStore := by
  have hRound : MemoryStore.RoundTrips objectLine (applyAll noSql newMemoryStore [oneShotOfA])
      newMemoryStore := MemoryStore.roundTrips_iff_jsonMap.mpr (by decide)
  exact ⟨hRound, (snapshotPlusSuffix_iff objectLine noSql _ _ hRound).mpr (by decide)⟩

/-- A cut between `PREPARE` and `COMMIT`: the restored shard has no lock to commit. -/
theorem not_snapshotPlusSuffix :
    ¬ ∀ log₁ log₂ t, MemoryStore.RoundTrips objectLine (applyAll noSql newMemoryStore log₁) t →
      SnapshotPlusSuffix objectLine noSql log₁ log₂ t := by
  intro hAll
  have hRound : MemoryStore.RoundTrips objectLine
      (applyAll noSql newMemoryStore [ascii "PREPARE a 1 txn-1"]) newMemoryStore :=
    MemoryStore.roundTrips_iff_jsonMap.mpr (by decide)
  have hData := MemoryStore.getSnapshotData_eq objectLine
    (applyAll noSql newMemoryStore [ascii "PREPARE a 1 txn-1"])
  have hSame := hAll _ [ascii "COMMIT a txn-1 5"] _ hRound _ hData
  rw [restoreSnapshot_of_roundTrips hRound hData] at hSame
  revert hSame
  decide

end ShardDB.Shard
