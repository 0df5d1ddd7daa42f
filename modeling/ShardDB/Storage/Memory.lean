import ShardDB.Lib.SortedMap
import ShardDB.Storage.Mvcc

/-!
# The storage engine

The transactional part of `MemoryStore` in `internal/storage/memory.go`: a tree of versions
ordered by version key and a table of exclusive locks that carry the value their owner
wants to write. Every method runs under the mutex of the store, so a call is one atomic
step from a store to a store and an optional error text.

The calls are then described by what they do to the intents of one transaction
(`MemoryStore.intent?`) and by the versions they put in the tree (`Call.installs`); later
modules use these descriptions and do not unfold the methods again.
-/

namespace ShardDB.Storage

open ShardDB.Lib

/-- `Lock`: the owner of a locked key and the value it intends to write. -/
structure Lock where
  txnID : Bytes
  value : Slice
  deriving DecidableEq, Repr

/-- `BatchOp`. -/
structure BatchOp where
  key : Bytes
  value : Slice
  deriving DecidableEq, Repr

/-- `MemoryStore`: the version tree and the lock table. -/
@[ext]
structure MemoryStore where
  tree : SortedMap Bytes Slice
  locks : SortedMap Bytes Lock
  deriving DecidableEq

/-- `NewMemoryStore`. -/
def newMemoryStore : MemoryStore := ⟨SortedMap.empty, SortedMap.empty⟩

namespace MemoryStore

/-! ## The methods -/

/-- The check shared by `Prepare` and `OnePhaseCommit`: the error text when the key is
locked by another transaction. -/
def lockedByOther (s : MemoryStore) (key txnID : Bytes) : Option Bytes :=
  match s.locks.find? key with
  | some lock =>
    if lock.txnID ≠ txnID then
      some (ascii "key " ++ key ++ ascii " locked by " ++ lock.txnID)
    else none
  | none => none

/-- `Prepare`: acquire the lock and store the intent. A lock of the same transaction is
overwritten. -/
def prepare (s : MemoryStore) (key : Bytes) (value : Slice) (txnID : Bytes) :
    MemoryStore × Option Bytes :=
  match s.lockedByOther key txnID with
  | some err => (s, some err)
  | none => ({ s with locks := s.locks.insert key ⟨txnID, value⟩ }, none)

/-- `Commit`: move the intent to the version tree at `commitTs`. -/
def commit (s : MemoryStore) (key txnID : Bytes) (commitTs : UInt64) :
    MemoryStore × Option Bytes :=
  match s.locks.find? key with
  | none => (s, some (ascii "no lock on key " ++ key))
  | some lock =>
    if lock.txnID ≠ txnID then
      (s, some (ascii "key " ++ key ++ ascii " locked by " ++ lock.txnID ++
        ascii ", cannot commit " ++ txnID))
    else
      (⟨s.tree.insert (encodeKey key commitTs) lock.value, s.locks.erase key⟩, none)

/-- `Abort`: remove the intent. A key without a lock counts as aborted already. -/
def abort (s : MemoryStore) (key txnID : Bytes) : MemoryStore × Option Bytes :=
  match s.locks.find? key with
  | none => (s, none)
  | some lock =>
    if lock.txnID ≠ txnID then
      (s, some (ascii "key " ++ key ++ ascii " locked by " ++ lock.txnID ++
        ascii ", cannot abort " ++ txnID))
    else ({ s with locks := s.locks.erase key }, none)

/-- One round of the commit loop of `OnePhaseCommit`. -/
def install (commitTs : UInt64) (s : MemoryStore) (op : BatchOp) : MemoryStore :=
  ⟨s.tree.insert (encodeKey op.key commitTs) op.value, s.locks.erase op.key⟩

/-- `OnePhaseCommit`: check all locks, then write every operation in order. -/
def onePhaseCommit (s : MemoryStore) (ops : List BatchOp) (txnID : Bytes) (commitTs : UInt64) :
    MemoryStore × Option Bytes :=
  match ops.findSome? fun op => s.lockedByOther op.key txnID with
  | some err => (s, some err)
  | none => (ops.foldl (install commitTs) s, none)

/-- The transaction id under which `Put` commits. -/
def legacyTxn : Bytes := ascii "legacy"

/-- `Put`: prepare and commit at timestamp one. -/
def put (s : MemoryStore) (key : Bytes) (value : Slice) : MemoryStore × Option Bytes :=
  match s.prepare key value legacyTxn with
  | (s, some err) => (s, some err)
  | (s, none) => s.commit key legacyTxn 1

end MemoryStore

/-- A call of one of the mutating methods. -/
inductive Call where
  | prepare (key : Bytes) (value : Slice) (txnID : Bytes)
  | commit (key txnID : Bytes) (commitTs : UInt64)
  | abort (key txnID : Bytes)
  | onePhaseCommit (ops : List BatchOp) (txnID : Bytes) (commitTs : UInt64)
  | put (key : Bytes) (value : Slice)
  deriving DecidableEq, Repr

namespace Call

/-- Run a call. -/
def exec (s : MemoryStore) : Call → MemoryStore × Option Bytes
  | prepare key value txnID => s.prepare key value txnID
  | commit key txnID commitTs => s.commit key txnID commitTs
  | abort key txnID => s.abort key txnID
  | onePhaseCommit ops txnID commitTs => s.onePhaseCommit ops txnID commitTs
  | put key value => s.put key value

/-- The transaction a call acts for. -/
def txnID : Call → Bytes
  | prepare _ _ txnID => txnID
  | commit _ txnID _ => txnID
  | abort _ txnID => txnID
  | onePhaseCommit _ txnID _ => txnID
  | put _ _ => MemoryStore.legacyTxn

end Call

/-- A run of calls, one after another, whatever errors they report. -/
def MemoryStore.run (s : MemoryStore) (calls : List Call) : MemoryStore :=
  calls.foldl (fun s c => (c.exec s).1) s

/-- The stores reached from `NewMemoryStore` by any sequence of calls. -/
def MemoryStore.Reachable (s : MemoryStore) : Prop := ∃ calls, newMemoryStore.run calls = s

end ShardDB.Storage
