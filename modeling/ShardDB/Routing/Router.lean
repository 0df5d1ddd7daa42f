import ShardDB.Lib.Bytes
import ShardDB.Lib.SortedMap

/-!
# Routing keys to shards

The part of `internal/router/router.go` that finds the shard of a key: the range table is
scanned in order and the first range that contains the key decides. The address of a shard
that is not in the address map is the empty string, as for any missing key of a Go map.
-/

namespace ShardDB.Routing

open ShardDB.Lib

/-- `meta.Range`: a nil bound is no bound. -/
structure Range where
  startKey : Slice
  endKey : Slice
  shardID : UInt64
  deriving DecidableEq, Repr

/-- The range is not skipped by the scan of `GetShardID`. -/
def Range.contains (rng : Range) (key : Bytes) : Bool :=
  (match rng.startKey with
    | some start => !(key < start)
    | none => true) &&
  match rng.endKey with
  | some stop => !(stop ≤ key)
  | none => true

/-- `Router`, without its mutex and the address of the meta node. -/
structure Router where
  ranges : List Range
  shardAddrs : SortedMap UInt64 Bytes
  deriving DecidableEq

/-- `NewRouter`: one range without bounds and three addresses. -/
def newRouter : Router where
  ranges := [⟨none, none, 1⟩]
  shardAddrs := SortedMap.empty.insertAll [(1, ascii "http://localhost:9001"),
    (2, ascii "http://localhost:9002"), (3, ascii "http://localhost:9003")]

/-- A range table split at `m`: keys below it belong to shard 1 and the others to shard 2. -/
def splitRouter : Router where
  ranges := [⟨none, some (ascii "m"), 1⟩, ⟨some (ascii "m"), none, 2⟩]
  shardAddrs := newRouter.shardAddrs

namespace Router

/-- `GetShardID`. -/
def getShardID (r : Router) (key : Bytes) : UInt64 :=
  match r.ranges.find? fun rng => rng.contains key with
  | some rng => rng.shardID
  | none => 1

/-- `Locate`. -/
def locate (r : Router) (key : Bytes) : Bytes := (r.shardAddrs.find? (r.getShardID key)).getD []

end Router

end ShardDB.Routing
