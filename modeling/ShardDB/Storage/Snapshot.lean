import ShardDB.Lib.Json
import ShardDB.Storage.Reads

/-!
# Snapshots of the storage engine

`GetSnapshotData` and `RestoreSnapshot` of `internal/storage/memory.go`. A snapshot is a
JSON object with one member for each version, whose name is the version key. The lock
table is neither written nor changed by a restore.

`encoding/json` is a parameter: some reader and writer of objects that invert each other.
What matters here happens before the text is written. The name of a member is a string of
characters while a version key is an arbitrary byte string, so it is coerced to valid
UTF-8. A snapshot therefore restores the version tree exactly when every version key is
valid UTF-8 already (`roundTrips_iff`).
-/

namespace ShardDB.Storage

open ShardDB.Lib

/-- The error of `RestoreSnapshot`: the decoder does not accept the data. -/
inductive SnapshotError where
  | decode
  deriving DecidableEq, Repr

/-- The members of the object that `enc.Encode` writes for a `map[string][]byte`: in the
order of the keys, each key coerced to valid UTF-8. -/
def jsonMembers (data : SortedMap Bytes Slice) : JsonObject :=
  data.entries.map fun e => (JsonString.ofBytes e.1, e.2)

/-- The map that `dec.Decode` builds from an object; of equal names the last one wins. -/
def jsonMap (o : JsonObject) : SortedMap Bytes Slice :=
  SortedMap.empty.insertAll (o.map fun e => (e.1.1, e.2))

namespace MemoryStore

variable (json : Codec JsonObject)

/-- `GetSnapshotData`. Encoding a map of byte strings to a buffer does not fail. -/
def getSnapshotData (s : MemoryStore) : Except SnapshotError Bytes :=
  let data := SortedMap.empty.insertAll s.tree.entries
  .ok (json.enc (jsonMembers data))

/-- `RestoreSnapshot`. -/
def restoreSnapshot (s : MemoryStore) (data : Bytes) : MemoryStore × Option SnapshotError :=
  match json.dec data with
  | none => (s, some .decode)
  | some o => ({ s with tree := SortedMap.empty.insertAll (jsonMap o).entries }, none)

/-- The snapshot of `s` restores its version tree in `t`. -/
def RoundTrips (s t : MemoryStore) : Prop :=
  ∀ data, s.getSnapshotData json = .ok data →
    (t.restoreSnapshot json data).2 = none ∧ (t.restoreSnapshot json data).1.tree = s.tree

theorem getSnapshotData_eq (s : MemoryStore) :
    s.getSnapshotData json = .ok (json.enc (jsonMembers s.tree)) := by
  rw [getSnapshotData, SortedMap.insertAll_entries]

theorem restoreSnapshot_enc (t : MemoryStore) (o : JsonObject) :
    t.restoreSnapshot json (json.enc o) = ({ t with tree := jsonMap o }, none) := by
  rw [restoreSnapshot, json.dec_enc]
  simp only [SortedMap.insertAll_entries]

variable {json} in
theorem roundTrips_iff_jsonMap {s t : MemoryStore} :
    RoundTrips json s t ↔ jsonMap (jsonMembers s.tree) = s.tree := by
  constructor
  · intro h
    have hTree := (h _ (s.getSnapshotData_eq json)).2
    rwa [restoreSnapshot_enc] at hTree
  · intro h data hData
    rw [getSnapshotData_eq] at hData
    cases hData
    rw [restoreSnapshot_enc]
    exact ⟨rfl, h⟩

end MemoryStore

/-! ## What survives the coercion -/

/-- Every key of a decoded map is valid UTF-8. -/
theorem validUtf8_of_find?_jsonMap {o : JsonObject} {k : Bytes} {v : Slice}
    (h : (jsonMap o).find? k = some v) : validUtf8 k = true := by
  rw [jsonMap, SortedMap.find?_insertAll, SortedMap.find?_empty, Option.or_none] at h
  obtain ⟨e, -, he⟩ := List.mem_map.mp (SortedMap.mem_of_lastBinding h)
  cases he
  exact e.1.2

/-- A map whose keys are valid UTF-8 is written and read back unchanged. -/
theorem jsonMap_jsonMembers {tree : SortedMap Bytes Slice}
    (h : ∀ k v, tree.find? k = some v → validUtf8 k = true) : jsonMap (jsonMembers tree) = tree := by
  have hSame : (jsonMembers tree).map (fun e => (e.1.1, e.2)) = tree.entries := by
    rw [jsonMembers, List.map_map]
    conv_rhs => rw [← List.map_id tree.entries]
    refine List.map_congr_left fun e he => ?_
    have hValid := h e.1 e.2 (SortedMap.mem_entries_iff.mp he)
    change (toValidUtf8 e.1, e.2) = e
    rw [toValidUtf8_eq_self_iff.mpr hValid]
  rw [jsonMap, hSame, SortedMap.insertAll_entries]

namespace MemoryStore

/-- The snapshot of a reachable store restores its version tree exactly when the version
keys are valid UTF-8. -/
theorem roundTrips_iff (json : Codec JsonObject) {s : MemoryStore} (h : s.Reachable)
    (t : MemoryStore) :
    RoundTrips json s t ↔
      ∀ key ts v, s.HasVersion key ts v → validUtf8 (encodeKey key ts) = true := by
  rw [roundTrips_iff_jsonMap]
  constructor
  · intro hTree key ts v hVersion
    rw [HasVersion, ← hTree] at hVersion
    exact validUtf8_of_find?_jsonMap hVersion
  · intro hValid
    refine jsonMap_jsonMembers fun k v hFind => ?_
    obtain ⟨key, ts, rfl⟩ := h.encoded k v hFind
    exact hValid key ts v hFind

/-- A version at the greatest timestamp has eight zero bytes after its key. -/
theorem roundTrips_maxUint64 :
    RoundTrips objectLine
      (newMemoryStore.run [.onePhaseCommit [⟨ascii "a", some (ascii "1")⟩] (ascii "t") maxUint64])
      newMemoryStore := by
  refine (roundTrips_iff objectLine ⟨_, rfl⟩ _).mpr fun key ts v hVersion => ?_
  have hTree : (newMemoryStore.run
      [.onePhaseCommit [⟨ascii "a", some (ascii "1")⟩] (ascii "t") maxUint64]).tree =
      putVersions SortedMap.empty [⟨ascii "t", ascii "a", maxUint64, some (ascii "1")⟩] := by decide
  rw [HasVersion, hTree] at hVersion
  rcases find?_putVersions hVersion with ⟨i, hi, hEq, -⟩ | hFind
  · rw [hEq, List.mem_singleton.mp hi]
    decide
  · cases hFind

/-- The version of `a` at timestamp one has the bytes `FF` in its key, so no snapshot of it
restores it, whatever the text of JSON objects is. -/
theorem not_roundTrips :
    ¬ ∃ json : Codec JsonObject, ∀ s : MemoryStore, s.Reachable → ∀ t, RoundTrips json s t := by
  rintro ⟨json, hAll⟩
  have hTree := roundTrips_iff_jsonMap.mp (hAll
    (newMemoryStore.run [.put (ascii "a") (some (ascii "1"))]) ⟨_, rfl⟩ newMemoryStore)
  have hFind : (newMemoryStore.run [.put (ascii "a") (some (ascii "1"))]).tree.find?
      (encodeKey (ascii "a") 1) = some (some (ascii "1")) := by decide
  rw [← hTree] at hFind
  exact absurd (validUtf8_of_find?_jsonMap hFind) (by decide)

end MemoryStore

end ShardDB.Storage
