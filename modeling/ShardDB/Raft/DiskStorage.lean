import ShardDB.Lib.Codec
import ShardDB.Raft.MemoryStorage
import ShardDB.Storage.Wal

/-!
# Raft's storage on disk

`DiskStorage` keeps a `MemoryStorage` and writes every change to a write-ahead log first: one
record for each entry, for a new `HardState` and for a snapshot. `newDiskStorage` opens a log
file and replays its records into an empty `MemoryStorage`. How messages and records are
written as bytes is left open; an `Encoding` is any format that can be read back.

The replay does not see calls but records (`Saved`), and replays them one by one:
`newDiskStorage_frames` says that opening a file is replaying the records in it.
-/

namespace ShardDB.Raft

open ShardDB.Lib ShardDB.Storage

/-! ## Records -/

def recordEntry : Nat := 1

def recordHardState : Nat := 2

def recordSnapshot : Nat := 3

structure Record where
  type : Nat
  data : Bytes
  deriving DecidableEq

/-- The formats of the messages (`Marshal` and `Unmarshal`) and of the records (JSON). -/
structure Encoding where
  entry : Codec Entry
  hardState : Codec HardState
  snapshot : Codec Snapshot
  record : Codec Record

/-! ## The storage -/

structure DiskStorage where
  mem : MemoryStorage
  wal : Bytes
  deriving DecidableEq

/-- Why the handler of the replay fails. -/
inductive ReplayError where
  | unmarshal
  | panic (p : Panic)
  deriving DecidableEq

variable (enc : Encoding)

/-- The handler with which `NewDiskStorage` iterates over the log. The error of
`ApplySnapshot` is dropped. -/
def replayRecord (mem : MemoryStorage) (data : Bytes) : Except ReplayError MemoryStorage :=
  match enc.record.dec data with
  | none => .error .unmarshal
  | some r =>
    if r.type = recordEntry then
      match enc.entry.dec r.data with
      | none => .error .unmarshal
      | some ent => (mem.append [ent]).mapError .panic
    else if r.type = recordHardState then
      match enc.hardState.dec r.data with
      | none => .error .unmarshal
      | some hs => .ok (mem.setHardState hs)
    else if r.type = recordSnapshot then
      match enc.snapshot.dec r.data with
      | none => .error .unmarshal
      | some snap =>
        match mem.applySnapshot snap with
        | .error _ => .ok mem
        | .ok mem => .ok mem
    else .ok mem

def newDiskStorage (file : Bytes) : Except (Wal.IterateError ReplayError) DiskStorage :=
  match Wal.iterate (replayRecord enc) newMemoryStorage file with
  | (mem, none) => .ok ⟨mem, file⟩
  | (_, some e) => .error e

namespace DiskStorage

def writeRecord (ds : DiskStorage) (type : Nat) (data : Bytes) : DiskStorage :=
  { ds with wal := Wal.append ds.wal (enc.record.enc ⟨type, data⟩) }

/-- `Save`. All records are written before the memory changes. -/
def save (ds : DiskStorage) (entries : List Entry) (state : HardState) :
    Except Panic DiskStorage :=
  let ds := entries.foldl (fun ds ent => ds.writeRecord enc recordEntry (enc.entry.enc ent)) ds
  let ds :=
    if isEmptyHardState state then ds
    else ds.writeRecord enc recordHardState (enc.hardState.enc state)
  match ds.mem.append entries with
  | .error p => .error p
  | .ok mem => .ok { ds with mem := if isEmptyHardState state then mem else mem.setHardState state }

/-- `CreateSnapshot`: record the snapshot in memory, write it to the log, then compact. -/
def createSnapshot (ds : DiskStorage) (i : Nat) (cs : Option ConfState) (data : Slice) :
    Except Panic (DiskStorage × Except StorageError Snapshot) :=
  match ds.mem.createSnapshot i cs data with
  | .error p => .error p
  | .ok (mem, .error e) => .ok ({ ds with mem := mem }, .error e)
  | .ok (mem, .ok snap) =>
    let ds := { ds with mem := mem }.writeRecord enc recordSnapshot (enc.snapshot.enc snap)
    match ds.mem.compact i with
    | .error p => .error p
    | .ok (.error e) => .ok (ds, .error e)
    | .ok (.ok mem) => .ok ({ ds with mem := mem }, .ok snap)

/-- `ApplySnapshot`, with the error it returns. -/
def applySnapshot (ds : DiskStorage) (snap : Snapshot) : DiskStorage × Option StorageError :=
  match ds.mem.applySnapshot snap with
  | .error e => (ds, some e)
  | .ok mem =>
    ({ ds with mem := mem }.writeRecord enc recordSnapshot (enc.snapshot.enc snap), none)

end DiskStorage

/-! ## What is in the log -/

/-- A record of the log, decoded. -/
inductive Saved where
  | entry (ent : Entry)
  | hardState (hs : HardState)
  | snapshot (snap : Snapshot)
  deriving DecidableEq

namespace Saved

/-- The data of the frame of a record. -/
def bytes : Saved → Bytes
  | entry ent => enc.record.enc ⟨recordEntry, enc.entry.enc ent⟩
  | hardState hs => enc.record.enc ⟨recordHardState, enc.hardState.enc hs⟩
  | snapshot snap => enc.record.enc ⟨recordSnapshot, enc.snapshot.enc snap⟩

/-- The file that consists of the records. -/
def frames (records : List Saved) : Bytes := (records.map (bytes enc)).flatMap Wal.frame

/-- What the replay does with a record. -/
def replay (mem : MemoryStorage) : Saved → Except Panic MemoryStorage
  | entry ent => mem.append [ent]
  | hardState hs => .ok (mem.setHardState hs)
  | snapshot snap =>
    match mem.applySnapshot snap with
    | .error _ => .ok mem
    | .ok mem => .ok mem

/-- The records that `Save` writes. -/
def ofSave (entries : List Entry) (state : HardState) : List Saved :=
  entries.map entry ++ if isEmptyHardState state then [] else [hardState state]

theorem frames_append (a b : List Saved) : frames enc (a ++ b) = frames enc a ++ frames enc b := by
  simp [frames]

theorem replayRecord_bytes (mem : MemoryStorage) (r : Saved) :
    replayRecord enc mem (r.bytes enc) = (r.replay mem).mapError .panic := by
  cases r with
  | entry ent => simp [replayRecord, bytes, replay, Codec.dec_enc, recordEntry]
  | hardState hs =>
    simp [replayRecord, bytes, replay, Codec.dec_enc, recordEntry, recordHardState, Except.mapError]
  | snapshot snap =>
    simp only [replayRecord, bytes, replay, Codec.dec_enc, recordEntry, recordHardState,
      recordSnapshot]
    cases mem.applySnapshot snap <;> rfl

theorem foldlM_replayRecord (mem : MemoryStorage) (records : List Saved) :
    (records.map (bytes enc)).foldlM (replayRecord enc) mem =
      (records.foldlM replay mem).mapError .panic := by
  induction records generalizing mem with
  | nil => rfl
  | cons r records ih =>
    rw [List.map_cons, List.foldlM_cons, List.foldlM_cons, replayRecord_bytes]
    cases r.replay mem with
    | error p => rfl
    | ok mem => exact ih mem

end Saved

/-- Opening a file is replaying the records in it. -/
theorem newDiskStorage_frames {records : List Saved}
    (hLen : ∀ r ∈ records, (r.bytes enc).length < 2 ^ 32) :
    newDiskStorage enc (Saved.frames enc records) =
      match records.foldlM Saved.replay newMemoryStorage with
      | .error p => .error (.handler (.panic p))
      | .ok mem => .ok ⟨mem, Saved.frames enc records⟩ := by
  have hLen' : ∀ d ∈ records.map (Saved.bytes enc), d.length < 2 ^ 32 := by
    simpa using hLen
  have hFold := Saved.foldlM_replayRecord enc newMemoryStorage records
  unfold newDiskStorage
  cases hReplay : records.foldlM Saved.replay newMemoryStorage with
  | error p =>
    rw [hReplay] at hFold
    have hIter := Wal.iterate_frames_error hLen' [] hFold
    rw [List.append_nil] at hIter
    unfold Saved.frames
    split
    · next h => simp [h] at hIter
    · next h =>
      rw [h] at hIter
      cases hIter
      rfl
  | ok mem =>
    rw [hReplay] at hFold
    have hIter := Wal.iterate_frames hLen' [] hFold
    rw [List.append_nil, Wal.iterate_nil] at hIter
    rw [Saved.frames, hIter]

namespace DiskStorage

theorem foldl_writeRecord (ds : DiskStorage) (entries : List Entry) :
    entries.foldl (fun ds ent => ds.writeRecord enc recordEntry (enc.entry.enc ent)) ds =
      { ds with wal := ds.wal ++ Saved.frames enc (entries.map .entry) } := by
  induction entries generalizing ds with
  | nil => simp [Saved.frames]
  | cons e entries ih =>
    rw [List.foldl_cons, ih]
    simp [writeRecord, Wal.append, Saved.frames, Saved.bytes]

/-- `Save` changes the memory as `MemoryStorage.save` does and writes its records. -/
theorem save_eq (ds : DiskStorage) (entries : List Entry) (state : HardState) :
    ds.save enc entries state = (ds.mem.save entries state).map fun mem =>
      ⟨mem, ds.wal ++ Saved.frames enc (Saved.ofSave entries state)⟩ := by
  unfold save MemoryStorage.save Saved.ofSave
  rw [foldl_writeRecord, Saved.frames_append]
  by_cases hState : isEmptyHardState state = true
  · simp only [hState, if_true]
    cases ds.mem.append entries with
    | error p => rfl
    | ok mem => simp [Except.map, Saved.frames]
  · simp only [hState, Bool.false_eq_true, if_false, writeRecord]
    cases ds.mem.append entries with
    | error p => rfl
    | ok mem => simp [Except.map, Saved.frames, Saved.bytes, Wal.append]

end DiskStorage

/-! ## An encoding -/

def entryTypeField : WireField EntryType :=
  WireField.varint.imap
    (fun n => if n = 0 then .normal else if n = 1 then .confChange else .confChangeV2)
    (fun | .normal => 0 | .confChange => 1 | .confChangeV2 => 2) fun t => by cases t <;> rfl

def entryField : WireField Entry :=
  (entryTypeField.pair (WireField.varint.pair
    (WireField.varint.pair WireField.bytes.optional))).imap
    (fun p => ⟨p.2.1, p.2.2.1, p.1, p.2.2.2⟩) (fun e => (e.type, e.term, e.index, e.data))
    fun _ => rfl

def hardStateField : WireField HardState :=
  (WireField.varint.pair (WireField.varint.pair WireField.varint)).imap
    (fun p => ⟨p.1, p.2.1, p.2.2⟩) (fun hs => (hs.term, hs.vote, hs.commit)) fun _ => rfl

def snapshotField : WireField Snapshot :=
  (WireField.bytes.optional.pair (WireField.varint.list.pair
    (WireField.varint.pair WireField.varint))).imap
    (fun p => ⟨p.1, ⟨⟨p.2.1⟩, p.2.2.1, p.2.2.2⟩⟩)
    (fun s => (s.data, s.metadata.confState.voters, s.metadata.index, s.metadata.term))
    fun _ => rfl

def recordField : WireField Record :=
  (WireField.varint.pair WireField.bytes).imap (fun p => ⟨p.1, p.2⟩) (fun r => (r.type, r.data))
    fun _ => rfl

/-- The fields of a message one after another, numbers as varints. -/
def plainEncoding : Encoding where
  entry := entryField.toCodec
  hardState := hardStateField.toCodec
  snapshot := snapshotField.toCodec
  record := recordField.toCodec

end ShardDB.Raft
