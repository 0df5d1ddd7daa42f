import ShardDB.Raft.Compaction
import ShardDB.Storage.WalCut

/-!
# Reopening a log of batches

Histories of `Save` calls alone. The live storage appends each batch at once, while the replay
appends one entry at a time and so truncates at most once for each batch, at its first entry.
Without snapshots nothing is ever compacted, and the two agree: whatever part of the log a
batch overwrites, opening the file gives the storage that wrote it.

The file is as good as its frames. A record that is too long for the length field of its frame
cannot be read back, and after a crash the file can be opened exactly if it ends with a whole
frame: `NewDiskStorage` returns the error that the reader has for a frame that was cut off.
-/

namespace ShardDB.Raft

open ShardDB.Lib ShardDB.Storage

/-! ## Histories of batches -/

/-- A sequence of `Save` calls. -/
def saveCalls (saves : List (List Entry × HardState)) : List DiskCall :=
  saves.map fun b => .save b.1 b.2

/-- The records of a sequence of `Save` calls. -/
def savedRecords (saves : List (List Entry × HardState)) : List Saved :=
  saves.flatMap fun b => Saved.ofSave b.1 b.2

theorem length_savedRecords {enc : Encoding} {saves : List (List Entry × HardState)}
    (hLen : ∀ b ∈ saves, ∀ r ∈ Saved.ofSave b.1 b.2, (r.bytes enc).length < 2 ^ 32) :
    ∀ r ∈ savedRecords saves, (r.bytes enc).length < 2 ^ 32 := by
  intro r hr
  obtain ⟨b, hb, hr⟩ := List.mem_flatMap.mp hr
  exact hLen b hb r hr

theorem recordsOf_saveCalls (ms : MemoryStorage) (saves : List (List Entry × HardState)) :
    recordsOf ms (saveCalls saves) = savedRecords saves := by
  induction saves generalizing ms with
  | nil => rfl
  | cons b saves ih =>
    rw [saveCalls, List.map_cons, recordsOf]
    show _ ++ recordsOf _ (saveCalls saves) = _
    rw [ih]
    rfl

/-- One entry at a time, the replay makes the same log as whole batches do. -/
theorem replay_savedRecords {ms : MemoryStorage} {saves : List (List Entry × HardState)}
    (hLegal : LegalHistory ms (saveCalls saves)) :
    (savedRecords saves).foldlM Saved.replay ms = .ok (afterAll ms (saveCalls saves)) := by
  induction saves generalizing ms with
  | nil => rfl
  | cons b saves ih =>
    obtain ⟨hFits, hRest⟩ := hLegal
    rw [savedRecords, List.flatMap_cons, List.foldlM_append, replay_save hFits]
    exact ih hRest

theorem run_saveCalls (enc : Encoding) {saves : List (List Entry × HardState)}
    (hLegal : LegalHistory newMemoryStorage (saveCalls saves)) :
    DiskStorage.empty.run enc (saveCalls saves) =
      .ok ⟨afterAll newMemoryStorage (saveCalls saves), Saved.frames enc (savedRecords saves)⟩ := by
  rw [run_of_legal MemoryStorage.wellFormed_new hLegal]
  show Except.ok (⟨_, [] ++ Saved.frames enc (recordsOf newMemoryStorage _)⟩ : DiskStorage) = _
  rw [recordsOf_saveCalls, List.nil_append]
  rfl

/-! ## Opening the whole file -/

/-- Opening the file of the storage gives its entries, its last index and its `HardState`. -/
def Reopens (enc : Encoding) (ds : DiskStorage) : Prop :=
  ∃ ds', newDiskStorage enc ds.wal = .ok ds' ∧ ds'.mem.ents = ds.mem.ents ∧
    ds'.mem.lastIndex = ds.mem.lastIndex ∧ ds'.mem.hardState = ds.mem.hardState

/-- Batches that start in the log or right after it are rebuilt, as long as their records
fit the length field of the log. -/
theorem reopens_saves (enc : Encoding) {saves : List (List Entry × HardState)}
    (hLegal : LegalHistory newMemoryStorage (saveCalls saves))
    (hLen : ∀ b ∈ saves, ∀ r ∈ Saved.ofSave b.1 b.2, (r.bytes enc).length < 2 ^ 32) :
    ∃ ds, DiskStorage.empty.run enc (saveCalls saves) = .ok ds ∧ Reopens enc ds := by
  refine ⟨_, run_saveCalls enc hLegal, ?_⟩
  have hLen' := length_savedRecords hLen
  have hOpen := newDiskStorage_frames enc hLen'
  rw [replay_savedRecords hLegal] at hOpen
  exact ⟨_, hOpen, rfl, rfl, rfl⟩

/-- Three entries, the last two of which are overwritten by one of a later term. -/
theorem reopens_conflicting_suffix :
    ∃ ds, DiskStorage.empty.run plainEncoding (saveCalls
      [([sampleEntry 1, sampleEntry 2, sampleEntry 3], ⟨1, 1, 1⟩),
        ([⟨2, 2, .normal, some [9]⟩], ⟨0, 0, 0⟩)]) = .ok ds ∧ Reopens plainEncoding ds :=
  reopens_saves plainEncoding (by decide) (by decide)

/-! ## A record that does not fit -/

theorem enc_plainEntry (data : Bytes) :
    plainEncoding.entry.enc ⟨1, 1, .normal, some data⟩ =
      [0, 1, 1, 1] ++ WireField.varint.enc data.length ++ data := by
  show [0] ++ ([1] ++ ([1] ++ ([1] ++ (WireField.varint.enc data.length ++ data ++ [])))) = _
  rw [List.append_nil]
  rfl

theorem bytes_plainEntry (data : Bytes) :
    (Saved.entry ⟨1, 1, .normal, some data⟩).bytes plainEncoding =
      1 :: (WireField.varint.enc (4 + (WireField.varint.enc data.length).length + data.length) ++
        ([0, 1, 1, 1] ++ WireField.varint.enc data.length ++ data)) := by
  show [1] ++ (WireField.varint.enc (plainEncoding.entry.enc _).length ++
    plainEncoding.entry.enc _) = _
  rw [enc_plainEntry, List.length_append, List.length_append]
  rfl

theorem bytes_length_plainEntry {data : Bytes} (hLen : data.length = 2 ^ 32 - 15) :
    ((Saved.entry ⟨1, 1, .normal, some data⟩).bytes plainEncoding).length = 2 ^ 32 := by
  have hInner : (WireField.varint.enc (2 ^ 32 - 15)).length = 5 := by decide
  have hOuter : (WireField.varint.enc (4 + 5 + (2 ^ 32 - 15))).length = 5 := by decide
  rw [bytes_plainEntry, hLen, hInner, List.length_cons, List.length_append, hOuter,
    List.length_append, List.length_append, hInner, hLen]
  rfl

theorem readFrame_plainEntry {data : Bytes} (hLen : data.length = 2 ^ 32 - 15) :
    Wal.readFrame (Wal.frame ((Saved.entry ⟨1, 1, .normal, some data⟩).bytes plainEncoding)) =
      .error .unexpectedEOF := by
  have hSize := bytes_length_plainEntry hLen
  rw [bytes_plainEntry] at hSize ⊢
  rw [← List.append_nil (Wal.frame _)]
  apply Wal.readFrame_overflow
  · rw [hSize]
    norm_num
  · decide

/-- One entry whose record has exactly `2 ^ 32` bytes: the file cannot be opened again. -/
theorem not_reopens_saves :
    ¬ ∀ (enc : Encoding) (saves : List (List Entry × HardState)),
      LegalHistory newMemoryStorage (saveCalls saves) →
      ∃ ds, DiskStorage.empty.run enc (saveCalls saves) = .ok ds ∧ Reopens enc ds := by
  intro hAll
  obtain ⟨data, hData⟩ : ∃ data : Bytes, data.length = 2 ^ 32 - 15 :=
    ⟨List.replicate _ 0, List.length_replicate⟩
  have hLegal : LegalHistory newMemoryStorage
      (saveCalls [([⟨1, 1, .normal, some data⟩], ⟨0, 0, 0⟩)]) := by
    refine ⟨?_, trivial⟩
    rintro e ⟨⟩
    exact ⟨le_rfl, le_rfl, rfl, trivial⟩
  obtain ⟨ds, hRun, ds', hOpen, -⟩ := hAll plainEncoding _ hLegal
  rw [run_saveCalls plainEncoding hLegal] at hRun
  cases hRun
  have hFile : Saved.frames plainEncoding
      (savedRecords [([⟨1, 1, .normal, some data⟩], ⟨0, 0, 0⟩)]) =
        Wal.frame ((Saved.entry ⟨1, 1, .normal, some data⟩).bytes plainEncoding) :=
    List.append_nil _
  rw [newDiskStorage, hFile, Wal.iterate_error (readFrame_plainEntry hData)] at hOpen
  cases hOpen

/-! ## Opening a prefix of the file -/

/-- The positions in the file between two records. -/
def AtBoundary (enc : Encoding) (records : List Saved) (p : Nat) : Prop :=
  ∃ j ≤ records.length, p = Wal.frameEnd (records.map (Saved.bytes enc)) j

/-- A crash left the first `p` bytes of the file. Opening them succeeds and replays the records
that were completely written. -/
def Restarts (enc : Encoding) (records : List Saved) (file : Bytes) (p : Nat) : Prop :=
  ∃ k, (∀ i < records.length, Wal.frameEnd (records.map (Saved.bytes enc)) (i + 1) ≤ p ↔ i < k) ∧
    ∃ mem, (records.take k).foldlM Saved.replay newMemoryStorage = .ok mem ∧
      newDiskStorage enc (file.take p) = .ok ⟨mem, file.take p⟩

/-- A replay that succeeds succeeds up to every record. -/
theorem replay_take {ms ms' : MemoryStorage} {records : List Saved}
    (h : records.foldlM Saved.replay ms = .ok ms') (k : Nat) :
    ∃ mem, (records.take k).foldlM Saved.replay ms = .ok mem := by
  rw [← List.take_append_drop k records, List.foldlM_append] at h
  cases hTake : (records.take k).foldlM Saved.replay ms with
  | error p =>
    rw [hTake] at h
    cases h
  | ok mem => exact ⟨mem, rfl⟩

/-- The replay of a prefix of the file goes through its whole records to the tail. -/
theorem iterate_cut (enc : Encoding) {records : List Saved} {p k : Nat} {tail : Bytes}
    {mem : MemoryStorage} (hLen : ∀ r ∈ records, (r.bytes enc).length < 2 ^ 32)
    (hCut : Wal.Cut (records.map (Saved.bytes enc)) p k tail)
    (hReplay : (records.take k).foldlM Saved.replay newMemoryStorage = .ok mem) :
    Wal.iterate (replayRecord enc) newMemoryStorage ((Saved.frames enc records).take p) =
      Wal.iterate (replayRecord enc) mem tail := by
  have hFold := Saved.foldlM_replayRecord enc newMemoryStorage (records.take k)
  rw [hReplay, List.map_take] at hFold
  rw [Saved.frames, hCut.split]
  apply Wal.iterate_frames _ tail hFold
  intro d hd
  obtain ⟨r, hr, rfl⟩ := List.mem_map.mp (List.mem_of_mem_take hd)
  exact hLen r hr

/-- After a crash the file can be opened exactly if it ends with a whole record. -/
theorem restarts_iff_atBoundary (enc : Encoding) {saves : List (List Entry × HardState)}
    (hLegal : LegalHistory newMemoryStorage (saveCalls saves))
    (hLen : ∀ b ∈ saves, ∀ r ∈ Saved.ofSave b.1 b.2, (r.bytes enc).length < 2 ^ 32) :
    ∃ ds, DiskStorage.empty.run enc (saveCalls saves) = .ok ds ∧ ∀ p ≤ ds.wal.length,
      (Restarts enc (savedRecords saves) ds.wal p ↔ AtBoundary enc (savedRecords saves) p) := by
  refine ⟨_, run_saveCalls enc hLegal, fun p hp => ?_⟩
  have hLen' := length_savedRecords hLen
  have hDatas : ∀ d ∈ (savedRecords saves).map (Saved.bytes enc), d.length < 2 ^ 32 := by
    simpa using hLen'
  obtain ⟨k, tail, hCut⟩ := Wal.exists_cut hDatas hp
  obtain ⟨mem, hReplay⟩ := replay_take (replay_savedRecords hLegal) k
  have hIter := iterate_cut enc hLen' hCut hReplay
  have hBoundary : (∃ j ≤ ((savedRecords saves).map (Saved.bytes enc)).length,
      p = Wal.frameEnd ((savedRecords saves).map (Saved.bytes enc)) j) ↔
        AtBoundary enc (savedRecords saves) p := by
    rw [List.length_map]
    rfl
  constructor
  · rintro ⟨k', -, mem', -, hOpen⟩
    by_contra hNot
    obtain ⟨e, hTail⟩ := hCut.torn (mt hBoundary.mp hNot)
    rw [Wal.iterate_error hTail] at hIter
    rw [newDiskStorage, hIter] at hOpen
    cases hOpen
  · intro hAt
    rw [hCut.clean (hBoundary.mpr hAt), Wal.iterate_nil] at hIter
    refine ⟨k, ?_, mem, hReplay, ?_⟩
    · simpa using hCut.whole
    · rw [newDiskStorage, hIter]

/-- Two batches, the second of which overwrites the end of the first. -/
def overlappingSaves : List (List Entry × HardState) :=
  [([sampleEntry 1, sampleEntry 2], ⟨1, 0, 0⟩), ([⟨2, 2, .normal, none⟩], ⟨2, 1, 1⟩)]

theorem restarts_iff_atBoundary_overlapping :
    ∃ ds, DiskStorage.empty.run plainEncoding (saveCalls overlappingSaves) = .ok ds ∧
      ∀ p ≤ ds.wal.length, (Restarts plainEncoding (savedRecords overlappingSaves) ds.wal p ↔
        AtBoundary plainEncoding (savedRecords overlappingSaves) p) :=
  restarts_iff_atBoundary plainEncoding (by decide) (by decide)

/-- A crash after the first byte of the log: the storage cannot be opened any more. -/
theorem not_restarts :
    ¬ ∀ (enc : Encoding) (saves : List (List Entry × HardState)),
      LegalHistory newMemoryStorage (saveCalls saves) →
      (∀ b ∈ saves, ∀ r ∈ Saved.ofSave b.1 b.2, (r.bytes enc).length < 2 ^ 32) →
      ∃ ds, DiskStorage.empty.run enc (saveCalls saves) = .ok ds ∧
        ∀ p ≤ ds.wal.length, Restarts enc (savedRecords saves) ds.wal p := by
  intro hAll
  have hLegal : LegalHistory newMemoryStorage (saveCalls overlappingSaves) := by decide
  obtain ⟨ds, hRun, hRestarts⟩ := hAll plainEncoding overlappingSaves hLegal (by decide)
  rw [run_saveCalls plainEncoding hLegal] at hRun
  cases hRun
  obtain ⟨k, -, mem, -, hOpen⟩ := hRestarts 1 (by decide)
  have hFile : (Saved.frames plainEncoding (savedRecords overlappingSaves)).take 1 = [0] := by
    decide
  have hTorn : Wal.readFrame [0] = .error .unexpectedEOF := by decide
  rw [hFile, newDiskStorage, Wal.iterate_error hTorn] at hOpen
  cases hOpen

end ShardDB.Raft
