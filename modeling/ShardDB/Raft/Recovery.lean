import ShardDB.Raft.Compaction
import ShardDB.Raft.Node

/-!
# Crash recovery

A node runs on an empty log file, is stopped when everything that is committed has been
applied, and is started again on the same file with a fresh applier. Raft then delivers the
committed entries of the reopened log again, but it does not report the snapshot that the
storage already has, and `NewNode` does not restore it either. So everything up to the last
snapshot is missing in the new state (`not_recovers`). If `Run` has taken no snapshot, the
reopened log is the whole log and the state is recovered (`recovers_of_no_snapshot`).

What raft may deliver is described by `Delivers`. The storage calls of a run are a legal
history (`legalHistory_calls`), so the results about reopening a file apply to it.
-/

namespace ShardDB.Raft

open ShardDB.Lib ShardDB.Storage

/-! ## What raft delivers -/

/-- The storage calls of the snapshot check, for the state after the committed entries. -/
def snapshotCalls {σ : Type} (A : Applier σ) (s : σ) (fi : Nat) (committed : List Entry) :
    List DiskCall :=
  match committed.getLast? with
  | none => []
  | some e =>
    if e.index > fi ∧ e.index - fi > 50 then
      match A.getSnapshot s with
      | none => []
      | some data => [.createSnapshot e.index (some runConfState) data]
    else []

namespace Ready

/-- The storage calls of one iteration without a snapshot from raft, for the state after the
committed entries. -/
def calls {σ : Type} (A : Applier σ) (s : σ) (fi : Nat) (rd : Ready) : List DiskCall :=
  .save rd.entries rd.hardState :: snapshotCalls A s fi rd.committedEntries

/-- The log after the entries of the `Ready` are saved. -/
def saved (ms : MemoryStorage) (rd : Ready) : MemoryStorage :=
  (ms.splice rd.entries).updateHardState rd.hardState

/-- What raft delivers to a node that has applied the entries up to an index: new entries
leave the committed ones alone, the commit index does not decrease and is in the log, and the
next committed entries follow without a gap. -/
structure Follows (ms : MemoryStorage) (applied : Nat) (rd : Ready) : Prop where
  noSnapshot : isEmptySnap rd.snapshot = true
  fits : ms.Fits rd.entries
  uncommitted : ∀ e ∈ rd.entries.head?, ms.hardState.commit < e.index
  commit_mono : ms.hardState.commit ≤ (rd.saved ms).hardState.commit
  commit_le : (rd.saved ms).hardState.commit ≤ (rd.saved ms).lastIndex
  committed : rd.committedEntries <+: (rd.saved ms).ents.drop (applied - ms.offset)
  applied_le : applied + rd.committedEntries.length ≤ (rd.saved ms).hardState.commit

end Ready

variable {σ : Type} (A : Applier σ)

/-- A sequence of `Ready`s that raft may deliver to a node. -/
def Delivers : MemoryStorage → σ → Nat → List Ready → Prop
  | _, _, _, [] => True
  | ms, s, applied, rd :: readys =>
    rd.Follows ms applied ∧
      Delivers
        (afterAll ms (rd.calls A (applyCommitted A s rd.committedEntries) ms.firstIndex))
        (applyCommitted A s rd.committedEntries) (applied + rd.committedEntries.length) readys

/-- The storage calls of a run. -/
def callsOf : MemoryStorage → σ → List Ready → List DiskCall
  | _, _, [] => []
  | ms, s, rd :: readys =>
    let s := applyCommitted A s rd.committedEntries
    let calls := rd.calls A s ms.firstIndex
    calls ++ callsOf (afterAll ms calls) s readys

/-- All committed entries of a run. -/
def committedOf (readys : List Ready) : List Entry := readys.flatMap Ready.committedEntries

/-- The entries that raft delivers again after a restart. -/
def MemoryStorage.committed (ms : MemoryStorage) : List Entry :=
  ms.ents.filter fun e => e.index ≤ ms.hardState.commit

/-! ## A run is a legal history -/

/-- What holds between two iterations: the applied entries are committed, and the log reaches
from an applied entry to the commit index and beyond. -/
structure Progress (ms : MemoryStorage) (applied : Nat) : Prop where
  wellFormed : ms.WellFormed
  offset_le : ms.offset ≤ applied
  applied_le : applied ≤ ms.hardState.commit
  commit_le : ms.hardState.commit ≤ ms.lastIndex

section Run

variable {A} {enc : Encoding} {ms : MemoryStorage} {s : σ} {applied : Nat} {rd : Ready}
  {readys : List Ready} {n : Node σ}

theorem progress_new : Progress newMemoryStorage 0 :=
  ⟨MemoryStorage.wellFormed_new, le_rfl, le_rfl, le_rfl⟩

theorem offset_saved : (rd.saved ms).offset = ms.offset := by
  unfold Ready.saved MemoryStorage.updateHardState MemoryStorage.splice
  cases rd.entries <;> split_ifs <;> rfl

theorem progress_saved (h : Progress ms applied) (hRd : rd.Follows ms applied) :
    Progress (rd.saved ms) (applied + rd.committedEntries.length) where
  wellFormed := (h.wellFormed.splice hRd.fits).updateHardState rd.hardState
  offset_le := by
    rw [offset_saved]
    exact h.offset_le.trans (Nat.le_add_right _ _)
  applied_le := hRd.applied_le
  commit_le := hRd.commit_le

/-- The last of the next committed entries has the index that it should have. -/
theorem index_getLast {e : Entry} (h : Progress ms applied) (hRd : rd.Follows ms applied)
    (he : rd.committedEntries.getLast? = some e) :
    e.index = applied + rd.committedEntries.length := by
  obtain ⟨rest, hRest⟩ := hRd.committed
  have hPos : 0 < rd.committedEntries.length := by
    cases hNil : rd.committedEntries with
    | nil => simp [hNil] at he
    | cons x l => simp
  have hGet : (rd.saved ms).ents[applied - ms.offset + (rd.committedEntries.length - 1)]? =
      some e := by
    rw [← List.getElem?_drop, ← hRest, List.getElem?_append_left (by omega),
      ← List.getLast?_eq_getElem?, he]
  have hIndex := (progress_saved h hRd).wellFormed.contiguous.index_of_getElem? hGet
  have hOffset := h.offset_le
  rw [MemoryStorage.firstIndex, offset_saved] at hIndex
  omega

/-- The snapshot check makes no call, or takes a snapshot at the last committed entry. -/
theorem snapshotCalls_cases (A : Applier σ) (s : σ) (fi : Nat) (committed : List Entry) :
    snapshotCalls A s fi committed = [] ∨ ∃ e data, committed.getLast? = some e ∧ fi < e.index ∧
      snapshotCalls A s fi committed = [.createSnapshot e.index (some runConfState) data] := by
  unfold snapshotCalls
  split
  · exact Or.inl rfl
  · next e he =>
    split_ifs with hDue
    · split
      · exact Or.inl rfl
      · next data _ => exact Or.inr ⟨e, data, he, hDue.1, rfl⟩
    · exact Or.inl rfl

/-- The calls of an iteration are legal, and the node can go on after them. -/
theorem legalHistory_calls (h : Progress ms applied) (hRd : rd.Follows ms applied) (s : σ) :
    LegalHistory ms (rd.calls A s ms.firstIndex) ∧
      Progress (afterAll ms (rd.calls A s ms.firstIndex))
        (applied + rd.committedEntries.length) := by
  have hSaved := progress_saved h hRd
  rw [Ready.calls]
  rcases snapshotCalls_cases A s ms.firstIndex rd.committedEntries with
    hNone | ⟨e, data, he, hFirst, hSome⟩
  · rw [hNone]
    exact ⟨⟨hRd.fits, trivial⟩, hSaved⟩
  · rw [hSome]
    have hIndex := index_getLast h hRd he
    have hLast : e.index ≤ (rd.saved ms).lastIndex := by
      rw [hIndex]
      exact hRd.applied_le.trans hRd.commit_le
    have hFirst' : (rd.saved ms).firstIndex ≤ e.index := by
      rw [MemoryStorage.firstIndex, offset_saved]
      exact hFirst.le
    refine ⟨⟨hRd.fits, ⟨hFirst', hLast⟩, trivial⟩, ?_⟩
    change Progress ((rd.saved ms).snapshotAt e.index (some runConfState) data) _
    refine ⟨hSaved.wellFormed.snapshotAt hFirst' hLast _ _, hIndex.le, hSaved.applied_le, ?_⟩
    refine hSaved.commit_le.trans (le_of_eq ?_)
    -- compaction does not change the last index
    unfold MemoryStorage.snapshotAt MemoryStorage.lastIndex MemoryStorage.firstIndex at *
    dsimp only at *
    rw [List.length_drop]
    omega

/-- The calls of a run are legal, and the node can go on after them. -/
theorem legalHistory_callsOf (h : Progress ms applied) (hReadys : Delivers A ms s applied readys) :
    LegalHistory ms (callsOf A ms s readys) ∧
      Progress (afterAll ms (callsOf A ms s readys))
        (applied + (committedOf readys).length) := by
  induction readys generalizing ms s applied with
  | nil => exact ⟨trivial, h⟩
  | cons rd readys ih =>
    obtain ⟨hRd, hRest⟩ := hReadys
    obtain ⟨hLegal, hNext⟩ := legalHistory_calls (A := A) h hRd
      (applyCommitted A s rd.committedEntries)
    obtain ⟨hLegalRest, hLast⟩ := ih hNext hRest
    have hLength : applied + (committedOf (rd :: readys)).length =
        applied + rd.committedEntries.length + (committedOf readys).length := by
      rw [committedOf, List.flatMap_cons, List.length_append, ← Nat.add_assoc]
      rfl
    rw [callsOf, legalHistory_append, afterAll_append, hLength]
    exact ⟨⟨hLegal, hLegalRest⟩, hLast⟩

/-- The snapshot check in terms of its storage calls. -/
theorem snapshotCheck_eq (n : Node σ) (committed : List Entry) :
    snapshotCheck enc A n committed =
      (n.storage.run enc (snapshotCalls A n.state n.storage.mem.firstIndex committed)).map
        fun storage => ⟨storage, n.state⟩ := by
  unfold snapshotCheck snapshotCalls
  cases committed.getLast? with
  | none => rfl
  | some e =>
    dsimp only
    split_ifs
    · cases A.getSnapshot n.state with
      | none => rfl
      | some data =>
        dsimp only
        rw [DiskStorage.run, List.foldlM_cons, DiskStorage.exec]
        cases n.storage.createSnapshot enc e.index (some runConfState) data <;> rfl
    · rfl

/-- An iteration in terms of its storage calls. -/
theorem processReady_eq (n : Node σ) (hSnap : isEmptySnap rd.snapshot = true) :
    processReady enc A n rd =
      (n.storage.run enc (rd.calls A (applyCommitted A n.state rd.committedEntries)
        n.storage.mem.firstIndex)).map
        fun storage => ⟨storage, applyCommitted A n.state rd.committedEntries⟩ := by
  rw [processReady, Ready.calls, DiskStorage.run, List.foldlM_cons, DiskStorage.exec]
  cases hSave : n.storage.save enc rd.entries rd.hardState with
  | error p => rfl
  | ok storage =>
    have hFirst : storage.mem.firstIndex = n.storage.mem.firstIndex :=
      congrArg (· + 1) (save_snapshot hSave).2
    dsimp only
    rw [snapshotCheck_eq]
    dsimp only
    rw [hFirst]
    change _ = Except.map _ (storage.run enc _)
    cases storage.run enc (snapshotCalls A (applyCommitted A n.state rd.committedEntries)
        n.storage.mem.firstIndex rd.committedEntries) with
    | error p => rfl
    | ok storage => simp [Except.map, installSnapshot, hSnap]

/-- An iteration does not panic. -/
theorem processReady_of_follows (h : Progress n.storage.mem applied)
    (hRd : rd.Follows n.storage.mem applied) :
    ∃ n', processReady enc A n rd = .ok n' ∧
      n'.state = applyCommitted A n.state rd.committedEntries ∧
      n'.storage.mem = afterAll n.storage.mem (rd.calls A n'.state n.storage.mem.firstIndex) ∧
      n'.storage.wal = n.storage.wal ++ Saved.frames enc
        (recordsOf n.storage.mem (rd.calls A n'.state n.storage.mem.firstIndex)) := by
  rw [processReady_eq n hRd.noSnapshot, run_of_legal h.wellFormed (legalHistory_calls h hRd _).1]
  exact ⟨_, rfl, rfl, rfl, rfl⟩

/-- A run does not panic, its storage is the one of its calls, and the applier has applied
the committed entries. -/
theorem run_of_delivers (h : Progress n.storage.mem applied)
    (hReadys : Delivers A n.storage.mem n.state applied readys) :
    ∃ n', run enc A n readys = .ok n' ∧
      n'.storage.mem = afterAll n.storage.mem (callsOf A n.storage.mem n.state readys) ∧
      n'.storage.wal = n.storage.wal ++
        Saved.frames enc (recordsOf n.storage.mem (callsOf A n.storage.mem n.state readys)) ∧
      n'.state = applyCommitted A n.state (committedOf readys) := by
  induction readys generalizing n applied with
  | nil => exact ⟨n, rfl, rfl, by simp [callsOf, recordsOf, Saved.frames], rfl⟩
  | cons rd readys ih =>
    obtain ⟨hRd, hRest⟩ := hReadys
    obtain ⟨n₁, (hStep : processReady enc A n rd = .ok n₁), hState₁, hMem₁, hWal₁⟩ :=
      processReady_of_follows h hRd
    have hNext := (legalHistory_calls (A := A) h hRd n₁.state).2
    rw [← hState₁, ← hMem₁] at hRest
    rw [← hMem₁] at hNext
    obtain ⟨n', hRun, hMem, hWal, hState⟩ := ih hNext hRest
    have hCalls : callsOf A n.storage.mem n.state (rd :: readys) =
        rd.calls A n₁.state n.storage.mem.firstIndex ++
          callsOf A n₁.storage.mem n₁.state readys := by
      rw [callsOf, ← hState₁, ← hMem₁]
    rw [hCalls, recordsOf_append, Saved.frames_append, afterAll_append, ← hMem₁,
      ← List.append_assoc, ← hWal₁]
    refine ⟨n', ?_, hMem, hWal, ?_⟩
    · rw [run, List.foldlM_cons, hStep]
      exact hRun
    · rw [hState, hState₁]
      exact (List.foldl_append ..).symm

/-! ## Runs without snapshots -/

/-- Snapshots are taken at higher and higher indices. -/
theorem snapshot_index_le {calls : List DiskCall} (h : ms.WellFormed)
    (hLegal : LegalHistory ms calls) :
    ms.snapshot.metadata.index ≤ (afterAll ms calls).snapshot.metadata.index := by
  induction calls generalizing ms with
  | nil => exact le_rfl
  | cons call calls ih =>
    refine le_trans ?_ (ih (wellFormed_after h hLegal.1) hLegal.2)
    cases call with
    | save entries state =>
      simp only [DiskCall.after, MemoryStorage.updateHardState, MemoryStorage.splice]
      cases entries <;> split_ifs <;> exact le_rfl
    | createSnapshot i cs data =>
      have hFirst := hLegal.1.1
      change ms.snapshot.metadata.index ≤ i
      rw [← h.offset_eq]
      unfold MemoryStorage.firstIndex at hFirst
      omega

/-- Saving a `Ready` keeps the entries that have been applied. -/
theorem take_saved (h : Progress ms applied) (hRd : rd.Follows ms applied)
    (hOffset : ms.offset = 0) : (rd.saved ms).ents.take applied = ms.ents.take applied := by
  have hEnts : (rd.saved ms).ents = (ms.splice rd.entries).ents := by
    unfold Ready.saved MemoryStorage.updateHardState
    split_ifs <;> rfl
  rw [hEnts]
  cases hEntries : rd.entries with
  | nil => rfl
  | cons e entries =>
    have hFits := hRd.fits e (by rw [hEntries]; rfl)
    have hNew := hRd.uncommitted e (by rw [hEntries]; rfl)
    have hApplied := h.applied_le
    change (ms.ents.take (e.index - ms.firstIndex) ++ e :: entries).take applied = _
    have hFirst : ms.firstIndex = 1 := congrArg (· + 1) hOffset
    have hLen := MemoryStorage.length_take hFits.2.1
    rw [List.take_append_of_le_length (by omega), List.take_take, min_eq_left (by omega)]

/-- An iteration after which the storage has no snapshot only saves. -/
theorem calls_of_no_snapshot {fi : Nat}
    (hNone : (afterAll ms (rd.calls A s fi)).snapshot.metadata.index = 0) :
    rd.calls A s fi = [.save rd.entries rd.hardState] := by
  rcases snapshotCalls_cases A s fi rd.committedEntries with h | ⟨e, data, -, hFirst, h⟩
  · rw [Ready.calls, h]
  · rw [Ready.calls, h] at hNone
    have hZero : e.index = 0 := hNone
    omega

/-- Without snapshots nothing is lost, and the log begins with what has been applied. -/
theorem take_afterAll (h : Progress ms applied) (hOffset : ms.offset = 0)
    (hReadys : Delivers A ms s applied readys)
    (hNone : (afterAll ms (callsOf A ms s readys)).snapshot.metadata.index = 0) :
    Covered ms false (callsOf A ms s readys) ∧
      (afterAll ms (callsOf A ms s readys)).ents.take (applied + (committedOf readys).length) =
        ms.ents.take applied ++ committedOf readys := by
  induction readys generalizing ms s applied with
  | nil => exact ⟨rfl, by simp [callsOf, afterAll, committedOf]⟩
  | cons rd readys ih =>
    obtain ⟨hRd, hRest⟩ := hReadys
    have hNext := (legalHistory_calls (A := A) h hRd (applyCommitted A s rd.committedEntries)).2
    -- a later snapshot would still be there at the end
    rw [callsOf, afterAll_append] at hNone ⊢
    have hNow := snapshot_index_le hNext.wellFormed (legalHistory_callsOf hNext hRest).1
    rw [hNone, Nat.le_zero] at hNow
    rw [calls_of_no_snapshot hNow] at hNext hRest hNone ⊢
    obtain ⟨hCovered, hTake⟩ := ih hNext (offset_saved.trans hOffset) hRest hNone
    have hCommitted := List.prefix_iff_eq_take.mp hRd.committed
    rw [hOffset, Nat.sub_zero] at hCommitted
    refine ⟨⟨fun hLost => absurd hLost (by decide), hCovered⟩, ?_⟩
    rw [committedOf, List.flatMap_cons, List.length_append, ← Nat.add_assoc, ← committedOf]
    refine hTake.trans ?_
    change (rd.saved ms).ents.take (applied + rd.committedEntries.length) ++ _ = _
    rw [List.take_add, take_saved h hRd hOffset, ← hCommitted, List.append_assoc]

/-! ## Restart -/

/-- The entries that are delivered again are the ones up to the commit index. -/
theorem committed_eq_take (h : ms.WellFormed) :
    ms.committed = ms.ents.take (ms.hardState.commit - ms.offset) := by
  rw [MemoryStorage.committed, h.contiguous.filter_index_le, MemoryStorage.firstIndex,
    Nat.add_sub_add_right]

end Run

/-- Raft delivers the committed entries of the log again, and only those, to a node that is
started on it. -/
def Redelivers (ms : MemoryStorage) (fresh : σ) (readys : List Ready) : Prop :=
  Delivers A ms fresh ms.offset readys ∧ committedOf readys = ms.committed

/-- The file of the node can be opened with a fresh applier, raft can deliver the committed
entries again, and every time it does so the applier ends in the state of the node. -/
def Recovers (enc : Encoding) (fresh : σ) (n : Node σ) : Prop :=
  ∃ n₀ start, newNode enc n.storage.wal fresh = .ok (n₀, start) ∧
    (∃ readys, Redelivers A n₀.storage.mem fresh readys) ∧
    ∀ readys, Redelivers A n₀.storage.mem fresh readys →
      ∃ n₁, run enc A n₀ readys = .ok n₁ ∧ n₁.state = n.state

variable {A} in
/-- All committed entries in one `Ready`. -/
theorem redelivers_committed {ms : MemoryStorage} (fresh : σ) (h : Progress ms ms.offset) :
    Redelivers A ms fresh [⟨[], ⟨0, 0, 0⟩, Snapshot.zero, ms.committed⟩] := by
  have hCommitted := committed_eq_take h.wellFormed
  refine ⟨⟨⟨rfl, fun _ he => (Option.not_mem_none _ he).elim,
    fun _ he => (Option.not_mem_none _ he).elim, le_rfl, h.commit_le, ?_, ?_⟩, trivial⟩,
    by simp [committedOf]⟩
  · change ms.committed <+: ms.ents.drop (ms.offset - ms.offset)
    rw [hCommitted, Nat.sub_self, List.drop_zero]
    exact List.take_prefix _ _
  · change ms.offset + ms.committed.length ≤ ms.hardState.commit
    have hOffset := h.applied_le
    rw [hCommitted, List.length_take]
    omega

/-- A node that has applied all that is committed and has taken no snapshot is recovered. -/
theorem recovers_of_no_snapshot (enc : Encoding) (fresh : σ) {readys : List Ready}
    (hReadys : Delivers A newMemoryStorage fresh 0 readys)
    (hLen : ∀ r ∈ recordsOf newMemoryStorage (callsOf A newMemoryStorage fresh readys),
      (r.bytes enc).length < 2 ^ 32) :
    ∃ n, run enc A ⟨DiskStorage.empty, fresh⟩ readys = .ok n ∧
      (n.storage.mem.hardState.commit = (committedOf readys).length →
        n.storage.mem.snapshot.metadata.index = 0 → Recovers A enc fresh n) := by
  obtain ⟨n, (hRun : run enc A ⟨DiskStorage.empty, fresh⟩ readys = .ok n), hMem, hWal, hState⟩ :=
    run_of_delivers (n := ⟨DiskStorage.empty, fresh⟩) progress_new hReadys
  refine ⟨n, hRun, fun hStop hNone => ?_⟩
  simp only [DiskStorage.empty, List.nil_append] at hMem hWal
  obtain ⟨hLegal, hProgress⟩ := legalHistory_callsOf progress_new hReadys
  obtain ⟨hCovered, hTake⟩ := take_afterAll progress_new rfl hReadys (hMem ▸ hNone)
  have hOpen := newDiskStorage_of_covered hLegal hCovered hLen
  rw [← hMem, ← hWal] at hOpen
  rw [← hMem] at hProgress
  rw [← hMem, Nat.zero_add] at hTake
  -- the whole log is there, so the same entries are delivered again
  have hOffset : n.storage.mem.offset = 0 := hProgress.wellFormed.offset_eq.trans hNone
  have hAgain : n.storage.mem.committed = committedOf readys := by
    rw [committed_eq_take hProgress.wellFormed, hOffset, Nat.sub_zero, hStop, hTake]
    rfl
  have hStart : Progress n.storage.mem n.storage.mem.offset :=
    ⟨hProgress.wellFormed, le_rfl, hProgress.offset_le.trans hProgress.applied_le,
      hProgress.commit_le⟩
  refine ⟨⟨n.storage, fresh⟩, _, by rw [newNode, hOpen], ⟨_, redelivers_committed fresh hStart⟩, ?_⟩
  rintro readys' ⟨hReadys', hSame⟩
  obtain ⟨n₁, hRun₁, -, -, hState₁⟩ := run_of_delivers (n := ⟨n.storage, fresh⟩) hStart hReadys'
  exact ⟨n₁, hRun₁, by rw [hState₁, hState, hSame, hAgain]⟩

/-- Empty entries and then a write, as new and committed entries in one `Ready`. -/
def writeAfter (empty : Nat) : Ready :=
  let entries := (List.range empty).map (fun i => ⟨1, i + 1, .normal, none⟩) ++
    [⟨1, empty + 1, .normal, some Shard.oneShotOfA⟩]
  ⟨entries, ⟨1, 0, empty + 1⟩, Snapshot.zero, entries⟩

/-- The state machine of a shard without SQL. -/
def sampleApplier : Applier MemoryStore := applierAdapter objectLine Shard.noSql

/-- A shard with one write and no snapshot is recovered. -/
theorem recovers_writeAfter_one :
    ∃ n, run plainEncoding sampleApplier ⟨DiskStorage.empty, newMemoryStore⟩ [writeAfter 1] =
        .ok n ∧ Recovers sampleApplier plainEncoding newMemoryStore n := by
  have hReadys : Delivers sampleApplier newMemoryStorage newMemoryStore 0 [writeAfter 1] := by
    refine ⟨⟨?_, ?_, ?_, ?_, ?_, ?_, ?_⟩, trivial⟩ <;> decide
  obtain ⟨n, hRun, hRecovers⟩ := recovers_of_no_snapshot sampleApplier plainEncoding newMemoryStore
    hReadys (by decide)
  obtain ⟨n', hRun', hMem, -, -⟩ :=
    run_of_delivers (n := ⟨DiskStorage.empty, newMemoryStore⟩) progress_new hReadys
  cases hRun.symm.trans hRun'
  exact ⟨n, hRun, hRecovers (by rw [hMem]; decide) (by rw [hMem]; decide)⟩

/-- With fifty-two entries `Run` takes a snapshot, and the write is missing after a restart. -/
theorem not_recovers :
    ¬ ∀ (σ : Type) (A : Applier σ) (enc : Encoding) (fresh : σ) (readys : List Ready) (n : Node σ),
      Delivers A newMemoryStorage fresh 0 readys →
      (∀ r ∈ recordsOf newMemoryStorage (callsOf A newMemoryStorage fresh readys),
        (r.bytes enc).length < 2 ^ 32) →
      run enc A ⟨DiskStorage.empty, fresh⟩ readys = .ok n →
      n.storage.mem.hardState.commit = (committedOf readys).length → Recovers A enc fresh n := by
  intro hAll
  have hReadys : Delivers sampleApplier newMemoryStorage newMemoryStore 0 [writeAfter 51] := by
    refine ⟨⟨?_, ?_, ?_, ?_, ?_, ?_, ?_⟩, trivial⟩ <;> decide
  have hLen : ∀ r ∈ recordsOf newMemoryStorage
      (callsOf sampleApplier newMemoryStorage newMemoryStore [writeAfter 51]),
      (r.bytes plainEncoding).length < 2 ^ 32 := by
    decide +kernel
  obtain ⟨n, (hRun : run plainEncoding _ _ _ = .ok n), hMem, hWal, hState⟩ :=
    run_of_delivers (n := ⟨DiskStorage.empty, newMemoryStore⟩) progress_new hReadys
  simp only [DiskStorage.empty, List.nil_append] at hMem hWal
  obtain ⟨n₀, start, hNew, -, hAgain⟩ := hAll _ _ _ _ _ n hReadys hLen hRun (by rw [hMem]; decide)
  have hOpen := newDiskStorage_of_covered (legalHistory_callsOf progress_new hReadys).1 (by decide)
    hLen
  rw [newNode, hWal, hOpen] at hNew
  cases hNew
  -- the reopened log has no entry, so nothing is delivered again
  obtain ⟨n₁, hRun₁, hSame⟩ := hAgain [] ⟨trivial, by decide⟩
  cases hRun₁
  rw [hState] at hSame
  revert hSame
  decide

end ShardDB.Raft
