import ShardDB.Raft.DiskStorage

/-!
# Log compaction and reopening

A history of `DiskStorage` is a sequence of `Save` and `CreateSnapshot` calls. The live
storage takes a snapshot with `CreateSnapshot` and `Compact`, which keep the entries after the
snapshot. A replay takes the snapshot record with `ApplySnapshot`, which drops them, and their
own records stand before the snapshot record. So a snapshot below the last index loses the
tail of the log on the next restart (`not_survives`).

A replay is therefore in one of two states: it equals the live storage, or it has lost its
tail (`MemoryStorage.surviving`). In the second state, a `Save` that starts right after the
snapshot writes the whole tail again and the two storages are equal from then on; one that
starts later makes the replay panic. `survives_iff_covered` is the exact condition on a
history for no entry to be lost.
-/

namespace ShardDB.Raft

open ShardDB.Lib ShardDB.Storage

/-! ## Histories -/

/-- A call to the storage. -/
inductive DiskCall where
  | save (entries : List Entry) (state : HardState)
  | createSnapshot (i : Nat) (cs : Option ConfState) (data : Slice)
  deriving DecidableEq

namespace DiskStorage

/-- The storage after opening an empty file. -/
def empty : DiskStorage := ⟨newMemoryStorage, []⟩

theorem newDiskStorage_nil (enc : Encoding) : newDiskStorage enc [] = .ok empty := by
  simp [newDiskStorage, Wal.iterate_nil, empty]

def exec (enc : Encoding) (ds : DiskStorage) : DiskCall → Except Panic DiskStorage
  | .save entries state => ds.save enc entries state
  | .createSnapshot i cs data => (ds.createSnapshot enc i cs data).map Prod.fst

def run (enc : Encoding) (ds : DiskStorage) (calls : List DiskCall) : Except Panic DiskStorage :=
  calls.foldlM (exec enc) ds

end DiskStorage

namespace MemoryStorage

/-- The log with everything from the first index of the batch on replaced by the batch. -/
def splice (ms : MemoryStorage) : List Entry → MemoryStorage
  | [] => ms
  | e :: entries => { ms with ents := ms.ents.take (e.index - ms.firstIndex) ++ e :: entries }

def updateHardState (ms : MemoryStorage) (state : HardState) : MemoryStorage :=
  if isEmptyHardState state then ms else ms.setHardState state

/-- The storage after a snapshot at one of its entries and the compaction that follows. -/
def snapshotAt (ms : MemoryStorage) (i : Nat) (cs : Option ConfState) (data : Slice) :
    MemoryStorage :=
  let term := (ms.term i).getD 0
  { ms with
    snapshot := ⟨data, ⟨cs.getD ms.snapshot.metadata.confState, i, term⟩⟩
    offset := i
    offsetTerm := term
    ents := ms.ents.drop (i - ms.offset) }

end MemoryStorage

namespace DiskCall

/-- Batches start in the log or right after it, and snapshots are taken at entries. -/
def Legal (ms : MemoryStorage) : DiskCall → Prop
  | save entries _ => ms.Fits entries
  | createSnapshot i _ _ => ms.firstIndex ≤ i ∧ i ≤ ms.lastIndex

instance (ms : MemoryStorage) : (call : DiskCall) → Decidable (call.Legal ms)
  | save entries _ => inferInstanceAs (Decidable (ms.Fits entries))
  | createSnapshot i _ _ => inferInstanceAs (Decidable (ms.firstIndex ≤ i ∧ i ≤ ms.lastIndex))

/-- The memory after a legal call. -/
def after (ms : MemoryStorage) : DiskCall → MemoryStorage
  | save entries state => (ms.splice entries).updateHardState state
  | createSnapshot i cs data => ms.snapshotAt i cs data

/-- The records that a legal call writes. -/
def records (ms : MemoryStorage) : DiskCall → List Saved
  | save entries state => Saved.ofSave entries state
  | createSnapshot i cs data => [.snapshot (ms.snapshotAt i cs data).snapshot]

end DiskCall

/-- Every call of a history is legal. -/
def LegalHistory : MemoryStorage → List DiskCall → Prop
  | _, [] => True
  | ms, call :: calls => call.Legal ms ∧ LegalHistory (call.after ms) calls

instance instDecidableLegalHistory :
    (ms : MemoryStorage) → (calls : List DiskCall) → Decidable (LegalHistory ms calls)
  | _, [] => .isTrue trivial
  | ms, call :: calls =>
    have := instDecidableLegalHistory (call.after ms) calls
    inferInstanceAs (Decidable (call.Legal ms ∧ LegalHistory (call.after ms) calls))

/-- The records that a history writes. -/
def recordsOf : MemoryStorage → List DiskCall → List Saved
  | _, [] => []
  | ms, call :: calls => call.records ms ++ recordsOf (call.after ms) calls

/-- The memory after a history. -/
def afterAll (ms : MemoryStorage) (calls : List DiskCall) : MemoryStorage :=
  calls.foldl DiskCall.after ms

theorem afterAll_append (ms : MemoryStorage) (calls calls' : List DiskCall) :
    afterAll ms (calls ++ calls') = afterAll (afterAll ms calls) calls' := List.foldl_append

theorem legalHistory_append {ms : MemoryStorage} {calls calls' : List DiskCall} :
    LegalHistory ms (calls ++ calls') ↔
      LegalHistory ms calls ∧ LegalHistory (afterAll ms calls) calls' := by
  induction calls generalizing ms with
  | nil => simp [LegalHistory, afterAll]
  | cons call calls ih =>
    rw [List.cons_append, LegalHistory, LegalHistory, ih, and_assoc]
    rfl

theorem recordsOf_append (ms : MemoryStorage) (calls calls' : List DiskCall) :
    recordsOf ms (calls ++ calls') =
      recordsOf ms calls ++ recordsOf (afterAll ms calls) calls' := by
  induction calls generalizing ms with
  | nil => rfl
  | cons call calls ih =>
    rw [List.cons_append, recordsOf, recordsOf, ih, List.append_assoc]
    rfl

/-! ## Calls of a legal history -/

namespace MemoryStorage

variable {ms : MemoryStorage} {entries : List Entry} {i : Nat}

theorem append_of_fits (h : ms.Fits entries) : ms.append entries = .ok (ms.splice entries) := by
  cases entries with
  | nil => rfl
  | cons e entries =>
    obtain ⟨hFirst, hLast, -⟩ := h e rfl
    exact append_cons hFirst hLast

theorem save_of_fits (h : ms.Fits entries) (state : HardState) :
    ms.save entries state = .ok ((ms.splice entries).updateHardState state) := by
  rw [save, append_of_fits h]
  rfl

theorem WellFormed.updateHardState (h : ms.WellFormed) (state : HardState) :
    (ms.updateHardState state).WellFormed := by
  unfold MemoryStorage.updateHardState
  split_ifs
  · exact h
  · exact ⟨h.contiguous, h.offset_eq⟩

theorem WellFormed.splice (h : ms.WellFormed) (hFits : ms.Fits entries) :
    (ms.splice entries).WellFormed := by
  cases entries with
  | nil => exact h
  | cons e entries =>
    obtain ⟨hFirst, hLast, hBatch⟩ := hFits e rfl
    refine ⟨?_, h.offset_eq⟩
    change Contiguous ms.firstIndex (ms.ents.take (e.index - ms.firstIndex) ++ e :: entries)
    rw [Contiguous.append_iff, length_take hLast, Nat.add_sub_cancel' hFirst]
    exact ⟨h.contiguous.take _, hBatch⟩

/-- A legal snapshot is taken at an entry of the log. -/
theorem WellFormed.entryAt (h : ms.WellFormed) (hFirst : ms.firstIndex ≤ i)
    (hLast : i ≤ ms.lastIndex) :
    ∃ e, ms.entryAt i = some e ∧ e.index = i ∧ ms.term i = some e.term := by
  unfold MemoryStorage.entryAt MemoryStorage.term MemoryStorage.entryAt
  have hOffset : ¬ i ≤ ms.offset := by
    unfold firstIndex at hFirst
    omega
  have hLt : i - ms.firstIndex < ms.ents.length := by
    unfold firstIndex lastIndex at *
    omega
  rw [if_neg hOffset, if_neg (by omega), List.getElem?_eq_getElem hLt]
  refine ⟨_, rfl, ?_, rfl⟩
  have := h.contiguous.index_of_getElem? (List.getElem?_eq_getElem hLt)
  omega

theorem WellFormed.snapshotAt (h : ms.WellFormed) (hFirst : ms.firstIndex ≤ i)
    (hLast : i ≤ ms.lastIndex) (cs : Option ConfState) (data : Slice) :
    (ms.snapshotAt i cs data).WellFormed := by
  refine ⟨?_, rfl⟩
  change Contiguous (i + 1) (ms.ents.drop (i - ms.offset))
  have hDrop := h.contiguous.drop (i - ms.offset) (by unfold lastIndex at hLast; omega)
  have hIndex : ms.firstIndex + (i - ms.offset) = i + 1 := by
    unfold firstIndex at *
    omega
  rwa [hIndex] at hDrop

end MemoryStorage

section Histories

variable {enc : Encoding} {ds : DiskStorage} {ms : MemoryStorage} {call : DiskCall}
  {calls : List DiskCall}

theorem wellFormed_after (h : ms.WellFormed) (hLegal : call.Legal ms) :
    (call.after ms).WellFormed := by
  cases call with
  | save entries state => exact (h.splice hLegal).updateHardState state
  | createSnapshot i cs data => exact h.snapshotAt hLegal.1 hLegal.2 cs data

/-- A legal call does not panic. -/
theorem exec_of_legal (h : ds.mem.WellFormed) (hLegal : call.Legal ds.mem) :
    ds.exec enc call =
      .ok ⟨call.after ds.mem, ds.wal ++ Saved.frames enc (call.records ds.mem)⟩ := by
  cases call with
  | save entries state =>
    rw [DiskStorage.exec, DiskStorage.save_eq, MemoryStorage.save_of_fits hLegal]
    rfl
  | createSnapshot i cs data =>
    obtain ⟨hFirst, hLast⟩ := hLegal
    obtain ⟨e, hEntry, hIndex, hTerm⟩ := h.entryAt hFirst hLast
    have hOffset : ¬ i ≤ ds.mem.offset := by
      unfold MemoryStorage.firstIndex at hFirst
      omega
    have hCreate : ds.mem.createSnapshot i cs data =
        .ok ({ ds.mem with snapshot := (ds.mem.snapshotAt i cs data).snapshot },
          .ok (ds.mem.snapshotAt i cs data).snapshot) := by
      rw [MemoryStorage.createSnapshot, if_neg (h.offset_eq ▸ hOffset), hTerm]
      simp only [MemoryStorage.snapshotAt, hTerm, Option.getD_some]
    have hCompact : ({ ds.mem with snapshot := (ds.mem.snapshotAt i cs data).snapshot } :
        MemoryStorage).compact i = .ok (.ok (ds.mem.snapshotAt i cs data)) := by
      have hEntry' : ({ ds.mem with snapshot := (ds.mem.snapshotAt i cs data).snapshot } :
        MemoryStorage).entryAt i = some e := hEntry
      rw [MemoryStorage.compact, if_neg hOffset, hEntry']
      simp only [MemoryStorage.snapshotAt, hTerm, Option.getD_some, hIndex]
    rw [DiskStorage.exec, DiskStorage.createSnapshot, hCreate]
    simp only [DiskStorage.writeRecord, hCompact, Except.map, DiskCall.after, DiskCall.records,
      Saved.frames, List.map_cons, List.map_nil, List.flatMap_cons, List.flatMap_nil,
      List.append_nil, Saved.bytes, Wal.append]

theorem wellFormed_afterAll (h : ms.WellFormed) (hLegal : LegalHistory ms calls) :
    (afterAll ms calls).WellFormed := by
  induction calls generalizing ms with
  | nil => exact h
  | cons call calls ih => exact ih (wellFormed_after h hLegal.1) hLegal.2

/-- A legal history does not panic, and its records are what the file consists of. -/
theorem run_of_legal (h : ds.mem.WellFormed) (hLegal : LegalHistory ds.mem calls) :
    ds.run enc calls =
      .ok ⟨afterAll ds.mem calls, ds.wal ++ Saved.frames enc (recordsOf ds.mem calls)⟩ := by
  induction calls generalizing ds with
  | nil => simp [DiskStorage.run, afterAll, recordsOf, Saved.frames, pure, Except.pure]
  | cons call calls ih =>
    rw [DiskStorage.run, List.foldlM_cons, exec_of_legal h hLegal.1]
    refine (ih (wellFormed_after h hLegal.1) hLegal.2).trans ?_
    simp only [recordsOf, Saved.frames_append, List.append_assoc]
    rfl

end Histories

/-! ## The replay -/

namespace MemoryStorage

/-- A replayed storage: the live one, or the live one without the tail of its log. -/
def surviving (ms : MemoryStorage) (lost : Bool) : MemoryStorage :=
  if lost then { ms with ents := [] } else ms

theorem surviving_false (ms : MemoryStorage) : ms.surviving false = ms := rfl

end MemoryStorage

namespace DiskCall

/-- The replay can go on after a lost tail: a batch has to start right after the snapshot. -/
def Bridges (ms : MemoryStorage) (lost : Bool) : DiskCall → Prop
  | save entries _ => lost = true → ∀ e ∈ entries.head?, e.index = ms.firstIndex
  | createSnapshot _ _ _ => True

instance (ms : MemoryStorage) (lost : Bool) : (call : DiskCall) → Decidable (call.Bridges ms lost)
  | save entries _ =>
    inferInstanceAs (Decidable (lost = true → ∀ e ∈ entries.head?, e.index = ms.firstIndex))
  | createSnapshot _ _ _ => .isTrue trivial

/-- Whether the tail is lost after the call: a batch writes it again, a snapshot below the
last index loses it. -/
def lostAfter (ms : MemoryStorage) (lost : Bool) : DiskCall → Bool
  | save entries _ => lost && entries.isEmpty
  | createSnapshot i _ _ => i < ms.lastIndex

end DiskCall

/-- No tail is lost at the end of the history, and each batch after a lost tail starts right
after the snapshot. -/
def Covered : MemoryStorage → Bool → List DiskCall → Prop
  | _, lost, [] => lost = false
  | ms, lost, call :: calls =>
    call.Bridges ms lost ∧ Covered (call.after ms) (call.lostAfter ms lost) calls

instance instDecidableCovered : (ms : MemoryStorage) → (lost : Bool) → (calls : List DiskCall) →
    Decidable (Covered ms lost calls)
  | _, lost, [] => inferInstanceAs (Decidable (lost = false))
  | ms, lost, call :: calls =>
    have := instDecidableCovered (call.after ms) (call.lostAfter ms lost) calls
    inferInstanceAs (Decidable (call.Bridges ms lost ∧
      Covered (call.after ms) (call.lostAfter ms lost) calls))

section Replay

variable {ms : MemoryStorage} {lost : Bool} {call : DiskCall} {calls : List DiskCall}
  {entries : List Entry}

/-- The replay of a batch, one entry at a time. -/
theorem replay_entries (h : ms.Fits entries) :
    (entries.map Saved.entry).foldlM Saved.replay ms = .ok (ms.splice entries) := by
  rw [← MemoryStorage.append_of_fits h]
  induction entries generalizing ms with
  | nil => rfl
  | cons e entries ih =>
    obtain ⟨hFirst, hLast, hBatch⟩ := h e rfl
    rw [List.map_cons, List.foldlM_cons]
    cases entries with
    | nil =>
      change (ms.append [e] >>= pure) = _
      rw [bind_pure]
    | cons x entries =>
      have hNext : x.index = e.index + 1 := hBatch.2.1
      rw [← MemoryStorage.append_cons_cons hFirst hLast hNext]
      change (ms.append [e] >>= _) = _
      rw [MemoryStorage.append_cons hFirst hLast]
      refine ih fun y hy => ?_
      cases hy
      refine ⟨?_, ?_, hNext ▸ hBatch.2⟩
      · change ms.firstIndex ≤ x.index
        omega
      · unfold MemoryStorage.lastIndex
        dsimp only
        rw [List.length_append, MemoryStorage.length_take hLast, List.length_singleton]
        unfold MemoryStorage.firstIndex at *
        omega

theorem replay_hardState (ms : MemoryStorage) (state : HardState) :
    (if isEmptyHardState state then [] else [Saved.hardState state]).foldlM Saved.replay ms =
      .ok (ms.updateHardState state) := by
  unfold MemoryStorage.updateHardState
  split_ifs <;> rfl

theorem replay_save (h : ms.Fits entries) (state : HardState) :
    (Saved.ofSave entries state).foldlM Saved.replay ms =
      .ok ((ms.splice entries).updateHardState state) := by
  rw [Saved.ofSave, List.foldlM_append, replay_entries h]
  exact replay_hardState _ state

/-- A batch that starts after the lost tail cannot be replayed. -/
theorem replay_save_error {e : Entry} (h : ms.lastIndex + 1 < e.index) (state : HardState) :
    (Saved.ofSave (e :: entries) state).foldlM Saved.replay ms = .error .missingLogEntry := by
  rw [Saved.ofSave, List.map_cons, List.cons_append, List.foldlM_cons]
  change (ms.append [e] >>= _) = _
  rw [MemoryStorage.append_cons_error h]
  rfl

theorem surviving_updateHardState (state : HardState) :
    (ms.surviving lost).updateHardState state = (ms.updateHardState state).surviving lost := by
  unfold MemoryStorage.surviving MemoryStorage.updateHardState
  split_ifs <;> rfl

/-- The replay of the records of one call. -/
theorem replay_call (h : ms.WellFormed) (hLegal : call.Legal ms) (hBridges : call.Bridges ms lost) :
    (call.records ms).foldlM Saved.replay (ms.surviving lost) =
      .ok ((call.after ms).surviving (call.lostAfter ms lost)) := by
  cases call with
  | save entries state =>
    rw [DiskCall.after, ← surviving_updateHardState]
    cases lost with
    | false => exact replay_save hLegal state
    | true =>
      cases entries with
      | nil => exact replay_save (fun _ he => by cases he) state
      | cons e entries =>
        -- the batch starts right after the snapshot, so nothing of the old tail stays
        have hFirst : e.index = ms.firstIndex := hBridges rfl e rfl
        obtain ⟨-, -, hBatch⟩ := hLegal e rfl
        have hFits : (ms.surviving true).Fits (e :: entries) := by
          intro x hx
          cases hx
          exact ⟨hFirst.ge, hFirst.le, hBatch⟩
        refine (replay_save hFits state).trans ?_
        simp only [MemoryStorage.surviving, MemoryStorage.splice, hFirst, if_true, Nat.sub_self,
          List.take_zero, DiskCall.lostAfter, List.isEmpty_cons, Bool.and_false, Bool.false_eq_true,
          if_false, MemoryStorage.firstIndex]
  | createSnapshot i cs data =>
    obtain ⟨hFirst, hLast⟩ := hLegal
    have hNew : ¬ (ms.surviving lost).snapshot.metadata.index ≥ i := by
      have hSame : (ms.surviving lost).snapshot = ms.snapshot := by cases lost <;> rfl
      rw [hSame, ← h.offset_eq]
      unfold MemoryStorage.firstIndex at hFirst
      omega
    have hApply : (ms.surviving lost).applySnapshot (ms.snapshotAt i cs data).snapshot =
        .ok ((ms.snapshotAt i cs data).surviving true) := by
      rw [MemoryStorage.applySnapshot]
      change (if (ms.surviving lost).snapshot.metadata.index ≥ i then _ else _) = _
      rw [if_neg hNew]
      cases lost <;> rfl
    rw [DiskCall.records, List.foldlM_cons, Saved.replay, hApply]
    change Except.ok ((ms.snapshotAt i cs data).surviving true) = _
    by_cases hTail : i < ms.lastIndex
    · simp only [DiskCall.after, DiskCall.lostAfter, hTail, decide_true]
    · -- a snapshot at the last index leaves no tail
      have hAll : ms.ents.drop (i - ms.offset) = [] := by
        rw [List.drop_eq_nil_iff]
        unfold MemoryStorage.lastIndex at *
        omega
      simp only [DiskCall.after, DiskCall.lostAfter, hTail, decide_false,
        MemoryStorage.surviving, MemoryStorage.snapshotAt, hAll, if_true, Bool.false_eq_true,
        if_false]

theorem replay_call_error (hLegal : call.Legal ms) (hBridges : ¬ call.Bridges ms lost) :
    (call.records ms).foldlM Saved.replay (ms.surviving lost) = .error .missingLogEntry := by
  cases call with
  | createSnapshot i cs data => exact (hBridges trivial).elim
  | save entries state =>
    simp only [DiskCall.Bridges, Classical.not_imp, not_forall] at hBridges
    obtain ⟨rfl, e, he, hIndex⟩ := hBridges
    cases entries with
    | nil => cases he
    | cons x entries =>
      cases he
      have hFirst := (hLegal e rfl).1
      refine replay_save_error ?_ state
      change ms.offset + 0 + 1 < e.index
      unfold MemoryStorage.firstIndex at *
      omega

/-- Only a log with a tail can lose it. -/
theorem ents_ne_nil_after (hLegal : call.Legal ms) (h : lost = true → ms.ents ≠ [])
    (hLost : call.lostAfter ms lost = true) : (call.after ms).ents ≠ [] := by
  cases call with
  | save entries state =>
    simp only [DiskCall.lostAfter, Bool.and_eq_true, List.isEmpty_iff] at hLost
    obtain ⟨hLost, rfl⟩ := hLost
    have hSame : (DiskCall.after ms (.save [] state)).ents = ms.ents := by
      simp only [DiskCall.after, MemoryStorage.splice, MemoryStorage.updateHardState]
      split_ifs <;> rfl
    rw [hSame]
    exact h hLost
  | createSnapshot i cs data =>
    simp only [DiskCall.lostAfter, decide_eq_true_eq] at hLost
    change ms.ents.drop (i - ms.offset) ≠ []
    have hFirst := hLegal.1
    rw [Ne, List.drop_eq_nil_iff]
    unfold MemoryStorage.firstIndex MemoryStorage.lastIndex at *
    omega

/-- The replay of a whole history: it stops, or it ends with or without the tail of the log,
and the history tells which. -/
theorem replay_history (h : ms.WellFormed) (hLegal : LegalHistory ms calls)
    (hTail : lost = true → ms.ents ≠ []) :
    match (recordsOf ms calls).foldlM Saved.replay (ms.surviving lost) with
    | .error _ => ¬ Covered ms lost calls
    | .ok replayed => ∃ lost', replayed = (afterAll ms calls).surviving lost' ∧
        (lost' = true → (afterAll ms calls).ents ≠ []) ∧
        (Covered ms lost calls ↔ lost' = false) := by
  induction calls generalizing ms lost with
  | nil => exact ⟨lost, rfl, hTail, Iff.rfl⟩
  | cons call calls ih =>
    rw [recordsOf, List.foldlM_append]
    by_cases hBridges : call.Bridges ms lost
    · rw [replay_call h hLegal.1 hBridges]
      have hRest := ih (wellFormed_after h hLegal.1) hLegal.2
        (ents_ne_nil_after hLegal.1 hTail)
      have hCovered : Covered ms lost (call :: calls) ↔
          Covered (call.after ms) (call.lostAfter ms lost) calls := by
        simp only [Covered, hBridges, true_and]
      rw [hCovered]
      exact hRest
    · rw [replay_call_error hLegal.1 hBridges]
      exact fun hCovered => hBridges hCovered.1

end Replay

/-- Opening the file of a legal history: it fails, or it gives the live storage with or
without the tail of its log. -/
theorem newDiskStorage_history {enc : Encoding} {calls : List DiskCall}
    (hLegal : LegalHistory newMemoryStorage calls)
    (hLen : ∀ r ∈ recordsOf newMemoryStorage calls, (r.bytes enc).length < 2 ^ 32) :
    (∃ e, newDiskStorage enc (Saved.frames enc (recordsOf newMemoryStorage calls)) = .error e ∧
      ¬ Covered newMemoryStorage false calls) ∨
    ∃ lost, newDiskStorage enc (Saved.frames enc (recordsOf newMemoryStorage calls)) =
        .ok ⟨(afterAll newMemoryStorage calls).surviving lost,
          Saved.frames enc (recordsOf newMemoryStorage calls)⟩ ∧
      (lost = true → (afterAll newMemoryStorage calls).ents ≠ []) ∧
      (Covered newMemoryStorage false calls ↔ lost = false) := by
  have hReplay := @replay_history newMemoryStorage false calls MemoryStorage.wellFormed_new hLegal
    (by decide)
  rw [MemoryStorage.surviving_false] at hReplay
  rw [newDiskStorage_frames enc hLen]
  cases hFold : (recordsOf newMemoryStorage calls).foldlM Saved.replay newMemoryStorage with
  | error p =>
    rw [hFold] at hReplay
    exact Or.inl ⟨_, rfl, hReplay⟩
  | ok replayed =>
    rw [hFold] at hReplay
    obtain ⟨lost, rfl, hTail, hCovered⟩ := hReplay
    exact Or.inr ⟨lost, rfl, hTail, hCovered⟩

/-- Opening the file of a covered history gives the live storage. -/
theorem newDiskStorage_of_covered {enc : Encoding} {calls : List DiskCall}
    (hLegal : LegalHistory newMemoryStorage calls) (hCovered : Covered newMemoryStorage false calls)
    (hLen : ∀ r ∈ recordsOf newMemoryStorage calls, (r.bytes enc).length < 2 ^ 32) :
    newDiskStorage enc (Saved.frames enc (recordsOf newMemoryStorage calls)) =
      .ok ⟨afterAll newMemoryStorage calls,
        Saved.frames enc (recordsOf newMemoryStorage calls)⟩ := by
  rcases newDiskStorage_history hLegal hLen with ⟨_, -, hNot⟩ | ⟨lost, hOpen, -, hIff⟩
  · exact (hNot hCovered).elim
  · rwa [hIff.mp hCovered, MemoryStorage.surviving_false] at hOpen

/-! ## No entry is lost -/

/-- Reopening the file succeeds, and every entry above the last snapshot is in the storage. -/
def Survives (enc : Encoding) (ds : DiskStorage) : Prop :=
  ∃ ds', newDiskStorage enc ds.wal = .ok ds' ∧
    ∀ e ∈ ds.mem.ents, ds.mem.snapshot.metadata.index < e.index → e ∈ ds'.mem.ents

/-- Without the tail of the log, entries are missing. -/
theorem surviving_complete_iff {ms : MemoryStorage} {lost : Bool} (h : ms.WellFormed)
    (hTail : lost = true → ms.ents ≠ []) :
    (∀ e ∈ ms.ents, ms.snapshot.metadata.index < e.index → e ∈ (ms.surviving lost).ents) ↔
      lost = false := by
  cases lost with
  | false => exact iff_of_true (fun _ he _ => he) rfl
  | true =>
    refine iff_of_false (fun hAll => ?_) (by decide)
    obtain ⟨e, he⟩ := List.exists_mem_of_ne_nil _ (hTail rfl)
    have hIndex := (h.contiguous.index_of_mem he).1
    refine List.not_mem_nil (hAll e he ?_)
    rw [← h.offset_eq]
    exact hIndex

/-- A legal history loses no entry exactly if it is covered. -/
theorem survives_iff_covered (enc : Encoding) {calls : List DiskCall}
    (hLegal : LegalHistory newMemoryStorage calls)
    (hLen : ∀ r ∈ recordsOf newMemoryStorage calls, (r.bytes enc).length < 2 ^ 32) :
    ∃ ds, DiskStorage.empty.run enc calls = .ok ds ∧
      (Survives enc ds ↔ Covered newMemoryStorage false calls) := by
  have hWf := MemoryStorage.wellFormed_new
  refine ⟨_, run_of_legal hWf hLegal, ?_⟩
  simp only [Survives, DiskStorage.empty, List.nil_append]
  rcases newDiskStorage_history hLegal hLen with ⟨e, hOpen, hNot⟩ | ⟨lost, hOpen, hTail, hCovered⟩
  · rw [hOpen]
    exact iff_of_false (fun ⟨_, h, _⟩ => by cases h) hNot
  · rw [hOpen, hCovered, ← surviving_complete_iff (wellFormed_afterAll hWf hLegal) hTail]
    exact ⟨fun ⟨_, h, hAll⟩ => by cases h; exact hAll, fun hAll => ⟨_, rfl, hAll⟩⟩

/-- An entry with some data. -/
def sampleEntry (i : Nat) : Entry := ⟨1, i, .normal, some [0]⟩

/-- Three entries and a snapshot at the first. -/
def snapshotBelowLast : List DiskCall :=
  [.save [sampleEntry 1, sampleEntry 2, sampleEntry 3] ⟨1, 0, 1⟩, .createSnapshot 1 none none]

/-- A batch that starts right after the snapshot writes the tail again. -/
theorem survives_rewritten_tail :
    ∃ ds, DiskStorage.empty.run plainEncoding
      (snapshotBelowLast ++ [.save [sampleEntry 2] ⟨0, 0, 0⟩]) = .ok ds ∧
        Survives plainEncoding ds := by
  have hLegal : LegalHistory newMemoryStorage
      (snapshotBelowLast ++ [.save [sampleEntry 2] ⟨0, 0, 0⟩]) := by decide
  obtain ⟨ds, hRun, hIff⟩ := survives_iff_covered plainEncoding hLegal (by decide)
  exact ⟨ds, hRun, hIff.mpr (by decide)⟩

/-- The entries after the snapshot are gone when the file is opened again. -/
theorem not_survives :
    ¬ ∀ (enc : Encoding) (calls : List DiskCall), LegalHistory newMemoryStorage calls →
      (∀ r ∈ recordsOf newMemoryStorage calls, (r.bytes enc).length < 2 ^ 32) →
      ∃ ds, DiskStorage.empty.run enc calls = .ok ds ∧ Survives enc ds := by
  intro hAll
  have hLegal : LegalHistory newMemoryStorage snapshotBelowLast := by decide
  have hLen : ∀ r ∈ recordsOf newMemoryStorage snapshotBelowLast,
      (r.bytes plainEncoding).length < 2 ^ 32 := by decide
  obtain ⟨ds, hRun, ds', hOpen, hEntries⟩ := hAll plainEncoding _ hLegal hLen
  rw [run_of_legal MemoryStorage.wellFormed_new hLegal] at hRun
  cases hRun
  have hReplay : (recordsOf newMemoryStorage snapshotBelowLast).foldlM Saved.replay
      newMemoryStorage = .ok ((afterAll newMemoryStorage snapshotBelowLast).surviving true) := by
    decide
  simp only [DiskStorage.empty, List.nil_append, newDiskStorage_frames _ hLen, hReplay,
    Except.ok.injEq] at hOpen
  subst hOpen
  exact List.not_mem_nil (hEntries (sampleEntry 2) (by decide) (by decide))

end ShardDB.Raft
