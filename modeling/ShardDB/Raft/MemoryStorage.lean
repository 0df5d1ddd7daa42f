import ShardDB.Lib.Bytes

/-!
# Raft's in-memory storage

`raft.MemoryStorage`, the log that `DiskStorage` embeds. Its first entry is a dummy that only
has the index and the term of the last compacted entry; here they are `offset` and
`offsetTerm`, and `ents` are the entries after the dummy. A batch that is appended has
consecutive indices, so the indices of a whole log follow from `offset`
(`MemoryStorage.WellFormed`).

`append` replaces everything from the first index of the batch on, and panics if entries
would be missing in between. `createSnapshot` only records the snapshot and `compact` drops
the entries up to an index, while `applySnapshot` drops all entries.
-/

namespace ShardDB.Raft

open ShardDB.Lib

/-! ## Messages of `raftpb` -/

inductive EntryType where
  | normal
  | confChange
  | confChangeV2
  deriving DecidableEq

structure Entry where
  term : Nat
  index : Nat
  type : EntryType
  data : Slice
  deriving DecidableEq

structure HardState where
  term : Nat
  vote : Nat
  commit : Nat
  deriving DecidableEq

def isEmptyHardState (st : HardState) : Bool := st = ⟨0, 0, 0⟩

structure ConfState where
  voters : List Nat
  deriving DecidableEq

structure SnapshotMetadata where
  confState : ConfState
  index : Nat
  term : Nat
  deriving DecidableEq

structure Snapshot where
  data : Slice
  metadata : SnapshotMetadata
  deriving DecidableEq

def isEmptySnap (sp : Snapshot) : Bool := sp.metadata.index = 0

/-- The zero value of a snapshot. -/
def Snapshot.zero : Snapshot := ⟨none, ⟨⟨[]⟩, 0, 0⟩⟩

/-! ## The storage -/

@[ext]
structure MemoryStorage where
  hardState : HardState
  snapshot : Snapshot
  offset : Nat
  offsetTerm : Nat
  ents : List Entry
  deriving DecidableEq

def newMemoryStorage : MemoryStorage := ⟨⟨0, 0, 0⟩, Snapshot.zero, 0, 0, []⟩

/-- Errors that the storage returns. -/
inductive StorageError where
  | snapOutOfDate
  | compacted
  deriving DecidableEq

/-- Ways in which the storage ends the process. -/
inductive Panic where
  | missingLogEntry
  | snapshotOutOfBound
  | compactOutOfBound
  deriving DecidableEq

namespace MemoryStorage

def firstIndex (ms : MemoryStorage) : Nat := ms.offset + 1

def lastIndex (ms : MemoryStorage) : Nat := ms.offset + ms.ents.length

def setHardState (ms : MemoryStorage) (st : HardState) : MemoryStorage := { ms with hardState := st }

def append (ms : MemoryStorage) (entries : List Entry) : Except Panic MemoryStorage :=
  match entries with
  | [] => .ok ms
  | e :: _ =>
    if e.index + entries.length ≤ ms.firstIndex then .ok ms
    else
      -- a batch that starts below the first index loses its compacted entries
      let first := max e.index ms.firstIndex
      let entries := entries.drop (first - e.index)
      if first ≤ ms.lastIndex + 1 then
        .ok { ms with ents := ms.ents.take (first - ms.firstIndex) ++ entries }
      else .error .missingLogEntry

/-- The entry at an index above the dummy. -/
def entryAt (ms : MemoryStorage) (i : Nat) : Option Entry :=
  if i ≤ ms.offset then none else ms.ents[i - ms.firstIndex]?

/-- The term of the entry at an index, or of the dummy. -/
def term (ms : MemoryStorage) (i : Nat) : Option Nat :=
  if i = ms.offset then some ms.offsetTerm else (ms.entryAt i).map Entry.term

/-- `CreateSnapshot`; without a `ConfState` the last one is kept. -/
def createSnapshot (ms : MemoryStorage) (i : Nat) (cs : Option ConfState) (data : Slice) :
    Except Panic (MemoryStorage × Except StorageError Snapshot) :=
  if i ≤ ms.snapshot.metadata.index then .ok (ms, .error .snapOutOfDate)
  else
    match ms.term i with
    | none => .error .snapshotOutOfBound
    | some term =>
      let snap := ⟨data, ⟨cs.getD ms.snapshot.metadata.confState, i, term⟩⟩
      .ok ({ ms with snapshot := snap }, .ok snap)

def compact (ms : MemoryStorage) (i : Nat) : Except Panic (Except StorageError MemoryStorage) :=
  if i ≤ ms.offset then .ok (.error .compacted)
  else
    match ms.entryAt i with
    | none => .error .compactOutOfBound
    | some e =>
      .ok (.ok { ms with
        offset := e.index
        offsetTerm := e.term
        ents := ms.ents.drop (i - ms.offset) })

def applySnapshot (ms : MemoryStorage) (snap : Snapshot) : Except StorageError MemoryStorage :=
  if ms.snapshot.metadata.index ≥ snap.metadata.index then .error .snapOutOfDate
  else .ok { ms with
    snapshot := snap
    offset := snap.metadata.index
    offsetTerm := snap.metadata.term
    ents := [] }

/-- `memoryStorageWrapper.Save`, which is also what `DiskStorage.Save` does in memory. -/
def save (ms : MemoryStorage) (entries : List Entry) (st : HardState) :
    Except Panic MemoryStorage :=
  match ms.append entries with
  | .error p => .error p
  | .ok ms => .ok (if isEmptyHardState st then ms else ms.setHardState st)

end MemoryStorage

/-! ## Consecutive indices -/

/-- The entries have the indices `first`, `first + 1` and so on. -/
def Contiguous (first : Nat) : List Entry → Prop
  | [] => True
  | e :: entries => e.index = first ∧ Contiguous (first + 1) entries

instance instDecidableContiguous : (first : Nat) → (entries : List Entry) →
    Decidable (Contiguous first entries)
  | _, [] => .isTrue trivial
  | first, e :: entries =>
    have := instDecidableContiguous (first + 1) entries
    inferInstanceAs (Decidable (e.index = first ∧ Contiguous (first + 1) entries))

namespace Contiguous

variable {first : Nat} {a b entries : List Entry}

theorem append_iff :
    Contiguous first (a ++ b) ↔ Contiguous first a ∧ Contiguous (first + a.length) b := by
  induction a generalizing first with
  | nil => simp [Contiguous]
  | cons e a ih =>
    have hShift : first + 1 + a.length = first + (e :: a).length := by
      rw [List.length_cons]
      omega
    simp only [List.cons_append, Contiguous, ih, hShift, and_assoc]

theorem take (h : Contiguous first entries) (n : Nat) : Contiguous first (entries.take n) := by
  rw [← List.take_append_drop n entries, append_iff] at h
  exact h.1

theorem drop (h : Contiguous first entries) (n : Nat) (hn : n ≤ entries.length) :
    Contiguous (first + n) (entries.drop n) := by
  rw [← List.take_append_drop n entries, append_iff, List.length_take, min_eq_left hn] at h
  exact h.2

theorem index_of_getElem? {n : Nat} {e : Entry} (h : Contiguous first entries)
    (hGet : entries[n]? = some e) : e.index = first + n := by
  induction entries generalizing first n with
  | nil => simp at hGet
  | cons x entries ih =>
    cases n with
    | zero =>
      cases hGet
      exact h.1
    | succ n =>
      have := ih h.2 hGet
      omega

/-- The entries up to an index are a prefix. -/
theorem filter_index_le (h : Contiguous first entries) (c : Nat) :
    entries.filter (fun e => e.index ≤ c) = entries.take (c + 1 - first) := by
  induction entries generalizing first with
  | nil => simp
  | cons e entries ih =>
    obtain ⟨rfl, hRest⟩ := h
    rw [List.filter_cons, ih hRest]
    by_cases hc : e.index ≤ c
    · rw [Nat.add_sub_add_right, Nat.succ_sub hc, List.take_succ_cons]
      simp [hc]
    · have h₁ : c + 1 - e.index = 0 := by omega
      have h₂ : c + 1 - (e.index + 1) = 0 := by omega
      simp [hc, h₁, h₂]

theorem index_of_mem {e : Entry} (h : Contiguous first entries) (he : e ∈ entries) :
    first ≤ e.index ∧ e.index < first + entries.length := by
  obtain ⟨n, hn⟩ := List.mem_iff_getElem?.mp he
  have hIndex := h.index_of_getElem? hn
  obtain ⟨hLt, -⟩ := List.getElem?_eq_some_iff.mp hn
  omega

end Contiguous

namespace MemoryStorage

/-- The indices count up from the dummy, which is at the index of the last snapshot. -/
structure WellFormed (ms : MemoryStorage) : Prop where
  contiguous : Contiguous ms.firstIndex ms.ents
  offset_eq : ms.offset = ms.snapshot.metadata.index

theorem wellFormed_new : newMemoryStorage.WellFormed := ⟨trivial, rfl⟩

/-- A batch that raft may hand to `Save`: it starts in the log or right after it. -/
def Fits (ms : MemoryStorage) (entries : List Entry) : Prop :=
  ∀ e ∈ entries.head?, ms.firstIndex ≤ e.index ∧ e.index ≤ ms.lastIndex + 1 ∧
    Contiguous e.index entries

instance (ms : MemoryStorage) (entries : List Entry) : Decidable (ms.Fits entries) :=
  inferInstanceAs (Decidable (∀ e ∈ entries.head?, _ ∧ _ ∧ _))

variable {ms : MemoryStorage} {e : Entry} {entries : List Entry}

theorem length_take {i : Nat} (h : i ≤ ms.lastIndex + 1) :
    (ms.ents.take (i - ms.firstIndex)).length = i - ms.firstIndex := by
  rw [List.length_take, min_eq_left]
  unfold firstIndex lastIndex at *
  omega

/-- `append` of a batch that starts in the log or right after it. -/
theorem append_cons (hFirst : ms.firstIndex ≤ e.index) (hLast : e.index ≤ ms.lastIndex + 1) :
    ms.append (e :: entries) =
      .ok { ms with ents := ms.ents.take (e.index - ms.firstIndex) ++ e :: entries } := by
  unfold append
  dsimp only
  have hNew : ¬ e.index + (e :: entries).length ≤ ms.firstIndex := by
    rw [List.length_cons]
    omega
  rw [if_neg hNew, max_eq_left hFirst, if_pos hLast, Nat.sub_self, List.drop_zero]

/-- `append` of a batch that leaves a gap. -/
theorem append_cons_error (h : ms.lastIndex + 1 < e.index) :
    ms.append (e :: entries) = .error .missingLogEntry := by
  have hOffset : ms.firstIndex ≤ ms.lastIndex + 1 := by
    unfold firstIndex lastIndex
    omega
  unfold append
  dsimp only
  have hNew : ¬ e.index + (e :: entries).length ≤ ms.firstIndex := by
    rw [List.length_cons]
    omega
  rw [if_neg hNew, max_eq_left (by omega), if_neg (by omega)]

/-- One entry at a time is the same as the whole batch. -/
theorem append_cons_cons {x : Entry} (hFirst : ms.firstIndex ≤ e.index)
    (hLast : e.index ≤ ms.lastIndex + 1) (hNext : x.index = e.index + 1) :
    (ms.append [e] >>= fun ms => ms.append (x :: entries)) = ms.append (e :: x :: entries) := by
  rw [append_cons hFirst hLast, append_cons hFirst hLast]
  change MemoryStorage.append { ms with ents := ms.ents.take (e.index - ms.firstIndex) ++ [e] }
    (x :: entries) = _
  have hAfter : ({ ms with ents := ms.ents.take (e.index - ms.firstIndex) ++ [e] } :
      MemoryStorage).lastIndex + 1 = x.index := by
    unfold lastIndex
    dsimp only
    rw [List.length_append, length_take hLast, List.length_singleton]
    unfold firstIndex at *
    omega
  rw [append_cons (by change ms.firstIndex ≤ x.index; omega) hAfter.ge]
  change Except.ok { ms with
    ents := (ms.ents.take (e.index - ms.firstIndex) ++ [e]).take (x.index - ms.firstIndex) ++
      x :: entries } = _
  rw [List.take_of_length_le, List.append_assoc]
  · rfl
  · rw [List.length_append, length_take hLast, List.length_singleton]
    omega

end MemoryStorage

end ShardDB.Raft
