import ShardDB.Lib.Runs
import ShardDB.Raft.Compaction
import ShardDB.Raft.Node

/-!
# A group of replicas

The nodes of one raft group, with the log that the group commits. Each node handles its own
`Ready`s, at its own pace: it is handed the next entries of the committed log in batches of any
size, or a snapshot that some node of the group has stored at some time and that is ahead of what
it has applied, alone or together with the entries that follow it. A process that has not stored a
snapshot yet may also be stopped and started again on its log file; then it is handed the log from
the beginning. Raft itself is taken for granted: that the nodes agree on the log.

If a snapshot restores the state that it was taken from (`Faithful`), and no `Ready` carries
committed entries beside a snapshot (`SnapshotAlone`), a node that has applied `i` entries, in
whatever way, is in the state after the first `i` entries of the log (`state_of_reaches`). A `Ready`
with both breaks this, since `Run` applies the entries before it restores the snapshot.
-/

namespace ShardDB.Raft

open ShardDB.Lib ShardDB.Storage

variable {ι σ : Type} (enc : Encoding) (A : Applier σ) (fresh : σ)
  (log : List Entry)

/-! ## The group -/

/-- A node and the number of entries of the log that count as applied there. -/
structure Replica (σ : Type) where
  node : Node σ
  applied : Nat

/-- The nodes, and every snapshot that has been in the storage of one of them. -/
structure Group (ι σ : Type) where
  replicas : ι → Replica σ
  stored : List Snapshot

/-- Nothing has happened yet. -/
def Group.start : Group ι σ := ⟨fun _ => ⟨⟨DiskStorage.empty, fresh⟩, 0⟩, [Snapshot.zero]⟩

inductive GroupLabel (ι : Type) where
  | ready (i : ι) (rd : Ready)
  | restart (i : ι)

/-- What raft hands to a node: the next committed entries, or a snapshot that is ahead and
committed entries that follow it. -/
def Group.Hands (g : Group ι σ) (i : ι) (rd : Ready) : Prop :=
  if isEmptySnap rd.snapshot then rd.committedEntries <+: log.drop (g.replicas i).applied
  else rd.snapshot ∈ g.stored ∧ (g.replicas i).applied < rd.snapshot.metadata.index ∧
    rd.committedEntries <+: log.drop rd.snapshot.metadata.index

instance (g : Group ι σ) (i : ι) (rd : Ready) : Decidable (g.Hands log i rd) := by
  unfold Group.Hands
  infer_instance

section Next

variable [DecidableEq ι]

/-- The group after a node has come to another state. -/
def Group.set (g : Group ι σ) (i : ι) (n : Node σ) (applied : Nat) : Group ι σ where
  replicas := Function.update g.replicas i ⟨n, applied⟩
  stored := n.storage.mem.snapshot :: g.stored

/-- The index that raft takes for applied after a `Ready`. -/
def Ready.appliedAfter (rd : Ready) (applied : Nat) : Nat :=
  (if isEmptySnap rd.snapshot then applied else rd.snapshot.metadata.index) +
    rd.committedEntries.length

/-- One step of the group. -/
def Group.next (g : Group ι σ) : GroupLabel ι → Option (Group ι σ)
  | .ready i rd =>
    if g.Hands log i rd then
      match processReady enc A (g.replicas i).node rd with
      | .ok n => some (g.set i n (rd.appliedAfter (g.replicas i).applied))
      | .error _ => none
    else none
  | .restart i =>
    match newNode enc (g.replicas i).node.storage.wal fresh with
    | .ok (n, _) => if isEmptySnap n.storage.mem.snapshot then some (g.set i n 0) else none
    | .error _ => none

/-- What a step can do. -/
theorem Group.next_cases {g g' : Group ι σ} {l : GroupLabel ι}
    (h : Group.next enc A fresh log g l = some g') :
    (∃ i rd n, l = .ready i rd ∧ g.Hands log i rd ∧
      processReady enc A (g.replicas i).node rd = .ok n ∧
      g' = g.set i n (rd.appliedAfter (g.replicas i).applied)) ∨
    ∃ i n start, l = .restart i ∧
      newNode enc (g.replicas i).node.storage.wal fresh = .ok (n, start) ∧
      isEmptySnap n.storage.mem.snapshot = true ∧ g' = g.set i n 0 := by
  cases l with
  | ready i rd =>
    simp only [Group.next] at h
    split_ifs at h with hHands
    split at h
    · next n hRun =>
      cases h
      exact Or.inl ⟨i, rd, n, rfl, hHands, hRun, rfl⟩
    · cases h
  | restart i =>
    simp only [Group.next] at h
    split at h
    · next n start hNew =>
      split_ifs at h with hEmpty
      cases h
      exact Or.inr ⟨i, n, start, rfl, hNew, hEmpty, rfl⟩
    · cases h

end Next

/-! ## Faithful snapshots -/

/-- The state after the first entries of the log. -/
def stateAt (i : Nat) : σ := applyCommitted A fresh (log.take i)

/-- A snapshot of a state that the log leads to restores that state, in whichever state of the
log. -/
def Faithful : Prop :=
  ∀ i data, A.getSnapshot (stateAt A fresh log i) = some data →
    ∀ j, A.restore (stateAt A fresh log j) data = stateAt A fresh log i

/-- The snapshot is the one of the state after the entries up to its index. -/
def SnapshotOk (snap : Snapshot) : Prop :=
  isEmptySnap snap = true ∨ snap.metadata.index ≤ log.length ∧
    A.getSnapshot (stateAt A fresh log snap.metadata.index) = some snap.data

section Steps

variable {enc A fresh log} {n n' : Node σ} {rd : Ready}

/-- The snapshot that the storage has after the check is the old one, or one of the state of the
applier at the last committed entry. -/
theorem snapshot_of_snapshotCheck {committed : List Entry}
    (h : snapshotCheck enc A n committed = .ok n') :
    n'.storage.mem.snapshot = n.storage.mem.snapshot ∨
      ∃ e, committed.getLast? = some e ∧ n'.storage.mem.snapshot.metadata.index = e.index ∧
        A.getSnapshot n.state = some n'.storage.mem.snapshot.data := by
  unfold snapshotCheck at h
  split at h
  · cases h
    exact Or.inl rfl
  · next e hLast =>
    dsimp only at h
    split_ifs at h
    · split at h
      · cases h
        exact Or.inl rfl
      · next data hData =>
        split at h
        · cases h
        · next storage r hCreate =>
          cases h
          unfold DiskStorage.createSnapshot MemoryStorage.createSnapshot at hCreate
          split_ifs at hCreate
          · cases hCreate
            exact Or.inl rfl
          · right
            refine ⟨e, hLast, ?_⟩
            cases hTerm : n.storage.mem.term e.index with
            | none => simp [hTerm] at hCreate
            | some term =>
              simp only [hTerm, DiskStorage.writeRecord] at hCreate
              split at hCreate
              · cases hCreate
              · cases hCreate
                exact ⟨rfl, hData⟩
              · next hCompact =>
                cases hCreate
                have hSnapshot := compact_snapshot hCompact
                dsimp only at hSnapshot ⊢
                rw [hSnapshot]
                exact ⟨rfl, hData⟩
    · cases h
      exact Or.inl rfl

/-- Entries are applied, and the storage may take a snapshot of the result. -/
theorem processReady_entries (hEmpty : isEmptySnap rd.snapshot = true)
    (h : processReady enc A n rd = .ok n') :
    n'.state = applyCommitted A n.state rd.committedEntries ∧
      (n'.storage.mem.snapshot = n.storage.mem.snapshot ∨
        ∃ e, rd.committedEntries.getLast? = some e ∧
          n'.storage.mem.snapshot.metadata.index = e.index ∧
          A.getSnapshot n'.state = some n'.storage.mem.snapshot.data) := by
  obtain ⟨storage, n₁, hSave, hCheck, rfl⟩ := processReady_ok h
  rw [installSnapshot, if_pos hEmpty, state_of_snapshotCheck hCheck]
  refine ⟨rfl, ?_⟩
  rw [← (save_snapshot hSave).1]
  exact snapshot_of_snapshotCheck hCheck

/-- After a snapshot the storage has it or a newer one of its own. -/
theorem snapshot_of_processReady (hSnap : isEmptySnap rd.snapshot = false)
    (hAlone : rd.committedEntries = []) (h : processReady enc A n rd = .ok n') :
    n'.storage.mem.snapshot = n.storage.mem.snapshot ∨ n'.storage.mem.snapshot = rd.snapshot := by
  obtain ⟨storage, n₁, hSave, hCheck, rfl⟩ := processReady_ok h
  have hSame : n₁.storage.mem.snapshot = n.storage.mem.snapshot := by
    rw [← (save_snapshot hSave).1]
    rw [hAlone] at hCheck
    cases hCheck
    rfl
  rw [← hSame]
  simp only [installSnapshot, hSnap, Bool.false_eq_true, if_false, DiskStorage.applySnapshot,
    MemoryStorage.applySnapshot]
  split_ifs
  · exact Or.inl rfl
  · exact Or.inr rfl

end Steps

/-! ## The invariant -/

/-- Every node is in the state after the entries it has applied, and every snapshot is one of a
state after entries of the log. -/
structure GroupOk (g : Group ι σ) : Prop where
  applied : ∀ i, (g.replicas i).applied ≤ log.length
  state : ∀ i, (g.replicas i).node.state = stateAt A fresh log (g.replicas i).applied
  stored : ∀ snap ∈ g.stored, SnapshotOk A fresh log snap
  own : ∀ i, (g.replicas i).node.storage.mem.snapshot ∈ g.stored

section Invariant

variable {enc A fresh log} {g g' : Group ι σ}

theorem groupOk_start : GroupOk A fresh log (Group.start fresh : Group ι σ) where
  applied _ := Nat.zero_le _
  state _ := rfl
  stored snap hSnap := by
    rw [List.mem_singleton.mp hSnap]
    exact Or.inl rfl
  own _ := List.mem_singleton_self _

variable [DecidableEq ι]

/-- One node moves to a state of the log and keeps a snapshot of one. -/
theorem GroupOk.set (h : GroupOk A fresh log g) (i : ι) {n : Node σ} {applied : Nat}
    (hApplied : applied ≤ log.length) (hState : n.state = stateAt A fresh log applied)
    (hSnap : SnapshotOk A fresh log n.storage.mem.snapshot) :
    GroupOk A fresh log (g.set i n applied) := by
  refine ⟨fun j => ?_, fun j => ?_, fun snap hMem => ?_, fun j => ?_⟩
  · by_cases hj : j = i
    · subst hj
      simpa [Group.set] using hApplied
    · simpa [Group.set, hj] using h.applied j
  · by_cases hj : j = i
    · subst hj
      simpa [Group.set] using hState
    · simpa [Group.set, hj] using h.state j
  · rcases List.mem_cons.mp hMem with rfl | hOld
    · exact hSnap
    · exact h.stored snap hOld
  · by_cases hj : j = i
    · subst hj
      simp [Group.set]
    · simpa [Group.set, hj] using Or.inr (h.own j)

theorem take_add_of_isPrefix {k : Nat} {entries : List Entry} (h : entries <+: log.drop k) :
    log.take (k + entries.length) = log.take k ++ entries := by
  rw [List.take_add, List.prefix_iff_eq_take.mp h, List.length_take]
  congr 1
  rw [List.take_eq_take_iff]
  omega

/-- A node is handed entries. -/
theorem GroupOk.entries (hLog : Contiguous 1 log) (h : GroupOk A fresh log g) {i : ι} {rd : Ready}
    {n : Node σ} (hSnap : isEmptySnap rd.snapshot = true) (hHands : g.Hands log i rd)
    (hRun : processReady enc A (g.replicas i).node rd = .ok n) :
    GroupOk A fresh log (g.set i n (rd.appliedAfter (g.replicas i).applied)) := by
  rw [Group.Hands, if_pos hSnap] at hHands
  obtain ⟨hState, hStored⟩ := processReady_entries hSnap hRun
  have hLength : (g.replicas i).applied + rd.committedEntries.length ≤ log.length := by
    have hLe := hHands.length_le
    rw [List.length_drop] at hLe
    have := h.applied i
    omega
  have hNew : n.state = stateAt A fresh log
      ((g.replicas i).applied + rd.committedEntries.length) := by
    rw [hState, h.state i, stateAt, stateAt, take_add_of_isPrefix hHands, applyCommitted,
      applyCommitted, applyCommitted, List.foldl_append]
  rw [Ready.appliedAfter, if_pos hSnap]
  refine h.set i hLength hNew ?_
  rcases hStored with hSame | ⟨e, hLast, hIndex, hData⟩
  · rw [hSame]
    exact h.stored _ (h.own i)
  · -- the index of the last committed entry is the number of applied ones
    have hIndex' : e.index = (g.replicas i).applied + rd.committedEntries.length := by
      obtain ⟨rest, hRest⟩ := hHands
      have hDrop := hLog.drop (g.replicas i).applied (h.applied i)
      rw [← hRest, Contiguous.append_iff] at hDrop
      rw [List.getLast?_eq_getElem?] at hLast
      have hAt := hDrop.1.index_of_getElem? hLast
      have hPos : rd.committedEntries.length ≠ 0 := by
        intro hZero
        rw [List.length_eq_zero_iff.mp hZero] at hLast
        cases hLast
      omega
    refine Or.inr ⟨?_, ?_⟩
    · rw [hIndex, hIndex']
      exact hLength
    · rw [hIndex, hIndex', ← hNew]
      exact hData

omit [DecidableEq ι] in
/-- A node is handed a snapshot: it is one of a state of the log, and the node restores it, whatever
entries it has applied before. -/
theorem GroupOk.snapshot (h : GroupOk A fresh log g) {i : ι} {rd : Ready} {n : Node σ}
    (hSnap : isEmptySnap rd.snapshot = false) (hHands : g.Hands log i rd)
    (hRun : processReady enc A (g.replicas i).node rd = .ok n) :
    rd.snapshot.metadata.index ≤ log.length ∧
      A.getSnapshot (stateAt A fresh log rd.snapshot.metadata.index) = some rd.snapshot.data ∧
      n.state = A.restore (applyCommitted A (stateAt A fresh log (g.replicas i).applied)
        rd.committedEntries) rd.snapshot.data := by
  rw [Group.Hands, hSnap, if_neg Bool.false_ne_true] at hHands
  obtain ⟨hLength, hData⟩ := (h.stored _ hHands.1).resolve_left
    (by rw [hSnap]; exact Bool.false_ne_true)
  refine ⟨hLength, hData, ?_⟩
  rw [state_of_processReady hSnap hRun, h.state i]

omit [DecidableEq ι] in
/-- A node that is handed a snapshot alone stores it, or keeps a newer one. -/
theorem GroupOk.stored_snapshot (h : GroupOk A fresh log g) {i : ι} {rd : Ready} {n : Node σ}
    (hSnap : isEmptySnap rd.snapshot = false) (hAlone : rd.committedEntries = [])
    (hHands : g.Hands log i rd) (hRun : processReady enc A (g.replicas i).node rd = .ok n) :
    SnapshotOk A fresh log n.storage.mem.snapshot := by
  rw [Group.Hands, hSnap, if_neg Bool.false_ne_true] at hHands
  rcases snapshot_of_processReady hSnap hAlone hRun with hSame | hSame
  · rw [hSame]
    exact h.stored _ (h.own i)
  · rw [hSame]
    exact h.stored _ hHands.1

/-- A node is started again on its log file. -/
theorem GroupOk.restart (h : GroupOk A fresh log g) {i : ι} {n : Node σ} {start : Start}
    (hNew : newNode enc (g.replicas i).node.storage.wal fresh = .ok (n, start))
    (hEmpty : isEmptySnap n.storage.mem.snapshot = true) : GroupOk A fresh log (g.set i n 0) := by
  have hState : n.state = fresh := by
    unfold newNode at hNew
    split at hNew
    · cases hNew
    · cases hNew
      rfl
  exact h.set i (Nat.zero_le _) hState (Or.inl hEmpty)

/-- The step hands out a snapshot or committed entries, not both. -/
def GroupLabel.SnapshotAlone : GroupLabel ι → Prop
  | ready _ rd => isEmptySnap rd.snapshot = true ∨ rd.committedEntries = []
  | restart _ => True

instance (l : GroupLabel ι) : Decidable l.SnapshotAlone :=
  match l with
  | .ready _ rd => inferInstanceAs (Decidable (isEmptySnap rd.snapshot = true ∨ _ = []))
  | .restart _ => .isTrue trivial

theorem groupOk_next (hLog : Contiguous 1 log) (hFaithful : Faithful A fresh log)
    (h : GroupOk A fresh log g) {l : GroupLabel ι} (hl : l.SnapshotAlone)
    (hNext : Group.next enc A fresh log g l = some g') : GroupOk A fresh log g' := by
  rcases Group.next_cases enc A fresh log hNext with
    ⟨i, rd, n, rfl, hHands, hRun, rfl⟩ | ⟨i, n, start, -, hNew, hEmpty, rfl⟩
  · cases hSnap : isEmptySnap rd.snapshot with
    | true => exact h.entries hLog hSnap hHands hRun
    | false =>
      have hAlone : rd.committedEntries = [] :=
        hl.resolve_left (by rw [hSnap]; exact Bool.false_ne_true)
      obtain ⟨hLength, hData, hState⟩ := h.snapshot hSnap hHands hRun
      rw [Ready.appliedAfter, hSnap, if_neg Bool.false_ne_true, hAlone]
      rw [hAlone] at hState
      exact h.set i hLength (hState.trans (hFaithful _ _ hData _))
        (h.stored_snapshot hSnap hAlone hHands hRun)
  · exact h.restart hNew hEmpty

/-- The step hands out no snapshot. -/
def GroupLabel.HandsEntries : GroupLabel ι → Prop
  | ready _ rd => isEmptySnap rd.snapshot = true
  | restart _ => True

/-- As long as no snapshot is handed out, every node is in the state after the entries it has
applied, whether snapshots restore anything or not. -/
theorem groupOk_of_entries (hLog : Contiguous 1 log)
    (h : Reaches (Group.next enc A fresh log) (fun _ l => l.HandsEntries)
      (Group.start fresh : Group ι σ) g) : GroupOk A fresh log g := by
  refine h.invariant (I := GroupOk A fresh log) groupOk_start fun g l g' hOk hl hNext => ?_
  rcases Group.next_cases enc A fresh log hNext with
    ⟨i, rd, n, rfl, hHands, hRun, rfl⟩ | ⟨i, n, start, -, hNew, hEmpty, rfl⟩
  · exact hOk.entries hLog hl hHands hRun
  · exact hOk.restart hNew hEmpty

/-- In every state that the group can reach, a node that has applied `i` entries is in the state
after the first `i` entries of the log. -/
theorem state_of_reaches (hLog : Contiguous 1 log) (hFaithful : Faithful A fresh log)
    (h : Reaches (Group.next enc A fresh log) (fun _ l => l.SnapshotAlone)
      (Group.start fresh : Group ι σ) g) (i : ι) :
    (g.replicas i).node.state = stateAt A fresh log (g.replicas i).applied :=
  (h.invariant (I := GroupOk A fresh log) groupOk_start
    fun _ _ _ hOk hl hNext => groupOk_next hLog hFaithful hOk hl hNext).state i

end Invariant

end ShardDB.Raft
