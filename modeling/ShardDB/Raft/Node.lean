import ShardDB.Raft.DiskStorage
import ShardDB.Shard.Replay

/-!
# The raft node

`Node.Run` takes one `Ready` after another from raft: it saves the new entries, applies the
committed ones to the state machine, takes a snapshot when the log has grown, and installs the
snapshot of the `Ready` if there is one. The state machine is an `Applier` with states of any
type. Errors of the snapshot calls are only logged, so an `Applier` is described by the states
its methods leave; a panic of the storage ends the process.

A snapshot that raft hands over stands for everything before the entries of the same `Ready`,
but `Run` installs it last. The state machine then forgets the entries it has just applied
(`state_of_processReady`), and the storage never ends with the snapshot followed by the entries
(`not_snapshotThenEntries`).
-/

namespace ShardDB.Raft

open ShardDB.Lib ShardDB.Storage

/-- The state machine of a node. `getSnapshot` gives nothing when it fails, and `restore` is
the state after the call, failed or not. -/
structure Applier (σ : Type) where
  apply : σ → Entry → σ
  getSnapshot : σ → Option Slice
  restore : σ → Slice → σ

/-- What raft hands to the application. -/
structure Ready where
  entries : List Entry
  hardState : HardState
  snapshot : Snapshot
  committedEntries : List Entry
  deriving DecidableEq

/-- A node with its storage and the state of its applier. -/
structure Node (σ : Type) where
  storage : DiskStorage
  state : σ

/-- How `NewNode` starts raft. -/
inductive Start where
  | startNode
  | restartNode
  deriving DecidableEq

variable {σ : Type} (enc : Encoding) (A : Applier σ)

/-- `NewNode` on a log file. The applier is stored in the node and not called. -/
def newNode (file : Bytes) (applier : σ) :
    Except (Wal.IterateError ReplayError) (Node σ × Start) :=
  match newDiskStorage enc file with
  | .error e => .error e
  | .ok storage =>
    .ok (⟨storage, applier⟩, if storage.mem.lastIndex > 0 then .restartNode else .startNode)

/-- Step 3 of `Run`: normal entries with data are applied. -/
def applyCommitted (s : σ) (entries : List Entry) : σ :=
  entries.foldl (fun s entry =>
    if entry.type = .normal ∧ (entry.data.getD []).length > 0 then A.apply s entry else s) s

/-- The `ConfState` that `Run` puts in its snapshots. -/
def runConfState : ConfState := ⟨[1, 2, 3]⟩

/-- The snapshot check of `Run`. -/
def snapshotCheck (n : Node σ) (committedEntries : List Entry) : Except Panic (Node σ) :=
  match committedEntries.getLast? with
  | none => .ok n
  | some entry =>
    let lastApplied := entry.index
    let fi := n.storage.mem.firstIndex
    if lastApplied > fi ∧ lastApplied - fi > 50 then
      match A.getSnapshot n.state with
      | none => .ok n
      | some data =>
        match n.storage.createSnapshot enc lastApplied (some runConfState) data with
        | .error p => .error p
        | .ok (storage, _) => .ok { n with storage := storage }
    else .ok n

/-- The last step of `Run`: a snapshot from raft goes to the storage and to the applier. -/
def installSnapshot (n : Node σ) (snapshot : Snapshot) : Node σ :=
  if isEmptySnap snapshot then n
  else ⟨(n.storage.applySnapshot enc snapshot).1, A.restore n.state snapshot.data⟩

/-- One iteration of `Run` with a `Ready`. -/
def processReady (n : Node σ) (rd : Ready) : Except Panic (Node σ) :=
  match n.storage.save enc rd.entries rd.hardState with
  | .error p => .error p
  | .ok storage =>
    match snapshotCheck enc A ⟨storage, applyCommitted A n.state rd.committedEntries⟩
      rd.committedEntries with
    | .error p => .error p
    | .ok n => .ok (installSnapshot enc A n rd.snapshot)

def run (n : Node σ) (readys : List Ready) : Except Panic (Node σ) :=
  readys.foldlM (processReady enc A) n

/-- `ApplierAdapter`, the state machine of a shard node. -/
def applierAdapter (json : Codec JsonObject) (libs : Shard.Libs) : Applier MemoryStore where
  apply engine entry := Shard.apply libs engine (entry.data.getD [])
  getSnapshot engine := (engine.getSnapshotData json).toOption.map some
  restore engine data := (engine.restoreSnapshot json (data.getD [])).1

/-! ## A snapshot together with entries -/

section Snapshot

variable {enc A} {n n' : Node σ} {rd : Ready} {ds ds' : DiskStorage}

theorem append_snapshot {ms ms' : MemoryStorage} {entries : List Entry}
    (h : ms.append entries = .ok ms') : ms'.snapshot = ms.snapshot ∧ ms'.offset = ms.offset := by
  unfold MemoryStorage.append at h
  split at h
  · cases h
    exact ⟨rfl, rfl⟩
  · dsimp only at h
    split_ifs at h
    · cases h
      exact ⟨rfl, rfl⟩
    · cases h
      exact ⟨rfl, rfl⟩

theorem save_snapshot {entries : List Entry} {state : HardState}
    (h : ds.save enc entries state = .ok ds') :
    ds'.mem.snapshot = ds.mem.snapshot ∧ ds'.mem.offset = ds.mem.offset := by
  rw [DiskStorage.save_eq, MemoryStorage.save] at h
  cases hAppend : ds.mem.append entries with
  | error p => simp [hAppend, Except.map] at h
  | ok ms =>
    simp only [hAppend, Except.map, Except.ok.injEq] at h
    subst h
    obtain ⟨hSnapshot, hOffset⟩ := append_snapshot hAppend
    dsimp only
    split_ifs
    · exact ⟨hSnapshot, hOffset⟩
    · exact ⟨hSnapshot, hOffset⟩

theorem compact_snapshot {ms ms' : MemoryStorage} {i : Nat} (h : ms.compact i = .ok (.ok ms')) :
    ms'.snapshot = ms.snapshot := by
  unfold MemoryStorage.compact at h
  split_ifs at h
  · cases h
  · split at h
    · cases h
    · cases h
      rfl

/-- `CreateSnapshot` does nothing, or it takes a newer snapshot and keeps a record of it. -/
theorem createSnapshot_cases {i : Nat} {cs : ConfState} {data : Slice}
    {r : Except StorageError Snapshot}
    (h : ds.createSnapshot enc i (some cs) data = .ok (ds', r)) :
    ds' = ds ∨ ds.mem.snapshot.metadata.index < i ∧ ds'.mem.snapshot.metadata.index = i ∧
      ds'.mem.snapshot.metadata.confState = cs ∧
      ds'.wal = ds.wal ++ Saved.frames enc [.snapshot ds'.mem.snapshot] := by
  unfold DiskStorage.createSnapshot MemoryStorage.createSnapshot at h
  split_ifs at h with hOld
  · cases h
    exact Or.inl rfl
  · right
    refine ⟨by simpa using hOld, ?_⟩
    cases hTerm : ds.mem.term i with
    | none => simp [hTerm] at h
    | some term =>
      simp only [hTerm, DiskStorage.writeRecord] at h
      split at h
      · cases h
      · cases h
        exact ⟨rfl, rfl, by simp [Saved.frames, Saved.bytes, Wal.append]⟩
      · next hCompact =>
        cases h
        have hSnapshot := compact_snapshot hCompact
        dsimp only at hSnapshot
        rw [hSnapshot]
        exact ⟨rfl, rfl, by simp [Saved.frames, Saved.bytes, Wal.append]⟩

/-- The snapshot check does nothing, or it takes a snapshot at a committed entry. -/
theorem snapshotCheck_cases {committed : List Entry}
    (h : snapshotCheck enc A n committed = .ok n') :
    n' = n ∨ n'.state = n.state ∧ ∃ e ∈ committed, ∃ data r,
      n.storage.createSnapshot enc e.index (some runConfState) data = .ok (n'.storage, r) := by
  unfold snapshotCheck at h
  split at h
  · cases h
    exact Or.inl rfl
  · next entry hLast =>
    dsimp only at h
    split_ifs at h
    · split at h
      · cases h
        exact Or.inl rfl
      · split at h
        · cases h
        · next hCreate =>
          cases h
          exact Or.inr ⟨rfl, entry, List.mem_of_getLast? hLast, _, _, hCreate⟩
    · cases h
      exact Or.inl rfl

theorem state_of_snapshotCheck {committed : List Entry}
    (h : snapshotCheck enc A n committed = .ok n') : n'.state = n.state := by
  rcases snapshotCheck_cases h with rfl | ⟨hState, -⟩
  · rfl
  · exact hState

theorem snapshotCheck_index {committed : List Entry}
    (h : snapshotCheck enc A n committed = .ok n') :
    n'.storage.mem.snapshot = n.storage.mem.snapshot ∨
      ∃ e ∈ committed, n'.storage.mem.snapshot.metadata.index = e.index := by
  rcases snapshotCheck_cases h with rfl | ⟨-, e, he, data, r, hCreate⟩
  · exact Or.inl rfl
  · rcases createSnapshot_cases hCreate with hSame | ⟨-, hIndex, -⟩
    · exact Or.inl (by rw [hSame])
    · exact Or.inr ⟨e, he, hIndex⟩

/-- The steps of an iteration that does not panic. -/
theorem processReady_ok (h : processReady enc A n rd = .ok n') :
    ∃ storage n₁, n.storage.save enc rd.entries rd.hardState = .ok storage ∧
      snapshotCheck enc A ⟨storage, applyCommitted A n.state rd.committedEntries⟩
        rd.committedEntries = .ok n₁ ∧ n' = installSnapshot enc A n₁ rd.snapshot := by
  unfold processReady at h
  split at h
  · cases h
  · next storage hSave =>
    split at h
    · cases h
    · next n₁ hCheck =>
      cases h
      exact ⟨storage, n₁, hSave, hCheck, rfl⟩

/-- The `Ready` is processed as the snapshot followed by the entries. -/
def SnapshotThenEntries (enc : Encoding) (A : Applier σ) (n : Node σ) (rd : Ready) : Prop :=
  ∃ n', processReady enc A n rd = .ok n' ∧
    n'.state = applyCommitted A (A.restore n.state rd.snapshot.data) rd.committedEntries ∧
    n'.storage.mem.snapshot = rd.snapshot ∧ n'.storage.mem.ents = rd.entries

/-- The applier sees the snapshot after the committed entries. -/
theorem state_of_processReady (hSnap : isEmptySnap rd.snapshot = false)
    (h : processReady enc A n rd = .ok n') :
    n'.state = A.restore (applyCommitted A n.state rd.committedEntries) rd.snapshot.data := by
  obtain ⟨storage, n₁, -, hCheck, rfl⟩ := processReady_ok h
  rw [installSnapshot, hSnap]
  exact congrArg (A.restore · rd.snapshot.data) (state_of_snapshotCheck hCheck)

/-- A `Ready` with a snapshot, as raft makes them: it is newer than the stored one, the log
entries start right after it, and only later entries are committed. -/
structure CarriesSnapshot (ms : MemoryStorage) (rd : Ready) : Prop where
  newer : ms.snapshot.metadata.index < rd.snapshot.metadata.index
  entries_ne : rd.entries ≠ []
  contiguous : Contiguous (rd.snapshot.metadata.index + 1) rd.entries
  committed_ne : rd.committedEntries ≠ []
  committed : ∀ e ∈ rd.committedEntries, rd.snapshot.metadata.index < e.index

/-- The entries are dropped when the snapshot is applied, or it is not applied at all because
`Run` has just taken one at the last committed entry. -/
theorem snapshot_ne_or_ents_nil (hRd : CarriesSnapshot n.storage.mem rd)
    (h : processReady enc A n rd = .ok n') :
    n'.storage.mem.snapshot ≠ rd.snapshot ∨ n'.storage.mem.ents = [] := by
  obtain ⟨storage, n₁, hSave, hCheck, rfl⟩ := processReady_ok h
  have hNewer := hRd.newer
  have hNonempty : isEmptySnap rd.snapshot = false := by
    simp only [isEmptySnap, decide_eq_false_iff_not]
    omega
  simp only [installSnapshot, hNonempty, Bool.false_eq_true, if_false, DiskStorage.applySnapshot,
    MemoryStorage.applySnapshot]
  split_ifs with hOld
  · refine Or.inl fun hSnapshot => ?_
    -- the snapshot was refused, so the stored one is from this iteration
    rcases snapshotCheck_index hCheck with hSame | ⟨e, he, hIndex⟩
    · rw [hSame, (save_snapshot hSave).1] at hOld
      omega
    · have := hRd.committed e he
      dsimp only at hSnapshot
      rw [hSnapshot] at hIndex
      omega
  · exact Or.inr rfl

/-- A `Ready` with a snapshot is never processed as the snapshot followed by the entries. -/
theorem not_snapshotThenEntries (hRd : CarriesSnapshot n.storage.mem rd) :
    ¬ SnapshotThenEntries enc A n rd := by
  rintro ⟨n', hRun, -, hSnapshot, hEnts⟩
  rcases snapshot_ne_or_ents_nil hRd hRun with h | h
  · exact h hSnapshot
  · exact hRd.entries_ne (hEnts.symm.trans h)

end Snapshot

/-- A shard whose log has one entry. -/
def laggingShard : Node MemoryStore :=
  ⟨⟨{ newMemoryStorage with ents := [⟨1, 1, .normal, none⟩] }, []⟩, newMemoryStore⟩

/-- A snapshot at the last entry of the shard, with one more committed entry. -/
def snapshotAndEntry : Ready where
  entries := [⟨1, 2, .normal, some Shard.oneShotOfA⟩]
  hardState := ⟨1, 0, 2⟩
  snapshot := ⟨some (objectLine.enc []), ⟨runConfState, 1, 1⟩⟩
  committedEntries := [⟨1, 2, .normal, some Shard.oneShotOfA⟩]

theorem carriesSnapshot_snapshotAndEntry :
    CarriesSnapshot laggingShard.storage.mem snapshotAndEntry where
  newer := by decide
  entries_ne := by decide
  contiguous := ⟨rfl, trivial⟩
  committed_ne := by decide
  committed e he := by
    cases List.mem_singleton.mp he
    decide

theorem not_snapshotThenEntries_laggingShard :
    CarriesSnapshot laggingShard.storage.mem snapshotAndEntry ∧
      ¬ SnapshotThenEntries plainEncoding (applierAdapter objectLine Shard.noSql) laggingShard
        snapshotAndEntry :=
  ⟨carriesSnapshot_snapshotAndEntry, not_snapshotThenEntries carriesSnapshot_snapshotAndEntry⟩

/-- The write of the committed entry is gone from the store of the shard as well. -/
theorem exists_not_snapshotThenEntries :
    ¬ ∀ (σ : Type) (enc : Encoding) (A : Applier σ) (n : Node σ) (rd : Ready),
      CarriesSnapshot n.storage.mem rd → SnapshotThenEntries enc A n rd := by
  intro hAll
  obtain ⟨n', hRun, hState, -, -⟩ := hAll _ plainEncoding
    (applierAdapter objectLine Shard.noSql) _ _ carriesSnapshot_snapshotAndEntry
  rw [state_of_processReady (by decide) hRun] at hState
  revert hState
  decide

end ShardDB.Raft
