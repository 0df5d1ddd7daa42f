import ShardDB.Raft.Compaction
import ShardDB.Raft.Node

/-!
# The voters after a restart

A node that finds no log starts raft with the peers of its configuration. A node that finds one
restarts raft, which then takes the voters from the `ConfState` of the stored snapshot, none if
there is no snapshot, and changes them only when the application calls `ApplyConfChange`. `Run`
never does, and it puts the voters 1, 2 and 3 in every snapshot. So after a restart the voters
are the configured peers only if nothing has been saved yet, or if a snapshot is in the log file
and the peers happen to be these three (`voters_after_restart_iff`).

The life of a node on a log file is a sequence of processes. It is described by the records in
the file, because a restart only sees them. Raft may deliver anything; what is assumed is that
the first `Ready` has the configuration entries of the peers, and that a snapshot received from
another node was taken by the `Run` of that node.
-/

namespace ShardDB.Raft

open ShardDB.Lib ShardDB.Storage

/-! ## The voters known to raft -/

inductive ConfChange where
  | addNode (id : Nat)
  | removeNode (id : Nat)

/-- The calls with which an application answers a `Ready`. -/
inductive RaftCall where
  | advance
  | applyConfChange (change : ConfChange)

/-- The voters after a call. -/
def RaftCall.exec (voters : List Nat) : RaftCall → List Nat
  | advance => voters
  | applyConfChange (.addNode id) => voters.insert id
  | applyConfChange (.removeNode id) => voters.erase id

/-- The calls of one iteration of `Run`. -/
def Ready.raftCalls (_ : Ready) : List RaftCall := [.advance]

/-- The voters after a run. -/
def votersAfter (voters : List Nat) (readys : List Ready) : List Nat :=
  (readys.flatMap Ready.raftCalls).foldl RaftCall.exec voters

/-- The voters when `NewNode` has started raft. `StartNode` applies the changes that add the
peers itself. -/
def startVoters {σ : Type} (peers : List Nat) (n : Node σ) : Start → List Nat
  | .startNode => peers
  | .restartNode => n.storage.mem.snapshot.metadata.confState.voters

/-- The entries that `StartNode` appends, one for each peer. -/
def Ready.Bootstraps (peers : List Nat) (rd : Ready) : Prop :=
  ∃ boot rest, rd.entries = boot ++ rest ∧ boot.length = peers.length ∧ Contiguous 1 boot ∧
    ∀ e ∈ boot, e.type = .confChange ∧ e.term = 1

/-- Two lists of voters stand for the same set. -/
def SameVoters (voters voters' : List Nat) : Prop := ∀ id, id ∈ voters ↔ id ∈ voters'

theorem votersAfter_eq (voters : List Nat) (readys : List Ready) :
    votersAfter voters readys = voters := by
  induction readys with
  | nil => rfl
  | cons rd readys ih => exact ih

/-! ## The records that a node writes -/

variable {σ : Type} (enc : Encoding) (A : Applier σ)

/-- The record of a snapshot that is in the second storage and was not in the first. -/
def newSnapshot (before after : MemoryStorage) : List Saved :=
  if before.snapshot.metadata.index < after.snapshot.metadata.index then [.snapshot after.snapshot]
  else []

/-- The records of one iteration that does not panic. -/
def Node.written (n : Node σ) (rd : Ready) : List Saved :=
  match n.storage.save enc rd.entries rd.hardState with
  | .error _ => []
  | .ok storage =>
    match snapshotCheck enc A ⟨storage, applyCommitted A n.state rd.committedEntries⟩
      rd.committedEntries with
    | .error _ => []
    | .ok n₁ =>
      Saved.ofSave rd.entries rd.hardState ++ newSnapshot storage.mem n₁.storage.mem ++
        newSnapshot n₁.storage.mem (installSnapshot enc A n₁ rd.snapshot).storage.mem

/-- The records of a run. -/
def Node.writtenBy (n : Node σ) : List Ready → List Saved
  | [] => []
  | rd :: readys =>
    match processReady enc A n rd with
    | .error _ => []
    | .ok n' => n.written enc A rd ++ n'.writtenBy readys

/-- A log file with its records, after processes have run on it one after another and have
handled the given `Ready`s. -/
inductive Life (fresh : σ) : Bytes → List Saved → List Ready → Prop
  | new : Life fresh [] [] []
  | process {file : Bytes} {records : List Saved} {readys readys' : List Ready} {n₀ n : Node σ}
      {start : Start} (h : Life fresh file records readys)
      (hNew : newNode enc file fresh = .ok (n₀, start)) (hRun : run enc A n₀ readys' = .ok n) :
      Life fresh n.storage.wal (records ++ n₀.writtenBy enc A readys') (readys ++ readys')

/-- A record is no snapshot, or it is a snapshot as `Run` takes them. -/
def Saved.OfRun : Saved → Prop
  | .snapshot snap => 0 < snap.metadata.index ∧ snap.metadata.confState = runConfState
  | _ => True

section Written

variable {enc A} {n n' : Node σ} {rd : Ready} {readys : List Ready} {ds ds' : DiskStorage}

/-- A storage that takes a snapshot keeps a record of it. -/
def TakesSnapshot (enc : Encoding) (ds ds' : DiskStorage) : Prop :=
  ds' = ds ∨ ds.mem.snapshot.metadata.index < ds'.mem.snapshot.metadata.index ∧
    ds'.wal = ds.wal ++ Saved.frames enc [.snapshot ds'.mem.snapshot]

theorem TakesSnapshot.wal (h : TakesSnapshot enc ds ds') :
    ds'.wal = ds.wal ++ Saved.frames enc (newSnapshot ds.mem ds'.mem) := by
  rcases h with rfl | ⟨hNewer, hWal⟩
  · rw [newSnapshot, if_neg (lt_irrefl _)]
    exact (List.append_nil _).symm
  · rw [newSnapshot, if_pos hNewer, hWal]

theorem takesSnapshot_snapshotCheck {committed : List Entry}
    (h : snapshotCheck enc A n committed = .ok n') :
    TakesSnapshot enc n.storage n'.storage ∧
      (n'.storage = n.storage ∨ n'.storage.mem.snapshot.metadata.confState = runConfState) := by
  rcases snapshotCheck_cases h with rfl | ⟨-, e, -, data, r, hCreate⟩
  · exact ⟨Or.inl rfl, Or.inl rfl⟩
  · rcases createSnapshot_cases hCreate with hSame | ⟨hNewer, hIndex, hConf, hWal⟩
    · exact ⟨Or.inl hSame, Or.inl hSame⟩
    · exact ⟨Or.inr ⟨hIndex ▸ hNewer, hWal⟩, Or.inr hConf⟩

theorem takesSnapshot_installSnapshot (n : Node σ) (snapshot : Snapshot) :
    TakesSnapshot enc n.storage (installSnapshot enc A n snapshot).storage ∧
      ((installSnapshot enc A n snapshot).storage = n.storage ∨
        isEmptySnap snapshot = false ∧
          (installSnapshot enc A n snapshot).storage.mem.snapshot = snapshot) := by
  unfold installSnapshot
  split_ifs with hEmpty
  · exact ⟨Or.inl rfl, Or.inl rfl⟩
  · simp only [DiskStorage.applySnapshot, MemoryStorage.applySnapshot]
    split_ifs with hOld
    · exact ⟨Or.inl rfl, Or.inl rfl⟩
    · refine ⟨Or.inr ⟨by simpa [DiskStorage.writeRecord] using hOld, ?_⟩, Or.inr ⟨?_, rfl⟩⟩
      · simp [DiskStorage.writeRecord, Saved.frames, Saved.bytes, Wal.append]
      · simpa using hEmpty

theorem mem_newSnapshot {before after : MemoryStorage} {r : Saved}
    (h : r ∈ newSnapshot before after) :
    before.snapshot.metadata.index < after.snapshot.metadata.index ∧
      r = .snapshot after.snapshot := by
  unfold newSnapshot at h
  split_ifs at h with hNewer
  · exact ⟨hNewer, List.mem_singleton.mp h⟩
  · cases h

/-- The records of an iteration are those of `Save` and of at most two snapshots. -/
theorem written_of_processReady (h : processReady enc A n rd = .ok n') :
    n'.storage.wal = n.storage.wal ++ Saved.frames enc (n.written enc A rd) ∧
      Saved.ofSave rd.entries rd.hardState <+: n.written enc A rd ∧
      ((isEmptySnap rd.snapshot = false → rd.snapshot.metadata.confState = runConfState) →
        ∀ r ∈ n.written enc A rd, r.OfRun) := by
  obtain ⟨storage, n₁, hSave, hCheck, rfl⟩ := processReady_ok h
  obtain ⟨hTaken, hConf⟩ := takesSnapshot_snapshotCheck hCheck
  obtain ⟨hInstalled, hReceived⟩ := @takesSnapshot_installSnapshot σ enc A n₁ rd.snapshot
  have hWritten : n.written enc A rd =
      Saved.ofSave rd.entries rd.hardState ++ newSnapshot storage.mem n₁.storage.mem ++
        newSnapshot n₁.storage.mem (installSnapshot enc A n₁ rd.snapshot).storage.mem := by
    simp only [Node.written, hSave, hCheck]
  have hWal : storage.wal =
      n.storage.wal ++ Saved.frames enc (Saved.ofSave rd.entries rd.hardState) := by
    rw [DiskStorage.save_eq] at hSave
    cases hMem : n.storage.mem.save rd.entries rd.hardState with
    | error p => simp [hMem, Except.map] at hSave
    | ok mem =>
      simp only [hMem, Except.map, Except.ok.injEq] at hSave
      rw [← hSave]
  rw [hWritten]
  refine ⟨?_, ?_, fun hOther r hr => ?_⟩
  · rw [hInstalled.wal, hTaken.wal, hWal, Saved.frames_append, Saved.frames_append,
      List.append_assoc, List.append_assoc, List.append_assoc]
  · rw [List.append_assoc]
    exact List.prefix_append _ _
  · rcases List.mem_append.mp hr with hr | hr
    · rcases List.mem_append.mp hr with hr | hr
      · unfold Saved.ofSave at hr
        rcases List.mem_append.mp hr with hr | hr
        · obtain ⟨e, -, rfl⟩ := List.mem_map.mp hr
          trivial
        · split_ifs at hr
          · cases hr
          · rw [List.mem_singleton.mp hr]
            trivial
      · obtain ⟨hNewer, rfl⟩ := mem_newSnapshot hr
        refine ⟨by omega, hConf.resolve_left fun hSame => ?_⟩
        rw [hSame] at hNewer
        exact lt_irrefl _ hNewer
    · obtain ⟨hNewer, rfl⟩ := mem_newSnapshot hr
      rcases hReceived with hSame | ⟨hEmpty, hSnapshot⟩
      · rw [hSame] at hNewer
        exact absurd hNewer (lt_irrefl _)
      · exact ⟨by omega, by rw [hSnapshot]; exact hOther hEmpty⟩

theorem run_cons (h : run enc A n (rd :: readys) = .ok n') :
    ∃ n₁, processReady enc A n rd = .ok n₁ ∧ run enc A n₁ readys = .ok n' := by
  rw [run, List.foldlM_cons] at h
  cases hStep : processReady enc A n rd with
  | error p =>
    rw [hStep] at h
    cases h
  | ok n₁ =>
    rw [hStep] at h
    exact ⟨n₁, rfl, h⟩

theorem wal_of_newNode {file : Bytes} {fresh : σ} {start : Start}
    (h : newNode enc file fresh = .ok (n, start)) : n.storage.wal = file := by
  unfold newNode newDiskStorage at h
  cases hIter : Wal.iterate (replayRecord enc) newMemoryStorage file with
  | mk mem err =>
    rw [hIter] at h
    cases err with
    | none =>
      cases h
      rfl
    | some e => cases h

/-- A run appends its records to the file. -/
theorem writtenBy_of_run (h : run enc A n readys = .ok n') :
    n'.storage.wal = n.storage.wal ++ Saved.frames enc (n.writtenBy enc A readys) ∧
      ((∀ rd ∈ readys, isEmptySnap rd.snapshot = false →
          rd.snapshot.metadata.confState = runConfState) →
        ∀ r ∈ n.writtenBy enc A readys, r.OfRun) ∧
      ∀ rd, readys.head? = some rd →
        Saved.ofSave rd.entries rd.hardState <+: n.writtenBy enc A readys := by
  induction readys generalizing n with
  | nil =>
    cases h
    exact ⟨(List.append_nil _).symm, fun _ _ hr => absurd hr List.not_mem_nil,
      fun _ hrd => absurd hrd (by simp)⟩
  | cons rd readys ih =>
    obtain ⟨n₁, hStep, hRun⟩ := run_cons h
    obtain ⟨hWal, hSaved, hOfRun⟩ := written_of_processReady hStep
    obtain ⟨hWal', hOfRun', -⟩ := ih hRun
    have hWritten : n.writtenBy enc A (rd :: readys) =
        n.written enc A rd ++ n₁.writtenBy enc A readys := by
      simp only [Node.writtenBy, hStep]
    rw [hWritten]
    refine ⟨?_, fun hAll r hr => ?_, fun rd' hrd => ?_⟩
    · rw [hWal', hWal, Saved.frames_append, List.append_assoc]
    · rcases List.mem_append.mp hr with hr | hr
      · exact hOfRun (hAll rd List.mem_cons_self) r hr
      · exact hOfRun' (fun rd hrd => hAll rd (List.mem_cons_of_mem _ hrd)) r hr
    · cases hrd
      exact hSaved.trans (List.prefix_append _ _)

/-- The file of a life consists of its records. They are as `Run` writes them, and they begin
with what the first `Ready` saves. -/
theorem Life.records {fresh : σ} {file : Bytes} {records : List Saved}
    (h : Life enc A fresh file records readys) :
    file = Saved.frames enc records ∧
      ((∀ rd ∈ readys, isEmptySnap rd.snapshot = false →
          rd.snapshot.metadata.confState = runConfState) → ∀ r ∈ records, r.OfRun) ∧
      (readys = [] → records = []) ∧
      ∀ rd, readys.head? = some rd → Saved.ofSave rd.entries rd.hardState <+: records := by
  induction h with
  | new =>
    exact ⟨rfl, fun _ _ hr => absurd hr List.not_mem_nil, fun _ => rfl,
      fun _ hrd => absurd hrd (by simp)⟩
  | @process file records readys readys' n₀ n start h hNew hRun ih =>
    obtain ⟨hFile, hOfRun, hNil, hHead⟩ := ih
    obtain ⟨hWal, hOfRun', hHead'⟩ := writtenBy_of_run hRun
    refine ⟨?_, fun hAll r hr => ?_, fun hReadys => ?_, fun rd hrd => ?_⟩
    · rw [hWal, wal_of_newNode hNew, hFile, Saved.frames_append]
    · rcases List.mem_append.mp hr with hr | hr
      · exact hOfRun (fun rd hrd => hAll rd (List.mem_append_left _ hrd)) r hr
      · exact hOfRun' (fun rd hrd => hAll rd (List.mem_append_right _ hrd)) r hr
    · obtain ⟨rfl, rfl⟩ := List.append_eq_nil_iff.mp hReadys
      rw [hNil rfl]
      rfl
    · cases readys with
      | nil =>
        rw [hNil rfl]
        exact hHead' rd hrd
      | cons rd' readys => exact (hHead rd hrd).trans (List.prefix_append _ _)

end Written

/-! ## What a restart reads -/

section Replay

variable {mem mem' : MemoryStorage} {records : List Saved}

/-- A log that is not empty does not become empty by replaying a record. -/
theorem lastIndex_pos_replay {r : Saved} (hReplay : r.replay mem = .ok mem')
    (h : 0 < mem.lastIndex) : 0 < mem'.lastIndex := by
  cases r with
  | entry e =>
    simp only [Saved.replay, MemoryStorage.append, List.length_singleton] at hReplay
    split_ifs at hReplay with hOld hFits
    · cases hReplay
      exact h
    · cases hReplay
      have hLength : (e :: []).drop (max e.index mem.firstIndex - e.index) ≠ [] := by
        rw [Ne, List.drop_eq_nil_iff, List.length_singleton]
        omega
      have := List.length_pos_of_ne_nil hLength
      simp only [MemoryStorage.lastIndex, List.length_append]
      omega
  | hardState hs =>
    cases hReplay
    exact h
  | snapshot snap =>
    simp only [Saved.replay, MemoryStorage.applySnapshot] at hReplay
    split_ifs at hReplay with hOld
    · cases hReplay
      exact h
    · cases hReplay
      simp only [MemoryStorage.lastIndex, List.length_nil]
      omega

/-- The snapshot after replaying a record is the old one or the one of the record. -/
theorem snapshot_replay {r : Saved} (hReplay : r.replay mem = .ok mem') :
    mem'.snapshot = mem.snapshot ∧
        (∀ snap, r = .snapshot snap → snap.metadata.index ≤ mem.snapshot.metadata.index) ∨
      r = .snapshot mem'.snapshot := by
  cases r with
  | entry e =>
    rw [Saved.replay] at hReplay
    exact Or.inl ⟨(append_snapshot hReplay).1, fun _ h => by cases h⟩
  | hardState hs =>
    cases hReplay
    exact Or.inl ⟨rfl, fun _ h => by cases h⟩
  | snapshot snap =>
    simp only [Saved.replay, MemoryStorage.applySnapshot] at hReplay
    split_ifs at hReplay with hOld
    · cases hReplay
      refine Or.inl ⟨rfl, fun _ h => ?_⟩
      cases h
      exact hOld
    · cases hReplay
      exact Or.inr rfl

theorem foldlM_replay_cons {r : Saved} (h : (r :: records).foldlM Saved.replay mem = .ok mem') :
    ∃ mem₁, r.replay mem = .ok mem₁ ∧ records.foldlM Saved.replay mem₁ = .ok mem' := by
  rw [List.foldlM_cons] at h
  cases hReplay : r.replay mem with
  | error p =>
    rw [hReplay] at h
    cases h
  | ok mem₁ =>
    rw [hReplay] at h
    exact ⟨mem₁, rfl, h⟩

theorem lastIndex_pos_replayAll (hReplay : records.foldlM Saved.replay mem = .ok mem')
    (h : 0 < mem.lastIndex) : 0 < mem'.lastIndex := by
  induction records generalizing mem with
  | nil =>
    cases hReplay
    exact h
  | cons r records ih =>
    obtain ⟨mem₁, hHead, hTail⟩ := foldlM_replay_cons hReplay
    exact ih hTail (lastIndex_pos_replay hHead h)

/-- A replayed log has the voters of `Run` if it has a snapshot, and has one exactly if one is
among the records or was there before. -/
theorem confState_replayAll (hReplay : records.foldlM Saved.replay mem = .ok mem')
    (hRecords : ∀ r ∈ records, r.OfRun)
    (hMem : 0 < mem.snapshot.metadata.index ∧ mem.snapshot.metadata.confState = runConfState) :
    0 < mem'.snapshot.metadata.index ∧ mem'.snapshot.metadata.confState = runConfState := by
  induction records generalizing mem with
  | nil =>
    cases hReplay
    exact hMem
  | cons r records ih =>
    obtain ⟨mem₁, hHead, hTail⟩ := foldlM_replay_cons hReplay
    refine ih hTail (fun r hr => hRecords r (List.mem_cons_of_mem _ hr)) ?_
    rcases snapshot_replay hHead with ⟨hSame, -⟩ | rfl
    · rw [hSame]
      exact hMem
    · exact hRecords _ List.mem_cons_self

/-- Replaying from a log without a snapshot. -/
theorem snapshot_replayAll (hReplay : records.foldlM Saved.replay mem = .ok mem')
    (hRecords : ∀ r ∈ records, r.OfRun) (hMem : mem.snapshot = Snapshot.zero) :
    (∃ snap, .snapshot snap ∈ records) ∧ mem'.snapshot.metadata.confState = runConfState ∨
      (¬ ∃ snap, .snapshot snap ∈ records) ∧ mem'.snapshot = Snapshot.zero := by
  induction records generalizing mem with
  | nil =>
    cases hReplay
    exact Or.inr ⟨fun ⟨_, h⟩ => List.not_mem_nil h, hMem⟩
  | cons r records ih =>
    obtain ⟨mem₁, hHead, hTail⟩ := foldlM_replay_cons hReplay
    have hRest : ∀ r ∈ records, r.OfRun := fun r hr => hRecords r (List.mem_cons_of_mem _ hr)
    have hFirst := hRecords r List.mem_cons_self
    rcases snapshot_replay hHead with ⟨hSame, hOld⟩ | rfl
    · -- an old snapshot has index zero, and such records are not written
      have hNot : ∀ snap, r ≠ .snapshot snap := by
        rintro snap rfl
        have hLe := hOld snap rfl
        rw [hMem] at hLe
        exact absurd hFirst.1 (Nat.not_lt.mpr hLe)
      refine (ih hTail hRest (hSame.trans hMem)).imp ?_ ?_
      · exact fun ⟨⟨snap, h⟩, hConf⟩ => ⟨⟨snap, List.mem_cons_of_mem _ h⟩, hConf⟩
      · refine fun ⟨hNone, hZero⟩ => ⟨fun ⟨snap, h⟩ => ?_, hZero⟩
        rcases List.mem_cons.mp h with h | h
        · exact hNot snap h.symm
        · exact hNone ⟨snap, h⟩
    · exact Or.inl ⟨⟨_, List.mem_cons_self⟩, (confState_replayAll hTail hRest hFirst).2⟩

end Replay

/-! ## Membership -/

section Restart

variable {enc A} {fresh : σ} {file : Bytes} {records : List Saved} {readys : List Ready}
  {peers : List Nat} {n₀ : Node σ} {start : Start}

/-- A process that is started on the file of a life. -/
theorem newNode_of_life (h : Life enc A fresh file records readys)
    (hLen : ∀ r ∈ records, (r.bytes enc).length < 2 ^ 32)
    (hOpen : newNode enc file fresh = .ok (n₀, start)) :
    records.foldlM Saved.replay newMemoryStorage = .ok n₀.storage.mem ∧
      start = if n₀.storage.mem.lastIndex > 0 then .restartNode else .startNode := by
  rw [newNode, h.records.1, newDiskStorage_frames enc hLen] at hOpen
  cases hReplay : records.foldlM Saved.replay newMemoryStorage with
  | error p => simp [hReplay] at hOpen
  | ok mem =>
    simp only [hReplay, Except.ok.injEq, Prod.mk.injEq] at hOpen
    obtain ⟨rfl, rfl⟩ := hOpen
    exact ⟨rfl, rfl⟩

/-- The first `Ready` of a bootstrapped node leaves a log that is not empty. -/
theorem lastIndex_pos_of_bootstraps {rd : Ready} {mem : MemoryStorage} (hPeers : peers ≠ [])
    (hBoot : rd.Bootstraps peers)
    (hSaved : Saved.ofSave rd.entries rd.hardState <+: records)
    (hReplay : records.foldlM Saved.replay newMemoryStorage = .ok mem) : 0 < mem.lastIndex := by
  obtain ⟨boot, rest, hEntries, hLength, hContiguous, -⟩ := hBoot
  cases boot with
  | nil => exact absurd (List.length_eq_zero_iff.mp hLength.symm) hPeers
  | cons e boot =>
    obtain ⟨tail, rfl⟩ := hSaved
    rw [Saved.ofSave, hEntries] at hReplay
    obtain ⟨mem₁, hHead, hTail⟩ := foldlM_replay_cons hReplay
    refine lastIndex_pos_replayAll hTail ?_
    have hIndex : e.index = 1 := hContiguous.1
    rw [Saved.replay, MemoryStorage.append_cons (by rw [hIndex]; decide) (by rw [hIndex]; decide)]
      at hHead
    cases hHead
    simp [MemoryStorage.lastIndex]

/-- The voters after a restart and any `Ready`s are the configured peers exactly if nothing has
been saved yet, or if a snapshot has been saved and the peers are the voters that `Run` puts in
its snapshots. -/
theorem voters_after_restart_iff (hPeers : peers ≠ []) (h : Life enc A fresh file records readys)
    (hBoot : ∀ rd, readys.head? = some rd → rd.Bootstraps peers)
    (hReceived : ∀ rd ∈ readys, isEmptySnap rd.snapshot = false →
      rd.snapshot.metadata.confState = runConfState)
    (hLen : ∀ r ∈ records, (r.bytes enc).length < 2 ^ 32)
    (hOpen : newNode enc file fresh = .ok (n₀, start)) (readys' : List Ready) :
    SameVoters (votersAfter (startVoters peers n₀ start) readys') peers ↔
      readys = [] ∨
        (∃ snap, .snapshot snap ∈ records) ∧ SameVoters runConfState.voters peers := by
  obtain ⟨hReplay, rfl⟩ := newNode_of_life h hLen hOpen
  obtain ⟨-, hOfRun, hNil, hHead⟩ := h.records
  rw [votersAfter_eq]
  cases readys with
  | nil =>
    rw [hNil rfl] at hReplay
    obtain ⟨⟨mem, wal⟩, state⟩ := n₀
    cases hReplay
    exact iff_of_true (fun _ => Iff.rfl) (Or.inl rfl)
  | cons rd readys =>
    have hPos := lastIndex_pos_of_bootstraps hPeers (hBoot rd rfl) (hHead rd rfl) hReplay
    rw [if_pos hPos, startVoters]
    rcases snapshot_replayAll hReplay (hOfRun hReceived) rfl with ⟨hSnap, hConf⟩ | ⟨hNone, hZero⟩
    · rw [hConf]
      simp [hSnap]
    · rw [hZero]
      obtain ⟨id, hid⟩ := List.exists_mem_of_ne_nil _ hPeers
      refine iff_of_false (fun hSame => ?_) fun hAny => ?_
      · exact List.not_mem_nil ((hSame id).mpr hid)
      · exact hNone (hAny.resolve_left (List.cons_ne_nil _ _)).1

/-- The life of a node whose first process is still running. -/
theorem life_of_run {n : Node σ} (hRun : run enc A ⟨DiskStorage.empty, fresh⟩ readys = .ok n) :
    Life enc A fresh n.storage.wal (Node.writtenBy enc A ⟨DiskStorage.empty, fresh⟩ readys)
      readys := by
  have hNew : newNode enc [] fresh = .ok (⟨DiskStorage.empty, fresh⟩, .startNode) := by
    rw [newNode, DiskStorage.newDiskStorage_nil]
    rfl
  exact Life.process .new hNew hRun

theorem exists_eq_ok {ε α : Type} {x : Except ε α} (h : x.isOk = true) : ∃ a, x = .ok a := by
  cases x with
  | error e => cases h
  | ok a => exact ⟨a, rfl⟩

theorem exists_newNode (h : Life enc A fresh file records readys)
    (hLen : ∀ r ∈ records, (r.bytes enc).length < 2 ^ 32)
    (hReplay : (records.foldlM Saved.replay newMemoryStorage).isOk = true) :
    ∃ n₀ start, newNode enc file fresh = .ok (n₀, start) := by
  obtain ⟨mem, hFold⟩ := exists_eq_ok hReplay
  rw [newNode, h.records.1, newDiskStorage_frames enc hLen, hFold]
  exact ⟨_, _, rfl⟩

end Restart

/-- An applier that keeps nothing. -/
def silentApplier : Applier Unit := ⟨fun s _ => s, fun _ => some none, fun s _ => s⟩

/-- The entries of the peers and some empty ones, all committed. -/
def bootReady (peers : List Nat) (empty : Nat) : Ready :=
  let entries := (List.range peers.length).map (fun i => ⟨1, i + 1, .confChange, some []⟩) ++
    (List.range empty).map fun i => ⟨1, peers.length + i + 1, .normal, none⟩
  ⟨entries, ⟨1, 0, entries.length⟩, Snapshot.zero, entries⟩

/-- Peers 1, 2 and 3, after a snapshot at the fifty-second entry. -/
theorem voters_after_restart_three :
    ∃ file records n₀ start,
      Life plainEncoding silentApplier () file records [bootReady [1, 2, 3] 49] ∧
        newNode plainEncoding file () = .ok (n₀, start) ∧
        ∀ readys', SameVoters (votersAfter (startVoters [1, 2, 3] n₀ start) readys') [1, 2, 3] := by
  obtain ⟨n, hRun⟩ := exists_eq_ok (x := run plainEncoding silentApplier
    ⟨DiskStorage.empty, ()⟩ [bootReady [1, 2, 3] 49]) (by decide +kernel)
  have hLife := life_of_run hRun
  have hLen : ∀ r ∈ Node.writtenBy plainEncoding silentApplier ⟨DiskStorage.empty, ()⟩
      [bootReady [1, 2, 3] 49], (r.bytes plainEncoding).length < 2 ^ 32 := by decide +kernel
  obtain ⟨n₀, start, hOpen⟩ := exists_newNode hLife hLen (by decide +kernel)
  refine ⟨_, _, n₀, start, hLife, hOpen, fun readys' => ?_⟩
  refine (voters_after_restart_iff (by decide) hLife ?_ ?_ hLen hOpen readys').mpr
    (Or.inr ⟨⟨⟨none, ⟨runConfState, 52, 1⟩⟩, by decide +kernel⟩, fun _ => Iff.rfl⟩)
  · rintro rd hrd
    cases hrd
    exact ⟨_, _, rfl, rfl, by decide, by decide⟩
  · rintro rd hrd hSnapshot
    cases List.mem_singleton.mp hrd
    cases hSnapshot

/-- A single node with id 10 that restarts before its first snapshot has no voters. -/
theorem not_voters_after_restart :
    ¬ ∀ (σ : Type) (enc : Encoding) (A : Applier σ) (fresh : σ) (peers : List Nat) (file : Bytes)
      (records : List Saved) (readys readys' : List Ready) (n₀ : Node σ) (start : Start),
      peers ≠ [] → Life enc A fresh file records readys →
      (∀ rd, readys.head? = some rd → rd.Bootstraps peers) →
      (∀ rd ∈ readys, isEmptySnap rd.snapshot = false →
        rd.snapshot.metadata.confState = runConfState) →
      (∀ r ∈ records, (r.bytes enc).length < 2 ^ 32) →
      newNode enc file fresh = .ok (n₀, start) →
      SameVoters (votersAfter (startVoters peers n₀ start) readys') peers := by
  intro hAll
  obtain ⟨n, hRun⟩ := exists_eq_ok (x := run plainEncoding silentApplier
    ⟨DiskStorage.empty, ()⟩ [bootReady [10] 0]) (by decide)
  have hLife := life_of_run hRun
  have hLen : ∀ r ∈ Node.writtenBy plainEncoding silentApplier ⟨DiskStorage.empty, ()⟩
      [bootReady [10] 0], (r.bytes plainEncoding).length < 2 ^ 32 := by decide
  obtain ⟨n₀, start, hOpen⟩ := exists_newNode hLife hLen (by decide)
  have hSame := hAll _ _ _ _ [10] _ _ _ [] n₀ start (by decide) hLife ?_ ?_ hLen hOpen
  · obtain ⟨hReplay, rfl⟩ := newNode_of_life hLife hLen hOpen
    obtain ⟨⟨mem, wal⟩, state⟩ := n₀
    cases hReplay
    exact List.not_mem_nil ((hSame 10).mpr List.mem_cons_self)
  · rintro rd hrd
    cases hrd
    exact ⟨_, _, rfl, rfl, by decide, by decide⟩
  · rintro rd hrd hSnapshot
    cases List.mem_singleton.mp hrd
    cases hSnapshot

end ShardDB.Raft
