import ShardDB.Shard.Entry

/-!
# What the entries of the transaction handlers do

The `/txn/prepare`, `/txn/commit` and `/txn/abort` handlers join their fields with spaces, and
`Apply` splits the entry at every space and drops it when the number of parts is wrong. A space
in a field adds a part. So an entry has the effect of the engine call it was built for exactly
when none of its fields contains a space (`faithful_iff`).
-/

namespace ShardDB.Shard

open ShardDB.Lib ShardDB.Storage

/-- Applying the entry of `/txn/prepare` is `engine.Prepare`. -/
def PrepareFaithful (libs : Libs) (key val txn : Bytes) : Prop :=
  ∀ s : MemoryStore, apply libs s (prepareEntry key val txn) = (s.prepare key (some val) txn).1

/-- Applying the entry of `/txn/commit` is `engine.Commit`. -/
def CommitFaithful (libs : Libs) (key txn : Bytes) (ts : UInt64) : Prop :=
  ∀ s : MemoryStore,
    apply libs s (commitEntry key txn (decimal ts.toNat)) = (s.commit key txn ts).1

/-- Applying the entry of `/txn/abort` is `engine.Abort`. -/
def AbortFaithful (libs : Libs) (key txn : Bytes) : Prop :=
  ∀ s : MemoryStore, apply libs s (abortEntry key txn) = (s.abort key txn).1

/-! ## The number of parts -/

/-- Splitting at a separator yields one part more than there are separators. -/
theorem length_splitOn (l : Bytes) (sep : UInt8) :
    (l.splitOn sep).length = l.count sep + 1 := by
  induction l with
  | nil => rfl
  | cons b l ih =>
    rw [List.splitOn_eq_splitOnP] at ih ⊢
    rw [List.splitOnP_cons_eq_if_modifyHead, List.count_cons]
    split_ifs with hSep
    · rw [List.length_cons, ih]
    · rw [List.length_modifyHead, ih]

theorem decode_prepareEntry_eq (libs : Libs) (key val txn : Bytes) :
    decode libs (prepareEntry key val txn) =
      if 32 ∉ key ∧ 32 ∉ val ∧ 32 ∉ txn then .prepare key val txn else .ignored := by
  split_ifs with h
  · exact decode_prepareEntry libs h.1 h.2.1 h.2.2
  · have hLength : ((prepareEntry key val txn).splitOn 32).length ≠ 4 := by
      simp only [← List.count_eq_zero] at h
      rw [length_splitOn]
      simp only [prepareEntry, List.count_append]
      have : (ascii "PREPARE ").count 32 = 1 ∧ (ascii " ").count 32 = 1 := by decide
      omega
    have hPrefix : hasPrefix (prepareEntry key val txn) (ascii "PREPARE ") = true := rfl
    rw [decode, if_pos hPrefix]
    split
    · next hSplit => simp [hSplit] at hLength
    · rfl

theorem decode_commitEntry_eq (libs : Libs) (key txn : Bytes) (ts : UInt64) :
    decode libs (commitEntry key txn (decimal ts.toNat)) =
      if 32 ∉ key ∧ 32 ∉ txn then .commit key txn ts else .ignored := by
  split_ifs with h
  · exact decode_commitEntry libs h.1 h.2 ts
  · have hLength : ((commitEntry key txn (decimal ts.toNat)).splitOn 32).length ≠ 4 := by
      simp only [← List.count_eq_zero] at h
      rw [length_splitOn]
      simp only [commitEntry, List.count_append]
      have : (ascii "COMMIT ").count 32 = 1 ∧ (ascii " ").count 32 = 1 := by decide
      omega
    have hPrefix : hasPrefix (commitEntry key txn (decimal ts.toNat)) (ascii "COMMIT ") = true :=
      rfl
    have hNot : hasPrefix (commitEntry key txn (decimal ts.toNat)) (ascii "PREPARE ") ≠ true := by
      simp [hasPrefix, commitEntry, ascii]
    rw [decode, if_neg hNot, if_pos hPrefix]
    split
    · next hSplit => simp [hSplit] at hLength
    · rfl

theorem decode_abortEntry_eq (libs : Libs) (key txn : Bytes) :
    decode libs (abortEntry key txn) =
      if 32 ∉ key ∧ 32 ∉ txn then .abort key txn else .ignored := by
  split_ifs with h
  · exact decode_abortEntry libs h.1 h.2
  · have hLength : ((abortEntry key txn).splitOn 32).length ≠ 3 := by
      simp only [← List.count_eq_zero] at h
      rw [length_splitOn]
      simp only [abortEntry, List.count_append]
      have : (ascii "ABORT ").count 32 = 1 ∧ (ascii " ").count 32 = 1 := by decide
      omega
    have hPrefix : hasPrefix (abortEntry key txn) (ascii "ABORT ") = true := rfl
    have hNot : hasPrefix (abortEntry key txn) (ascii "PREPARE ") ≠ true ∧
        hasPrefix (abortEntry key txn) (ascii "COMMIT ") ≠ true := by
      simp [hasPrefix, abortEntry, ascii]
    rw [decode, if_neg hNot.1, if_neg hNot.2, if_pos hPrefix]
    split
    · next hSplit => simp [hSplit] at hLength
    · rfl

/-! ## When the entries are faithful -/

/-- A store in which a transaction holds the lock of a key. -/
def lockedStore (key txn : Bytes) : MemoryStore :=
  (newMemoryStore.prepare key none txn).1

theorem lockedStore_eq (key txn : Bytes) :
    lockedStore key txn = ⟨SortedMap.empty, SortedMap.empty.insert key ⟨txn, none⟩⟩ := rfl

theorem prepareFaithful_iff (libs : Libs) (key val txn : Bytes) :
    PrepareFaithful libs key val txn ↔ 32 ∉ key ∧ 32 ∉ val ∧ 32 ∉ txn := by
  constructor
  · intro h
    by_contra hSpace
    -- the dropped entry leaves the empty store, a `Prepare` locks the key
    have hLocks := congrArg (fun s => s.locks.find? key) (h newMemoryStore)
    rw [apply, decode_prepareEntry_eq, if_neg hSpace] at hLocks
    simp [Command.exec, MemoryStore.prepare, MemoryStore.lockedByOther, newMemoryStore] at hLocks
  · intro hNone s
    rw [apply, decode_prepareEntry_eq, if_pos hNone]
    rfl

theorem commitFaithful_iff (libs : Libs) (key txn : Bytes) (ts : UInt64) :
    CommitFaithful libs key txn ts ↔ 32 ∉ key ∧ 32 ∉ txn := by
  constructor
  · intro h
    by_contra hSpace
    have hLocks := congrArg (fun s => s.locks.find? key) (h (lockedStore key txn))
    rw [apply, decode_commitEntry_eq, if_neg hSpace] at hLocks
    simp [Command.exec, MemoryStore.commit, lockedStore_eq] at hLocks
  · intro hNone s
    rw [apply, decode_commitEntry_eq, if_pos hNone]
    rfl

theorem abortFaithful_iff (libs : Libs) (key txn : Bytes) :
    AbortFaithful libs key txn ↔ 32 ∉ key ∧ 32 ∉ txn := by
  constructor
  · intro h
    by_contra hSpace
    have hLocks := congrArg (fun s => s.locks.find? key) (h (lockedStore key txn))
    rw [apply, decode_abortEntry_eq, if_neg hSpace] at hLocks
    simp [Command.exec, MemoryStore.abort, lockedStore_eq] at hLocks
  · intro hNone s
    rw [apply, decode_abortEntry_eq, if_pos hNone]
    rfl

/-- The entries of the handlers stand for their engine calls exactly when no field contains a
space. -/
theorem faithful_iff (libs : Libs) (key val txn : Bytes) (ts : UInt64) :
    (PrepareFaithful libs key val txn ↔ 32 ∉ key ∧ 32 ∉ val ∧ 32 ∉ txn) ∧
      (CommitFaithful libs key txn ts ↔ 32 ∉ key ∧ 32 ∉ txn) ∧
      (AbortFaithful libs key txn ↔ 32 ∉ key ∧ 32 ∉ txn) :=
  ⟨prepareFaithful_iff libs key val txn, commitFaithful_iff libs key txn ts,
    abortFaithful_iff libs key txn⟩

theorem faithful_plain :
    let libs := compactJson fun _ => .error []
    PrepareFaithful libs (ascii "users:1") (ascii "Ada") (ascii "txn-1") ∧
      CommitFaithful libs (ascii "users:1") (ascii "txn-1") 18446744073709551615 ∧
      AbortFaithful libs (ascii "users:1") (ascii "txn-1") := by
  intro libs
  obtain ⟨hPrepare, hCommit, hAbort⟩ := faithful_iff libs (ascii "users:1") (ascii "Ada")
    (ascii "txn-1") 18446744073709551615
  exact ⟨hPrepare.mpr (by decide), hCommit.mpr (by decide), hAbort.mpr (by decide)⟩

/-- A `PREPARE` entry whose value is two words is dropped. -/
theorem not_prepareFaithful :
    ¬ ∀ (libs : Libs) (key val txn : Bytes) (ts : UInt64), PrepareFaithful libs key val txn ∧
      CommitFaithful libs key txn ts ∧ AbortFaithful libs key txn := by
  intro h
  have hEntry := (h (compactJson fun _ => .error []) (ascii "users:1") (ascii "Ada Lovelace")
    (ascii "txn-1") 0).1 newMemoryStore
  revert hEntry
  decide

end ShardDB.Shard
