import ShardDB.Storage.Intents

/-!
# Reads at a timestamp

`GetTxn`, `mvccGetLocked`, `Get` and `Scan` of `internal/storage/memory.go`. The lookup seeks to
the version key of the wanted key at the read timestamp and inspects only the first item
it meets. When that item belongs to another user key the lookup reports that nothing was
found.

What the lookup finds is always the newest visible version of the key
(`newestUpTo_of_found`). User keys have no terminator, so a version of another key can sort
between the seek position and the newest visible version of the wanted key. `readsFind_iff`
says that this is exactly when a stored version is missed, and `not_readsFind` exhibits two
keys of which one extends the other.
-/

namespace ShardDB.Storage

open ShardDB.Lib

namespace MemoryStore

/-- `mvccGetLocked`: the value of the first item at or after the seek key, if that item is a
version of the key. -/
def mvccGetLocked (s : MemoryStore) (key : Bytes) (readTs : UInt64) : Slice × Bool :=
  let seekKey := encodeKey key readTs
  iterate
    (fun acc it => if (decodeKey it.1).1 ≠ key then (acc, false) else ((it.2, true), false))
    (none, false) (s.tree.ascendFrom seekKey)

/-- `GetTxn`: an error on a locked key, nil when no version is found. -/
def getTxn (s : MemoryStore) (key : Bytes) (readTs : UInt64) : Except Bytes Slice :=
  match s.locks.find? key with
  | some lock => .error (ascii "key " ++ key ++ ascii " locked by " ++ lock.txnID)
  | none =>
    let (val, found) := s.mvccGetLocked key readTs
    if found then .ok val else .ok none

/-- `Get`: read the latest version. -/
def get (s : MemoryStore) (key : Bytes) : Except Bytes Slice := s.getTxn key maxUint64

/-- `Scan`: call `iter` on the raw items from `start` on, until a user key is at or above
`stop` or `iter` returns false. -/
def scan {σ : Type} (s : MemoryStore) (start stop : Slice) (iter : σ → Bytes → Slice → σ × Bool)
    (init : σ) : σ :=
  iterate
    (fun acc it =>
      match stop with
      | some stop =>
        if stop ≤ (decodeKey it.1).1 then (acc, false) else iter acc it.1 it.2
      | none => iter acc it.1 it.2)
    init (s.tree.ascendFrom (encodeKey (start.getD []) maxUint64))

/-! ## Stored versions -/

/-- The version of `key` at `ts` is stored with value `v`. -/
def HasVersion (s : MemoryStore) (key : Bytes) (ts : UInt64) (v : Slice) : Prop :=
  s.tree.find? (encodeKey key ts) = some v

instance (s : MemoryStore) (key : Bytes) (ts : UInt64) (v : Slice) :
    Decidable (s.HasVersion key ts v) := inferInstanceAs (Decidable (_ = _))

/-- Every item of the tree is stored under a version key. -/
def Encoded (tree : SortedMap Bytes Slice) : Prop :=
  ∀ j v, tree.find? j = some v → ∃ key ts, j = encodeKey key ts

theorem find?_putVersions {tree : SortedMap Bytes Slice} {l : List Install} {j : Bytes}
    {v : Slice} (h : (putVersions tree l).find? j = some v) :
    (∃ i ∈ l, j = encodeKey i.key i.ts ∧ v = i.value) ∨ tree.find? j = some v := by
  rw [find?_putVersions_eq, Option.or_eq_some_iff] at h
  rcases h with hLast | ⟨-, hOld⟩
  · obtain ⟨i, hi, hEq⟩ := List.mem_map.mp (SortedMap.mem_of_lastBinding hLast)
    cases hEq
    exact Or.inl ⟨i, hi, rfl, rfl⟩
  · exact Or.inr hOld

theorem encoded_putVersions {tree : SortedMap Bytes Slice} (h : Encoded tree)
    (l : List Install) : Encoded (putVersions tree l) := by
  intro j v hFind
  rcases find?_putVersions hFind with ⟨i, -, hj, -⟩ | hFind
  · exact ⟨i.key, i.ts, hj⟩
  · exact h j v hFind

theorem encoded_run {s : MemoryStore} (h : Encoded s.tree) (calls : List Call) :
    Encoded (s.run calls).tree := by
  induction calls generalizing s with
  | nil => exact h
  | cons c rest ih =>
    apply ih
    rw [tree_exec]
    exact encoded_putVersions h _

theorem Reachable.encoded {s : MemoryStore} (h : s.Reachable) : Encoded s.tree := by
  obtain ⟨calls, rfl⟩ := h
  exact encoded_run (by intro j v hFind; cases hFind) calls

/-! ## What the lookup finds -/

/-- The value of the first item at or after a position, if that item is a version of the key. -/
def lookupAt (s : MemoryStore) (pos key : Bytes) : Slice × Bool :=
  match (s.tree.ascendFrom pos).head? with
  | none => (none, false)
  | some it => if (decodeKey it.1).1 ≠ key then (none, false) else (it.2, true)

/-- The callback of the lookups stops at the first item. -/
theorem iterate_lookup (s : MemoryStore) (pos key : Bytes) :
    iterate (fun acc it => if (decodeKey it.1).1 ≠ key then (acc, false) else ((it.2, true), false))
      (none, false) (s.tree.ascendFrom pos) = s.lookupAt pos key := by
  rw [iterate_of_stop (by intro acc it; split_ifs <;> rfl), lookupAt]
  cases (s.tree.ascendFrom pos).head? with
  | none => rfl
  | some it => dsimp only; split_ifs <;> rfl

theorem mvccGetLocked_eq (s : MemoryStore) (key : Bytes) (readTs : UInt64) :
    s.mvccGetLocked key readTs = s.lookupAt (encodeKey key readTs) key :=
  iterate_lookup s (encodeKey key readTs) key

/-- Nothing found is the value nil. -/
theorem lookupAt_of_not_found {s : MemoryStore} {pos key : Bytes}
    (h : ∀ v, s.lookupAt pos key ≠ (v, true)) : s.lookupAt pos key = (none, false) := by
  unfold lookupAt at h ⊢
  split
  · rfl
  · next it hHead =>
    split_ifs with hKey
    · rfl
    · rw [hHead] at h
      exact absurd (if_neg hKey) (h it.2)

/-- The newest version of a key that is visible at a timestamp. -/
def NewestUpTo (s : MemoryStore) (key : Bytes) (readTs ts : UInt64) (v : Slice) : Prop :=
  ts ≤ readTs ∧ s.HasVersion key ts v ∧ ∀ ts' v', s.HasVersion key ts' v' → ts' ≤ readTs → ts' ≤ ts

/-- An item at or after the seek position that decodes to the key is a version of it: a raw
key that is too short for a timestamp sorts before the position. -/
theorem exists_version_of_decodeKey {key j : Bytes} {readTs : UInt64}
    (hSeek : encodeKey key readTs ≤ j) (hKey : (decodeKey j).1 = key) :
    ∃ ts ≤ readTs, j = encodeKey key ts := by
  by_cases hLen : 8 ≤ j.length
  · have hEq := encodeKey_decodeKey hLen
    rw [hKey] at hEq
    refine ⟨(decodeKey j).2, ?_, hEq.symm⟩
    rw [← hEq] at hSeek
    exact (encodeKey_le_encodeKey_iff ..).mp hSeek
  · have hSelf : j = key := by
      rw [← hKey, decodeKey, if_pos (by omega)]
    rw [hSelf] at hSeek
    exact absurd (lt_encodeKey key readTs) (not_lt.mpr hSeek)

/-- A version of the key is the first item at or after a position. -/
def FirstFrom (s : MemoryStore) (pos key : Bytes) (ts : UInt64) (v : Slice) : Prop :=
  s.HasVersion key ts v ∧ pos ≤ encodeKey key ts ∧
    ∀ j w, s.tree.find? j = some w → pos ≤ j → encodeKey key ts ≤ j

/-- A lookup from the seek position or from a later one. -/
theorem lookupAt_eq_iff {s : MemoryStore} {pos key : Bytes} {readTs : UInt64}
    (hPos : encodeKey key readTs ≤ pos) {v : Slice} :
    s.lookupAt pos key = (v, true) ↔ ∃ ts ≤ readTs, s.FirstFrom pos key ts v := by
  constructor
  · intro h
    cases hHead : (s.tree.ascendFrom pos).head? with
    | none =>
      rw [lookupAt, hHead] at h
      cases h
    | some it =>
      obtain ⟨j, w⟩ := it
      rw [lookupAt, hHead] at h
      dsimp only at h
      split_ifs at h with hKey
      · cases h
      · cases h
        obtain ⟨hFind, hSeek, hLeast⟩ := SortedMap.head?_ascendFrom_eq_some hHead
        obtain ⟨ts, hTs, rfl⟩ :=
          exists_version_of_decodeKey (hPos.trans hSeek) (not_not.mp hKey)
        exact ⟨ts, hTs, hFind, hSeek, hLeast⟩
  · rintro ⟨ts, -, hVersion, hSeek, hLeast⟩
    obtain ⟨⟨j, w⟩, hHead⟩ := SortedMap.exists_head?_ascendFrom hVersion hSeek
    obtain ⟨hFind, hSeek', hLeast'⟩ := SortedMap.head?_ascendFrom_eq_some hHead
    obtain rfl : j = encodeKey key ts :=
      le_antisymm (hLeast' _ v hVersion hSeek) (hLeast j w hFind hSeek')
    rw [hVersion] at hFind
    rw [lookupAt, hHead, Option.some.inj hFind]
    simp

/-- The lookup finds a version exactly if that is the first item from the seek position. -/
theorem mvccGetLocked_eq_iff {s : MemoryStore} {key : Bytes} {readTs : UInt64} {v : Slice} :
    s.mvccGetLocked key readTs = (v, true) ↔
      ∃ ts ≤ readTs, s.FirstFrom (encodeKey key readTs) key ts v := by
  rw [mvccGetLocked_eq]
  exact lookupAt_eq_iff le_rfl

/-- The first version of the key from the seek position is the newest visible one: the others are
at or after the position as well. -/
theorem FirstFrom.newestUpTo {s : MemoryStore} {key : Bytes} {readTs ts : UInt64} {v : Slice}
    (h : s.FirstFrom (encodeKey key readTs) key ts v) : s.NewestUpTo key readTs ts v := by
  obtain ⟨hVersion, hSeek, hLeast⟩ := h
  refine ⟨(encodeKey_le_encodeKey_iff ..).mp hSeek, hVersion, ?_⟩
  intro ts' v' hVersion' hTs'
  have hSeek' := (encodeKey_le_encodeKey_iff key readTs ts').mpr hTs'
  exact (encodeKey_le_encodeKey_iff ..).mp (hLeast _ v' hVersion' hSeek')

/-- Whatever the tree holds, what the lookup finds is the newest visible version of the key. -/
theorem newestUpTo_of_found {s : MemoryStore} {key : Bytes} {readTs : UInt64} {v : Slice}
    (h : s.mvccGetLocked key readTs = (v, true)) : ∃ ts, s.NewestUpTo key readTs ts v := by
  obtain ⟨ts, -, hFirst⟩ := mvccGetLocked_eq_iff.mp h
  exact ⟨ts, hFirst.newestUpTo⟩

/-- Two versions of a key and one of a key that extends it. -/
def extendedKey : MemoryStore :=
  newMemoryStore.run [.onePhaseCommit [⟨ascii "a", some (ascii "1")⟩] (ascii "x") 3,
    .onePhaseCommit [⟨ascii "a", some (ascii "2")⟩] (ascii "y") 5,
    .onePhaseCommit [⟨ascii "a0", some (ascii "3")⟩] (ascii "z") 4]

theorem newestUpTo_extendedKey :
    ∃ ts, extendedKey.NewestUpTo (ascii "a") 4 ts (some (ascii "1")) :=
  newestUpTo_of_found (by decide)

/-- Some version of the key is visible at the read timestamp. -/
def Visible (s : MemoryStore) (key : Bytes) (readTs : UInt64) : Prop :=
  ∃ c v, c ≤ readTs ∧ s.HasVersion key c v

/-- Of the visible versions of a key one is the newest. -/
theorem Visible.exists_newest {s : MemoryStore} {key : Bytes} {readTs : UInt64}
    (h : s.Visible key readTs) : ∃ ts v, s.NewestUpTo key readTs ts v := by
  obtain ⟨c, w, hc, hVersion⟩ := h
  obtain ⟨ts, ⟨hTs, v, hVersion⟩, hGreatest⟩ :=
    exists_greatest (p := fun ts => ts ≤ readTs ∧ ∃ v, s.HasVersion key ts v) ⟨c, hc, w, hVersion⟩
  exact ⟨ts, v, hTs, hVersion, fun ts' v' hVersion' hTs' => hGreatest ts' ⟨hTs', v', hVersion'⟩⟩

/-- A version of another key sorts at or after the seek position and before every visible
version of the key. -/
def Shadowed (s : MemoryStore) (key : Bytes) (readTs : UInt64) : Prop :=
  ∃ key' t v, key' ≠ key ∧ s.HasVersion key' t v ∧
    encodeKey key readTs ≤ encodeKey key' t ∧
    ∀ c w, c ≤ readTs → s.HasVersion key c w → encodeKey key' t < encodeKey key c

/-- Reading an unlocked key with a visible version finds the value of a visible version. -/
def ReadsFind (s : MemoryStore) (key : Bytes) (readTs : UInt64) : Prop :=
  s.locks.find? key = none → s.Visible key readTs →
    ∃ c v, c ≤ readTs ∧ s.HasVersion key c v ∧
      s.mvccGetLocked key readTs = (v, true) ∧ s.getTxn key readTs = .ok v

/-- What a read of an unlocked key returns. -/
theorem getTxn_eq {s : MemoryStore} {key : Bytes} (hUnlocked : s.locks.find? key = none)
    (readTs : UInt64) :
    s.getTxn key readTs = .ok (s.lookupAt (encodeKey key readTs) key).1 := by
  rw [getTxn, hUnlocked, mvccGetLocked_eq]
  by_cases hFound : ∃ v, s.lookupAt (encodeKey key readTs) key = (v, true)
  · obtain ⟨v, hFound⟩ := hFound
    rw [hFound]
    rfl
  · rw [lookupAt_of_not_found fun v hv => hFound ⟨v, hv⟩]
    rfl

theorem getTxn_of_found {s : MemoryStore} {key : Bytes} {readTs : UInt64} {v : Slice}
    (hUnlocked : s.locks.find? key = none) (h : s.mvccGetLocked key readTs = (v, true)) :
    s.getTxn key readTs = .ok v := by
  rw [getTxn_eq hUnlocked, ← mvccGetLocked_eq, h]

/-- The lookup of a visible key finds a version exactly when none of another key shadows it. -/
theorem Visible.found_iff {s : MemoryStore} {key : Bytes} {readTs : UInt64}
    (hEncoded : Encoded s.tree) (h : s.Visible key readTs) :
    (∃ v, s.mvccGetLocked key readTs = (v, true)) ↔ ¬ s.Shadowed key readTs := by
  constructor
  · rintro ⟨v, hGet⟩ ⟨key', t, w, -, hVersion', hSeek', hBefore⟩
    obtain ⟨ts, hTs, hVersion, -, hLeast⟩ := mvccGetLocked_eq_iff.mp hGet
    exact absurd (hBefore ts v hTs hVersion) (not_lt.mpr (hLeast _ w hVersion' hSeek'))
  · intro hClear
    obtain ⟨c, w, hc, hVersion⟩ := h
    have hPivot := (encodeKey_le_encodeKey_iff key readTs c).mpr hc
    obtain ⟨⟨j, v⟩, hHead⟩ := SortedMap.exists_head?_ascendFrom hVersion hPivot
    obtain ⟨hFind, hSeek, hLeast⟩ := SortedMap.head?_ascendFrom_eq_some hHead
    obtain ⟨key', t, rfl⟩ := hEncoded j v hFind
    -- the first item from the seek position is a version of the key, or it shadows the key
    have hKey : key' = key := by
      by_contra hNe
      refine hClear ⟨key', t, v, hNe, hFind, hSeek, ?_⟩
      intro c' w' hc' hVersion'
      refine lt_of_le_of_ne (hLeast _ w' hVersion' ((encodeKey_le_encodeKey_iff ..).mpr hc')) ?_
      exact fun hEq => hNe (encodeKey_inj hEq).1
    subst hKey
    exact ⟨v, mvccGetLocked_eq_iff.mpr
      ⟨t, (encodeKey_le_encodeKey_iff ..).mp hSeek, hFind, hSeek, hLeast⟩⟩

/-- A read finds the key exactly when no version of another key shadows it. -/
theorem readsFind_iff {s : MemoryStore} (h : s.Reachable) (key : Bytes) (readTs : UInt64) :
    s.ReadsFind key readTs ↔
      (s.locks.find? key = none → s.Visible key readTs → ¬ s.Shadowed key readTs) := by
  constructor
  · intro hFinds hUnlocked hVisible
    obtain ⟨c, v, -, -, hGet, -⟩ := hFinds hUnlocked hVisible
    exact (hVisible.found_iff h.encoded).mp ⟨v, hGet⟩
  · intro hClear hUnlocked hVisible
    obtain ⟨v, hGet⟩ := (hVisible.found_iff h.encoded).mpr (hClear hUnlocked hVisible)
    obtain ⟨ts, hTs, hVersion, -⟩ := mvccGetLocked_eq_iff.mp hGet
    exact ⟨ts, v, hTs, hVersion, hGet, getTxn_of_found hUnlocked hGet⟩

/-- The store after one `Put` holds one version. -/
theorem HasVersion.eq_of_put {k key : Bytes} {value v : Slice} {ts : UInt64}
    (h : (newMemoryStore.run [.put k value]).HasVersion key ts v) :
    key = k ∧ ts = 1 ∧ v = value := by
  have hTree : (newMemoryStore.run [.put k value]).tree =
      SortedMap.empty.insert (encodeKey k 1) value :=
    congrArg (fun r => r.1.tree) (put_of_free value (freeFor_of_unlocked rfl _))
  rw [HasVersion, hTree, SortedMap.find?_insert] at h
  split_ifs at h with hEq
  · obtain ⟨hKey, hTs⟩ := encodeKey_inj hEq
    exact ⟨hKey, hTs, (Option.some.inj h).symm⟩
  · cases h

/-- What holds of all items of the tree holds of every version. -/
theorem HasVersion.of_entries {s : MemoryStore} {P : Bytes → UInt64 → Slice → Prop}
    (h : ∀ e ∈ s.tree.entries, P (decodeKey e.1).1 (decodeKey e.1).2 e.2) {key : Bytes}
    {ts : UInt64} {v : Slice} (hVersion : s.HasVersion key ts v) : P key ts v := by
  have hItem := h (encodeKey key ts, v) (SortedMap.mem_entries_iff.mpr hVersion)
  rwa [decodeKey_encodeKey] at hItem

/-- A key is not shadowed if no item of another key lies between the position and a visible
version. -/
theorem not_shadowed_of_entries {s : MemoryStore} {key : Bytes} {readTs c : UInt64} {w : Slice}
    (hTs : c ≤ readTs) (hVersion : s.HasVersion key c w)
    (h : ∀ e ∈ s.tree.entries, (decodeKey e.1).1 ≠ key → encodeKey key readTs ≤ e.1 →
      encodeKey key c ≤ e.1) : ¬ s.Shadowed key readTs := by
  rintro ⟨key', t, v, hNe, hVersion', hSeek, hBefore⟩
  have hItem := h (encodeKey key' t, v) (SortedMap.mem_entries_iff.mpr hVersion')
  rw [decodeKey_encodeKey] at hItem
  exact not_lt.mpr (hItem hNe hSeek) (hBefore c w hTs hVersion)

/-- Two versions of `a`, one of the longer key `a0`, and one of `b`. -/
def nestedKeys : MemoryStore :=
  newMemoryStore.run [.onePhaseCommit [⟨ascii "a", some (ascii "1")⟩] (ascii "x") 3,
    .onePhaseCommit [⟨ascii "a", some (ascii "2")⟩, ⟨ascii "a0", some (ascii "3")⟩] (ascii "y") 7,
    .put (ascii "b") (some (ascii "4"))]

/-- The older version of `a` is found at 5: all versions of `a0` sort before the position. -/
theorem readsFind_nestedKeys : nestedKeys.ReadsFind (ascii "a") 5 := by
  refine (readsFind_iff ⟨_, rfl⟩ _ _).mpr fun _ _ => ?_
  have hVersion : nestedKeys.HasVersion (ascii "a") 3 (some (ascii "1")) := by decide
  exact not_shadowed_of_entries (by decide) hVersion (by decide)

/-- A version of the key `a0` hides the version of the key `a`. -/
theorem not_readsFind : ¬ ∀ s : MemoryStore, s.Reachable → ∀ key readTs, s.ReadsFind key readTs := by
  intro hAll
  have hFinds := hAll (newMemoryStore.run [.put (ascii "a") (some (ascii "1")),
    .put (ascii "a0") (some (ascii "2"))]) ⟨_, rfl⟩ (ascii "a") maxUint64
  have hVisible : (newMemoryStore.run [.put (ascii "a") (some (ascii "1")),
      .put (ascii "a0") (some (ascii "2"))]).Visible (ascii "a") maxUint64 :=
    ⟨1, some (ascii "1"), by decide, by decide⟩
  obtain ⟨c, v, -, -, hGet, -⟩ := hFinds (by decide) hVisible
  have hMissed : ((newMemoryStore.run [.put (ascii "a") (some (ascii "1")),
      .put (ascii "a0") (some (ascii "2"))]).mvccGetLocked (ascii "a") maxUint64).2 = false := by
    decide
  rw [hGet] at hMissed
  cases hMissed

end MemoryStore

end ShardDB.Storage
