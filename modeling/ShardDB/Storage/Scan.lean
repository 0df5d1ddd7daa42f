import ShardDB.Storage.Reads

/-!
# Range scans and migration

`Scan` with a callback that never stops, and the two calls that move a range from one shard to
another, `ScanRange` and `Ingest`. A scan seeks to the first possible version of its start and
ends at the first item whose user key is at or past its end (`mem_scanned_iff`). Both bounds are
about user keys, but the items come in the order of version keys. So a scan also meets versions
of a key below the start, if the start extends that key, and it may end before a version inside
the range, if a key past the end extends the key of that version. `scanRange_exact_iff` says that
nothing else goes wrong.

Two adjacent scans are wrong in the same way as the scan of the whole, and migrating a range in
two pieces is migrating it at once (`scanRange_split`).
-/

namespace ShardDB.Storage

open ShardDB.Lib

/-- A scan stops at this user key. -/
def past (stop : Slice) (key : Bytes) : Bool :=
  match stop with
  | some stop => stop ≤ key
  | none => false

theorem past_eq_false_iff {stop : Slice} {key : Bytes} :
    past stop key = false ↔ ∀ bound, stop = some bound → key < bound := by
  cases stop <;> simp [past]

namespace MemoryStore

/-! ## What a scan visits -/

/-- The items that a scan visits if its callback never stops. -/
def scanned (s : MemoryStore) (start stop : Slice) : List (Bytes × Slice) :=
  (s.tree.ascendFrom (encodeKey (start.getD []) maxUint64)).takeWhile
    fun it => !past stop (decodeKey it.1).1

theorem sorted_ascendFrom (s : MemoryStore) (pivot : Bytes) :
    (s.tree.ascendFrom pivot).Pairwise fun a b => a.1 < b.1 := s.tree.sorted.filter _

theorem sorted_scanned (s : MemoryStore) (start stop : Slice) :
    (s.scanned start stop).Pairwise fun a b => a.1 < b.1 :=
  (s.sorted_ascendFrom _).sublist (List.takeWhile_sublist _)

theorem scan_eq_foldl {σ : Type} {iter : σ → Bytes → Slice → σ × Bool}
    (h : ∀ acc k v, (iter acc k v).2 = true) (s : MemoryStore) (start stop : Slice) (init : σ) :
    s.scan start stop iter init =
      (s.scanned start stop).foldl (fun acc it => (iter acc it.1 it.2).1) init := by
  refine iterate_until (fun acc (it : Bytes × Slice) => ?_) init _
  have hGo : iter acc it.1 it.2 = ((iter acc it.1 it.2).1, true) := Prod.ext rfl (h _ _ _)
  cases stop with
  | none => exact hGo
  | some stop =>
    by_cases hPast : stop ≤ (decodeKey it.1).1
    · simp [past, hPast]
    · simp only [past, hPast, decide_false, if_false, Bool.false_eq_true]
      exact hGo

/-- An item is visited if it is at or after the seek position and no item up to it is at or past
the end. -/
theorem mem_scanned_iff {s : MemoryStore} {start stop : Slice} {j : Bytes} {v : Slice} :
    (j, v) ∈ s.scanned start stop ↔
      s.tree.find? j = some v ∧ encodeKey (start.getD []) maxUint64 ≤ j ∧
        ∀ j' v', s.tree.find? j' = some v' → encodeKey (start.getD []) maxUint64 ≤ j' → j' ≤ j →
          past stop (decodeKey j').1 = false := by
  rw [scanned, SortedMap.mem_takeWhile_iff (s.sorted_ascendFrom _), SortedMap.mem_ascendFrom,
    and_assoc]
  refine and_congr_right fun _ => and_congr_right fun _ => ?_
  constructor
  · intro h j' v' hFind hSeek hLe
    simpa using h (j', v') (SortedMap.mem_ascendFrom.mpr ⟨hFind, hSeek⟩) hLe
  · rintro h ⟨j', v'⟩ hMem hLe
    obtain ⟨hFind, hSeek⟩ := SortedMap.mem_ascendFrom.mp hMem
    simpa using h j' v' hFind hSeek hLe

/-- `ScanRange`: all raw items that a scan visits, as a map. -/
def scanRange (s : MemoryStore) (start stop : Slice) : SortedMap Bytes Slice :=
  s.scan start stop (fun data k v => (data.insert k v, true)) SortedMap.empty

theorem scanRange_eq (s : MemoryStore) (start stop : Slice) :
    s.scanRange start stop = ⟨s.scanned start stop, s.sorted_scanned start stop⟩ := by
  rw [scanRange, scan_eq_foldl (fun _ _ _ => rfl)]
  exact SortedMap.insertAll_entries ⟨s.scanned start stop, s.sorted_scanned start stop⟩

theorem find?_scanRange {s : MemoryStore} {start stop : Slice} {j : Bytes} {v : Slice} :
    (s.scanRange start stop).find? j = some v ↔ (j, v) ∈ s.scanned start stop := by
  rw [scanRange_eq]
  exact SortedMap.mem_entries_iff.symm

/-! ## Exactness -/

/-- The user key lies in the range; a nil start is the empty key, a nil end is no bound. -/
def InRange (start stop : Slice) (key : Bytes) : Prop :=
  start.getD [] ≤ key ∧ ∀ bound, stop = some bound → key < bound

/-- `ScanRange` returns precisely the stored versions of the user keys in the range. -/
def ScanExact (s : MemoryStore) (start stop : Slice) : Prop :=
  ∀ j v, (s.scanRange start stop).find? j = some v ↔
    ∃ key ts, j = encodeKey key ts ∧ s.HasVersion key ts v ∧ InRange start stop key

/-- A version of a key below the start sorts at or after the seek position, and no version up to
it is at or past the end. -/
def LetsIn (s : MemoryStore) (start stop : Slice) : Prop :=
  ∃ key ts v, s.HasVersion key ts v ∧ key < start.getD [] ∧
    encodeKey (start.getD []) maxUint64 ≤ encodeKey key ts ∧
    ∀ key' ts' v', s.HasVersion key' ts' v' →
      encodeKey (start.getD []) maxUint64 ≤ encodeKey key' ts' →
      encodeKey key' ts' ≤ encodeKey key ts → ∀ bound, stop = some bound → key' < bound

/-- A version of a key in the range sorts after a version of a key at or past the end. -/
def CutsOff (s : MemoryStore) (start stop : Slice) : Prop :=
  ∃ key ts v, s.HasVersion key ts v ∧ InRange start stop key ∧
    ∃ key' ts' v' bound, s.HasVersion key' ts' v' ∧ stop = some bound ∧ bound ≤ key' ∧
      encodeKey key' ts' < encodeKey key ts

/-- What a scan of a tree of versions visits. -/
theorem scanned_version_iff {s : MemoryStore} (hEncoded : Encoded s.tree) {start stop : Slice}
    {key : Bytes} {ts : UInt64} {v : Slice} :
    (encodeKey key ts, v) ∈ s.scanned start stop ↔
      s.HasVersion key ts v ∧ encodeKey (start.getD []) maxUint64 ≤ encodeKey key ts ∧
        ∀ key' ts' v', s.HasVersion key' ts' v' →
          encodeKey (start.getD []) maxUint64 ≤ encodeKey key' ts' →
          encodeKey key' ts' ≤ encodeKey key ts → ∀ bound, stop = some bound → key' < bound := by
  rw [mem_scanned_iff]
  refine and_congr_right fun _ => and_congr_right fun _ => ?_
  constructor
  · intro h key' ts' v' hVersion hSeek hLe
    have hInside := h _ v' hVersion hSeek hLe
    rwa [decodeKey_encodeKey, past_eq_false_iff] at hInside
  · intro h j' v' hFind hSeek hLe
    obtain ⟨key', ts', rfl⟩ := hEncoded j' v' hFind
    rw [decodeKey_encodeKey, past_eq_false_iff]
    exact h key' ts' v' hFind hSeek hLe

/-- A version in the range is visited unless one past the end sorts before it. -/
theorem scanned_of_inRange {s : MemoryStore} (hEncoded : Encoded s.tree) {start stop : Slice}
    {key : Bytes} {ts : UInt64} {v : Slice} (hVersion : s.HasVersion key ts v)
    (hRange : InRange start stop key) (hClear : ¬ s.CutsOff start stop) :
    (encodeKey key ts, v) ∈ s.scanned start stop := by
  refine (scanned_version_iff hEncoded).mpr ⟨hVersion, encodeKey_maxUint64_le hRange.1 ts, ?_⟩
  intro key' ts' v' hVersion' _ hLe bound hStop
  by_contra hBound
  have hNe : encodeKey key' ts' ≠ encodeKey key ts := by
    intro hEq
    obtain rfl := (encodeKey_inj hEq).1
    exact hBound (hRange.2 bound hStop)
  exact hClear ⟨key, ts, v, hVersion, hRange, key', ts', v', bound, hVersion', hStop,
    not_lt.mp hBound, lt_of_le_of_ne hLe hNe⟩

/-- A scan is exact if and only if it neither lets a version below its start in nor ends before a
version in its range. -/
theorem scanRange_exact_iff {s : MemoryStore} (hEncoded : Encoded s.tree) (start stop : Slice) :
    s.ScanExact start stop ↔ ¬ s.LetsIn start stop ∧ ¬ s.CutsOff start stop := by
  constructor
  · intro hExact
    refine ⟨?_, ?_⟩
    · rintro ⟨key, ts, v, hVersion, hBelow, hSeek, hInside⟩
      have hVisited := (scanned_version_iff hEncoded).mpr ⟨hVersion, hSeek, hInside⟩
      obtain ⟨key', ts', hEq, -, hRange⟩ := (hExact _ v).mp (find?_scanRange.mpr hVisited)
      obtain ⟨rfl, rfl⟩ := encodeKey_inj hEq
      exact not_le.mpr hBelow hRange.1
    · rintro ⟨key, ts, v, hVersion, hRange, key', ts', v', bound, hVersion', hStop, hPast, hLt⟩
      have hVisited := find?_scanRange.mp ((hExact _ v).mpr ⟨key, ts, rfl, hVersion, hRange⟩)
      -- the version past the end is at or after the seek position as well
      have hStart : start.getD [] ≤ key' :=
        (hRange.1.trans (hRange.2 bound hStop).le).trans hPast
      exact not_lt.mpr hPast (((scanned_version_iff hEncoded).mp hVisited).2.2 key' ts' v' hVersion'
        (encodeKey_maxUint64_le hStart ts') hLt.le bound hStop)
  · rintro ⟨hNoneIn, hClear⟩ j v
    rw [find?_scanRange]
    constructor
    · intro hVisited
      obtain ⟨key, ts, rfl⟩ := hEncoded j v (mem_scanned_iff.mp hVisited).1
      obtain ⟨hVersion, hSeek, hInside⟩ := (scanned_version_iff hEncoded).mp hVisited
      refine ⟨key, ts, rfl, hVersion, ?_, hInside key ts v hVersion hSeek le_rfl⟩
      by_contra hBelow
      exact hNoneIn ⟨key, ts, v, hVersion, not_le.mp hBelow, hSeek, hInside⟩
    · rintro ⟨key, ts, rfl, hVersion, hRange⟩
      exact scanned_of_inRange hEncoded hVersion hRange hClear

/-- A range with the versions of `a` and `a0`, and not the one of `b`. -/
theorem scanRange_exact_nestedKeys : nestedKeys.ScanExact (some (ascii "a")) (some (ascii "b")) := by
  refine (scanRange_exact_iff (Reachable.encoded ⟨_, rfl⟩) _ _).mpr ⟨?_, ?_⟩
  · rintro ⟨key, ts, v, hVersion, hBelow, -⟩
    exact hVersion.of_entries (P := fun key _ _ => ¬ key < ascii "a") (by decide) hBelow
  · rintro ⟨key, ts, v, hVersion, hRange, key', ts', v', bound, hVersion', hStop, hPast, hLt⟩
    cases hStop
    have hBefore : key < ascii "b" → encodeKey key ts < encodeKey (ascii "b") 1 :=
      hVersion.of_entries (P := fun key ts _ => key < ascii "b" →
        encodeKey key ts < encodeKey (ascii "b") 1) (by decide)
    have hAfter : ascii "b" ≤ key' → encodeKey (ascii "b") 1 ≤ encodeKey key' ts' :=
      hVersion'.of_entries (P := fun key' ts' _ => ascii "b" ≤ key' →
        encodeKey (ascii "b") 1 ≤ encodeKey key' ts') (by decide)
    exact lt_asymm hLt ((hBefore (hRange.2 _ rfl)).trans_le (hAfter hPast))

/-- The range from `a0` on contains the version of `a`. -/
theorem not_scanRange_exact :
    ¬ ∀ s : MemoryStore, Encoded s.tree → ∀ start stop, s.ScanExact start stop := by
  intro hAll
  have hExact := hAll (newMemoryStore.run [.put (ascii "a") (some (ascii "1"))])
    (Reachable.encoded ⟨_, rfl⟩) (some (ascii "a0")) none
  obtain ⟨key, ts, -, hVersion, hStart, -⟩ := (hExact (encodeKey (ascii "a") 1)
    (some (ascii "1"))).mp (by decide)
  rw [hVersion.eq_of_put.1] at hStart
  revert hStart
  decide

/-! ## Migration -/

/-- `Ingest`. The list holds the bindings of the data in the order in which they are ranged
over. -/
def ingest (s : MemoryStore) (data : List (Bytes × Slice)) : MemoryStore :=
  { s with tree := s.tree.insertAll data }

/-- What was stored at a raw key is replaced by what the data have there. -/
theorem find?_ingest (t : MemoryStore) {data : SortedMap Bytes Slice} {l : List (Bytes × Slice)}
    (h : l.Perm data.entries) (j : Bytes) :
    (t.ingest l).tree.find? j = (data.find? j).or (t.tree.find? j) := by
  rw [ingest, SortedMap.find?_insertAll, SortedMap.lastBinding_of_perm h]

/-- Data that agree with each other are ingested in any order, and as well at once. -/
theorem ingest_ingest {whole left right : SortedMap Bytes Slice}
    (hUnion : ∀ j v, whole.find? j = some v ↔ left.find? j = some v ∨ right.find? j = some v)
    {l l₁ l₂ : List (Bytes × Slice)} (hl : l.Perm whole.entries) (hl₁ : l₁.Perm left.entries)
    (hl₂ : l₂.Perm right.entries) (t : MemoryStore) :
    (t.ingest l₁).ingest l₂ = t.ingest l := by
  refine MemoryStore.ext ?_ rfl
  ext1 j
  rw [find?_ingest _ hl₂, find?_ingest _ hl₁, find?_ingest _ hl]
  cases hWhole : whole.find? j with
  | some v =>
    rcases hRight : right.find? j with _ | w
    · have hLeft := ((hUnion j v).mp hWhole).resolve_right (by simp [hRight])
      rw [hLeft]
      rfl
    · -- the right piece has the value of the whole
      rw [(hUnion j w).mpr (Or.inr hRight)] at hWhole
      rw [← hWhole]
      rfl
  | none =>
    have hNone : ∀ v, ¬ (left.find? j = some v ∨ right.find? j = some v) := by
      intro v hv
      rw [(hUnion j v).mpr hv] at hWhole
      cases hWhole
    rw [Option.eq_none_iff_forall_ne_some.mpr fun v hv => hNone v (Or.inl hv),
      Option.eq_none_iff_forall_ne_some.mpr fun v hv => hNone v (Or.inr hv)]
    rfl

/-- What sorts before the first possible version of `m` is a version of a key below `m`. -/
theorem lt_of_encodeKey_lt {m key : Bytes} {ts : UInt64}
    (h : encodeKey key ts < encodeKey m maxUint64) : key < m := by
  by_contra hLe
  exact not_le.mpr h (encodeKey_maxUint64_le (not_lt.mp hLe) ts)

section Split

variable {s : MemoryStore} {start stop : Slice} {m : Bytes}

/-- Two adjacent scans visit together what the scan of the whole range visits. An item before
the seek position of the second scan belongs to a key below the split key, so it ends neither
the first scan nor the scan of the whole. -/
theorem scanned_split (hEncoded : Encoded s.tree) (hStart : start.getD [] ≤ m)
    (hStop : ∀ bound, stop = some bound → m ≤ bound) {key : Bytes} {ts : UInt64} {v : Slice} :
    (encodeKey key ts, v) ∈ s.scanned start stop ↔
      (encodeKey key ts, v) ∈ s.scanned start (some m) ∨
        (encodeKey key ts, v) ∈ s.scanned (some m) stop := by
  have hSeekLe : encodeKey (start.getD []) maxUint64 ≤ encodeKey m maxUint64 :=
    encodeKey_maxUint64_le hStart maxUint64
  rw [scanned_version_iff hEncoded, scanned_version_iff hEncoded, scanned_version_iff hEncoded]
  constructor
  · rintro ⟨hVersion, hSeek, hInside⟩
    rcases lt_or_ge (encodeKey key ts) (encodeKey m maxUint64) with hBefore | hAfter
    · refine Or.inl ⟨hVersion, hSeek, ?_⟩
      intro key' ts' v' _ _ hLe bound hBound
      cases hBound
      exact lt_of_encodeKey_lt (hLe.trans_lt hBefore)
    · refine Or.inr ⟨hVersion, hAfter, ?_⟩
      intro key' ts' v' hVersion' hSeek' hLe
      exact hInside key' ts' v' hVersion' (hSeekLe.trans hSeek') hLe
  · rintro (⟨hVersion, hSeek, hInside⟩ | ⟨hVersion, hSeek, hInside⟩)
    · refine ⟨hVersion, hSeek, ?_⟩
      intro key' ts' v' hVersion' hSeek' hLe bound hBound
      exact (hInside key' ts' v' hVersion' hSeek' hLe m rfl).trans_le (hStop bound hBound)
    · refine ⟨hVersion, hSeekLe.trans hSeek, ?_⟩
      intro key' ts' v' hVersion' _ hLe bound hBound
      rcases lt_or_ge (encodeKey key' ts') (encodeKey m maxUint64) with hBefore | hAfter
      · exact (lt_of_encodeKey_lt hBefore).trans_le (hStop bound hBound)
      · exact hInside key' ts' v' hVersion' hAfter hLe bound hBound

theorem find?_scanRange_split (hEncoded : Encoded s.tree) (hStart : start.getD [] ≤ m)
    (hStop : ∀ bound, stop = some bound → m ≤ bound) (j : Bytes) (v : Slice) :
    (s.scanRange start stop).find? j = some v ↔
      (s.scanRange start (some m)).find? j = some v ∨
        (s.scanRange (some m) stop).find? j = some v := by
  rw [find?_scanRange, find?_scanRange, find?_scanRange]
  by_cases hFind : s.tree.find? j = some v
  · obtain ⟨key, ts, rfl⟩ := hEncoded j v hFind
    exact scanned_split hEncoded hStart hStop
  · have hNot : ∀ start stop, (j, v) ∉ s.scanned start stop :=
      fun start stop hMem => hFind (mem_scanned_iff.mp hMem).1
    simp only [hNot, or_self]

/-- A range is the union of its two pieces, and ingesting the pieces one after the other, in
either order, is ingesting the whole. -/
theorem scanRange_split (hEncoded : Encoded s.tree) (hStart : start.getD [] ≤ m)
    (hStop : ∀ bound, stop = some bound → m ≤ bound) :
    (∀ j v, (s.scanRange start stop).find? j = some v ↔
      (s.scanRange start (some m)).find? j = some v ∨
        (s.scanRange (some m) stop).find? j = some v) ∧
    ∀ (t : MemoryStore) (whole left right : List (Bytes × Slice)),
      whole.Perm (s.scanRange start stop).entries →
      left.Perm (s.scanRange start (some m)).entries →
      right.Perm (s.scanRange (some m) stop).entries →
      (t.ingest left).ingest right = t.ingest whole ∧
      (t.ingest right).ingest left = t.ingest whole ∧
      ∀ j v, (s.scanRange start stop).find? j = some v →
        ((t.ingest left).ingest right).tree.find? j = some v := by
  have hUnion := find?_scanRange_split hEncoded hStart hStop
  refine ⟨hUnion, fun t whole left right hWhole hLeft hRight => ?_⟩
  have hForth := ingest_ingest hUnion hWhole hLeft hRight t
  refine ⟨hForth, ?_, fun j v hFind => ?_⟩
  · exact ingest_ingest (fun j v => (hUnion j v).trans or_comm) hWhole hRight hLeft t
  · rw [hForth, find?_ingest _ hWhole, hFind]
    rfl

end Split

/-- A version of `a` and one of `a0`, split at `a0`: the first piece ends before the version of
`a`, which is in the second piece, and the whole is ingested by its pieces all the same. -/
theorem scanRange_split_extendedKey :
    let s := newMemoryStore.run [.put (ascii "a") (some (ascii "1")),
      .put (ascii "a0") (some (ascii "2"))]
    ((s.scanRange (some (ascii "a0")) none).find? (encodeKey (ascii "a") 1)).isSome = true ∧
      (newMemoryStore.ingest (s.scanRange none (some (ascii "a0"))).entries).ingest
          (s.scanRange (some (ascii "a0")) none).entries =
        newMemoryStore.ingest (s.scanRange none none).entries := by
  intro s
  have hSplit := (@scanRange_split s none none (ascii "a0") (Reachable.encoded ⟨_, rfl⟩)
    (by decide) (by simp)).2
  exact ⟨by decide, (hSplit newMemoryStore _ _ _ (List.Perm.refl _) (List.Perm.refl _)
    (List.Perm.refl _)).1⟩

end MemoryStore

end ShardDB.Storage
