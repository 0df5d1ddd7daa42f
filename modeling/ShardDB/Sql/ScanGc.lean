import ShardDB.Sql.ScanRows
import ShardDB.Storage.Gc

/-!
# Scans after garbage collection

A scan of a table starts at the first possible version of its first row and stops at the first
item whose user key is past the table. A version that `RunGC` deletes comes after a version of
the same key that is kept and visible. If its key is in the table, the key has been seen by
then; if its key is past the table, the scan has stopped by then. Either way the scan loses
nothing, and it ends at the same item as before.
-/

namespace ShardDB.Sql

open ShardDB.Lib ShardDB.Storage

/-! ## Iterating over a part of a list -/

/-- Items that the callback would pass over can be left out. The invariant `I` is about the
items that have been visited. -/
theorem iterate_filter {σ γ : Type} {f : σ → γ → σ × Bool} {keep : γ → Bool} {full : List γ}
    {I : List γ → σ → Prop}
    (hStep : ∀ visited acc acc' x, I visited acc → f acc x = (acc', true) → I (visited ++ [x]) acc')
    (hSkip : ∀ visited x rest acc, full = visited ++ x :: rest → keep x = false → I visited acc →
      f acc x = (acc, true))
    {visited l : List γ} {acc : σ} (hFull : full = visited ++ l) (hI : I visited acc) :
    iterate f acc (l.filter keep) = iterate f acc l := by
  induction l generalizing visited acc with
  | nil => rfl
  | cons x rest ih =>
    have hFull' : full = (visited ++ [x]) ++ rest := by
      rw [hFull, List.append_assoc, List.singleton_append]
    cases hKeep : keep x with
    | false =>
      have hPass := hSkip visited x rest acc hFull hKeep hI
      rw [List.filter_cons_of_neg (by simp [hKeep]), ih hFull' (hStep _ _ _ _ hI hPass), iterate,
        hPass]
    | true =>
      rw [List.filter_cons_of_pos hKeep, iterate, iterate]
      generalize hCall : f acc x = r
      obtain ⟨acc', go⟩ := r
      cases go with
      | false => rfl
      | true => exact ih hFull' (hStep _ _ _ _ hI hCall)

/-! ## The scan -/

/-- The callback that the scan of a table hands to the tree. -/
def scanStep (table : Bytes) (readTs : UInt64) (acc : List Row × List Bytes)
    (it : Bytes × Slice) : (List Row × List Bytes) × Bool :=
  if table ++ ascii ":" ++ [0xFF] ≤ (decodeKey it.1).1 then (acc, false)
  else scanItem table readTs acc it.1 it.2

theorem executeScan_eq (table : Bytes) (engine : MemoryStore) (readTs : UInt64) :
    executeScan table engine readTs = (iterate (scanStep table readTs) ([], [])
      (engine.tree.ascendFrom (encodeKey (table ++ ascii ":") maxUint64))).1 := rfl

/-- What a scan knows of the items it has visited: none is past the table, and the keys of the
visible rows have been seen. -/
structure ScanInvariant (table : Bytes) (readTs : UInt64) (visited : List (Bytes × Slice))
    (acc : List Row × List Bytes) : Prop where
  inside : ∀ it ∈ visited, ¬ table ++ ascii ":" ++ [0xFF] ≤ (decodeKey it.1).1
  seen : ∀ it ∈ visited, (table ++ ascii ":").isPrefixOf (decodeKey it.1).1 = true →
    (decodeKey it.1).2 ≤ readTs → (decodeKey it.1).1 ∈ acc.2

section Scan

variable {table : Bytes} {readTs : UInt64} {acc acc' : List Row × List Bytes} {it : Bytes × Slice}

/-- Every call of the callback keeps what was seen and sees a visible row. -/
theorem scanItem_seen (table : Bytes) (readTs : UInt64) (acc : List Row × List Bytes)
    (k : Bytes) (v : Slice) :
    acc.2 ⊆ (scanItem table readTs acc k v).1.2 ∧
      ((table ++ ascii ":").isPrefixOf (decodeKey k).1 = true → (decodeKey k).2 ≤ readTs →
        (decodeKey k).1 ∈ (scanItem table readTs acc k v).1.2) := by
  rcases scanItem_cases table readTs acc (k, v) with ⟨-, -, -, hAcc⟩ | ⟨hAcc, hSeen⟩
  · rw [hAcc]
    exact ⟨List.subset_cons_self _ _, fun _ _ => List.mem_cons_self⟩
  · rw [hAcc]
    exact ⟨List.Subset.refl _, fun hPrefix => hSeen (List.isPrefixOf_iff_prefix.mp hPrefix)⟩

theorem ScanInvariant.step {visited : List (Bytes × Slice)}
    (h : ScanInvariant table readTs visited acc) (hStep : scanStep table readTs acc it = (acc', true)) :
    ScanInvariant table readTs (visited ++ [it]) acc' := by
  have hPast : ¬ table ++ ascii ":" ++ [0xFF] ≤ (decodeKey it.1).1 := by
    intro hPast
    rw [scanStep, if_pos hPast] at hStep
    cases hStep
  rw [scanStep, if_neg hPast] at hStep
  have hAcc : (scanItem table readTs acc it.1 it.2).1 = acc' := congrArg Prod.fst hStep
  obtain ⟨hKeeps, hSees⟩ := scanItem_seen table readTs acc it.1 it.2
  rw [hAcc] at hKeeps hSees
  constructor
  · intro x hx
    rcases List.mem_append.mp hx with hx | hx
    · exact h.inside x hx
    · rw [List.mem_singleton.mp hx]
      exact hPast
  · intro x hx hPrefix hTs
    rcases List.mem_append.mp hx with hx | hx
    · exact hKeeps (h.seen x hx hPrefix hTs)
    · rw [List.mem_singleton.mp hx] at hPrefix hTs ⊢
      exact hSees hPrefix hTs

/-- A version of a key of the table, or past it, is passed over if a visible version of the key
was visited. Versions of other keys always are. -/
theorem ScanInvariant.pass {visited : List (Bytes × Slice)}
    (h : ScanInvariant table readTs visited acc)
    (hVisited : table ++ ascii ":" <+: (decodeKey it.1).1 ∨
        table ++ ascii ":" ++ [0xFF] ≤ (decodeKey it.1).1 →
      ∃ x ∈ visited, (decodeKey x.1).1 = (decodeKey it.1).1 ∧ (decodeKey x.1).2 ≤ readTs) :
    scanStep table readTs acc it = (acc, true) := by
  have hPast : ¬ table ++ ascii ":" ++ [0xFF] ≤ (decodeKey it.1).1 := by
    intro hPast
    obtain ⟨x, hx, hKey, -⟩ := hVisited (Or.inr hPast)
    exact h.inside x hx (hKey ▸ hPast)
  rw [scanStep, if_neg hPast, scanItem]
  dsimp only
  cases hPrefix : (table ++ ascii ":").isPrefixOf (decodeKey it.1).1 with
  | false => rfl
  | true =>
    obtain ⟨x, hx, hKey, hTs⟩ := hVisited (Or.inl (List.isPrefixOf_iff_prefix.mp hPrefix))
    have hSeen : (decodeKey it.1).1 ∈ acc.2 := by
      rw [← hKey] at hPrefix ⊢
      exact h.seen x hx hPrefix hTs
    simp [hSeen]

end Scan

/-! ## Garbage collection -/

theorem ascendFrom_runGC (s : MemoryStore) (safeTs : UInt64) (pivot : Bytes) :
    (s.runGC safeTs).1.tree.ascendFrom pivot =
      (s.tree.ascendFrom pivot).filter fun e => e.1 ∉ s.garbage safeTs := by
  rw [SortedMap.ascendFrom, SortedMap.ascendFrom, MemoryStore.entries_runGC, List.filter_filter,
    List.filter_filter]
  simp only [Bool.and_comm]

/-- In a sorted list, what is less than an item stands before it. -/
theorem mem_of_lt {l visited rest : List (Bytes × Slice)} {x it : Bytes × Slice}
    (hSorted : l.Pairwise fun a b => a.1 < b.1) (hList : l = visited ++ it :: rest) (hx : x ∈ l)
    (hLt : x.1 < it.1) : x ∈ visited := by
  rw [hList] at hSorted hx
  rcases List.mem_append.mp hx with hx | hx
  · exact hx
  · obtain ⟨-, hTail, -⟩ := List.pairwise_append.mp hSorted
    rcases List.mem_cons.mp hx with rfl | hx
    · exact (lt_irrefl _ hLt).elim
    · exact (hLt.asymm ((List.pairwise_cons.mp hTail).1 x hx)).elim

/-- A scan at or above the safe timestamp does not notice a garbage collection. -/
theorem executeScan_runGC {s : MemoryStore} (hEncoded : MemoryStore.Encoded s.tree)
    {safeTs readTs : UInt64} (hRead : safeTs ≤ readTs) (table : Bytes) :
    executeScan table (s.runGC safeTs).1 readTs = executeScan table s readTs := by
  rw [executeScan_eq, executeScan_eq, ascendFrom_runGC]
  congr 1
  have hStart : ScanInvariant table readTs [] ([], []) :=
    ⟨fun it hit => (List.not_mem_nil hit).elim, fun it hit => (List.not_mem_nil hit).elim⟩
  refine iterate_filter (I := ScanInvariant table readTs)
    (fun visited acc acc' it hInvariant hCall => hInvariant.step hCall) ?_
    (List.nil_append _).symm hStart
  intro visited it rest acc hList hGone hInvariant
  apply hInvariant.pass
  intro hTable
  -- the version that shadows the deleted one is in the part of the tree that is scanned
  have hGarbage : it.1 ∈ s.garbage safeTs := by simpa using hGone
  obtain ⟨-, k', hk', -, hLt, hKey, hTs⟩ := (s.garbage_invariant safeTs).2 it.1 hGarbage
  obtain ⟨x, hx, rfl⟩ := List.mem_map.mp hk'
  obtain ⟨key, ts, hx₁⟩ := hEncoded x.1 x.2 (SortedMap.mem_entries_iff.mp hx)
  refine ⟨x, ?_, hKey, hTs.trans hRead⟩
  have hScanned : encodeKey (table ++ ascii ":") maxUint64 ≤ x.1 := by
    rw [← hKey, hx₁, decodeKey_encodeKey] at hTable
    rw [hx₁]
    apply encodeKey_maxUint64_le
    rcases hTable with hPrefix | hPast
    · exact le_of_isPrefix hPrefix
    · exact (le_of_isPrefix (List.prefix_append _ _)).trans hPast
  refine mem_of_lt (s.tree.sorted.filter _) hList ?_ hLt
  exact SortedMap.mem_ascendFrom.mpr ⟨SortedMap.mem_entries_iff.mp hx, hScanned⟩

/-- `RunGC` deletes only versions that are shadowed by one that it keeps, and no read at or
above the safe timestamp notices it. -/
theorem runGC_invisible {s : MemoryStore} (hEncoded : MemoryStore.Encoded s.tree)
    {safeTs readTs : UInt64} (hRead : safeTs ≤ readTs) :
    (∀ key ts v, (s.runGC safeTs).1.HasVersion key ts v → s.HasVersion key ts v) ∧
    (∀ key ts v, s.HasVersion key ts v → ¬ (s.runGC safeTs).1.HasVersion key ts v →
      ts ≤ safeTs ∧ ∃ ts' v', ts < ts' ∧ ts' ≤ safeTs ∧ s.HasVersion key ts' v' ∧
        (s.runGC safeTs).1.HasVersion key ts' v') ∧
    (s.runGC safeTs).1.locks = s.locks ∧
    (s.runGC safeTs).2 + (s.runGC safeTs).1.tree.entries.length = s.tree.entries.length ∧
    (∀ key ts v, (s.runGC safeTs).1.NewestUpTo key readTs ts v ↔ s.NewestUpTo key readTs ts v) ∧
    ∀ table, executeScan table (s.runGC safeTs).1 readTs = executeScan table s readTs := by
  refine ⟨?_, ?_, s.locks_runGC safeTs, s.runGC_count safeTs,
    fun key ts v => MemoryStore.newestUpTo_runGC hEncoded hRead, executeScan_runGC hEncoded hRead⟩
  · intro key ts v hVersion
    exact (MemoryStore.hasVersion_runGC.mp hVersion).1
  · intro key ts v hVersion hGone
    have hGarbage : encodeKey key ts ∈ s.garbage safeTs := by
      by_contra hKept
      exact hGone (MemoryStore.hasVersion_runGC.mpr ⟨hVersion, hKept⟩)
    obtain ⟨hTs, ts', v', hNewer, hSafe, hKept⟩ := MemoryStore.exists_kept hEncoded hGarbage
    exact ⟨hTs, ts', v', hNewer, hSafe, (MemoryStore.hasVersion_runGC.mp hKept).1, hKept⟩

/-- A row with two versions. -/
def twoVersions : MemoryStore :=
  newMemoryStore.run [.onePhaseCommit [⟨ascii "t:a", some (ascii "1")⟩] (ascii "x") 3,
    .onePhaseCommit [⟨ascii "t:a", some (ascii "2")⟩] (ascii "y") 5]

/-- The older version goes, and the scan returns the newer one as before. -/
theorem runGC_twoVersions : (twoVersions.runGC 7).2 = 1 ∧
    executeScan (ascii "t") (twoVersions.runGC 7).1 9 = executeScan (ascii "t") twoVersions 9 := by
  have hEncoded : MemoryStore.Encoded twoVersions.tree := MemoryStore.Reachable.encoded ⟨_, rfl⟩
  obtain ⟨-, -, -, -, -, hScan⟩ := @runGC_invisible twoVersions hEncoded 7 9 (by decide)
  exact ⟨by decide, hScan (ascii "t")⟩

end ShardDB.Sql
