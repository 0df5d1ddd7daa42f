import ShardDB.Lib.MultiVersion
import ShardDB.Lib.SortedMap

/-!
# Updates on a timeline

A timeline has at most one batch of writes at each time. Replaying it up to a time applies the
batches one after another, in the order of their times, to an empty map.

A multi-version map holds the versions of a timeline up to a time if a key has a version at a
time exactly when the batch of that time writes the key, with the last value that the batch has
for it. A read at that time then returns what the replay up to it has for the key
(`MultiVersion.read_eq_replay`).
-/

namespace ShardDB.Lib

/-- A batch of writes for each of finitely many times. -/
abbrev Timeline (T K V : Type) [LinearOrder T] : Type := SortedMap T (List (K × V))

section Replay

variable {T K V I : Type} [LinearOrder T] [LinearOrder K]

/-- Apply batches one after another. -/
def applyBatches (batches : List (T × List (K × V))) : SortedMap K V :=
  batches.foldl (fun m batch => m.insertAll batch.2) SortedMap.empty

/-- Apply the batches up to a time. -/
def Timeline.replay (line : Timeline T K V) (t : T) : SortedMap K V :=
  applyBatches (line.entries.filter fun batch => batch.1 ≤ t)

/-- The last batch that writes a key decides its value. -/
theorem find?_applyBatches_eq_some_iff {batches : List (T × List (K × V))} {k : K} {v : V}
    (hSorted : batches.Pairwise fun a b => a.1 < b.1) :
    (applyBatches batches).find? k = some v ↔
      ∃ batch ∈ batches, SortedMap.lastBinding batch.2 k = some v ∧
        ∀ other ∈ batches, SortedMap.lastBinding other.2 k ≠ none → other.1 ≤ batch.1 := by
  induction batches using List.reverseRecOn with
  | nil => simp [applyBatches, SortedMap.find?_empty]
  | append_singleton batches batch ih =>
    obtain ⟨hInit, -, hLast⟩ := List.pairwise_append.mp hSorted
    have hFind : (applyBatches (batches ++ [batch])).find? k =
        (SortedMap.lastBinding batch.2 k).or ((applyBatches batches).find? k) := by
      rw [applyBatches, List.foldl_concat, SortedMap.find?_insertAll]
      rfl
    rw [hFind]
    cases hBatch : SortedMap.lastBinding batch.2 k with
    | some w =>
      rw [Option.some_or]
      constructor
      · rintro ⟨rfl⟩
        refine ⟨batch, by simp, hBatch, fun other hOther _ => ?_⟩
        rcases List.mem_append.mp hOther with hOther | hOther
        · exact (hLast other hOther batch List.mem_cons_self).le
        · rw [List.mem_singleton.mp hOther]
      · rintro ⟨found, hFound, hValue, hNewest⟩
        -- an earlier batch would have to be as late as the last one
        have hLate := hNewest batch (by simp) (by simp [hBatch])
        rcases List.mem_append.mp hFound with hFound | hFound
        · exact absurd hLate (not_le.mpr (hLast found hFound batch List.mem_cons_self))
        · rw [List.mem_singleton.mp hFound, hBatch] at hValue
          exact hValue
    | none =>
      rw [Option.none_or, ih hInit]
      constructor
      · rintro ⟨found, hFound, hValue, hNewest⟩
        refine ⟨found, List.mem_append_left _ hFound, hValue, fun other hOther hWrites => ?_⟩
        rcases List.mem_append.mp hOther with hOther | hOther
        · exact hNewest other hOther hWrites
        · rw [List.mem_singleton.mp hOther] at hWrites
          exact absurd hBatch hWrites
      · rintro ⟨found, hFound, hValue, hNewest⟩
        refine ⟨found, ?_, hValue, fun other hOther =>
          hNewest other (List.mem_append_left _ hOther)⟩
        rcases List.mem_append.mp hFound with hFound | hFound
        · exact hFound
        · rw [List.mem_singleton.mp hFound, hBatch] at hValue
          cases hValue

/-- A read at a time returns what the replay up to that time has for the key. -/
theorem MultiVersion.read_eq_replay {m : MultiVersion K T V I} {line : Timeline T K V} {t : T}
    {k : K}
    (hVersions : ∀ u v, u ≤ t → (m.version k u = some v ↔
      ∃ writes, line.find? u = some writes ∧ SortedMap.lastBinding writes k = some v)) :
    m.read k t = (line.replay t).find? k := by
  have hMem : ∀ u writes, (u, writes) ∈ line.entries.filter (fun batch => batch.1 ≤ t) ↔
      u ≤ t ∧ line.find? u = some writes := by
    intro u writes
    rw [List.mem_filter, SortedMap.mem_entries_iff, decide_eq_true_eq, and_comm]
  have hReplay : ∀ v, (line.replay t).find? k = some v ↔ ∃ u, m.Newest k t u v := by
    intro v
    rw [Timeline.replay, find?_applyBatches_eq_some_iff (line.sorted.filter _)]
    constructor
    · rintro ⟨⟨u, writes⟩, hBatch, hValue, hNewest⟩
      obtain ⟨hLe, hFind⟩ := (hMem u writes).mp hBatch
      refine ⟨u, hLe, (hVersions u v hLe).mpr ⟨writes, hFind, hValue⟩,
        fun u' v' hVersion' hLe' => ?_⟩
      obtain ⟨writes', hFind', hValue'⟩ := (hVersions u' v' hLe').mp hVersion'
      exact hNewest (u', writes') ((hMem u' writes').mpr ⟨hLe', hFind'⟩) (by simp [hValue'])
    · rintro ⟨u, hLe, hVersion, hNewest⟩
      obtain ⟨writes, hFind, hValue⟩ := (hVersions u v hLe).mp hVersion
      refine ⟨(u, writes), (hMem u writes).mpr ⟨hLe, hFind⟩, hValue, ?_⟩
      rintro ⟨u', writes'⟩ hBatch' hWrites
      obtain ⟨hLe', hFind'⟩ := (hMem u' writes').mp hBatch'
      obtain ⟨v', hValue'⟩ := Option.ne_none_iff_exists'.mp hWrites
      exact hNewest u' v' ((hVersions u' v' hLe').mpr ⟨writes', hFind', hValue'⟩) hLe'
  cases hFind : (line.replay t).find? k with
  | some v =>
    obtain ⟨u, hNewest⟩ := (hReplay v).mp hFind
    exact read_of_newest hNewest
  | none =>
    refine read_of_none fun u v hNewest => ?_
    rw [(hReplay v).mpr ⟨u, hNewest⟩] at hFind
    cases hFind

end Replay

end ShardDB.Lib
