import ShardDB.Storage.Gc

/-!
# What garbage collection leaves

`RunGC` forgets what it knows about a user key as soon as it meets another one. So it looks at
each run of neighbouring versions of one key by itself and deletes of each run all versions at or
below the safe timestamp but the first (`mem_garbage_iff`). A key is left with at most one such
version if and only if its versions at or below the safe timestamp are one run
(`gcComplete_iff`); a version of a key that extends it may stand in between.

A run never becomes empty, and so two runs never become neighbours. Collections therefore
compose, although they decide by what is next to what (`runGC_compose`).
-/

namespace ShardDB.Storage

open ShardDB.Lib

/-! ## The walk, exactly -/

/-- A version at or below the safe timestamp was visited, and only versions of its user key have
been visited since. -/
def Found (safeTs : UInt64) (visited : List Bytes) (userKey : Bytes) : Prop :=
  ∃ k ∈ visited, (decodeKey k).1 = userKey ∧ (decodeKey k).2 ≤ safeTs ∧
    ∀ z ∈ visited, k < z → (decodeKey z).1 = userKey

/-- The version is at or below the safe timestamp, and so is an earlier one of its run. -/
def Superseded (safeTs : UInt64) (items : List Bytes) (k : Bytes) : Prop :=
  (decodeKey k).2 ≤ safeTs ∧ ∃ k' ∈ items, k' < k ∧ (decodeKey k').1 = (decodeKey k).1 ∧
    (decodeKey k').2 ≤ safeTs ∧ ∀ z ∈ items, k' < z → z < k → (decodeKey z).1 = (decodeKey k).1

/-- The walk has visited the keys `visited`, in ascending order. -/
structure RunInvariant (safeTs : UInt64) (visited : List Bytes) (state : TraversalState) :
    Prop where
  found : ∀ userKey, (state.enter userKey).foundSnapshot = true ↔ Found safeTs visited userKey
  deleted : ∀ k, k ∈ state.keysToDelete ↔ k ∈ visited ∧ Superseded safeTs visited k

section Walk

variable {safeTs : UInt64} {visited : List Bytes} {state : TraversalState} {k : Bytes}

theorem found_concat_self (hLast : ∀ x ∈ visited, x < k) :
    Found safeTs (visited ++ [k]) (decodeKey k).1 ↔
      Found safeTs visited (decodeKey k).1 ∨ (decodeKey k).2 ≤ safeTs := by
  constructor
  · rintro ⟨x, hx, hKey, hTs, hSince⟩
    rcases List.mem_append.mp hx with hx | hx
    · exact Or.inl ⟨x, hx, hKey, hTs, fun z hz => hSince z (List.mem_append_left _ hz)⟩
    · rw [List.mem_singleton.mp hx] at hTs
      exact Or.inr hTs
  · rintro (⟨x, hx, hKey, hTs, hSince⟩ | hTs)
    · refine ⟨x, List.mem_append_left _ hx, hKey, hTs, fun z hz hLt => ?_⟩
      rcases List.mem_append.mp hz with hz | hz
      · exact hSince z hz hLt
      · rw [List.mem_singleton.mp hz]
    · refine ⟨k, by simp, rfl, hTs, fun z hz hLt => ?_⟩
      rcases List.mem_append.mp hz with hz | hz
      · exact absurd hLt (hLast z hz).asymm
      · rw [List.mem_singleton.mp hz]

theorem not_found_concat {userKey : Bytes} (hLast : ∀ x ∈ visited, x < k)
    (hKey : userKey ≠ (decodeKey k).1) : ¬ Found safeTs (visited ++ [k]) userKey := by
  rintro ⟨x, hx, hKeyX, -, hSince⟩
  rcases List.mem_append.mp hx with hx | hx
  · exact hKey (hSince k (by simp) (hLast x hx)).symm
  · rw [List.mem_singleton.mp hx] at hKeyX
    exact hKey hKeyX.symm

/-- Whether a visited version is superseded does not depend on what comes later. -/
theorem superseded_concat_of_lt {x : Bytes} (hx : x < k) :
    Superseded safeTs (visited ++ [k]) x ↔ Superseded safeTs visited x := by
  refine and_congr_right fun _ => ?_
  constructor
  · rintro ⟨k', hk', hLt, hKey, hTs, hBetween⟩
    rcases List.mem_append.mp hk' with hk' | hk'
    · exact ⟨k', hk', hLt, hKey, hTs, fun z hz => hBetween z (List.mem_append_left _ hz)⟩
    · rw [List.mem_singleton.mp hk'] at hLt
      exact absurd hLt hx.asymm
  · rintro ⟨k', hk', hLt, hKey, hTs, hBetween⟩
    refine ⟨k', List.mem_append_left _ hk', hLt, hKey, hTs, fun z hz hAfter hBefore => ?_⟩
    rcases List.mem_append.mp hz with hz | hz
    · exact hBetween z hz hAfter hBefore
    · rw [List.mem_singleton.mp hz] at hBefore
      exact absurd hBefore hx.asymm

theorem superseded_concat_self (hLast : ∀ x ∈ visited, x < k) :
    Superseded safeTs (visited ++ [k]) k ↔
      (decodeKey k).2 ≤ safeTs ∧ Found safeTs visited (decodeKey k).1 := by
  refine and_congr_right fun _ => ?_
  constructor
  · rintro ⟨k', hk', hLt, hKey, hTs, hBetween⟩
    rcases List.mem_append.mp hk' with hk' | hk'
    · exact ⟨k', hk', hKey, hTs, fun z hz hAfter =>
        hBetween z (List.mem_append_left _ hz) hAfter (hLast z hz)⟩
    · rw [List.mem_singleton.mp hk'] at hLt
      exact absurd hLt (lt_irrefl k)
  · rintro ⟨k', hk', hKey, hTs, hSince⟩
    refine ⟨k', List.mem_append_left _ hk', hLast k' hk', hKey, hTs, fun z hz hAfter hBefore => ?_⟩
    rcases List.mem_append.mp hz with hz | hz
    · exact hSince z hz hAfter
    · rw [List.mem_singleton.mp hz]

/-- What a visit does: it remembers that a version at or below the safe timestamp was met, and
collects the item if one was met before. -/
theorem gcVisit_cases (safeTs : UInt64) (state : TraversalState) (it : Bytes × Slice) :
    (gcVisit safeTs state it).currentUserKey = (decodeKey it.1).1 ∧
      ((gcVisit safeTs state it).foundSnapshot = true ↔
        (state.enter (decodeKey it.1).1).foundSnapshot = true ∨ (decodeKey it.1).2 ≤ safeTs) ∧
      ∀ x, x ∈ (gcVisit safeTs state it).keysToDelete ↔
        x ∈ state.keysToDelete ∨ x = it.1 ∧ (decodeKey it.1).2 ≤ safeTs ∧
          (state.enter (decodeKey it.1).1).foundSnapshot = true := by
  have hKey : (state.enter (decodeKey it.1).1).currentUserKey = (decodeKey it.1).1 := by
    unfold TraversalState.enter
    split_ifs with h
    · rfl
    · exact (not_not.mp h).symm
  have hDeleted : (state.enter (decodeKey it.1).1).keysToDelete = state.keysToDelete := by
    unfold TraversalState.enter
    split_ifs <;> rfl
  unfold gcVisit
  dsimp only
  split_ifs with hTs hFound
  · simp_all
  · simp_all
  · simp_all

theorem RunInvariant.visit (h : RunInvariant safeTs visited state) {it : Bytes × Slice}
    (hLast : ∀ x ∈ visited, x < it.1) :
    RunInvariant safeTs (visited ++ [it.1]) (gcVisit safeTs state it) := by
  obtain ⟨hKey, hFound, hDeleted⟩ := gcVisit_cases safeTs state it
  constructor
  · intro userKey
    by_cases hSame : userKey = (decodeKey it.1).1
    · subst hSame
      rw [TraversalState.enter, if_neg (by simp [hKey]), hFound, h.found, found_concat_self hLast]
    · rw [TraversalState.enter, if_pos (by rwa [hKey])]
      simp [not_found_concat hLast hSame]
  · intro x
    rw [hDeleted, h.deleted, h.found, List.mem_append, List.mem_singleton]
    constructor
    · rintro (⟨hx, hSuperseded⟩ | ⟨rfl, hTs, hBefore⟩)
      · exact ⟨Or.inl hx, (superseded_concat_of_lt (hLast x hx)).mpr hSuperseded⟩
      · exact ⟨Or.inr rfl, (superseded_concat_self hLast).mpr ⟨hTs, hBefore⟩⟩
    · rintro ⟨hx | rfl, hSuperseded⟩
      · exact Or.inl ⟨hx, (superseded_concat_of_lt (hLast x hx)).mp hSuperseded⟩
      · exact Or.inr ⟨rfl, (superseded_concat_self hLast).mp hSuperseded⟩

end Walk

namespace MemoryStore

/-- The collected items are the superseded ones. -/
theorem mem_garbage_iff_superseded (s : MemoryStore) (safeTs : UInt64) (k : Bytes) :
    k ∈ s.garbage safeTs ↔ k ∈ s.tree.entries.map Prod.fst ∧
      Superseded safeTs (s.tree.entries.map Prod.fst) k := by
  have hStart : RunInvariant safeTs [] ⟨[], false, []⟩ := by
    refine ⟨fun userKey => ?_, by simp⟩
    rw [TraversalState.enter]
    split_ifs <;> simp [Found]
  have hEnd : RunInvariant safeTs (s.tree.entries.map Prod.fst)
      (s.tree.entries.foldl (gcVisit safeTs) ⟨[], false, []⟩) := by
    refine SortedMap.foldl_ascending
      (I := fun visited state => RunInvariant safeTs (visited.map Prod.fst) state)
      (fun visited state it h hLast => ?_) s.tree.sorted hStart
    rw [List.map_append, List.map_singleton]
    exact h.visit (by simpa using hLast)
  exact hEnd.deleted k

/-! ## Runs of versions -/

/-- No version of another key sorts between two versions of a key. -/
def SameRun (s : MemoryStore) (key : Bytes) (ts' ts : UInt64) : Prop :=
  ∀ key' t w, s.HasVersion key' t w → encodeKey key ts' < encodeKey key' t →
    encodeKey key' t < encodeKey key ts → key' = key

section Runs

variable {s : MemoryStore} {safeTs : UInt64} {key : Bytes} {ts : UInt64} {v : Slice}

theorem mem_keys_iff {j : Bytes} :
    j ∈ s.tree.entries.map Prod.fst ↔ ∃ v, s.tree.find? j = some v := by
  constructor
  · intro h
    obtain ⟨⟨j, v⟩, hMem, rfl⟩ := List.mem_map.mp h
    exact ⟨v, SortedMap.mem_entries_iff.mp hMem⟩
  · rintro ⟨v, hFind⟩
    exact List.mem_map.mpr ⟨(j, v), SortedMap.mem_entries_iff.mpr hFind, rfl⟩

/-- A version is collected exactly if it is at or below the safe timestamp and so is a newer
version of its run. -/
theorem mem_garbage_iff (hEncoded : Encoded s.tree) (hVersion : s.HasVersion key ts v) :
    encodeKey key ts ∈ s.garbage safeTs ↔
      ∃ ts' v', ts < ts' ∧ ts' ≤ safeTs ∧ s.HasVersion key ts' v' ∧ s.SameRun key ts' ts := by
  rw [mem_garbage_iff_superseded, and_iff_right (mem_keys_iff.mpr ⟨v, hVersion⟩)]
  constructor
  · rintro ⟨-, k', hk', hLt, hKey, hTs', hBetween⟩
    obtain ⟨v', hFind⟩ := mem_keys_iff.mp hk'
    obtain ⟨key', ts', rfl⟩ := hEncoded k' v' hFind
    simp only [decodeKey_encodeKey] at hKey hTs' hBetween
    subst hKey
    refine ⟨ts', v', (encodeKey_lt_encodeKey_iff ..).mp hLt, hTs', hFind, ?_⟩
    intro key' t w hOther hAfter hBefore
    have hSame := hBetween _ (mem_keys_iff.mpr ⟨w, hOther⟩) hAfter hBefore
    rwa [decodeKey_encodeKey] at hSame
  · rintro ⟨ts', v', hNewer, hTs', hVersion', hRun⟩
    rw [Superseded]
    simp only [decodeKey_encodeKey]
    refine ⟨hNewer.le.trans hTs', encodeKey key ts', mem_keys_iff.mpr ⟨v', hVersion'⟩,
      (encodeKey_lt_encodeKey_iff ..).mpr hNewer, ?_⟩
    rw [decodeKey_encodeKey]
    refine ⟨rfl, hTs', fun z hz hAfter hBefore => ?_⟩
    obtain ⟨w, hFind⟩ := mem_keys_iff.mp hz
    obtain ⟨key', t, rfl⟩ := hEncoded z w hFind
    rw [decodeKey_encodeKey]
    exact hRun key' t w hFind hAfter hBefore

theorem SameRun.trans {ts' ts'' : UInt64} (h : s.SameRun key ts'' ts') (h' : s.SameRun key ts' ts) :
    s.SameRun key ts'' ts := by
  intro key' t w hVersion hAfter hBefore
  rcases lt_trichotomy (encodeKey key' t) (encodeKey key ts') with hLt | hEq | hGt
  · exact h key' t w hVersion hAfter hLt
  · exact (encodeKey_inj hEq).1
  · exact h' key' t w hVersion hGt hBefore

/-- The newest version of a run at or below the safe timestamp is kept. -/
theorem exists_kept_in_run (hEncoded : Encoded s.tree) (hVersion : s.HasVersion key ts v)
    (hGarbage : encodeKey key ts ∈ s.garbage safeTs) :
    ∃ ts' v', ts < ts' ∧ (s.runGC safeTs).1.HasVersion key ts' v' ∧ s.SameRun key ts' ts := by
  obtain ⟨ts', ⟨v', hNewer, hTs', hVersion', hRun⟩, hGreatest⟩ :=
    exists_greatest ((mem_garbage_iff hEncoded hVersion).mp hGarbage)
  refine ⟨ts', v', hNewer, hasVersion_runGC.mpr ⟨hVersion', fun hGone => ?_⟩, hRun⟩
  obtain ⟨ts'', v'', hNewer', hTs'', hVersion'', hRun'⟩ :=
    (mem_garbage_iff hEncoded hVersion').mp hGone
  have hLe := hGreatest ts'' ⟨v'', hNewer.trans hNewer', hTs'', hVersion'', hRun'.trans hRun⟩
  exact not_lt.mpr hLe hNewer'

end Runs

/-! ## Completeness -/

/-- After the collection every key has at most one version at or below the safe timestamp. -/
def GcComplete (s : MemoryStore) (safeTs : UInt64) : Prop :=
  ∀ key ts ts' v v', (s.runGC safeTs).1.HasVersion key ts v →
    (s.runGC safeTs).1.HasVersion key ts' v' → ts ≤ safeTs → ts' ≤ safeTs → ts = ts'

/-- A collection is complete if and only if the versions of each key at or below the safe
timestamp are neighbours. -/
theorem gcComplete_iff {s : MemoryStore} (hEncoded : Encoded s.tree) (safeTs : UInt64) :
    s.GcComplete safeTs ↔ ∀ key ts ts' v v', s.HasVersion key ts v → s.HasVersion key ts' v' →
      ts < ts' → ts' ≤ safeTs → s.SameRun key ts' ts := by
  constructor
  · intro hComplete key ts ts' v v' hVersion hVersion' hNewer hTs' key₁ t₁ w₁ hVersion₁ hAfter hBefore
    by_contra hOther
    -- the newest version up to the safe timestamp is kept
    obtain ⟨n, u, ⟨hn, hNewest, hMax⟩⟩ := Visible.exists_newest ⟨ts', v', hTs', hVersion'⟩
    have hKept : (s.runGC safeTs).1.HasVersion key n u := by
      refine hasVersion_runGC.mpr ⟨hNewest, fun hGone => ?_⟩
      obtain ⟨t, w, hLt, hSafe, hLater, -⟩ := (mem_garbage_iff hEncoded hNewest).mp hGone
      exact not_lt.mpr (hMax t w hLater hSafe) hLt
    -- and so is the newest one after the version of the other key
    obtain ⟨m, ⟨hm, x, hVersionM⟩, hGreatest⟩ := exists_greatest
      (p := fun t => encodeKey key₁ t₁ < encodeKey key t ∧ ∃ x, s.HasVersion key t x)
      ⟨ts, hBefore, v, hVersion⟩
    have hOlder : m < ts' := (encodeKey_lt_encodeKey_iff ..).mp (hAfter.trans hm)
    have hKept' : (s.runGC safeTs).1.HasVersion key m x := by
      refine hasVersion_runGC.mpr ⟨hVersionM, fun hGone => ?_⟩
      obtain ⟨t, w, hLt, -, hLater, hRun⟩ := (mem_garbage_iff hEncoded hVersionM).mp hGone
      rcases lt_trichotomy (encodeKey key t) (encodeKey key₁ t₁) with hLess | hEq | hMore
      · exact hOther (hRun key₁ t₁ w₁ hVersion₁ hLess hm)
      · exact hOther (encodeKey_inj hEq).1.symm
      · exact not_lt.mpr (hGreatest t ⟨hMore, w, hLater⟩) hLt
    have hSame := hComplete key n m u x hKept hKept' hn (hOlder.le.trans hTs')
    exact not_lt.mpr (hMax ts' v' hVersion' hTs') (hSame ▸ hOlder)
  · intro hRuns
    -- of two versions in one run the older is collected
    have hNot : ∀ key ts ts' v v', (s.runGC safeTs).1.HasVersion key ts v →
        (s.runGC safeTs).1.HasVersion key ts' v' → ts' ≤ safeTs → ¬ ts < ts' := by
      intro key ts ts' v v' hKept hKept' hTs' hLt
      obtain ⟨hVersion, hStays⟩ := hasVersion_runGC.mp hKept
      have hVersion' := (hasVersion_runGC.mp hKept').1
      exact hStays ((mem_garbage_iff hEncoded hVersion).mpr
        ⟨ts', v', hLt, hTs', hVersion', hRuns key ts ts' v v' hVersion hVersion' hLt hTs'⟩)
    intro key ts ts' v v' hKept hKept' hTs hTs'
    rcases lt_trichotomy ts ts' with hLt | hEq | hGt
    · exact absurd hLt (hNot key ts ts' v v' hKept hKept' hTs')
    · exact hEq
    · exact absurd hGt (hNot key ts' ts v' v hKept' hKept hTs)

/-- Both versions of `a` come after the one of `a0`, and the older is collected. -/
theorem gcComplete_nestedKeys : nestedKeys.GcComplete 8 := by
  refine (gcComplete_iff (Reachable.encoded ⟨_, rfl⟩) 8).mpr ?_
  intro key ts ts' v v' hVersion hVersion' _ _ key₁ t₁ w₁ hVersion₁ hAfter hBefore
  have hBetween := hVersion₁.of_entries (P := fun key₁ t₁ _ =>
    ∀ e' ∈ nestedKeys.tree.entries, ∀ e ∈ nestedKeys.tree.entries,
      (decodeKey e'.1).1 = (decodeKey e.1).1 → e'.1 < encodeKey key₁ t₁ →
        encodeKey key₁ t₁ < e.1 → key₁ = (decodeKey e.1).1) (by decide)
    (encodeKey key ts', v') (SortedMap.mem_entries_iff.mpr hVersion')
    (encodeKey key ts, v) (SortedMap.mem_entries_iff.mpr hVersion)
  rw [decodeKey_encodeKey, decodeKey_encodeKey] at hBetween
  exact hBetween rfl hAfter hBefore

/-- The newest and the oldest possible version of `a`, and a version of `a0` between them. -/
def splitRun : MemoryStore :=
  newMemoryStore.run [.onePhaseCommit [⟨ascii "a", some (ascii "1")⟩] (ascii "x") 1,
    .onePhaseCommit [⟨ascii "a", some (ascii "2")⟩] (ascii "y") maxUint64,
    .onePhaseCommit [⟨ascii "a0", some (ascii "3")⟩] (ascii "z") 4]

theorem not_gcComplete :
    ¬ ∀ s : MemoryStore, Encoded s.tree → ∀ safeTs, s.GcComplete safeTs := by
  intro hAll
  have hSame := hAll splitRun (Reachable.encoded ⟨_, rfl⟩) maxUint64 (ascii "a") 1 maxUint64
    (some (ascii "1")) (some (ascii "2")) (by decide) (by decide) (by decide) (by decide)
  revert hSame
  decide

/-! ## Composition -/

section Compose

variable {s : MemoryStore}

theorem encoded_runGC (hEncoded : Encoded s.tree) (safeTs : UInt64) :
    Encoded (s.runGC safeTs).1.tree := by
  intro j v hFind
  rw [← SortedMap.mem_entries_iff, entries_runGC, List.mem_filter,
    SortedMap.mem_entries_iff] at hFind
  exact hEncoded j v hFind.1

/-- A collection neither splits runs nor joins them. -/
theorem sameRun_runGC_iff (hEncoded : Encoded s.tree) {safeTs : UInt64} {key : Bytes}
    {ts ts' : UInt64} {v' : Slice} (hVersion' : s.HasVersion key ts' v') :
    (s.runGC safeTs).1.SameRun key ts' ts ↔ s.SameRun key ts' ts := by
  constructor
  · intro hRun key₁ t w hVersion₁ hAfter hBefore
    by_contra hOther
    have hGone : encodeKey key₁ t ∈ s.garbage safeTs := by
      by_contra hKept
      exact hOther (hRun key₁ t w (hasVersion_runGC.mpr ⟨hVersion₁, hKept⟩) hAfter hBefore)
    -- the first version of the run of the other key is kept and stands between them as well
    obtain ⟨t', w', hNewer, hKept, hRun₁⟩ := exists_kept_in_run hEncoded hVersion₁ hGone
    have hEarlier : encodeKey key₁ t' < encodeKey key₁ t :=
      (encodeKey_lt_encodeKey_iff ..).mpr hNewer
    rcases lt_trichotomy (encodeKey key₁ t') (encodeKey key ts') with hLess | hEq | hMore
    · exact hOther (hRun₁ key ts' v' hVersion' hLess hAfter).symm
    · exact hOther (encodeKey_inj hEq).1
    · exact hOther (hRun key₁ t' w' hKept hMore (hEarlier.trans hBefore))
  · intro hRun key₁ t w hKept
    exact hRun key₁ t w (hasVersion_runGC.mp hKept).1

theorem hasVersion_runGC_runGC (hEncoded : Encoded s.tree) (s₁ s₂ : UInt64) {key : Bytes}
    {ts : UInt64} {v : Slice} :
    ((s.runGC s₁).1.runGC s₂).1.HasVersion key ts v ↔
      (s.runGC (max s₁ s₂)).1.HasVersion key ts v := by
  have hGarbage : ∀ {safeTs}, s.HasVersion key ts v → (encodeKey key ts ∈ s.garbage safeTs ↔ _) :=
    fun hVersion => mem_garbage_iff hEncoded hVersion
  rw [hasVersion_runGC, hasVersion_runGC, hasVersion_runGC, and_assoc]
  refine and_congr_right fun hVersion => ?_
  constructor
  · rintro ⟨hKept₁, hKept₂⟩ hGone
    obtain ⟨ts', v', hNewer, hTs', hVersion', hRun⟩ := (hGarbage hVersion).mp hGone
    rcases le_max_iff.mp hTs' with hLe | hLe
    · exact hKept₁ ((hGarbage hVersion).mpr ⟨ts', v', hNewer, hLe, hVersion', hRun⟩)
    · -- the newer version of the run is still there, or it was below the first safe timestamp
      have hKept' : encodeKey key ts' ∉ s.garbage s₁ := by
        intro hGone'
        obtain ⟨ts'', -, hNewer', hTs'', -⟩ := (mem_garbage_iff hEncoded hVersion').mp hGone'
        exact hKept₁ ((hGarbage hVersion).mpr
          ⟨ts', v', hNewer, hNewer'.le.trans hTs'', hVersion', hRun⟩)
      refine hKept₂ ((mem_garbage_iff (encoded_runGC hEncoded s₁)
        (hasVersion_runGC.mpr ⟨hVersion, hKept₁⟩)).mpr ?_)
      exact ⟨ts', v', hNewer, hLe, hasVersion_runGC.mpr ⟨hVersion', hKept'⟩,
        (sameRun_runGC_iff hEncoded hVersion').mpr hRun⟩
  · intro hKept
    have hKept₁ : encodeKey key ts ∉ s.garbage s₁ := by
      intro hGone
      obtain ⟨ts', v', hNewer, hTs', hRest⟩ := (hGarbage hVersion).mp hGone
      exact hKept ((hGarbage hVersion).mpr ⟨ts', v', hNewer, le_max_of_le_left hTs', hRest⟩)
    refine ⟨hKept₁, fun hGone => ?_⟩
    obtain ⟨ts', v', hNewer, hTs', hVersion', hRun⟩ := (mem_garbage_iff (encoded_runGC hEncoded s₁)
      (hasVersion_runGC.mpr ⟨hVersion, hKept₁⟩)).mp hGone
    have hOld := (hasVersion_runGC.mp hVersion').1
    exact hKept ((hGarbage hVersion).mpr ⟨ts', v', hNewer, le_max_of_le_right hTs', hOld,
      (sameRun_runGC_iff hEncoded hOld).mp hRun⟩)

theorem runGC_runGC (hEncoded : Encoded s.tree) (s₁ s₂ : UInt64) :
    ((s.runGC s₁).1.runGC s₂).1 = (s.runGC (max s₁ s₂)).1 := by
  refine MemoryStore.ext ?_ rfl
  ext j v
  constructor
  · intro hFind
    obtain ⟨key, ts, rfl⟩ := encoded_runGC (encoded_runGC hEncoded s₁) s₂ j v hFind
    exact (hasVersion_runGC_runGC hEncoded s₁ s₂).mp hFind
  · intro hFind
    obtain ⟨key, ts, rfl⟩ := encoded_runGC hEncoded (max s₁ s₂) j v hFind
    exact (hasVersion_runGC_runGC hEncoded s₁ s₂).mpr hFind

/-- Two collections, in either order, are one at the greater timestamp, and a repeated one deletes
nothing. -/
theorem runGC_compose (hEncoded : Encoded s.tree) (s₁ s₂ : UInt64) :
    ((s.runGC s₁).1.runGC s₂).1 = (s.runGC (max s₁ s₂)).1 ∧
      ((s.runGC s₂).1.runGC s₁).1 = (s.runGC (max s₁ s₂)).1 ∧
      ((s.runGC s₁).1.runGC s₁).1 = (s.runGC s₁).1 ∧ ((s.runGC s₁).1.runGC s₁).2 = 0 := by
  have hAgain : ((s.runGC s₁).1.runGC s₁).1 = (s.runGC s₁).1 := by
    rw [runGC_runGC hEncoded, max_self]
  refine ⟨runGC_runGC hEncoded s₁ s₂, ?_, hAgain, ?_⟩
  · rw [runGC_runGC hEncoded, max_comm]
  · have hCount := (s.runGC s₁).1.runGC_count s₁
    rw [hAgain] at hCount
    omega

end Compose

/-- The two runs of `a` stay apart in both orders. -/
theorem runGC_compose_splitRun :
    ((splitRun.runGC 4).1.runGC maxUint64).1 = (splitRun.runGC maxUint64).1 ∧
      ((splitRun.runGC maxUint64).1.runGC 4).1 = (splitRun.runGC maxUint64).1 := by
  obtain ⟨hForth, hBack, -⟩ := @runGC_compose splitRun (Reachable.encoded ⟨_, rfl⟩) 4 maxUint64
  exact ⟨hForth, hBack⟩

end MemoryStore

end ShardDB.Storage
