import ShardDB.Storage.Reads

/-!
# Garbage collection

`RunGC` walks over the tree once and remembers the user key of the last item and whether it has
seen a version of that key at or below the safe timestamp. Every further such version is
deleted. Versions of one key need not be neighbours: a key that extends it can come in between,
and then the walk starts anew for the key and keeps one more version than it has to. It never
deletes too much, since a version is deleted only after a newer one was kept
(`GcInvariant`).
-/

namespace ShardDB.Storage

open ShardDB.Lib

/-! ## The collector -/

/-- `traversalState`, with the list of items to delete. -/
structure TraversalState where
  currentUserKey : Bytes
  foundSnapshot : Bool
  keysToDelete : List Bytes

/-- The check for a new user key. -/
def TraversalState.enter (state : TraversalState) (userKey : Bytes) : TraversalState :=
  if userKey ≠ state.currentUserKey then
    { state with currentUserKey := userKey, foundSnapshot := false }
  else state

/-- One call of the callback of `RunGC`. -/
def gcVisit (safeTs : UInt64) (state : TraversalState) (it : Bytes × Slice) : TraversalState :=
  let (userKey, ts) := decodeKey it.1
  let state := state.enter userKey
  if ts ≤ safeTs then
    if !state.foundSnapshot then { state with foundSnapshot := true }
    else { state with keysToDelete := state.keysToDelete ++ [it.1] }
  else state

namespace MemoryStore

/-- The keys that `RunGC` collects. -/
def garbage (s : MemoryStore) (safeTs : UInt64) : List Bytes :=
  (s.tree.entries.foldl (gcVisit safeTs) ⟨[], false, []⟩).keysToDelete

/-- `RunGC`: the store afterwards and the number of deleted versions. -/
def runGC (s : MemoryStore) (safeTs : UInt64) : MemoryStore × Nat :=
  let (tree, deletedCount) := (s.garbage safeTs).foldl
    (fun (acc : SortedMap Bytes Slice × Nat) k => (acc.1.erase k, acc.2 + 1)) (s.tree, 0)
  ({ s with tree := tree }, deletedCount)

end MemoryStore

/-! ## What is collected -/

/-- A newer version of the same key at or below the safe timestamp. -/
def Shadows (safeTs : UInt64) (k' k : Bytes) : Prop :=
  k' < k ∧ (decodeKey k').1 = (decodeKey k).1 ∧ (decodeKey k').2 ≤ safeTs

/-- The walk has visited the keys `visited`, in ascending order. -/
structure GcInvariant (safeTs : UInt64) (visited : List Bytes) (state : TraversalState) :
    Prop where
  sublist : state.keysToDelete.Sublist visited
  snapshot : state.foundSnapshot = true → ∃ k ∈ visited, k ∉ state.keysToDelete ∧
    (decodeKey k).1 = state.currentUserKey ∧ (decodeKey k).2 ≤ safeTs
  shadowed : ∀ k ∈ state.keysToDelete, (decodeKey k).2 ≤ safeTs ∧
    ∃ k' ∈ visited, k' ∉ state.keysToDelete ∧ Shadows safeTs k' k

section Walk

variable {safeTs : UInt64} {visited : List Bytes} {state : TraversalState} {it : Bytes × Slice}

theorem GcInvariant.enter (h : GcInvariant safeTs visited state) (userKey : Bytes) :
    GcInvariant safeTs visited (state.enter userKey) ∧
      (state.enter userKey).currentUserKey = userKey := by
  unfold TraversalState.enter
  split_ifs with hKey
  · exact ⟨⟨h.sublist, fun hFound => (Bool.false_ne_true hFound).elim, h.shadowed⟩, rfl⟩
  · exact ⟨h, (not_not.mp hKey).symm⟩

/-- The item is kept, because it is too new. -/
theorem GcInvariant.skip (h : GcInvariant safeTs visited state) (k : Bytes) :
    GcInvariant safeTs (visited ++ [k]) state where
  sublist := h.sublist.trans (List.sublist_append_left ..)
  snapshot hFound := by
    obtain ⟨k', hk', hRest⟩ := h.snapshot hFound
    exact ⟨k', List.mem_append_left _ hk', hRest⟩
  shadowed x hx := by
    obtain ⟨hTs, k', hk', hRest⟩ := h.shadowed x hx
    exact ⟨hTs, k', List.mem_append_left _ hk', hRest⟩

/-- The item is kept, as the newest version at or below the safe timestamp. -/
theorem GcInvariant.keep (h : GcInvariant safeTs visited state) {k : Bytes}
    (hLast : ∀ x ∈ visited, x < k) (hKey : (decodeKey k).1 = state.currentUserKey)
    (hTs : (decodeKey k).2 ≤ safeTs) :
    GcInvariant safeTs (visited ++ [k]) { state with foundSnapshot := true } where
  sublist := (h.skip k).sublist
  snapshot _ := by
    refine ⟨k, by simp, ?_, hKey, hTs⟩
    intro hk
    exact lt_irrefl k (hLast k (h.sublist.subset hk))
  shadowed := (h.skip k).shadowed

/-- The item is collected, and the version that was kept before it is newer. -/
theorem GcInvariant.collect (h : GcInvariant safeTs visited state) {k : Bytes}
    (hLast : ∀ x ∈ visited, x < k) (hKey : (decodeKey k).1 = state.currentUserKey)
    (hTs : (decodeKey k).2 ≤ safeTs) (hFound : state.foundSnapshot = true) :
    GcInvariant safeTs (visited ++ [k])
      { state with keysToDelete := state.keysToDelete ++ [k] } := by
  have hStays : ∀ x ∈ visited, x ∉ state.keysToDelete → x ∉ state.keysToDelete ++ [k] := by
    intro x hx hNot hMem
    rcases List.mem_append.mp hMem with hMem | hMem
    · exact hNot hMem
    · exact (hLast x hx).ne (List.mem_singleton.mp hMem)
  obtain ⟨k₀, hk₀, hKept, hKey₀, hTs₀⟩ := h.snapshot hFound
  refine ⟨h.sublist.append_right [k], ?_, ?_⟩
  · intro _
    exact ⟨k₀, List.mem_append_left _ hk₀, hStays k₀ hk₀ hKept, hKey₀, hTs₀⟩
  · intro x hx
    rcases List.mem_append.mp hx with hx | hx
    · obtain ⟨hTsX, k', hk', hNot, hShadows⟩ := h.shadowed x hx
      exact ⟨hTsX, k', List.mem_append_left _ hk', hStays k' hk' hNot, hShadows⟩
    · rw [List.mem_singleton.mp hx]
      exact ⟨hTs, k₀, List.mem_append_left _ hk₀, hStays k₀ hk₀ hKept, hLast k₀ hk₀,
        hKey₀.trans hKey.symm, hTs₀⟩

theorem GcInvariant.visit (h : GcInvariant safeTs visited state)
    (hLast : ∀ x ∈ visited, x < it.1) :
    GcInvariant safeTs (visited ++ [it.1]) (gcVisit safeTs state it) := by
  obtain ⟨hEnter, hKey⟩ := h.enter (decodeKey it.1).1
  unfold gcVisit
  dsimp only
  split_ifs with hTs hFound
  · exact hEnter.keep hLast hKey.symm hTs
  · exact hEnter.collect hLast hKey.symm hTs (by simpa using hFound)
  · exact hEnter.skip it.1

end Walk

namespace MemoryStore

variable (s : MemoryStore) (safeTs : UInt64)

theorem garbage_invariant :
    (s.garbage safeTs).Sublist (s.tree.entries.map Prod.fst) ∧
      ∀ k ∈ s.garbage safeTs, (decodeKey k).2 ≤ safeTs ∧
        ∃ k' ∈ s.tree.entries.map Prod.fst, k' ∉ s.garbage safeTs ∧ Shadows safeTs k' k := by
  have hStart : GcInvariant safeTs [] ⟨[], false, []⟩ :=
    ⟨List.nil_sublist _, fun hFound => (Bool.false_ne_true hFound).elim,
      fun k hk => (List.not_mem_nil hk).elim⟩
  have hEnd : GcInvariant safeTs (s.tree.entries.map Prod.fst)
      (s.tree.entries.foldl (gcVisit safeTs) ⟨[], false, []⟩) := by
    refine SortedMap.foldl_ascending
      (I := fun visited state => GcInvariant safeTs (visited.map Prod.fst) state)
      (fun visited state it h hLast => ?_) s.tree.sorted hStart
    rw [List.map_append, List.map_singleton]
    exact h.visit (by simpa using hLast)
  exact ⟨hEnd.sublist, hEnd.shadowed⟩

/-! ## The store afterwards -/

theorem foldl_erase (tree : SortedMap Bytes Slice) (ks : List Bytes) (n : Nat) :
    (ks.foldl (fun (acc : SortedMap Bytes Slice × Nat) k => (acc.1.erase k, acc.2 + 1))
      (tree, n)).1.entries = tree.entries.filter (fun e => e.1 ∉ ks) ∧
    (ks.foldl (fun (acc : SortedMap Bytes Slice × Nat) k => (acc.1.erase k, acc.2 + 1))
      (tree, n)).2 = n + ks.length := by
  induction ks generalizing tree n with
  | nil => simp
  | cons k ks ih =>
    obtain ⟨hTree, hCount⟩ := ih (tree.erase k) (n + 1)
    rw [List.foldl_cons, hTree, hCount, List.length_cons]
    refine ⟨?_, by omega⟩
    rw [SortedMap.erase, List.filter_filter]
    apply List.filter_congr
    intro e _
    by_cases hk : e.1 = k <;> simp [hk]

theorem entries_runGC : (s.runGC safeTs).1.tree.entries =
    s.tree.entries.filter fun e => e.1 ∉ s.garbage safeTs :=
  (foldl_erase s.tree (s.garbage safeTs) 0).1

theorem runGC_snd : (s.runGC safeTs).2 = (s.garbage safeTs).length :=
  (foldl_erase s.tree (s.garbage safeTs) 0).2.trans (Nat.zero_add _)

theorem locks_runGC : (s.runGC safeTs).1.locks = s.locks := rfl

/-- The result is the number of versions that are gone. -/
theorem runGC_count :
    (s.runGC safeTs).2 + (s.runGC safeTs).1.tree.entries.length = s.tree.entries.length := by
  have hSub := (s.garbage_invariant safeTs).1
  have hNodup : (s.tree.entries.map Prod.fst).Nodup :=
    List.pairwise_map.mpr (s.tree.sorted.imp fun hLt => hLt.ne)
  have hPerm : ((s.tree.entries.map Prod.fst).filter fun k => k ∈ s.garbage safeTs).Perm
      (s.garbage safeTs) := by
    refine (List.perm_ext_iff_of_nodup (hNodup.filter _) (hNodup.sublist hSub)).mpr fun k => ?_
    simp only [List.mem_filter, decide_eq_true_eq]
    exact ⟨fun h => h.2, fun h => ⟨hSub.subset h, h⟩⟩
  have hGone : (s.garbage safeTs).length =
      (s.tree.entries.filter fun e => e.1 ∈ s.garbage safeTs).length := by
    rw [← hPerm.length_eq, List.filter_map, List.length_map]
    rfl
  rw [runGC_snd, entries_runGC, hGone]
  simp only [decide_not]
  exact List.length_eq_length_filter_add _ |>.symm

variable {s safeTs} {key : Bytes} {ts : UInt64} {v : Slice}

theorem hasVersion_runGC :
    (s.runGC safeTs).1.HasVersion key ts v ↔
      s.HasVersion key ts v ∧ encodeKey key ts ∉ s.garbage safeTs := by
  rw [HasVersion, HasVersion, ← SortedMap.mem_entries_iff, entries_runGC, List.mem_filter,
    SortedMap.mem_entries_iff, decide_eq_true_iff]

/-- What is collected has a newer version at or below the safe timestamp that is kept. -/
theorem exists_kept (hEncoded : Encoded s.tree) (hGarbage : encodeKey key ts ∈ s.garbage safeTs) :
    ts ≤ safeTs ∧ ∃ ts' v', ts < ts' ∧ ts' ≤ safeTs ∧ (s.runGC safeTs).1.HasVersion key ts' v' := by
  obtain ⟨hTs, k', hk', hKept, hLt, hKey, hTs'⟩ := (s.garbage_invariant safeTs).2 _ hGarbage
  obtain ⟨⟨k', v'⟩, hMem, rfl⟩ := List.mem_map.mp hk'
  have hFind := SortedMap.mem_entries_iff.mp hMem
  obtain ⟨key', ts', rfl⟩ := hEncoded k' v' hFind
  rw [decodeKey_encodeKey] at hTs hKey hTs'
  rw [decodeKey_encodeKey] at hKey
  obtain rfl : key' = key := hKey
  exact ⟨hTs, ts', v', (encodeKey_lt_encodeKey_iff ..).mp hLt, hTs',
    hasVersion_runGC.mpr ⟨hFind, hKept⟩⟩

/-! ## Reads at or above the safe timestamp -/

/-- The newest visible version is not collected. -/
theorem newestUpTo_runGC (hEncoded : Encoded s.tree) {readTs : UInt64} (hRead : safeTs ≤ readTs) :
    (s.runGC safeTs).1.NewestUpTo key readTs ts v ↔ s.NewestUpTo key readTs ts v := by
  constructor
  · rintro ⟨hTs, hVersion, hMax⟩
    refine ⟨hTs, (hasVersion_runGC.mp hVersion).1, ?_⟩
    intro ts' v' hVersion' hTs'
    by_cases hGarbage : encodeKey key ts' ∈ s.garbage safeTs
    · -- a version that was kept is newer still
      obtain ⟨-, ts₁, v₁, hNewer, hSafe, hKept⟩ := exists_kept hEncoded hGarbage
      exact hNewer.le.trans (hMax ts₁ v₁ hKept (hSafe.trans hRead))
    · exact hMax ts' v' (hasVersion_runGC.mpr ⟨hVersion', hGarbage⟩) hTs'
  · rintro ⟨hTs, hVersion, hMax⟩
    refine ⟨hTs, hasVersion_runGC.mpr ⟨hVersion, ?_⟩, ?_⟩
    · intro hGarbage
      obtain ⟨-, ts₁, v₁, hNewer, hSafe, hKept⟩ := exists_kept hEncoded hGarbage
      exact not_le.mpr hNewer (hMax ts₁ v₁ (hasVersion_runGC.mp hKept).1 (hSafe.trans hRead))
    · intro ts' v' hVersion' hTs'
      exact hMax ts' v' (hasVersion_runGC.mp hVersion').1 hTs'

end MemoryStore

end ShardDB.Storage
