import ShardDB.Meta.Store

/-!
# The range map as a partition of the keys

As long as every `SPLIT_RANGE` carries a `SplitKey`, each accepted split cuts a range in two at
a key strictly inside of it, so the ranges tile all keys (`Tiling.Tiles`): each one ends where
the next one starts. The proxy routes with the same table but looks for the first range that
contains a key, while the meta node looks for the last one that starts at or before it. On a
tiling the two are the same range.

A split at a nil key makes a first range without bounds. The proxy finds it for every key, and
the meta node for none.
-/

namespace ShardDB

open ShardDB.Lib

namespace Routing.Range

variable {rng rng' : Range} {key : Bytes}

theorem contains_iff : rng.contains key = true ↔ rng.start ≤ key ∧ key < rng.stop := by
  rw [start_le_iff, lt_stop_iff, contains]
  cases rng.startKey <;> cases rng.endKey <;> simp

theorem start_eq_bot_iff : rng.start = ⊥ ↔ rng.startKey = none := by
  unfold start
  cases rng.startKey <;> simp

theorem stop_eq_top_iff : rng.stop = ⊤ ↔ rng.endKey = none := by
  unfold stop
  cases rng.endKey <;> simp

theorem start_eq_coe_iff : rng.start = key ↔ rng.startKey = some key := by
  unfold start
  cases rng.startKey <;> simp

theorem stop_eq_coe_iff : rng.stop = key ↔ rng.endKey = some key := by
  unfold stop
  cases rng.endKey <;> simp

end Routing.Range

namespace Meta

open ShardDB.Routing (Range Router)
open ShardDB.Raft (Entry)

/-! ## Tiling -/

/-- Every `SPLIT_RANGE` among the entries has a split key. -/
def HasSplitKeys (unmarshal : Slice → Option Command) (entries : List Entry) : Prop :=
  ∀ entry ∈ entries, ∀ cmd, SplitCommand unmarshal entry cmd → cmd.splitKey ≠ none

section Tiles

variable {unmarshal : Slice → Option Command} {s : MetaStore}

theorem tiles_new : Tiling.Tiles Range.start Range.stop ⊥ newMetaStore.ranges :=
  .last (⟨none, none, 1⟩ : Range) rfl

theorem tiles_apply (h : Tiling.Tiles Range.start Range.stop ⊥ s.ranges) {entry : Entry}
    (hKey : ∀ cmd, SplitCommand unmarshal entry cmd → cmd.splitKey ≠ none) :
    ∃ s', s.apply unmarshal entry = some s' ∧
      Tiling.Tiles Range.start Range.stop ⊥ s'.ranges := by
  rcases @apply_cases unmarshal s h.ordered entry with
    ⟨cmd, pre, t, post, hCmd, hAround, hInside, hApply⟩ | ⟨-, s', hApply, hRanges⟩
  · refine ⟨_, hApply, ?_⟩
    obtain ⟨key, hSome⟩ := Option.ne_none_iff_exists'.mp (hKey cmd hCmd)
    rw [hSome] at hInside ⊢
    rw [hAround.eq] at h
    apply h.split
    · rfl
    · exact Range.stop_eq_coe_iff.mpr rfl
    · exact Range.start_lt_iff.mpr hInside.1
    · exact Range.start_eq_coe_iff.mpr rfl
    · rfl
    · exact Range.lt_stop_iff.mpr hInside.2
  · exact ⟨s', hApply, hRanges ▸ h⟩

theorem tiles_applyAll (h : Tiling.Tiles Range.start Range.stop ⊥ s.ranges) {entries : List Entry}
    (hKeys : HasSplitKeys unmarshal entries) :
    ∃ s', s.applyAll unmarshal entries = some s' ∧
      Tiling.Tiles Range.start Range.stop ⊥ s'.ranges := by
  induction entries generalizing s with
  | nil => exact ⟨s, rfl, h⟩
  | cons entry entries ih =>
    obtain ⟨s₁, hApply, h₁⟩ := tiles_apply h (hKeys entry List.mem_cons_self)
    obtain ⟨s', hRun, h'⟩ := ih h₁ fun e he => hKeys e (List.mem_cons_of_mem _ he)
    refine ⟨s', ?_, h'⟩
    rw [MetaStore.applyAll, List.foldlM_cons, hApply]
    exact hRun

end Tiles

/-! ## The partition -/

/-- The ranges partition the keys. -/
structure Partition (ranges : List Range) : Prop where
  first : ∃ r rest, ranges = r :: rest ∧ r.startKey = none
  last : ∃ r, ranges.getLast? = some r ∧ r.endKey = none
  linked : ranges.IsChain fun r r' => r.endKey ≠ none ∧ r.endKey = r'.startKey
  increasing : ranges.Pairwise fun r r' => r.start < r'.start
  covers : ∀ key : Bytes, ∃! i : Nat, ∃ r, ranges[i]? = some r ∧ r.contains key = true

theorem partition_of_tiles {ranges : List Range}
    (h : Tiling.Tiles Range.start Range.stop ⊥ ranges) : Partition ranges where
  first := by
    obtain ⟨r, rest, hEq, hr⟩ := h.first
    exact ⟨r, rest, hEq, Range.start_eq_bot_iff.mp hr⟩
  last := by
    obtain ⟨r, hLast, hr⟩ := h.getLast
    exact ⟨r, hLast, Range.stop_eq_top_iff.mp hr⟩
  linked := by
    refine h.isChain.imp ?_
    rintro r r' ⟨b, hEnd, hStart⟩
    rw [Range.stop_eq_coe_iff.mp hEnd, Range.start_eq_coe_iff.mp hStart]
    exact ⟨Option.some_ne_none b, rfl⟩
  increasing := h.pairwise_lt
  covers key := by
    simp only [Range.contains_iff]
    exact h.existsUnique bot_le

/-- The ranges stay a partition if every `SPLIT_RANGE` carries a split key. -/
theorem partition_applyAll (unmarshal : Slice → Option Command) (entries : List Entry)
    (hKeys : HasSplitKeys unmarshal entries) :
    ∃ s, newMetaStore.applyAll unmarshal entries = some s ∧ Partition s.ranges := by
  obtain ⟨s, hRun, hTiles⟩ := tiles_applyAll tiles_new hKeys
  exact ⟨s, hRun, partition_of_tiles hTiles⟩

/-! ## Routing -/

/-- The proxy on a tiling of the meta node. -/
theorem getShardID_of_tiles {s : MetaStore}
    (h : Tiling.Tiles Range.start Range.stop ⊥ s.ranges) (addrs : SortedMap UInt64 Bytes)
    (key : Bytes) : s.getShard key = some ((⟨s.ranges, addrs⟩ : Router).getShardID key) := by
  obtain ⟨pre, t, post, hAround⟩ := h.ordered.around key
  have hFind : s.ranges.find? (fun rng => rng.contains key) = some t := by
    rw [h.find?_eq bot_le fun _ => Range.contains_iff, hAround.served_eq]
  rw [getShard_eq hAround, Router.getShardID, hFind]

/-- The proxy and the meta node agree if every `SPLIT_RANGE` carries a split key. -/
theorem getShardID_applyAll (unmarshal : Slice → Option Command) (entries : List Entry)
    (hKeys : HasSplitKeys unmarshal entries) :
    ∃ s, newMetaStore.applyAll unmarshal entries = some s ∧
      ∀ (addrs : SortedMap UInt64 Bytes) (key : Bytes),
        s.getShard key = some ((⟨s.ranges, addrs⟩ : Router).getShardID key) := by
  obtain ⟨s, hRun, hTiles⟩ := tiles_applyAll tiles_new hKeys
  exact ⟨s, hRun, getShardID_of_tiles hTiles⟩

/-! ## Some logs -/

/-- A reader of commands: the data is the split key, and empty data has no split key. -/
def unmarshalSplit : Slice → Option Command
  | none => none
  | some [] => some ⟨ascii "SPLIT_RANGE", ⟨0, none⟩, none, 2, 3⟩
  | some key => some ⟨ascii "SPLIT_RANGE", ⟨0, none⟩, some key, 2, 3⟩

/-- Two splits and an entry without data. -/
def splitLog : List Entry :=
  [⟨1, 1, .normal, some (ascii "m")⟩, ⟨1, 2, .normal, none⟩, ⟨1, 3, .normal, some (ascii "g")⟩]

theorem hasSplitKeys_splitLog : HasSplitKeys unmarshalSplit splitLog := by
  rintro entry hEntry cmd ⟨hCmd, -⟩ hNil
  simp only [splitLog, List.mem_cons, List.not_mem_nil, or_false] at hEntry
  rcases hEntry with rfl | rfl | rfl
  · cases hCmd
    cases hNil
  · cases hCmd
  · cases hCmd
    cases hNil

theorem partition_splitLog :
    ∃ s, newMetaStore.applyAll unmarshalSplit splitLog = some s ∧ Partition s.ranges :=
  partition_applyAll unmarshalSplit splitLog hasSplitKeys_splitLog

theorem getShardID_splitLog :
    ∃ s, newMetaStore.applyAll unmarshalSplit splitLog = some s ∧
      ∀ (addrs : SortedMap UInt64 Bytes) (key : Bytes),
        s.getShard key = some ((⟨s.ranges, addrs⟩ : Router).getShardID key) :=
  getShardID_applyAll unmarshalSplit splitLog hasSplitKeys_splitLog

/-- One split without a split key: the proxy routes to shard 2, the meta node to shard 3. -/
theorem not_getShardID_applyAll :
    ¬ ∀ (unmarshal : Slice → Option Command) (entries : List Entry),
      ∃ s, newMetaStore.applyAll unmarshal entries = some s ∧
        ∀ (addrs : SortedMap UInt64 Bytes) (key : Bytes),
          s.getShard key = some ((⟨s.ranges, addrs⟩ : Router).getShardID key) := by
  intro hAll
  obtain ⟨s, hRun, hSame⟩ := hAll unmarshalSplit [⟨1, 1, .normal, some []⟩]
  have hSplit : newMetaStore.applyAll unmarshalSplit [⟨1, 1, .normal, some []⟩] =
      some ⟨[⟨none, none, 2⟩, ⟨none, none, 3⟩], SortedMap.empty⟩ := by decide
  rw [hSplit] at hRun
  cases hRun
  exact absurd (hSame SortedMap.empty (ascii "k")) (by decide)

end Meta

end ShardDB
