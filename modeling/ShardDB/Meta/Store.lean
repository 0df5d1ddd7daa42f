import ShardDB.Lib.Search
import ShardDB.Lib.Tiling
import ShardDB.Raft.MemoryStorage
import ShardDB.Routing.Router

/-!
# The range map of the meta node

`MetaStore` maps key ranges to shards. The log of the meta node has commands, and
`SPLIT_RANGE` cuts the range that serves a key in two. `GetShard` finds the last range that
starts at or before a key with a binary search; it never looks at the ends of the ranges.

A missing `SplitKey` is nil. It compares like the empty key, but as a start of a range it is
no bound, so a split at nil makes a second range that starts nowhere. The starts are still in
order (`Tiling.Ordered`, nil first), and that is all that `GetShard` and the effect of a split
on it depend on (`getShard_apply`). An index out of range, which ends the process, is `none`.
-/

namespace ShardDB

open ShardDB.Lib

namespace Routing.Range

/-- The start of a range; nil is before every key. -/
def start (rng : Range) : WithBot Bytes :=
  match rng.startKey with
  | none => ⊥
  | some key => (key : WithBot Bytes)

/-- The end of a range; nil is after every key. -/
def stop (rng : Range) : WithTop Bytes :=
  match rng.endKey with
  | none => ⊤
  | some key => (key : WithTop Bytes)

variable {rng : Range} {key : Bytes}

theorem start_le_iff : rng.start ≤ key ↔ ∀ start ∈ rng.startKey, start ≤ key := by
  unfold start
  cases rng.startKey <;> simp

theorem start_lt_iff : rng.start < key ↔ ∀ start ∈ rng.startKey, start < key := by
  unfold start
  cases rng.startKey <;> simp

theorem lt_stop_iff : key < rng.stop ↔ ∀ stop ∈ rng.endKey, key < stop := by
  unfold stop
  cases rng.endKey <;> simp

end Routing.Range

namespace Meta

open ShardDB.Routing (Range)
open ShardDB.Raft (Entry)

/-! ## The store -/

/-- `Addrs` is nil, that is `none`, if the command has none. -/
structure ShardConfig where
  id : UInt64
  addrs : Option (List Bytes)
  deriving DecidableEq

/-- `MetaStore`, without its mutex. -/
structure MetaStore where
  ranges : List Range
  shards : SortedMap UInt64 ShardConfig
  deriving DecidableEq

/-- A command of the log. -/
structure Command where
  op : Bytes
  shard : ShardConfig
  splitKey : Slice
  shardID1 : UInt64
  shardID2 : UInt64
  deriving DecidableEq

/-- `NewMetaStore`: one range without bounds. -/
def newMetaStore : MetaStore := ⟨[⟨none, none, 1⟩], SortedMap.empty⟩

/-- The predicate of the searches: the range starts after the key. -/
def startsAfter (key : Bytes) (r : Range) : Bool :=
  match r.startKey with
  | none => false
  | some start => start > key

/-- The search for the first range that starts after the key. -/
def searchRange (ranges : List Range) (key : Bytes) : Option Nat :=
  search ranges.length fun i => ranges[i]?.map (startsAfter key)

namespace MetaStore

/-- `GetShard`. -/
def getShard (s : MetaStore) (key : Bytes) : Option UInt64 := do
  let idx ← searchRange s.ranges key
  if idx = 0 then
    let r ← s.ranges[0]?
    if r.startKey = none then return r.shardID else return 0
  else
    let r ← s.ranges[idx - 1]?
    return r.shardID

/-- The branch of `SPLIT_RANGE`. Comparisons take a nil key for the empty one. -/
def splitRange (s : MetaStore) (key : Slice) (shardID1 shardID2 : UInt64) : Option MetaStore := do
  let idx ← searchRange s.ranges (key.getD [])
  let targetIdx := if idx > 0 then idx - 1 else 0
  let targetRange ← s.ranges[targetIdx]?
  if targetRange.startKey.any fun start => key.getD [] ≤ start then return s
  else if targetRange.endKey.any fun stop => key.getD [] ≥ stop then return s
  else
    let r1 : Range := ⟨targetRange.startKey, key, shardID1⟩
    let r2 : Range := ⟨key, targetRange.endKey, shardID2⟩
    return { s with ranges := (s.ranges.set targetIdx r1).insertIdx (targetIdx + 1) r2 }

/-- `Apply`; `unmarshal` is `json.Unmarshal` into a command, which may fail. -/
def apply (unmarshal : Slice → Option Command) (s : MetaStore) (entry : Entry) :
    Option MetaStore :=
  match unmarshal entry.data with
  | none => some s
  | some cmd =>
    if cmd.op = ascii "REGISTER_SHARD" then
      some { s with shards := s.shards.insert cmd.shard.id cmd.shard }
    else if cmd.op = ascii "UPDATE_RANGE" then some s
    else if cmd.op = ascii "SPLIT_RANGE" then
      s.splitRange cmd.splitKey cmd.shardID1 cmd.shardID2
    else some s

/-- The store after a sequence of entries. -/
def applyAll (unmarshal : Slice → Option Command) (s : MetaStore) (entries : List Entry) :
    Option MetaStore :=
  entries.foldlM (apply unmarshal) s

end MetaStore

/-! ## Searching -/

theorem startsAfter_iff {key : Bytes} {r : Range} :
    startsAfter key r = true ↔ ¬ r.start ≤ key := by
  rw [Range.start_le_iff, startsAfter]
  cases r.startKey <;> simp

section Around

variable {ranges pre post : List Range} {t : Range} {key : Bytes}

theorem searchRange_eq (h : Tiling.Around Range.start ranges key pre t post) :
    searchRange ranges key = some (pre.length + 1) := by
  have hSplit : ranges = (pre ++ [t]) ++ post := by
    rw [h.eq, List.append_assoc, List.singleton_append]
  have hBefore : ∀ r ∈ pre ++ [t], startsAfter key r = false := by
    intro r hr
    rw [Bool.eq_false_iff, Ne, startsAfter_iff, not_not]
    rcases List.mem_append.mp hr with hr | hr
    · exact h.before r hr
    · rw [List.mem_singleton.mp hr]
      exact h.at_key
  have hAfter : ∀ r ∈ post, startsAfter key r = true := by
    intro r hr
    exact startsAfter_iff.mpr (h.after r hr)
  rw [searchRange, hSplit, search_append hBefore hAfter, List.length_append, List.length_singleton]

theorem getElem?_of_around (h : Tiling.Around Range.start ranges key pre t post) :
    ranges[pre.length]? = some t := by
  rw [h.eq]
  simp

theorem getShard_eq {s : MetaStore} (h : Tiling.Around Range.start s.ranges key pre t post) :
    s.getShard key = some t.shardID := by
  simp [MetaStore.getShard, searchRange_eq h, getElem?_of_around h]

end Around

/-- `GetShard` on ranges in order. -/
theorem getShard_eq_served {s : MetaStore} (h : Tiling.Ordered Range.start s.ranges)
    (key : Bytes) :
    s.getShard key = (Tiling.served Range.start s.ranges key).map Range.shardID := by
  obtain ⟨pre, t, post, hAround⟩ := h.around key
  rw [getShard_eq hAround, hAround.served_eq]
  rfl

/-! ## Splitting -/

/-- The key lies strictly inside the range. -/
def Inside (key : Slice) (r : Range) : Prop :=
  (∀ start ∈ r.startKey, start < key.getD []) ∧ ∀ stop ∈ r.endKey, key.getD [] < stop

/-- The range that serves the split key has it strictly inside. -/
def Accepts (ranges : List Range) (key : Slice) : Prop :=
  ∃ i r, Tiling.Serves Range.start ranges (key.getD []) i ∧ ranges[i]? = some r ∧ Inside key r

section Split

variable {s : MetaStore} {pre post : List Range} {t : Range} {key : Slice} {id₁ id₂ : UInt64}

theorem set_insertIdx (pre post : List Range) (t r₁ r₂ : Range) :
    ((pre ++ t :: post).set pre.length r₁).insertIdx (pre.length + 1) r₂ =
      pre ++ r₁ :: r₂ :: post := by
  induction pre with
  | nil => rfl
  | cons x pre ih =>
    rw [List.cons_append, List.length_cons, List.set_cons_succ, List.insertIdx_succ_cons, ih]
    rfl

theorem accepts_iff (h : Tiling.Around Range.start s.ranges (key.getD []) pre t post) :
    Accepts s.ranges key ↔ Inside key t := by
  constructor
  · rintro ⟨i, r, hServes, hGet, hInside⟩
    rw [hServes.unique h.serves, getElem?_of_around h] at hGet
    cases hGet
    exact hInside
  · intro hInside
    exact ⟨pre.length, t, h.serves, getElem?_of_around h, hInside⟩

/-- The two checks of `SPLIT_RANGE`. -/
theorem inside_iff : Inside key t ↔
    (t.startKey.any fun start => key.getD [] ≤ start) = false ∧
      (t.endKey.any fun stop => key.getD [] ≥ stop) = false := by
  unfold Inside
  cases t.startKey <;> cases t.endKey <;> simp

/-- What `SPLIT_RANGE` does to the range that serves its key. -/
theorem splitRange_eq (h : Tiling.Around Range.start s.ranges (key.getD []) pre t post) :
    (Inside key t ∧ s.splitRange key id₁ id₂ = some { s with
      ranges := pre ++ ⟨t.startKey, key, id₁⟩ :: ⟨key, t.endKey, id₂⟩ :: post }) ∨
    (¬ Inside key t ∧ s.splitRange key id₁ id₂ = some s) := by
  have hTarget : (if pre.length + 1 > 0 then pre.length + 1 - 1 else 0) = pre.length := rfl
  simp only [MetaStore.splitRange, searchRange_eq h, bind, Option.bind, hTarget,
    getElem?_of_around h, inside_iff]
  split_ifs with hStart hStop
  · exact Or.inr ⟨fun hInside => Bool.false_ne_true (hInside.1.symm.trans hStart), rfl⟩
  · exact Or.inr ⟨fun hInside => Bool.false_ne_true (hInside.2.symm.trans hStop), rfl⟩
  · refine Or.inl ⟨⟨Bool.eq_false_iff.mpr hStart, Bool.eq_false_iff.mpr hStop⟩, ?_⟩
    rw [h.eq, set_insertIdx]
    rfl

/-- Where the second half of a split starts: at the key, and nowhere for a nil key. -/
theorem start_second (key : Slice) (stop : Slice) (id : UInt64) (k : Bytes) :
    (⟨key, stop, id⟩ : Range).start ≤ k ↔ key.getD [] ≤ k := by
  rw [Range.start_le_iff]
  cases key with
  | none => simpa using not_lt.mp (List.not_lt_nil k)
  | some key => simp

/-- The starts stay in order. -/
theorem ordered_split (h : Tiling.Ordered Range.start s.ranges)
    (hAround : Tiling.Around Range.start s.ranges (key.getD []) pre t post)
    (hInside : Inside key t) : Tiling.Ordered Range.start
      (pre ++ ⟨t.startKey, key, id₁⟩ :: ⟨key, t.endKey, id₂⟩ :: post) := by
  rw [hAround.eq] at h
  cases key with
  | none =>
    -- nothing is less than the empty key, so the range has no start either
    have ht : t.startKey = none := by
      apply Option.eq_none_iff_forall_not_mem.mpr
      intro start hStart
      exact List.not_lt_nil _ (hInside.1 start hStart)
    refine h.split rfl ?_ ?_
    · simp [Range.start, ht]
    · intro r _
      exact bot_le
  | some key =>
    refine h.split rfl hAround.at_key ?_
    intro r hr
    exact (not_le.mp (hAround.after r hr)).le

/-- The shards of all keys after a split. -/
theorem getShard_split (h : Tiling.Ordered Range.start s.ranges)
    (hAround : Tiling.Around Range.start s.ranges (key.getD []) pre t post)
    (hInside : Inside key t) {s' : MetaStore}
    (hRanges : s'.ranges = pre ++ ⟨t.startKey, key, id₁⟩ :: ⟨key, t.endKey, id₂⟩ :: post)
    (k : Bytes) :
    ((∃ i, Tiling.Serves Range.start s.ranges k i ∧
        Tiling.Serves Range.start s.ranges (key.getD []) i) →
      s'.getShard k = some (if k < key.getD [] then id₁ else id₂)) ∧
    ((¬ ∃ i, Tiling.Serves Range.start s.ranges k i ∧
        Tiling.Serves Range.start s.ranges (key.getD []) i) → s'.getShard k = s.getShard k) := by
  have hOrdered := @ordered_split s pre post t key id₁ id₂ h hAround hInside
  rw [← hRanges] at hOrdered
  rw [getShard_eq_served hOrdered, getShard_eq_served h, hRanges]
  have hFirst : (⟨t.startKey, key, id₁⟩ : Range).start = t.start := rfl
  obtain ⟨hSame, hOther⟩ := hAround.served_split hFirst (start_second key t.endKey id₂) k
  refine ⟨fun hKey => ?_, fun hKey => ?_⟩
  · rw [hSame hKey]
    split_ifs <;> rfl
  · rw [hOther hKey]

end Split

/-! ## Applying commands -/

/-- The entry holds a `SPLIT_RANGE` command. -/
def SplitCommand (unmarshal : Slice → Option Command) (entry : Entry) (cmd : Command) : Prop :=
  unmarshal entry.data = some cmd ∧ cmd.op = ascii "SPLIT_RANGE"

section Apply

variable {unmarshal : Slice → Option Command} {s : MetaStore}

theorem apply_of_split {entry : Entry} {cmd : Command} (h : SplitCommand unmarshal entry cmd) :
    s.apply unmarshal entry = s.splitRange cmd.splitKey cmd.shardID1 cmd.shardID2 := by
  obtain ⟨hCmd, hOp⟩ := h
  have hRegister : ¬ ascii "SPLIT_RANGE" = ascii "REGISTER_SHARD" := by decide
  have hUpdate : ¬ ascii "SPLIT_RANGE" = ascii "UPDATE_RANGE" := by decide
  simp only [MetaStore.apply, hCmd, hOp, hRegister, hUpdate, if_false, if_true]

theorem apply_of_not_split {entry : Entry} (h : ∀ cmd, ¬ SplitCommand unmarshal entry cmd) :
    ∃ s', s.apply unmarshal entry = some s' ∧ s'.ranges = s.ranges := by
  unfold MetaStore.apply
  cases hCmd : unmarshal entry.data with
  | none => exact ⟨s, rfl, rfl⟩
  | some cmd =>
    have hOp : ¬ cmd.op = ascii "SPLIT_RANGE" := fun hOp => h cmd ⟨hCmd, hOp⟩
    simp only [hOp, if_false]
    split_ifs
    · exact ⟨_, rfl, rfl⟩
    · exact ⟨s, rfl, rfl⟩
    · exact ⟨s, rfl, rfl⟩

/-- All that an entry can do to the ranges: a split that is accepted, or nothing. -/
theorem apply_cases (h : Tiling.Ordered Range.start s.ranges) (entry : Entry) :
    (∃ cmd pre t post, SplitCommand unmarshal entry cmd ∧
      Tiling.Around Range.start s.ranges (cmd.splitKey.getD []) pre t post ∧
      Inside cmd.splitKey t ∧ s.apply unmarshal entry = some { s with
        ranges := pre ++ ⟨t.startKey, cmd.splitKey, cmd.shardID1⟩ ::
          ⟨cmd.splitKey, t.endKey, cmd.shardID2⟩ :: post }) ∨
    (¬ ∃ cmd, SplitCommand unmarshal entry cmd ∧ Accepts s.ranges cmd.splitKey) ∧
      ∃ s', s.apply unmarshal entry = some s' ∧ s'.ranges = s.ranges := by
  by_cases hSplit : ∃ cmd, SplitCommand unmarshal entry cmd
  · obtain ⟨cmd, hCmd⟩ := hSplit
    obtain ⟨pre, t, post, hAround⟩ := h.around (cmd.splitKey.getD [])
    rw [apply_of_split hCmd]
    rcases @splitRange_eq s pre post t cmd.splitKey cmd.shardID1 cmd.shardID2 hAround with
      ⟨hInside, hSplit⟩ | ⟨hNot, hSplit⟩
    · exact Or.inl ⟨cmd, pre, t, post, hCmd, hAround, hInside, hSplit⟩
    · refine Or.inr ⟨?_, s, hSplit, rfl⟩
      rintro ⟨cmd', hCmd', hAccepts⟩
      obtain rfl : cmd' = cmd := Option.some.inj (hCmd'.1.symm.trans hCmd.1)
      exact hNot ((accepts_iff hAround).mp hAccepts)
  · rw [not_exists] at hSplit
    exact Or.inr ⟨fun ⟨cmd, hCmd, _⟩ => hSplit cmd hCmd, apply_of_not_split hSplit⟩

theorem ordered_apply (h : Tiling.Ordered Range.start s.ranges) (entry : Entry) :
    ∃ s', s.apply unmarshal entry = some s' ∧ Tiling.Ordered Range.start s'.ranges := by
  rcases @apply_cases unmarshal s h entry with
    ⟨cmd, pre, t, post, -, hAround, hInside, hApply⟩ | ⟨-, s', hApply, hRanges⟩
  · exact ⟨_, hApply, ordered_split h hAround hInside⟩
  · exact ⟨s', hApply, hRanges ▸ h⟩

theorem ordered_new : Tiling.Ordered Range.start newMetaStore.ranges :=
  ⟨⟨_, _, rfl, rfl⟩, List.pairwise_singleton _ _⟩

/-- The ranges of every store that is reached are in order. -/
theorem ordered_applyAll (h : Tiling.Ordered Range.start s.ranges) (entries : List Entry) :
    ∃ s', s.applyAll unmarshal entries = some s' ∧ Tiling.Ordered Range.start s'.ranges := by
  induction entries generalizing s with
  | nil => exact ⟨s, rfl, h⟩
  | cons entry entries ih =>
    obtain ⟨s₁, hApply, h₁⟩ := @ordered_apply unmarshal s h entry
    obtain ⟨s', hRun, h'⟩ := ih h₁
    refine ⟨s', ?_, h'⟩
    rw [MetaStore.applyAll, List.foldlM_cons, hApply]
    exact hRun

/-- Every store that is reached finds for every key the last range that starts at or before
it. A split that is accepted changes the shard of the keys of that range only, and every other
entry changes nothing. -/
theorem getShard_apply (unmarshal : Slice → Option Command) (entries : List Entry) :
    ∃ s, newMetaStore.applyAll unmarshal entries = some s ∧
      (∀ key, ∃ i r, Tiling.Serves Range.start s.ranges key i ∧ s.ranges[i]? = some r ∧
        s.getShard key = some r.shardID) ∧
      ∀ entry, ∃ s', s.apply unmarshal entry = some s' ∧
        (∀ cmd, SplitCommand unmarshal entry cmd → Accepts s.ranges cmd.splitKey → ∀ key,
          ((∃ i, Tiling.Serves Range.start s.ranges key i ∧
              Tiling.Serves Range.start s.ranges (cmd.splitKey.getD []) i) →
            s'.getShard key =
              some (if key < cmd.splitKey.getD [] then cmd.shardID1 else cmd.shardID2)) ∧
          ((¬ ∃ i, Tiling.Serves Range.start s.ranges key i ∧
              Tiling.Serves Range.start s.ranges (cmd.splitKey.getD []) i) →
            s'.getShard key = s.getShard key)) ∧
        ((¬ ∃ cmd, SplitCommand unmarshal entry cmd ∧ Accepts s.ranges cmd.splitKey) →
          ∀ key, s'.getShard key = s.getShard key) := by
  obtain ⟨s, hRun, hOrdered⟩ := @ordered_applyAll unmarshal _ ordered_new entries
  refine ⟨s, hRun, ?_, ?_⟩
  · intro key
    obtain ⟨pre, t, post, hAround⟩ := hOrdered.around key
    exact ⟨pre.length, t, hAround.serves, getElem?_of_around hAround, getShard_eq hAround⟩
  · intro entry
    rcases @apply_cases unmarshal s hOrdered entry with
      ⟨cmd, pre, t, post, hCmd, hAround, hInside, hApply⟩ | ⟨hNone, s', hApply, hRanges⟩
    · refine ⟨_, hApply, ?_, fun hNot => (hNot ⟨cmd, hCmd, (accepts_iff hAround).mpr hInside⟩).elim⟩
      intro cmd' hCmd' _ key
      obtain rfl : cmd' = cmd := Option.some.inj (hCmd'.1.symm.trans hCmd.1)
      exact getShard_split hOrdered hAround hInside rfl key
    · refine ⟨s', hApply, fun cmd hCmd hAccepts => (hNone ⟨cmd, hCmd, hAccepts⟩).elim, ?_⟩
      intro _ key
      rw [getShard_eq_served hOrdered, getShard_eq_served (hRanges ▸ hOrdered), hRanges]

end Apply

end Meta

end ShardDB
