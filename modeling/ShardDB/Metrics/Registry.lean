import ShardDB.Lib.Bytes
import ShardDB.Lib.Linearization
import ShardDB.Lib.SortedMap

/-!
# The metrics registry

`internal/metrics/metrics.go`: a `sync.Map` from names to pointers to counters, and the calls of
`Add`, `Inc`, `Get` and `Handler` that run on it concurrently. One step of a call is one operation
on the map or one atomic operation on a counter.

A counter is created by the first `Add` of its name. Several calls may find the name missing and
each make a new counter; `LoadOrStore` keeps one of them, and the other calls have to go on with
that one. So a pointer that a call holds is the registered one, and a counter that is not registered
holds zero (`Ok`). It follows that an `Add`, an `Inc` or a `Get` behaves as if it took effect at
once, at its last step, and a `Handler` as if it were one `Get` for each counter in its answer
(`linearizable`); and that no `Add` is lost (`value_eq_sum`). A `Handler` as a whole does not take
effect at once: `Range` is no snapshot of the map.
-/

namespace ShardDB.Metrics

open ShardDB.Lib

/-! ## The calls -/

/-- What the calls share: the registry, and the counters by their addresses. -/
structure Shared where
  registry : SortedMap Bytes Nat
  heap : List Int64

/-- A call and where it is. -/
inductive Thread where
  /-- `Add`: before `Load`. -/
  | load (name : Bytes) (delta : Int64)
  /-- `Add`: the name was missing, and `newVal` has been allocated. -/
  | loadOrStore (name : Bytes) (delta : Int64) (newVal : Nat)
  /-- `Add`: before `AddInt64`. -/
  | addInt64 (name : Bytes) (delta : Int64) (val : Nat)
  | added (name : Bytes) (delta : Int64)
  /-- `Get`: before `Load`. -/
  | getLoad (name : Bytes)
  /-- `Get`: before `LoadInt64`. -/
  | loadInt64 (name : Bytes) (val : Nat)
  | got (name : Bytes) (value : Int64)
  /-- `Handler`: in `Range`, with the names that were there when it began. -/
  | ranging (known : List Bytes) (snapshot : SortedMap Bytes Int64)
  | encoded (snapshot : SortedMap Bytes Int64)

/-- What a caller asks for; `Inc` is an `Add` of one. -/
inductive Call where
  | add (name : Bytes) (delta : Int64)
  | get (name : Bytes)
  | handler
  deriving DecidableEq

namespace Thread

def call : Thread → Call
  | load name delta => .add name delta
  | loadOrStore name delta _ => .add name delta
  | addInt64 name delta _ => .add name delta
  | added name delta => .add name delta
  | getLoad name => .get name
  | loadInt64 name _ => .get name
  | got name _ => .get name
  | ranging _ _ => .handler
  | encoded _ => .handler

def returned : Thread → Bool
  | added _ _ => true
  | got _ _ => true
  | encoded _ => true
  | _ => false

end Thread

/-- An effect on a counter, with the value that is read. -/
inductive Effect where
  | add (name : Bytes) (delta : Int64)
  | get (name : Bytes) (value : Int64)
  deriving DecidableEq

/-- An effect and the call that has it, by its number. -/
structure Event where
  call : Nat
  effect : Effect
  deriving DecidableEq

namespace Shared

def empty : Shared := ⟨SortedMap.empty, []⟩

/-- `atomic.LoadInt64`. -/
def deref (s : Shared) (val : Nat) : Int64 := (s.heap[val]?).getD 0

/-- The counter of a name; a name without a counter counts as zero. -/
def value (s : Shared) (name : Bytes) : Int64 :=
  match s.registry.find? name with
  | some val => s.deref val
  | none => 0

end Shared

/-- The next step of a call. -/
def Thread.step (s : Shared) : Thread → Option (Shared × Thread × Option Effect)
  | load name delta =>
    match s.registry.find? name with
    | some val => some (s, addInt64 name delta val, none)
    | none => some ({ s with heap := s.heap ++ [0] }, loadOrStore name delta s.heap.length, none)
  | loadOrStore name delta newVal =>
    match s.registry.find? name with
    | some val => some (s, addInt64 name delta val, none)
    | none =>
      some ({ s with registry := s.registry.insert name newVal }, addInt64 name delta newVal, none)
  | addInt64 name delta val =>
    some ({ s with heap := s.heap.set val (s.deref val + delta) }, added name delta,
      some (.add name delta))
  | getLoad name =>
    match s.registry.find? name with
    | some val => some (s, loadInt64 name val, none)
    | none => some (s, got name 0, some (.get name 0))
  | loadInt64 name val => some (s, got name (s.deref val), some (.get name (s.deref val)))
  | ranging known snapshot =>
    -- `Range` visits every name that was there when it began
    if ∀ name ∈ known, (snapshot.find? name).isSome then some (s, encoded snapshot, none) else none
  | added _ _ => none
  | got _ _ => none
  | encoded _ => none

/-- `Range` calls its function on a name, which it does at most once for each name. -/
def Thread.visit (s : Shared) (name : Bytes) : Thread → Option (Shared × Thread × Option Effect)
  | ranging known snapshot =>
    match s.registry.find? name, snapshot.find? name with
    | some val, none =>
      some (s, ranging known (snapshot.insert name (s.deref val)), some (.get name (s.deref val)))
    | _, _ => none
  | _ => none

/-! ## The registry and its callers -/

structure State where
  shared : Shared
  threads : List Thread

def State.empty : State := ⟨Shared.empty, []⟩

inductive Label where
  | inc (name : Bytes)
  | add (name : Bytes) (delta : Int64)
  | get (name : Bytes)
  | handler
  | step (i : Nat)
  | visit (i : Nat) (name : Bytes)

def Label.call? : Label → Option Call
  | inc name => some (.add name 1)
  | add name delta => some (.add name delta)
  | get name => some (.get name)
  | handler => some .handler
  | step _ => none
  | visit _ _ => none

namespace State

def call (s : State) (t : Thread) : State × Option Event :=
  ({ s with threads := s.threads ++ [t] }, none)

/-- One call moves. -/
def move (s : State) (i : Nat) (f : Thread → Option (Shared × Thread × Option Effect)) :
    Option (State × Option Event) :=
  match s.threads[i]? with
  | none => none
  | some t => (f t).map fun r => (⟨r.1, s.threads.set i r.2.1⟩, r.2.2.map (Event.mk i))

end State

/-- The step function: a new call, or a step of one that is running. -/
def next (s : State) : Label → Option (State × Option Event)
  | .inc name => some (s.call (.load name 1))
  | .add name delta => some (s.call (.load name delta))
  | .get name => some (s.call (.getLoad name))
  | .handler =>
    some (s.call (.ranging (s.shared.registry.entries.map Prod.fst) SortedMap.empty))
  | .step i => s.move i fun t => t.step s.shared
  | .visit i name => s.move i fun t => t.visit s.shared name

/-! ## What a step can do -/

/-- All that a step of a call can do. -/
inductive Moves (s : Shared) : Thread → Shared → Thread → Option Effect → Prop
  | found (name : Bytes) (delta : Int64) (val : Nat) (t : Thread)
      (ht : t = .load name delta ∨ ∃ newVal, t = .loadOrStore name delta newVal)
      (hFind : s.registry.find? name = some val) : Moves s t s (.addInt64 name delta val) none
  | alloc (name : Bytes) (delta : Int64) :
      Moves s (.load name delta) { s with heap := s.heap ++ [0] }
        (.loadOrStore name delta s.heap.length) none
  | store (name : Bytes) (delta : Int64) (newVal : Nat) (hFind : s.registry.find? name = none) :
      Moves s (.loadOrStore name delta newVal)
        { s with registry := s.registry.insert name newVal } (.addInt64 name delta newVal) none
  | add (name : Bytes) (delta : Int64) (val : Nat) :
      Moves s (.addInt64 name delta val) { s with heap := s.heap.set val (s.deref val + delta) }
        (.added name delta) (some (.add name delta))
  | getFound (name : Bytes) (val : Nat) (hFind : s.registry.find? name = some val) :
      Moves s (.getLoad name) s (.loadInt64 name val) none
  | getMissing (name : Bytes) (hFind : s.registry.find? name = none) :
      Moves s (.getLoad name) s (.got name 0) (some (.get name 0))
  | get (name : Bytes) (val : Nat) :
      Moves s (.loadInt64 name val) s (.got name (s.deref val)) (some (.get name (s.deref val)))
  | visit (name : Bytes) (val : Nat) (known : List Bytes) (snapshot : SortedMap Bytes Int64)
      (hFind : s.registry.find? name = some val) (hNew : snapshot.find? name = none) :
      Moves s (.ranging known snapshot) s (.ranging known (snapshot.insert name (s.deref val)))
        (some (.get name (s.deref val)))
  | encode (known : List Bytes) (snapshot : SortedMap Bytes Int64) :
      Moves s (.ranging known snapshot) s (.encoded snapshot) none

section Steps

variable {s s' : Shared} {t t' : Thread} {e : Option Effect}

theorem moves_of_step (h : t.step s = some (s', t', e)) : Moves s t s' t' e := by
  cases t with
  | load name delta =>
    simp only [Thread.step] at h
    split at h
    · next val hFind =>
      cases h
      exact .found name delta val _ (Or.inl rfl) hFind
    · cases h
      exact .alloc name delta
  | loadOrStore name delta newVal =>
    simp only [Thread.step] at h
    split at h
    · next val hFind =>
      cases h
      exact .found name delta val _ (Or.inr ⟨newVal, rfl⟩) hFind
    · next hFind =>
      cases h
      exact .store name delta newVal hFind
  | addInt64 name delta val =>
    cases h
    exact .add name delta val
  | getLoad name =>
    simp only [Thread.step] at h
    split at h
    · next val hFind =>
      cases h
      exact .getFound name val hFind
    · next hFind =>
      cases h
      exact .getMissing name hFind
  | loadInt64 name val =>
    cases h
    exact .get name val
  | ranging known snapshot =>
    simp only [Thread.step] at h
    split_ifs at h
    cases h
    exact .encode known snapshot
  | added name delta => cases h
  | got name value => cases h
  | encoded snapshot => cases h

theorem moves_of_visit {name : Bytes} (h : t.visit s name = some (s', t', e)) :
    Moves s t s' t' e := by
  cases t with
  | ranging known snapshot =>
    simp only [Thread.visit] at h
    split at h
    · next val hFind hNew =>
      cases h
      exact .visit name val known snapshot hFind hNew
    · cases h
  | _ => cases h

/-- A step belongs to a call that has not returned, and leaves what was asked. -/
theorem Moves.call (h : Moves s t s' t' e) : t'.call = t.call ∧ t.returned = false := by
  cases h with
  | found _ _ _ _ ht _ => rcases ht with rfl | ⟨newVal, rfl⟩ <;> exact ⟨rfl, rfl⟩
  | _ => exact ⟨rfl, rfl⟩

end Steps

/-- A call that has just begun. -/
def Thread.isNew : Thread → Bool
  | load _ _ => true
  | getLoad _ => true
  | ranging _ snapshot => snapshot.entries.isEmpty
  | _ => false

theorem State.move_cases {s s' : State} {i : Nat} {e : Option Event}
    {f : Thread → Option (Shared × Thread × Option Effect)}
    (hf : ∀ t shared t' effect, f t = some (shared, t', effect) → Moves s.shared t shared t' effect)
    (h : s.move i f = some (s', e)) :
    ∃ front t rest shared t' effect, s.threads = front ++ t :: rest ∧
      Moves s.shared t shared t' effect ∧ s' = ⟨shared, front ++ t' :: rest⟩ ∧
      e = effect.map (Event.mk front.length) := by
  rw [State.move] at h
  split at h
  · cases h
  · next t hThread =>
    obtain ⟨⟨shared, t', effect⟩, hStep, hEnd⟩ := Option.map_eq_some_iff.mp h
    cases hEnd
    obtain ⟨hLt, rfl⟩ := List.getElem?_eq_some_iff.mp hThread
    refine ⟨s.threads.take i, _, s.threads.drop (i + 1), shared, t', effect, ?_,
      hf _ _ _ _ hStep, ?_, ?_⟩
    · rw [List.getElem_cons_drop, List.take_append_drop]
    · rw [List.set_eq_take_append_cons_drop, if_pos hLt]
    · rw [List.length_take_of_le hLt.le]

/-- All that a step can do: a new call, or a move of one of the calls. -/
theorem next_cases {s s' : State} {l : Label} {e : Option Event} (h : next s l = some (s', e)) :
    (∃ t, t.isNew = true ∧ l.call? = some t.call ∧ s' = ⟨s.shared, s.threads ++ [t]⟩ ∧ e = none) ∨
      ∃ front t rest shared t' effect, l.call? = none ∧ s.threads = front ++ t :: rest ∧
        Moves s.shared t shared t' effect ∧ s' = ⟨shared, front ++ t' :: rest⟩ ∧
        e = effect.map (Event.mk front.length) := by
  cases l with
  | inc name =>
    cases h
    exact Or.inl ⟨_, rfl, rfl, rfl, rfl⟩
  | add name delta =>
    cases h
    exact Or.inl ⟨_, rfl, rfl, rfl, rfl⟩
  | get name =>
    cases h
    exact Or.inl ⟨_, rfl, rfl, rfl, rfl⟩
  | handler =>
    cases h
    exact Or.inl ⟨_, rfl, rfl, rfl, rfl⟩
  | step i =>
    obtain ⟨front, t, rest, shared, t', effect, hMoves⟩ :=
      State.move_cases (fun _ _ _ _ => moves_of_step) h
    exact Or.inr ⟨front, t, rest, shared, t', effect, rfl, hMoves⟩
  | visit i name =>
    obtain ⟨front, t, rest, shared, t', effect, hMoves⟩ :=
      State.move_cases (fun _ _ _ _ => moves_of_visit) h
    exact Or.inr ⟨front, t, rest, shared, t', effect, rfl, hMoves⟩

/-! ## Pointers -/

/-- The counter that a call has made and not yet offered to the registry. -/
def Thread.fresh? : Thread → Option Nat
  | loadOrStore _ _ newVal => some newVal
  | _ => none

/-- The name and the pointer of a call that has found its counter. -/
def Thread.holds? : Thread → Option (Bytes × Nat)
  | addInt64 name _ val => some (name, val)
  | loadInt64 name val => some (name, val)
  | _ => none

/-- A new counter is zero and not registered; a pointer that was found is the registered one. -/
structure ThreadOk (s : Shared) (t : Thread) : Prop where
  fresh : ∀ val, t.fresh? = some val →
    s.heap[val]? = some 0 ∧ ∀ name, s.registry.find? name ≠ some val
  held : ∀ name val, t.holds? = some (name, val) → s.registry.find? name = some val

/-- Each name has its own counter, and so has each call that has made one. -/
structure Ok (s : Shared) (threads : List Thread) : Prop where
  bound : ∀ name val, s.registry.find? name = some val → val < s.heap.length
  inj : ∀ name name' val, s.registry.find? name = some val → s.registry.find? name' = some val →
    name = name'
  each : ∀ t ∈ threads, ThreadOk s t
  distinct : (threads.filterMap Thread.fresh?).Nodup

section Pointers

variable {s s' : Shared} {t t' : Thread} {threads threads' : List Thread} {e : Option Effect}

theorem Ok.perm (h : Ok s threads) (hPerm : threads.Perm threads') : Ok s threads' where
  bound := h.bound
  inj := h.inj
  each t ht := h.each t (hPerm.mem_iff.mpr ht)
  distinct := (hPerm.filterMap _).nodup_iff.mp h.distinct

theorem ok_cons_iff :
    Ok s (t :: threads) ↔ Ok s threads ∧ ThreadOk s t ∧
      ∀ val, t.fresh? = some val → val ∉ threads.filterMap Thread.fresh? := by
  have hDistinct : ((t :: threads).filterMap Thread.fresh?).Nodup ↔
      (∀ val, t.fresh? = some val → val ∉ threads.filterMap Thread.fresh?) ∧
        (threads.filterMap Thread.fresh?).Nodup := by
    cases hFresh : t.fresh? with
    | none => simp [hFresh]
    | some val => simp [hFresh]
  constructor
  · intro h
    obtain ⟨hNew, hRest⟩ := hDistinct.mp h.distinct
    exact ⟨⟨h.bound, h.inj, fun t ht => h.each t (List.mem_cons_of_mem _ ht), hRest⟩,
      h.each t List.mem_cons_self, hNew⟩
  · rintro ⟨h, ht, hNew⟩
    refine ⟨h.bound, h.inj, fun t' ht' => ?_, hDistinct.mpr ⟨hNew, h.distinct⟩⟩
    rcases List.mem_cons.mp ht' with rfl | ht'
    · exact ht
    · exact h.each t' ht'

/-- A call without a new counter of its own joins. -/
theorem Ok.join (h : Ok s threads) (hFresh : t.fresh? = none)
    (hHeld : ∀ name val, t.holds? = some (name, val) → s.registry.find? name = some val) :
    Ok s (t :: threads) := by
  refine ok_cons_iff.mpr ⟨h, ⟨?_, hHeld⟩, ?_⟩ <;> simp [hFresh]

/-- Another counter is allocated. -/
theorem Ok.alloc (h : Ok s threads) : Ok { s with heap := s.heap ++ [0] } threads where
  bound name val hFind := by
    rw [List.length_append]
    exact Nat.lt_add_right 1 (h.bound name val hFind)
  inj := h.inj
  each t ht := by
    obtain ⟨hFresh, hHeld⟩ := h.each t ht
    refine ⟨fun val hVal => ?_, hHeld⟩
    obtain ⟨hZero, hUnregistered⟩ := hFresh val hVal
    obtain ⟨hLt, -⟩ := List.getElem?_eq_some_iff.mp hZero
    exact ⟨by rw [List.getElem?_append_left hLt, hZero], hUnregistered⟩
  distinct := h.distinct

theorem Ok.lt_of_fresh (h : Ok s threads) {val : Nat}
    (hVal : val ∈ threads.filterMap Thread.fresh?) : val < s.heap.length := by
  obtain ⟨t, ht, hFresh⟩ := List.mem_filterMap.mp hVal
  exact (List.getElem?_eq_some_iff.mp ((h.each t ht).fresh val hFresh).1).1

/-- A counter that nobody else has made is registered under a name that is missing. -/
theorem Ok.store (h : Ok s threads) {name : Bytes} {newVal : Nat} (hLt : newVal < s.heap.length)
    (hMissing : s.registry.find? name = none)
    (hUnregistered : ∀ name', s.registry.find? name' ≠ some newVal)
    (hNew : newVal ∉ threads.filterMap Thread.fresh?) :
    Ok { s with registry := s.registry.insert name newVal } threads := by
  have hFind : ∀ name' val, (s.registry.insert name newVal).find? name' = some val →
      name' = name ∧ val = newVal ∨ s.registry.find? name' = some val := by
    intro name' val hFind
    rw [SortedMap.find?_insert] at hFind
    split_ifs at hFind with hName
    · exact Or.inl ⟨hName, (Option.some.inj hFind).symm⟩
    · exact Or.inr hFind
  refine ⟨fun name' val hVal => ?_, fun name₁ name₂ val h₁ h₂ => ?_,
    fun t ht => ⟨?_, ?_⟩, h.distinct⟩
  · rcases hFind name' val hVal with ⟨-, rfl⟩ | hVal
    · exact hLt
    · exact h.bound name' val hVal
  · rcases hFind name₁ val h₁ with ⟨rfl, rfl⟩ | hOld₁
    · rcases hFind name₂ _ h₂ with ⟨rfl, -⟩ | hOld₂
      · rfl
      · exact absurd hOld₂ (hUnregistered name₂)
    · rcases hFind name₂ val h₂ with ⟨-, rfl⟩ | hOld₂
      · exact absurd hOld₁ (hUnregistered name₁)
      · exact h.inj name₁ name₂ val hOld₁ hOld₂
  · intro val hVal
    obtain ⟨hZero, hFree⟩ := (h.each t ht).fresh val hVal
    refine ⟨hZero, fun name' hName' => ?_⟩
    rcases hFind name' val hName' with ⟨-, rfl⟩ | hName'
    · exact hNew (List.mem_filterMap.mpr ⟨t, ht, hVal⟩)
    · exact hFree name' hName'
  · intro name' val hHeld
    have hOld := (h.each t ht).held name' val hHeld
    rwa [SortedMap.find?_insert_of_ne _ _ fun hName => by
      rw [hName, hMissing] at hOld
      cases hOld]

/-- A registered counter is changed. -/
theorem Ok.set (h : Ok s threads) {name : Bytes} {val : Nat}
    (hFind : s.registry.find? name = some val)
    (x : Int64) : Ok { s with heap := s.heap.set val x } threads where
  bound name' val' hFind' := by
    rw [List.length_set]
    exact h.bound name' val' hFind'
  inj := h.inj
  each t ht := by
    obtain ⟨hFresh, hHeld⟩ := h.each t ht
    refine ⟨fun val' hVal' => ?_, hHeld⟩
    obtain ⟨hZero, hUnregistered⟩ := hFresh val' hVal'
    have hNe : val ≠ val' := fun hEq => hUnregistered name (hEq ▸ hFind)
    exact ⟨by rw [List.getElem?_set_ne hNe, hZero], hUnregistered⟩
  distinct := h.distinct

theorem Ok.moves (h : Ok s (t :: threads)) (hMoves : Moves s t s' t' e) :
    Ok s' (t' :: threads) := by
  obtain ⟨hRest, ht, hNew⟩ := ok_cons_iff.mp h
  cases hMoves with
  | found name delta val _ _ hFind =>
    refine hRest.join rfl fun _ _ hHeld => ?_
    cases hHeld
    exact hFind
  | alloc name delta =>
    refine ok_cons_iff.mpr ⟨hRest.alloc, ⟨?_, fun _ _ hHeld => by cases hHeld⟩, ?_⟩
    · rintro val ⟨rfl⟩
      refine ⟨by simp, fun name' hFind => ?_⟩
      exact absurd (hRest.bound name' _ hFind) (lt_irrefl _)
    · rintro val ⟨rfl⟩ hMem
      exact absurd (hRest.lt_of_fresh hMem) (lt_irrefl _)
  | store name delta newVal hMissing =>
    obtain ⟨hZero, hUnregistered⟩ := ht.fresh newVal rfl
    have hLt := (List.getElem?_eq_some_iff.mp hZero).1
    refine (hRest.store hLt hMissing hUnregistered (hNew newVal rfl)).join rfl fun _ _ hHeld => ?_
    cases hHeld
    exact SortedMap.find?_insert_self ..
  | add name delta val =>
    exact (hRest.set (ht.held name val rfl) _).join rfl fun _ _ hHeld => by cases hHeld
  | getFound name val hFind =>
    refine hRest.join rfl fun _ _ hHeld => ?_
    cases hHeld
    exact hFind
  | getMissing name hFind => exact hRest.join rfl fun _ _ hHeld => by cases hHeld
  | get name val => exact hRest.join rfl fun _ _ hHeld => by cases hHeld
  | visit name val known snapshot _ _ => exact hRest.join rfl fun _ _ hHeld => by cases hHeld
  | encode known snapshot => exact hRest.join rfl fun _ _ hHeld => by cases hHeld

end Pointers

/-! ## Values -/

/-- What an `Add` that has returned added to a counter. -/
def Thread.added? (name : Bytes) : Thread → Option Int64
  | added name' delta => if name' = name then some delta else none
  | _ => none

/-- What a step adds to a counter. -/
def change (name : Bytes) : Option Effect → Int64
  | some (.add name' delta) => if name' = name then delta else 0
  | some (.get _ _) => 0
  | none => 0

section Values

variable {s s' : Shared} {t t' : Thread} {threads : List Thread} {e : Option Effect}

theorem value_of_find? {name : Bytes} {val : Nat} (h : s.registry.find? name = some val) :
    s.value name = s.deref val := by
  rw [Shared.value, h]

theorem value_of_missing {name : Bytes} (h : s.registry.find? name = none) : s.value name = 0 := by
  rw [Shared.value, h]

/-- The counter of a name after a change of the heap. -/
theorem value_with_heap {heap : List Int64} {name : Bytes} {delta : Int64}
    (hFound : ∀ val, s.registry.find? name = some val → (heap[val]?).getD 0 = s.deref val + delta)
    (hMissing : s.registry.find? name = none → delta = 0) :
    ({ s with heap := heap } : Shared).value name = s.value name + delta := by
  cases hFind : s.registry.find? name with
  | none =>
    rw [value_of_missing hFind, hMissing hFind, Int64.add_zero]
    exact value_of_missing hFind
  | some val =>
    rw [value_of_find? hFind, ← hFound val hFind]
    exact value_of_find? hFind

/-- A step changes the counter of its event and no other. -/
theorem value_moves (h : Ok s (t :: threads)) (hMoves : Moves s t s' t' e) (name : Bytes) :
    s'.value name = s.value name + change name e := by
  obtain ⟨hRest, ht, -⟩ := ok_cons_iff.mp h
  cases hMoves with
  | alloc name' delta =>
    refine value_with_heap (fun val hFind => ?_) fun _ => rfl
    rw [List.getElem?_append_left (hRest.bound name val hFind), change, Int64.add_zero]
    rfl
  | store name' delta newVal hMissing =>
    rw [change, Int64.add_zero]
    by_cases hName : name = name'
    · -- the new counter holds zero, like a missing one
      subst hName
      rw [value_of_missing hMissing, value_of_find? (SortedMap.find?_insert_self ..), Shared.deref,
        (ht.fresh newVal rfl).1]
      rfl
    · rw [Shared.value, SortedMap.find?_insert_of_ne _ _ hName]
      rfl
  | add name' delta val =>
    have hHeld := ht.held name' val rfl
    refine value_with_heap (fun val' hFind => ?_) fun hFind => ?_
    · by_cases hName : name' = name
      · rw [hName, hFind] at hHeld
        cases hHeld
        rw [change, if_pos hName, List.getElem?_set_self (hRest.bound name _ hFind)]
        rfl
      · have hNe : val ≠ val' := fun hEq => hName (hRest.inj name' name val hHeld (hEq ▸ hFind))
        rw [change, if_neg hName, List.getElem?_set_ne hNe, Int64.add_zero]
        rfl
    · refine if_neg fun hName => ?_
      rw [hName, hFind] at hHeld
      cases hHeld
  | _ => exact (Int64.add_zero _).symm

/-- A read returns the value of its counter. -/
theorem value_of_get (h : ThreadOk s t) {name : Bytes} {value : Int64}
    (hMoves : Moves s t s' t' (some (.get name value))) : value = s.value name := by
  cases hMoves with
  | getMissing _ hFind => exact (value_of_missing hFind).symm
  | get _ val => exact (value_of_find? (h.held name val rfl)).symm
  | visit _ val known snapshot hFind _ => exact (value_of_find? hFind).symm

/-- A call counts as returned from the step that makes its change. -/
theorem added?_moves (hMoves : Moves s t s' t' e) (name : Bytes) :
    t.added? name = none ∧ (t'.added? name).toList.sum = change name e := by
  cases hMoves with
  | found _ _ _ _ ht _ =>
    rcases ht with rfl | ⟨newVal, rfl⟩ <;> exact ⟨rfl, rfl⟩
  | add name' delta val =>
    refine ⟨rfl, ?_⟩
    rw [Thread.added?, change]
    split_ifs
    · exact Int64.add_zero delta
    · rfl
  | _ => exact ⟨rfl, rfl⟩

end Values

theorem Thread.of_isNew {t : Thread} (h : t.isNew = true) :
    t.fresh? = none ∧ t.holds? = none ∧ ∀ name, t.added? name = none := by
  cases t with
  | load _ _ => exact ⟨rfl, rfl, fun _ => rfl⟩
  | getLoad _ => exact ⟨rfl, rfl, fun _ => rfl⟩
  | ranging _ _ => exact ⟨rfl, rfl, fun _ => rfl⟩
  | _ => cases h

/-! ## Runs -/

/-- The sequential registry: the counters, all of which exist from the start. -/
def Effect.accept (m : Bytes → Int64) : Effect → Option (Bytes → Int64)
  | add name delta => some (Function.update m name (m name + delta))
  | get name value => if value = m name then some m else none

def Event.accept (m : Bytes → Int64) (e : Event) : Option (Bytes → Int64) := e.effect.accept m

/-- The state stands for the counters of the sequential registry, each of which is the sum of what
the calls that have returned added to it. -/
structure Represents (s : State) (m : Bytes → Int64) : Prop where
  ok : Ok s.shared s.threads
  value : ∀ name, s.shared.value name = m name
  total : ∀ name, s.shared.value name = (s.threads.filterMap (Thread.added? name)).sum

theorem represents_empty : Represents State.empty fun _ => 0 where
  ok := by
    refine ⟨fun name val hFind => ?_, fun name name' val hFind => ?_,
      fun _ ht => (List.not_mem_nil ht).elim, List.nodup_nil⟩ <;> cases hFind
  value _ := rfl
  total _ := rfl

theorem Represents.next {s s' : State} {l : Label} {e : Option Event} {m : Bytes → Int64}
    (h : Represents s m) (hNext : next s l = some (s', e)) :
    ∃ m', e.toList.foldlM Event.accept m = some m' ∧ Represents s' m' := by
  rcases next_cases hNext with ⟨t, hNew, -, rfl, rfl⟩ |
    ⟨front, t, rest, shared, t', effect, -, hThreads, hMoves, rfl, rfl⟩
  · obtain ⟨hFresh, hHolds, hAdded⟩ := Thread.of_isNew hNew
    refine ⟨m, rfl, ?_, h.value, fun name => ?_⟩
    · refine (h.ok.join hFresh ?_).perm (List.perm_append_singleton t s.threads).symm
      simp [hHolds]
    · rw [h.total name, List.filterMap_append, List.filterMap_cons_none (hAdded name),
        List.filterMap_nil, List.append_nil]
  · have hOk : Ok s.shared (t :: (front ++ rest)) :=
      h.ok.perm (hThreads ▸ List.perm_middle)
    have hValue : ∀ name, shared.value name = m name + change name effect := fun name => by
      rw [value_moves hOk hMoves, h.value]
    have hTotal : ∀ name, shared.value name =
        ((front ++ t' :: rest).filterMap (Thread.added? name)).sum := by
      intro name
      obtain ⟨hBefore, hAfter⟩ := added?_moves hMoves name
      rw [value_moves hOk hMoves, h.total name, hThreads]
      simp only [List.filterMap_append, List.filterMap_cons, hBefore, List.sum_append]
      rw [← hAfter]
      cases t'.added? name with
      | none => simp
      | some delta =>
        simp only [Option.toList_some, List.sum_cons, List.sum_nil]
        ac_rfl
    have hOk' : Ok shared (front ++ t' :: rest) := (hOk.moves hMoves).perm List.perm_middle.symm
    cases effect with
    | none =>
      refine ⟨m, rfl, hOk', fun name => ?_, hTotal⟩
      rw [hValue, change, Int64.add_zero]
    | some effect =>
      cases effect with
      | add name delta =>
        refine ⟨_, rfl, hOk', fun name' => ?_, hTotal⟩
        rw [hValue, change, Function.update_apply]
        by_cases hName : name = name'
        · rw [if_pos hName, if_pos hName.symm, hName]
        · rw [if_neg hName, if_neg (Ne.symm hName), Int64.add_zero]
      | get name value =>
        have hRead := value_of_get (ok_cons_iff.mp hOk).2.1 hMoves
        rw [h.value] at hRead
        refine ⟨m, ?_, hOk', fun name' => ?_, hTotal⟩
        · simp [Event.accept, Effect.accept, hRead]
        · rw [hValue, change, Int64.add_zero]

/-! ## Results -/

/-- The effects of a call, in their order. -/
def effectsOf (i : Nat) (events : List Event) : List Effect :=
  (events.filter fun e => e.call = i).map Event.effect

/-- The effects of a call are those of what it returns: the one of an `Add` or a `Get` that has
returned, a read for each counter in the answer of a `Handler`, and none before that. -/
def Thread.Reports (effects : List Effect) : Thread → Prop
  | added name delta => effects = [.add name delta]
  | got name value => effects = [.get name value]
  | ranging _ snapshot => effects.Perm (snapshot.entries.map fun e => .get e.1 e.2)
  | encoded snapshot => effects.Perm (snapshot.entries.map fun e => .get e.1 e.2)
  | _ => effects = []

/-- The events explain the run as one of the sequential registry. -/
structure Linearizes (labels : List Label) (s : State) (events : List Event) : Prop where
  calls : s.threads.map Thread.call = labels.filterMap Label.call?
  results : ∀ i (t : Thread), s.threads[i]? = some t → t.Reports (effectsOf i events)
  legal : ∃ m, events.foldlM Event.accept (fun _ => 0) = some m ∧
    ∀ name, s.shared.value name = m name
  /-- At any time a call that has returned has all its effects behind it, and one that has not begun
  has them before it. -/
  realTime : ∀ before after, labels = before ++ after →
    ∃ s₁ earlier later, runEvents next State.empty before = some (s₁, earlier) ∧
      events = earlier ++ later ∧
      (∀ i (t : Thread), s₁.threads[i]? = some t → t.returned = true → effectsOf i later = []) ∧
      ∀ i, s₁.threads.length ≤ i → effectsOf i earlier = []

/-- What the labels and the events so far say about the calls. -/
structure Tracks (labels : List Label) (s : State) (events : List Event) : Prop where
  calls : s.threads.map Thread.call = labels.filterMap Label.call?
  begun : ∀ e ∈ events, e.call < s.threads.length
  results : ∀ i (t : Thread), s.threads[i]? = some t → t.Reports (effectsOf i events)

section Results

variable {labels : List Label} {s s' : State} {events : List Event} {t t' : Thread}
  {effects : List Effect} {effect : Option Effect}

theorem effectsOf_append (i : Nat) (events events' : List Event) :
    effectsOf i (events ++ events') = effectsOf i events ++ effectsOf i events' := by
  simp [effectsOf]

theorem effectsOf_eq_nil_iff {i : Nat} : effectsOf i events = [] ↔ ∀ e ∈ events, e.call ≠ i := by
  simp [effectsOf]

theorem effectsOf_map_mk (i j : Nat) (effect : Option Effect) :
    effectsOf i (effect.map (Event.mk j)).toList = if j = i then effect.toList else [] := by
  cases effect with
  | none => simp [effectsOf]
  | some effect =>
    split_ifs with hj
    · simp [effectsOf, hj]
    · simp [effectsOf, hj]

theorem Thread.reports_of_isNew (h : t.isNew = true) : t.Reports [] := by
  cases t with
  | load _ _ => rfl
  | getLoad _ => rfl
  | ranging _ snapshot =>
    rw [Thread.Reports, List.isEmpty_iff.mp h]
    rfl
  | _ => cases h

/-- The other calls stay where they are. -/
theorem getElem?_middle {front rest : List Thread} {i : Nat} (h : front.length ≠ i) :
    (front ++ t :: rest)[i]? = (front ++ t' :: rest)[i]? := by
  rcases Nat.lt_or_gt_of_ne h with hLt | hGt
  · obtain ⟨k, rfl⟩ := Nat.exists_eq_add_of_lt hLt
    rw [Nat.add_assoc, List.getElem?_append_right (by omega), List.getElem?_append_right (by omega),
      Nat.add_sub_cancel_left, List.getElem?_cons_succ, List.getElem?_cons_succ]
  · rw [List.getElem?_append_left hGt, List.getElem?_append_left hGt]

/-- A step adds its effect to what the call reports. -/
theorem Moves.reports {s s' : Shared} (hMoves : Moves s t s' t' effect) (h : t.Reports effects) :
    t'.Reports (effects ++ effect.toList) := by
  cases hMoves with
  | found _ _ _ _ ht _ =>
    rcases ht with rfl | ⟨newVal, rfl⟩
    · rw [show effects = [] from h]
      rfl
    · rw [show effects = [] from h]
      rfl
  | visit name val known snapshot _ hNew =>
    have hPerm := (SortedMap.entries_insert_perm hNew (s.deref val)).map
      fun e => Effect.get e.1 e.2
    exact (List.perm_append_singleton _ _).trans ((h.cons _).trans hPerm.symm)
  | encode known snapshot =>
    rw [Option.toList_none, List.append_nil]
    exact h
  | _ =>
    rw [show effects = [] from h]
    rfl

theorem tracks_next {past : List Label} {l : Label} {e : Option Event}
    (h : Tracks past s events) (hNext : next s l = some (s', e)) :
    Tracks (past ++ [l]) s' (events ++ e.toList) := by
  rcases next_cases hNext with ⟨t, hNew, hLabel, rfl, rfl⟩ |
    ⟨front, t, rest, shared, t', effect, hLabel, hThreads, hMoves, rfl, rfl⟩
  · rw [Option.toList_none, List.append_nil]
    refine ⟨?_, fun e he => ?_, fun i t' hThread => ?_⟩
    · simp [h.calls, hLabel]
    · rw [List.length_append]
      exact Nat.lt_add_right 1 (h.begun e he)
    · rw [List.getElem?_append] at hThread
      split_ifs at hThread with hi
      · exact h.results i t' hThread
      · -- the new call has no event yet
        have hNil : effectsOf i events = [] := by
          refine effectsOf_eq_nil_iff.mpr fun e he hCall => hi ?_
          exact hCall ▸ h.begun e he
        obtain rfl : t = t' := List.mem_singleton.mp (List.mem_of_getElem? hThread) |>.symm
        rw [hNil]
        exact Thread.reports_of_isNew hNew
  · have hLength : (front ++ t' :: rest).length = s.threads.length := by
      rw [hThreads, List.length_append, List.length_append]
      rfl
    refine ⟨?_, fun e he => ?_, fun i t₁ hThread => ?_⟩
    · simp [← h.calls, hLabel, hThreads, hMoves.call.1]
    · rw [hLength]
      rcases List.mem_append.mp he with he | he
      · exact h.begun e he
      · obtain ⟨effect', -, rfl⟩ := Option.map_eq_some_iff.mp (Option.mem_toList.mp he)
        simp [hThreads]
    · rw [effectsOf_append, effectsOf_map_mk]
      by_cases hi : front.length = i
      · subst hi
        rw [if_pos rfl]
        obtain rfl : t' = t₁ := by simpa using hThread
        exact hMoves.reports (h.results _ t (by simp [hThreads]))
      · rw [if_neg hi, List.append_nil]
        refine h.results i t₁ ?_
        rw [hThreads, getElem?_middle hi, hThread]

/-- A call that has returned stays as it is and has no more effects. -/
theorem effectsOf_of_returned {i : Nat} (hReturned : t.returned = true)
    (hThread : s.threads[i]? = some t) (hRun : runEvents next s labels = some (s', events)) :
    effectsOf i events = [] := by
  refine (@runEvents_invariant _ _ _ next
    (fun _ s events => s.threads[i]? = some t ∧ effectsOf i events = []) ?_ [] s s' [] events labels
    ⟨hThread, rfl⟩ hRun).2
  rintro past s events l s' e ⟨hThread, hNil⟩ hNext
  rcases next_cases hNext with ⟨t', -, -, rfl, rfl⟩ |
    ⟨front, t₁, rest, shared, t', effect, -, hThreads, hMoves, rfl, rfl⟩
  · obtain ⟨hLt, -⟩ := List.getElem?_eq_some_iff.mp hThread
    refine ⟨?_, by simpa using hNil⟩
    rw [List.getElem?_append_left hLt, hThread]
  · have hOther : front.length ≠ i := by
      rintro rfl
      obtain rfl : t₁ = t := by simpa [hThreads] using hThread
      rw [hMoves.call.2] at hReturned
      cases hReturned
    rw [effectsOf_append, effectsOf_map_mk, if_neg hOther, hNil]
    refine ⟨?_, rfl⟩
    rw [← hThread, hThreads, getElem?_middle hOther]

theorem tracks_run (hRun : runEvents next State.empty labels = some (s, events)) :
    Tracks labels s events := by
  refine @runEvents_invariant _ _ _ next Tracks (fun _ _ _ _ _ _ => tracks_next)
    [] State.empty s [] events labels ⟨rfl, fun e he => ?_, fun i t hThread => ?_⟩ hRun
  · cases he
  · cases hThread

/-- Whatever the interleaving, the calls return what they would return if the effects were those of
the sequential registry, in an order that the callers could have observed. -/
theorem linearizable (hRun : runEvents next State.empty labels = some (s, events)) :
    Linearizes labels s events := by
  obtain ⟨m, hAccept, hEnd⟩ :=
    runEvents_accepted (fun _ _ _ _ _ => Represents.next) represents_empty hRun
  have hTracks := tracks_run hRun
  refine ⟨hTracks.calls, hTracks.results, ⟨m, hAccept, hEnd.value⟩, ?_⟩
  rintro before after rfl
  obtain ⟨s₁, earlier, later, hBefore, hAfter, rfl⟩ := runEvents_split hRun
  refine ⟨s₁, earlier, later, hBefore, rfl, fun i t hThread hReturned => ?_, fun i hi => ?_⟩
  · exact effectsOf_of_returned hReturned hThread hAfter
  · refine effectsOf_eq_nil_iff.mpr fun e he hCall => ?_
    have hLt := (tracks_run hBefore).begun e he
    omega

end Results

/-- At any time a counter is the sum of what the calls of `Add` that have returned added to it. -/
theorem value_eq_sum {labels : List Label} {s : State} {events : List Event}
    (hRun : runEvents next State.empty labels = some (s, events)) (name : Bytes) :
    s.shared.value name = (s.threads.filterMap (Thread.added? name)).sum := by
  obtain ⟨m, -, hEnd⟩ :=
    runEvents_accepted (fun _ _ _ _ _ => Represents.next) represents_empty hRun
  exact hEnd.total name

/-- Two calls find the name missing and each make a counter; a `Get` and a `Handler` read in
between. -/
def racingAdds : List Label :=
  [.inc (ascii "ops_insert"), .add (ascii "ops_insert") 5, .step 0, .step 1, .step 1, .step 1,
    .get (ascii "ops_insert"), .step 2, .step 2, .handler, .visit 3 (ascii "ops_insert"), .step 0,
    .step 0, .step 3]

theorem linearizable_racingAdds :
    ∃ s, runEvents next State.empty racingAdds =
        some (s, [⟨1, .add (ascii "ops_insert") 5⟩, ⟨2, .get (ascii "ops_insert") 5⟩,
          ⟨3, .get (ascii "ops_insert") 5⟩, ⟨0, .add (ascii "ops_insert") 1⟩]) ∧
      Linearizes racingAdds s [⟨1, .add (ascii "ops_insert") 5⟩, ⟨2, .get (ascii "ops_insert") 5⟩,
        ⟨3, .get (ascii "ops_insert") 5⟩, ⟨0, .add (ascii "ops_insert") 1⟩] :=
  ⟨_, rfl, @linearizable racingAdds _ _ rfl⟩

theorem value_eq_sum_racingAdds :
    ∃ s events, runEvents next State.empty racingAdds = some (s, events) ∧
      s.shared.value (ascii "ops_insert") =
        (s.threads.filterMap (Thread.added? (ascii "ops_insert"))).sum :=
  ⟨_, _, rfl, @value_eq_sum racingAdds _ _ rfl _⟩

end ShardDB.Metrics
