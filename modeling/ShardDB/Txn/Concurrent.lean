import ShardDB.Lib.Runs
import ShardDB.Txn.Coordinator

/-!
# Concurrent calls of the coordinator

Any number of requests at the same time, several of them for one transaction. A step is one
mutex-protected section of `Begin`, `AddWrite`, `Commit` or `Abort`, one reading of the clock,
one request that is sent, or one reply. Clock readings do not decrease, replies are
arbitrary, and ids of transactions are distinct.

A call of `Commit` goes from stage to stage by itself (`CommitCall.step`). It touches the
coordinator only when it starts, where it copies the writes of an active transaction, and in
one later section, where it sets the state without looking at it (`Effect`). It keeps a list
of the messages it sent, so what a whole run sends is the messages of its calls.
-/

namespace ShardDB.Txn.Concurrent

open ShardDB.Lib ShardDB.Routing

/-! ## Calls of `Commit` -/

/-- Where a call of `Commit` is. -/
inductive Stage where
  /-- Returned from the first section: the transaction is not active or has no writes. -/
  | refused (err : Option Bytes)
  /-- All writes are on one shard; the clock is to be read. -/
  | oneShot (shard : Bytes) (intents : List WriteIntent)
  | oneShotAt (shard : Bytes) (intents : List WriteIntent) (ts : UInt64)
  | oneShotWait
  | oneShotDone
  /-- Phase one, with the requests that are still to be sent. -/
  | preparing (groups : List (Bytes × List WriteIntent)) (todo : List Message)
  | prepareWait (groups : List (Bytes × List WriteIntent)) (m : Message) (todo : List Message)
  /-- All prepared; the state is to be set. -/
  | decided (groups : List (Bytes × List WriteIntent)) (ts : UInt64)
  /-- The goroutines of phase two are to be started. -/
  | spawning (groups : List (Bytes × List WriteIntent)) (ts : UInt64)
  /-- A request failed; `Abort` is to be called. -/
  | aborting (err : Bytes)
  | returned (err : Option Bytes)
  deriving DecidableEq

/-- The call has not returned. -/
def Stage.running : Stage → Bool
  | refused _ => false
  | returned _ => false
  | _ => true

/-- A call of `Commit` and the messages it sent. -/
structure CommitCall where
  txnID : Bytes
  stage : Stage
  sent : List Message
  deriving DecidableEq

/-- What happens to a running call. -/
inductive Event where
  | readClock (now : UInt64)
  | send
  | reply (err : Option Bytes)
  | critical
  | spawn (iter : MapOrder)

/-- What a section of a call does to its transaction. -/
inductive Effect where
  | none
  | commit
  | abort
  deriving DecidableEq

namespace CommitCall

/-- The first section of `Commit`, up to the grouping of the writes. -/
def start (c : Coordinator) (txnID : Bytes) (iter : MapOrder) : CommitCall where
  txnID := txnID
  stage :=
    match c.activeWrites txnID with
    | .error err => .refused (some err)
    | .ok [] => .refused none
    | .ok writes =>
      match (groupByShard c.router writes).entries with
      | [(shard, intents)] => .oneShot shard intents
      | groups => .preparing groups (requests (prepareRequest txnID) (iter.order groups))
  sent := []

/-- The rest of `Commit`. -/
def step (call : CommitCall) : Event → Option (CommitCall × Effect)
  | .readClock now =>
    match call.stage with
    | .oneShot shard intents => some ({ call with stage := .oneShotAt shard intents now }, .none)
    | .preparing groups [] => some ({ call with stage := .decided groups now }, .none)
    | _ => none
  | .send =>
    match call.stage with
    | .oneShotAt shard intents ts =>
      some (⟨call.txnID, .oneShotWait, call.sent ++ [.oneShot shard intents call.txnID ts]⟩, .none)
    | .preparing groups (m :: todo) =>
      some (⟨call.txnID, .prepareWait groups m todo, call.sent ++ [m]⟩, .none)
    | _ => none
  | .reply err =>
    match call.stage, err with
    | .oneShotWait, none => some ({ call with stage := .oneShotDone }, .none)
    | .oneShotWait, some err => some ({ call with stage := .aborting err }, .none)
    | .prepareWait groups _ todo, none =>
      some ({ call with stage := .preparing groups todo }, .none)
    | .prepareWait _ m _, some err =>
      some ({ call with stage := .aborting (prepareError m err) }, .none)
    | _, _ => none
  | .critical =>
    match call.stage with
    | .oneShotDone => some ({ call with stage := .returned none }, .commit)
    | .decided groups ts => some ({ call with stage := .spawning groups ts }, .commit)
    | .aborting err => some ({ call with stage := .returned (some err) }, .abort)
    | _ => none
  | .spawn iter =>
    match call.stage with
    | .spawning groups ts =>
      some (⟨call.txnID, .returned none,
        call.sent ++ requests (commitRequest call.txnID ts) (iter.order groups)⟩, .none)
    | _ => none

end CommitCall

/-- All that a step of a call for the transaction `t` can do: the stages before and after it,
the messages it sends and its effect. -/
inductive Transition (t : Bytes) : Stage → Stage → List Message → Effect → Prop
  | readOneShot (shard : Bytes) (intents : List WriteIntent) (now : UInt64) :
      Transition t (.oneShot shard intents) (.oneShotAt shard intents now) [] .none
  | readDecided (groups : List (Bytes × List WriteIntent)) (now : UInt64) :
      Transition t (.preparing groups []) (.decided groups now) [] .none
  | sendOneShot (shard : Bytes) (intents : List WriteIntent) (ts : UInt64) :
      Transition t (.oneShotAt shard intents ts) .oneShotWait [.oneShot shard intents t ts] .none
  | sendPrepare (groups : List (Bytes × List WriteIntent)) (m : Message) (todo : List Message) :
      Transition t (.preparing groups (m :: todo)) (.prepareWait groups m todo) [m] .none
  | replyOneShot : Transition t .oneShotWait .oneShotDone [] .none
  | replyPrepare (groups : List (Bytes × List WriteIntent)) (m : Message) (todo : List Message) :
      Transition t (.prepareWait groups m todo) (.preparing groups todo) [] .none
  | failOneShot (err : Bytes) : Transition t .oneShotWait (.aborting err) [] .none
  | failPrepare (groups : List (Bytes × List WriteIntent)) (m : Message) (todo : List Message)
      (err : Bytes) :
      Transition t (.prepareWait groups m todo) (.aborting (prepareError m err)) [] .none
  | commitOneShot : Transition t .oneShotDone (.returned none) [] .commit
  | commitDecided (groups : List (Bytes × List WriteIntent)) (ts : UInt64) :
      Transition t (.decided groups ts) (.spawning groups ts) [] .commit
  | abort (err : Bytes) : Transition t (.aborting err) (.returned (some err)) [] .abort
  | spawn (groups : List (Bytes × List WriteIntent)) (ts : UInt64) (iter : MapOrder) :
      Transition t (.spawning groups ts) (.returned none)
        (requests (commitRequest t ts) (iter.order groups)) .none

theorem transition_of_step {call call' : CommitCall} {event : Event} {effect : Effect}
    (h : call.step event = some (call', effect)) :
    ∃ ms, call'.txnID = call.txnID ∧ call'.sent = call.sent ++ ms ∧
      Transition call.txnID call.stage call'.stage ms effect := by
  obtain ⟨t, stage, sent⟩ := call
  cases event with
  | readClock now =>
    simp only [CommitCall.step] at h
    split at h <;> cases h
    · exact ⟨[], rfl, (List.append_nil _).symm, .readOneShot _ _ now⟩
    · exact ⟨[], rfl, (List.append_nil _).symm, .readDecided _ now⟩
  | send =>
    simp only [CommitCall.step] at h
    split at h <;> cases h
    · exact ⟨_, rfl, rfl, .sendOneShot ..⟩
    · exact ⟨_, rfl, rfl, .sendPrepare ..⟩
  | reply err =>
    simp only [CommitCall.step] at h
    split at h <;> cases h
    · exact ⟨[], rfl, (List.append_nil _).symm, .replyOneShot⟩
    · exact ⟨[], rfl, (List.append_nil _).symm, .failOneShot _⟩
    · exact ⟨[], rfl, (List.append_nil _).symm, .replyPrepare ..⟩
    · exact ⟨[], rfl, (List.append_nil _).symm, .failPrepare ..⟩
  | critical =>
    simp only [CommitCall.step] at h
    split at h <;> cases h
    · exact ⟨[], rfl, (List.append_nil _).symm, .commitOneShot⟩
    · exact ⟨[], rfl, (List.append_nil _).symm, .commitDecided ..⟩
    · exact ⟨[], rfl, (List.append_nil _).symm, .abort _⟩
  | spawn iter =>
    simp only [CommitCall.step] at h
    split at h <;> cases h
    exact ⟨_, rfl, rfl, .spawn _ _ iter⟩

/-! ## The system -/

/-- The coordinator, all calls of `Commit` so far, the `ABORT` messages that were sent, and the
last reading of the clock. -/
structure State where
  coordinator : Coordinator
  calls : List CommitCall
  aborts : List Message
  clock : UInt64
  deriving DecidableEq

/-- What may happen next: a request of a client, or progress of a call. -/
inductive Label where
  | begin (now : UInt64)
  | insert (txnID key value : Bytes)
  | rollback (txnID : Bytes)
  | commit (txnID : Bytes) (iter : MapOrder)
  | call (i : Nat) (event : Event)

namespace State

def start (r : Router) : State := ⟨newCoordinator r, [], [], 0⟩

/-- `Abort`. -/
def abortTxn (s : State) (txnID : Bytes) : State :=
  { s with
    coordinator := (s.coordinator.abort txnID).1
    aborts := s.aborts ++ (s.coordinator.abort txnID).2.1 }

def apply (s : State) (txnID : Bytes) : Effect → State
  | .none => s
  | .commit => { s with coordinator := s.coordinator.setState txnID .committed }
  | .abort => s.abortTxn txnID

/-- All messages that were sent. -/
def sent (s : State) : List Message := s.calls.flatMap CommitCall.sent ++ s.aborts

/-- The `State` field of a transaction. -/
def stateOf (s : State) (t : Bytes) : Option TxnState :=
  (s.coordinator.transactions.find? t).map Transaction.state

/-- A call of `Commit` for the transaction has not returned. -/
def Running (s : State) (t : Bytes) : Prop :=
  ∃ call ∈ s.calls, call.txnID = t ∧ call.stage.running = true

instance (s : State) (t : Bytes) : Decidable (s.Running t) :=
  inferInstanceAs (Decidable (∃ call ∈ s.calls, call.txnID = t ∧ call.stage.running = true))

end State

/-- The clock after an event, unless it would go back. -/
def tick (clock : UInt64) : Event → Option UInt64
  | .readClock now => if now < clock then none else some now
  | _ => some clock

/-- The step function. -/
def next (s : State) : Label → Option State
  | .begin now =>
    if now < s.clock ∨ (s.coordinator.transactions.find? (s.coordinator.begin now).2).isSome then
      none
    else some { s with coordinator := (s.coordinator.begin now).1, clock := now }
  | .insert txnID key value =>
    some { s with coordinator := (s.coordinator.addWrite txnID key value).1 }
  | .rollback txnID => some (s.abortTxn txnID)
  | .commit txnID iter =>
    some { s with calls := s.calls ++ [CommitCall.start s.coordinator txnID iter] }
  | .call i event =>
    match s.calls[i]?, tick s.clock event with
    | some call, some clock =>
      match call.step event with
      | none => none
      | some (call', effect) =>
        some { s.apply call.txnID effect with calls := s.calls.set i call', clock := clock }
    | _, _ => none

/-! ## What a step does to the states of transactions -/

/-- What a section of a call makes of the state of its transaction. -/
def Effect.on : Effect → TxnState → TxnState
  | none, st => st
  | commit, _ => .committed
  | abort, _ => .aborted

section States

variable {s s' : State} {t : Bytes}

theorem stateOf_setState (s : State) (t : Bytes) (st : TxnState) (u : Bytes) :
    ({ s with coordinator := s.coordinator.setState t st } : State).stateOf u =
      if u = t then (s.stateOf u).map fun _ => st else s.stateOf u := by
  unfold State.stateOf
  dsimp only
  rw [find?_setState]
  split_ifs
  · rw [Option.map_map, Option.map_map]
    rfl
  · rfl

theorem coordinator_abortTxn (s : State) (t : Bytes) :
    (s.abortTxn t).coordinator = s.coordinator.setState t .aborted :=
  coordinator_abort s.coordinator t

theorem stateOf_apply (s : State) (t : Bytes) (effect : Effect) (u : Bytes) :
    (s.apply t effect).stateOf u = if u = t then (s.stateOf u).map effect.on else s.stateOf u := by
  cases effect with
  | none =>
    have hSame : Effect.none.on = id := rfl
    simp [State.apply, hSame]
  | commit => exact stateOf_setState s t .committed u
  | abort =>
    have hAbort : (s.apply t .abort).stateOf u =
        ({ s with coordinator := s.coordinator.setState t .aborted } : State).stateOf u := by
      unfold State.stateOf State.apply
      rw [coordinator_abortTxn]
    rw [hAbort]
    exact stateOf_setState s t .aborted u

theorem stateOf_insert (c : Coordinator) (t key value u : Bytes) :
    ((c.addWrite t key value).1.transactions.find? u).map Transaction.state =
      (c.transactions.find? u).map Transaction.state := by
  rcases addWrite_cases c t key value with ⟨txn, hTxn, -, hAdd⟩ | hRefused
  · rw [hAdd]
    dsimp only
    rw [SortedMap.find?_insert]
    split_ifs with hu
    · rw [hu, hTxn, Option.map_some, Option.map_some]
    · rfl
  · rw [hRefused]

/-- A `BEGIN` adds a transaction under a new id. -/
theorem next_begin_eq {now : UInt64} (h : next s (.begin now) = some s') :
    s.coordinator.transactions.find? (s.coordinator.begin now).2 = none ∧
      s' = { s with coordinator := (s.coordinator.begin now).1, clock := now } := by
  unfold next at h
  dsimp only at h
  split_ifs at h with hGuard
  rw [not_or, Option.not_isSome_iff_eq_none] at hGuard
  exact ⟨hGuard.2, (Option.some.inj h).symm⟩

/-- The requests of clients that touch no call. -/
theorem next_begin {now : UInt64} (h : next s (.begin now) = some s') :
    (∀ u st, s.stateOf u = some st → s'.stateOf u = some st) ∧ s'.calls = s.calls ∧
      s'.aborts = s.aborts := by
  obtain ⟨hNew, rfl⟩ := next_begin_eq h
  refine ⟨?_, rfl, rfl⟩
  intro u st hu
  have hNe : u ≠ (s.coordinator.begin now).2 := by
    rintro rfl
    rw [State.stateOf, hNew] at hu
    cases hu
  rw [State.stateOf, find?_begin, if_neg hNe]
  exact hu

theorem next_call {i : Nat} {event : Event} (h : next s (.call i event) = some s') :
    ∃ call call' ms effect clock, s.calls[i]? = some call ∧ call'.txnID = call.txnID ∧
      call'.sent = call.sent ++ ms ∧ Transition call.txnID call.stage call'.stage ms effect ∧
      s' = { s.apply call.txnID effect with calls := s.calls.set i call', clock := clock } := by
  unfold next at h
  dsimp only at h
  split at h
  · next call clock hGet _ =>
    cases hStep : call.step event with
    | none =>
      rw [hStep] at h
      cases h
    | some p =>
      rw [hStep] at h
      cases h
      obtain ⟨ms, hTxn, hSent, hTransition⟩ := transition_of_step hStep
      exact ⟨call, p.1, ms, p.2, clock, hGet, hTxn, hSent, hTransition, rfl⟩
  · cases h

theorem activeWrites_eq_ok {c : Coordinator} {writes : List WriteIntent}
    (h : c.activeWrites t = .ok writes) :
    ∃ txn, c.transactions.find? t = some txn ∧ txn.state = .active ∧ txn.writes = writes := by
  unfold Coordinator.activeWrites at h
  split at h
  · cases h
  · next txn hTxn =>
    split_ifs at h with hActive
    cases h
    exact ⟨txn, hTxn, not_not.mp hActive, rfl⟩

/-- A call starts refused, or with the writes of an active transaction. -/
theorem start_cases (c : Coordinator) (t : Bytes) (iter : MapOrder) :
    (∃ err, (CommitCall.start c t iter).stage = .refused err ∧
      (err = none → c.activeWrites t = .ok [])) ∨
    (c.transactions.find? t).map Transaction.state = some .active ∧
      ((∃ shard intents, (CommitCall.start c t iter).stage = .oneShot shard intents) ∨
        ∃ groups, (CommitCall.start c t iter).stage =
          .preparing groups (requests (prepareRequest t) (iter.order groups))) := by
  unfold CommitCall.start
  dsimp only
  cases hWrites : c.activeWrites t with
  | error err => exact Or.inl ⟨some err, rfl, fun hNone => by cases hNone⟩
  | ok writes =>
    cases writes with
    | nil => exact Or.inl ⟨none, rfl, fun _ => rfl⟩
    | cons w writes =>
      obtain ⟨txn, hTxn, hActive, -⟩ := activeWrites_eq_ok hWrites
      refine Or.inr ⟨by rw [hTxn, Option.map_some, hActive], ?_⟩
      dsimp only
      split
      · exact Or.inl ⟨_, _, rfl⟩
      · exact Or.inr ⟨_, rfl⟩

theorem stateOf_rollback (s : State) (t u : Bytes) :
    (s.abortTxn t).stateOf u =
      if u = t then (s.stateOf u).map fun _ => TxnState.aborted else s.stateOf u :=
  stateOf_apply s t .abort u

end States

/-! ## Positions in the list of calls -/

theorem getElem?_concat {α : Type} {l : List α} {x y : α} {i : Nat}
    (h : (l ++ [x])[i]? = some y) : l[i]? = some y ∨ i = l.length ∧ y = x := by
  rcases Nat.lt_trichotomy i l.length with hi | hi | hi
  · rw [List.getElem?_append_left hi] at h
    exact Or.inl h
  · subst hi
    rw [List.getElem?_concat_length] at h
    exact Or.inr ⟨rfl, (Option.some.inj h).symm⟩
  · rw [List.getElem?_eq_none (by simpa using hi)] at h
    cases h

theorem getElem?_set_cases {α : Type} {l : List α} {x y : α} {i j : Nat}
    (h : (l.set i x)[j]? = some y) : j = i ∧ y = x ∨ j ≠ i ∧ l[j]? = some y := by
  by_cases hj : i = j
  · subst hj
    rw [List.getElem?_set_self'] at h
    cases hOld : l[i]? with
    | none =>
      rw [hOld] at h
      cases h
    | some z =>
      rw [hOld] at h
      exact Or.inl ⟨rfl, (Option.some.inj h).symm⟩
  · rw [List.getElem?_set_ne hj] at h
    exact Or.inr ⟨Ne.symm hj, h⟩

theorem mem_set_of_getElem? {α : Type} {l : List α} {x y : α} {i : Nat} (h : l[i]? = some x) :
    y ∈ l.set i y := by
  refine List.mem_of_getElem? (i := i) ?_
  rw [List.getElem?_set_self', h]
  rfl

section CallsOfStep

variable {s s' : State}

/-- Where a call comes from: it was there, it has just started, or it has made progress. -/
theorem calls_next {l : Label} (h : next s l = some s') {call : CommitCall}
    (hCall : call ∈ s'.calls) :
    call ∈ s.calls ∨
      (∃ t iter, l = .commit t iter ∧ call = CommitCall.start s.coordinator t iter) ∨
      ∃ old ∈ s.calls, ∃ ms effect, call.txnID = old.txnID ∧ call.sent = old.sent ++ ms ∧
        Transition old.txnID old.stage call.stage ms effect ∧
        s'.coordinator = (s.apply old.txnID effect).coordinator ∧
        s'.aborts = (s.apply old.txnID effect).aborts := by
  cases l with
  | begin now =>
    rw [(next_begin h).2.1] at hCall
    exact Or.inl hCall
  | insert t key value =>
    cases h
    exact Or.inl hCall
  | rollback t =>
    cases h
    exact Or.inl hCall
  | commit t iter =>
    cases h
    refine (List.mem_append.mp hCall).imp_right fun hNew => Or.inl ?_
    exact ⟨t, iter, rfl, List.mem_singleton.mp hNew⟩
  | call i event =>
    obtain ⟨old, new, ms, effect, clock, hGet, hTxn, hSent, hTransition, rfl⟩ := next_call h
    obtain ⟨j, hj⟩ := List.mem_iff_getElem?.mp hCall
    rcases getElem?_set_cases hj with ⟨-, rfl⟩ | ⟨-, hOld⟩
    · exact Or.inr (Or.inr ⟨old, List.mem_of_getElem? hGet, ms, effect, hTxn, hSent, hTransition,
        rfl, rfl⟩)
    · exact Or.inl (List.mem_of_getElem? hOld)

/-- A call stays as it is or makes progress. -/
theorem calls_persist {l : Label} (h : next s l = some s') {call : CommitCall}
    (hCall : call ∈ s.calls) :
    call ∈ s'.calls ∨ ∃ new ∈ s'.calls, new.txnID = call.txnID ∧
      ∃ ms effect, Transition call.txnID call.stage new.stage ms effect := by
  cases l with
  | begin now =>
    rw [(next_begin h).2.1]
    exact Or.inl hCall
  | insert t key value =>
    cases h
    exact Or.inl hCall
  | rollback t =>
    cases h
    exact Or.inl hCall
  | commit t iter =>
    cases h
    exact Or.inl (List.mem_append_left _ hCall)
  | call i event =>
    obtain ⟨old, new, ms, effect, clock, hGet, hTxn, -, hTransition, rfl⟩ := next_call h
    obtain ⟨j, hj⟩ := List.mem_iff_getElem?.mp hCall
    by_cases hij : i = j
    · subst hij
      obtain rfl := Option.some.inj (hGet.symm.trans hj)
      exact Or.inr ⟨new, mem_set_of_getElem? hGet, hTxn, ms, effect, hTransition⟩
    · rw [← List.getElem?_set_ne hij] at hj
      exact Or.inl (List.mem_of_getElem? hj)

/-- A step sends the `ABORT` messages of one transaction or none. -/
theorem aborts_cases {l : Label} (h : next s l = some s') :
    s'.aborts = s.aborts ∨ ∃ t, s'.aborts = (s.abortTxn t).aborts := by
  cases l with
  | begin now => exact Or.inl (next_begin h).2.2
  | insert t key value =>
    cases h
    exact Or.inl rfl
  | rollback t =>
    cases h
    exact Or.inr ⟨t, rfl⟩
  | commit t iter =>
    cases h
    exact Or.inl rfl
  | call i event =>
    obtain ⟨call, call', ms, effect, clock, -, -, -, -, rfl⟩ := next_call h
    cases effect with
    | none => exact Or.inl rfl
    | commit => exact Or.inl rfl
    | abort => exact Or.inr ⟨call.txnID, rfl⟩

end CallsOfStep

/-- No transaction has two calls in stages of one kind. -/
def AtMostOne (p : Stage → Bool) (calls : List CommitCall) : Prop :=
  ∀ (i j : Nat) (call call' : CommitCall), calls[i]? = some call → calls[j]? = some call' →
    p call.stage = true → p call'.stage = true → call.txnID = call'.txnID → i = j

section AtMostOne

variable {p : Stage → Bool} {calls : List CommitCall}

/-- A new call, when no call of the kind has its transaction. -/
theorem AtMostOne.concat (h : AtMostOne p calls) {new : CommitCall}
    (hOther : p new.stage = true → ∀ call ∈ calls, p call.stage = true →
      call.txnID ≠ new.txnID) : AtMostOne p (calls ++ [new]) := by
  intro i j call call' hi hj hp hp' hTxn
  rcases getElem?_concat hi with hOld | ⟨rfl, rfl⟩
  · rcases getElem?_concat hj with hOld' | ⟨rfl, rfl⟩
    · exact h i j call call' hOld hOld' hp hp' hTxn
    · exact (hOther hp' call (List.mem_of_getElem? hOld) hp hTxn).elim
  · rcases getElem?_concat hj with hOld' | ⟨rfl, rfl⟩
    · exact (hOther hp call' (List.mem_of_getElem? hOld') hp' hTxn.symm).elim
    · rfl

/-- Progress of a call that was of the kind already. -/
theorem AtMostOne.set (h : AtMostOne p calls) {i : Nat} {old new : CommitCall}
    (hGet : calls[i]? = some old) (hp : p old.stage = true) (hTxn : new.txnID = old.txnID) :
    AtMostOne p (calls.set i new) := by
  intro j k call call' hj hk hCall hCall' hSame
  rcases getElem?_set_cases hj with ⟨rfl, rfl⟩ | ⟨-, hOld⟩
  · rcases getElem?_set_cases hk with ⟨rfl, rfl⟩ | ⟨-, hOld'⟩
    · rfl
    · exact h j k old call' hGet hOld' hp hCall' (hTxn.symm.trans hSame)
  · rcases getElem?_set_cases hk with ⟨rfl, rfl⟩ | ⟨-, hOld'⟩
    · exact h j k call old hOld hGet hCall hp (hSame.trans hTxn)
    · exact h j k call call' hOld hOld' hCall hCall' hSame

end AtMostOne

/-! ## A run -/

/-- A transaction with one write, up to the section that commits it. -/
def oneWrite : List Label :=
  [.begin 1, .insert (ascii "txn-1") (ascii "t:a") (ascii "1"), .commit (ascii "txn-1") sortedOrder,
    .call 0 (.readClock 5), .call 0 .send, .call 0 (.reply none)]

end ShardDB.Txn.Concurrent
