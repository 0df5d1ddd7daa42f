import ShardDB.Txn.Concurrent

/-!
# A transaction is decided once

`Commit` looks at the state of its transaction when it starts and sets it later, and `Abort`
sets it without looking. So the state can change more than once: a `ROLLBACK` after a `COMMIT`
turns a committed transaction into an aborted one, and requests that overlap with a running
`Commit` do the same. A `COMMIT` of a transaction without writes returns nil and leaves it
active.

A client is orderly if it sends `COMMIT` only for transactions with writes, no `COMMIT` or
`ROLLBACK` while a `Commit` of the transaction runs, and no `ROLLBACK` once it is committed.
Then every running call knows the state of its transaction (`Stage.expects`), and every
transaction is decided once.
-/

namespace ShardDB.Txn.Concurrent

open ShardDB.Lib ShardDB.Routing

/-- The call has returned nil. -/
def CommitCall.ReturnedNil (call : CommitCall) : Prop :=
  call.stage = .refused none ∨ call.stage = .returned none

/-- What a step does to transactions that are decided and with calls that return nil. -/
structure DecidesOnce (s s' : State) : Prop where
  /-- A state other than `StateActive` stays. -/
  stays : ∀ t st, s.stateOf t = some st → st ≠ .active → s'.stateOf t = some st
  /-- A call that returns nil in this step leaves its transaction committed. -/
  returns : ∀ (i : Nat) (call' : CommitCall), s'.calls[i]? = some call' → call'.ReturnedNil →
    (∀ call, s.calls[i]? = some call → ¬ call.ReturnedNil) →
      s'.stateOf call'.txnID = some .committed

/-- A request of an orderly client. -/
def Orderly (s : State) : Label → Prop
  | .commit t _ => ¬ s.Running t ∧ ∀ txn ∈ s.coordinator.transactions.find? t, txn.writes ≠ []
  | .rollback t => ¬ s.Running t ∧ s.stateOf t ≠ some .committed
  | _ => True

instance (s : State) : (l : Label) → Decidable (Orderly s l)
  | .commit t _ => inferInstanceAs (Decidable (¬ s.Running t ∧
      ∀ txn ∈ s.coordinator.transactions.find? t, txn.writes ≠ []))
  | .rollback t => inferInstanceAs (Decidable (¬ s.Running t ∧ s.stateOf t ≠ some .committed))
  | .begin _ => .isTrue trivial
  | .insert _ _ _ => .isTrue trivial
  | .call _ _ => .isTrue trivial

/-! ## What a running call expects -/

/-- The state that a running call takes its transaction to be in. -/
def Stage.expects : Stage → Option TxnState
  | refused _ => none
  | returned _ => none
  | spawning _ _ => some .committed
  | _ => some .active

theorem running_of_expects {stage : Stage} {st : TxnState} (h : stage.expects = some st) :
    stage.running = true := by
  cases stage <;> first | rfl | cases h

theorem Transition.expects {t : Bytes} {stage stage' : Stage} {ms : List Message}
    {effect : Effect} (h : Transition t stage stage' ms effect) :
    ∃ st, stage.expects = some st ∧ (∀ st', stage'.expects = some st' → st' = effect.on st) ∧
      (st ≠ .active → effect = .none) ∧
      (stage' = .refused none ∨ stage' = .returned none → effect.on st = .committed) := by
  cases h <;> refine ⟨_, rfl, ?_, ?_, ?_⟩ <;> simp [Stage.expects, Effect.on]

/-- At most one call of a transaction runs, and it is right about the state. -/
structure CallsKnow (s : State) : Prop where
  unique : AtMostOne Stage.running s.calls
  knows : ∀ call ∈ s.calls, ∀ st, call.stage.expects = some st →
    s.stateOf call.txnID = some st

section Steps

variable {s s' : State} {t : Bytes}

/-- Steps that leave the calls alone and the states of transactions with a running call. -/
theorem CallsKnow.of_calls_eq (h : CallsKnow s) (hCalls : s'.calls = s.calls)
    (hState : ∀ u st, s.Running u → s.stateOf u = some st → s'.stateOf u = some st) :
    CallsKnow s' := by
  constructor
  · rw [hCalls]
    exact h.unique
  · rw [hCalls]
    intro call hCall st hExpects
    exact hState _ _ ⟨call, hCall, rfl, running_of_expects hExpects⟩ (h.knows call hCall st hExpects)

theorem CallsKnow.commit (h : CallsKnow s) (hFree : ¬ s.Running t) (iter : MapOrder) :
    CallsKnow { s with calls := s.calls ++ [CommitCall.start s.coordinator t iter] } := by
  constructor
  · refine h.unique.concat ?_
    intro _ call hCall hRunning hTxn
    exact hFree ⟨call, hCall, hTxn, hRunning⟩
  · intro call hCall st hExpects
    rcases List.mem_append.mp hCall with hCall | hCall
    · exact h.knows call hCall st hExpects
    · rw [List.mem_singleton.mp hCall] at hExpects ⊢
      rcases start_cases s.coordinator t iter with
        ⟨err, hStage, -⟩ | ⟨hActive, ⟨shard, intents, hStage⟩ | ⟨groups, hStage⟩⟩
      · rw [hStage] at hExpects
        cases hExpects
      · rw [hStage] at hExpects
        cases hExpects
        exact hActive
      · rw [hStage] at hExpects
        cases hExpects
        exact hActive

theorem CallsKnow.call (h : CallsKnow s) {i : Nat} {call call' : CommitCall} {ms : List Message}
    {effect : Effect} {clock : UInt64} (hGet : s.calls[i]? = some call)
    (hTxn : call'.txnID = call.txnID)
    (hTransition : Transition call.txnID call.stage call'.stage ms effect) :
    CallsKnow { s.apply call.txnID effect with
      calls := s.calls.set i call', clock := clock } := by
  obtain ⟨st, hSt, hAfter, -, -⟩ := hTransition.expects
  have hRunning := running_of_expects hSt
  -- the call is the only running one of its transaction
  have hOther : ∀ (j : Nat) (c : CommitCall), j ≠ i → s.calls[j]? = some c →
      c.stage.running = true → c.txnID ≠ call.txnID := by
    intro j c hj hc hcRunning hcTxn
    exact hj (h.unique j i c call hc hGet hcRunning hRunning hcTxn)
  refine ⟨h.unique.set hGet hRunning hTxn, ?_⟩
  intro c hc st' hExpects
  show (s.apply call.txnID effect).stateOf c.txnID = some st'
  obtain ⟨j, hj⟩ := List.mem_iff_getElem?.mp hc
  rcases getElem?_set_cases hj with ⟨rfl, rfl⟩ | ⟨hNe, hj⟩
  · rw [stateOf_apply, if_pos hTxn, hTxn, h.knows call (List.mem_of_getElem? hGet) st hSt,
      hAfter st' hExpects]
    rfl
  · rw [stateOf_apply, if_neg (hOther j c hNe hj (running_of_expects hExpects))]
    exact h.knows c (List.mem_of_getElem? hj) st' hExpects

/-- Orderly requests keep the calls informed. -/
theorem CallsKnow.preserved {l : Label} (h : CallsKnow s) (hOrderly : Orderly s l)
    (hNext : next s l = some s') : CallsKnow s' := by
  cases l with
  | begin now =>
    obtain ⟨hState, hCalls, -⟩ := next_begin hNext
    exact h.of_calls_eq hCalls fun u st _ hu => hState u st hu
  | insert t key value =>
    cases hNext
    refine h.of_calls_eq rfl fun u st _ hu => ?_
    exact (stateOf_insert s.coordinator t key value u).trans hu
  | rollback t =>
    cases hNext
    refine h.of_calls_eq rfl fun u st hRunning hu => ?_
    have hNe : u ≠ t := fun hEq => hOrderly.1 (hEq ▸ hRunning)
    rw [stateOf_rollback, if_neg hNe, hu]
  | commit t iter =>
    cases hNext
    exact h.commit hOrderly.1 iter
  | call i event =>
    obtain ⟨call, call', ms, effect, clock, hGet, hTxn, -, hTransition, rfl⟩ := next_call hNext
    exact h.call hGet hTxn hTransition

/-- Steps that leave the calls alone. -/
theorem decidesOnce_of_calls_eq (hCalls : s'.calls = s.calls)
    (hStays : ∀ u st, s.stateOf u = some st → st ≠ .active → s'.stateOf u = some st) :
    DecidesOnce s s' := by
  refine ⟨hStays, ?_⟩
  intro i call' hGet hNil hBefore
  exact (hBefore call' (hCalls ▸ hGet) hNil).elim

theorem decidesOnce_rollback (hState : s.stateOf t ≠ some .committed) :
    DecidesOnce s (s.abortTxn t) := by
  refine decidesOnce_of_calls_eq rfl ?_
  intro u st hu hDecided
  rw [stateOf_rollback]
  split_ifs with hEq
  · -- the transaction is decided but not committed
    subst hEq
    rw [hu] at hState ⊢
    cases st with
    | active => exact (hDecided rfl).elim
    | committed => exact (hState rfl).elim
    | aborted => rfl
  · exact hu

/-- A transaction with writes does not return nil from the first section. -/
theorem decidesOnce_commit {iter : MapOrder}
    (hWrites : ∀ txn ∈ s.coordinator.transactions.find? t, txn.writes ≠ []) :
    DecidesOnce s { s with calls := s.calls ++ [CommitCall.start s.coordinator t iter] } := by
  refine ⟨fun u st hu _ => hu, ?_⟩
  intro i call' hGet hNil hBefore
  rcases getElem?_concat hGet with hOld | ⟨-, rfl⟩
  · exact (hBefore call' hOld hNil).elim
  · exfalso
    rcases start_cases s.coordinator t iter with
      ⟨err, hStage, hNone⟩ | ⟨-, ⟨shard, intents, hStage⟩ | ⟨groups, hStage⟩⟩
    · have hErr : err = none := by simpa [CommitCall.ReturnedNil, hStage] using hNil
      obtain ⟨txn, hTxn, -, hEmpty⟩ := activeWrites_eq_ok (hNone hErr)
      exact hWrites txn hTxn hEmpty
    · simp [CommitCall.ReturnedNil, hStage] at hNil
    · simp [CommitCall.ReturnedNil, hStage] at hNil

/-- A call sets the state only when it takes the transaction to be active, and it is right. -/
theorem CallsKnow.decidesOnce_call (h : CallsKnow s) {i : Nat} {event : Event}
    (hNext : next s (.call i event) = some s') : DecidesOnce s s' := by
  obtain ⟨call, call', ms, effect, clock, hGet, hTxn, -, hTransition, rfl⟩ := next_call hNext
  obtain ⟨st, hSt, -, hDecided, hReturn⟩ := hTransition.expects
  have hState := h.knows call (List.mem_of_getElem? hGet) st hSt
  constructor
  · intro t st' ht hNotActive
    show (s.apply call.txnID effect).stateOf t = some st'
    rw [stateOf_apply]
    split_ifs with hEq
    · subst hEq
      rw [hState] at ht
      cases ht
      rw [hState, hDecided hNotActive]
      rfl
    · exact ht
  · intro j c hj hNil hBefore
    show (s.apply call.txnID effect).stateOf c.txnID = some .committed
    rcases getElem?_set_cases hj with ⟨rfl, rfl⟩ | ⟨-, hOld⟩
    · rw [stateOf_apply, if_pos hTxn, hTxn, hState, Option.map_some, hReturn hNil]
    · exact (hBefore c hOld hNil).elim

/-- One step of orderly clients. -/
theorem CallsKnow.decidesOnce {l : Label} (h : CallsKnow s) (hOrderly : Orderly s l)
    (hNext : next s l = some s') : DecidesOnce s s' := by
  cases l with
  | begin now =>
    obtain ⟨hState, hCalls, -⟩ := next_begin hNext
    exact decidesOnce_of_calls_eq hCalls fun u st hu _ => hState u st hu
  | insert t key value =>
    cases hNext
    refine decidesOnce_of_calls_eq rfl fun u st hu _ => ?_
    exact (stateOf_insert s.coordinator t key value u).trans hu
  | rollback t =>
    cases hNext
    exact decidesOnce_rollback hOrderly.2
  | commit t iter =>
    cases hNext
    exact decidesOnce_commit hOrderly.2
  | call i event => exact h.decidesOnce_call hNext

end Steps

theorem callsKnow_start (r : Router) : CallsKnow (State.start r) where
  unique i j call call' hi := by cases hi
  knows call hCall := by cases hCall

/-- With orderly clients, every step of every run decides a transaction at most once, and
`Commit` returns nil only for committed transactions. -/
theorem decidesOnce_of_orderly {r : Router} {s s' : State} {l : Label}
    (hReach : Reaches next Orderly (State.start r) s) (hOrderly : Orderly s l)
    (hNext : next s l = some s') : DecidesOnce s s' := by
  have hKnow := hReach.invariant (callsKnow_start r) fun _ _ _ h hOk hStep => h.preserved hOk hStep
  exact hKnow.decidesOnce hOrderly hNext

/-! ## Some runs -/

theorem decidesOnce_oneWrite :
    ∃ s s', Reaches next Orderly (State.start newRouter) s ∧
      next s (.call 0 .critical) = some s' ∧ s'.stateOf (ascii "txn-1") = some .committed ∧
      DecidesOnce s s' := by
  have hEnd : ((runLabels next (State.start newRouter) oneWrite).bind fun s =>
      (next s (.call 0 .critical)).map fun s' => s'.stateOf (ascii "txn-1")) =
        some (some .committed) := by decide
  obtain ⟨s, hRun, hLast⟩ := Option.bind_eq_some_iff.mp hEnd
  obtain ⟨s', hNext, hState⟩ := Option.map_eq_some_iff.mp hLast
  have hReach : Reaches next Orderly (State.start newRouter) s :=
    reaches_of_runLabels hRun (by decide)
  have hOrderly : Orderly s (.call 0 .critical) := trivial
  exact ⟨s, s', hReach, hNext, hState, decidesOnce_of_orderly hReach hOrderly hNext⟩

/-- A `ROLLBACK` after the `COMMIT`: the committed transaction becomes an aborted one. -/
theorem not_decidesOnce :
    ¬ ∀ (r : Router) (s s' : State) (l : Label),
      Reaches next (fun _ _ => True) (State.start r) s → next s l = some s' → DecidesOnce s s' := by
  intro hAll
  have hEnd : (runLabels next (State.start newRouter)
      (oneWrite ++ [.call 0 .critical])).map (fun s => s.stateOf (ascii "txn-1")) =
        some (some .committed) := by decide
  obtain ⟨s, hRun, hState⟩ := Option.map_eq_some_iff.mp hEnd
  have hReach : Reaches next (fun _ _ => True) (State.start newRouter) s :=
    reaches_of_runLabels hRun (allAllowed_of_forall (fun _ _ => trivial) _)
  have hOnce := hAll newRouter s _ (.rollback (ascii "txn-1")) hReach rfl
  have hStays := hOnce.stays (ascii "txn-1") .committed hState (by decide)
  rw [stateOf_rollback, if_pos rfl, hState] at hStays
  cases hStays

end ShardDB.Txn.Concurrent
