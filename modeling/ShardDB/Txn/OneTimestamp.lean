import ShardDB.Storage.Intents
import ShardDB.Txn.Concurrent

/-!
# One commit timestamp for each transaction

A call of `Commit` that has copied writes is engaged: it may send `ONESHOT` or `COMMIT`
messages, all of them with the one clock reading that it makes. Two calls that overlap both
find the transaction active and both get engaged, so the transaction can be committed at two
timestamps.

If no `COMMIT` is sent while a `Commit` of the transaction runs, there is at most one engaged
call (`Engagements`): when an engaged call has returned, the transaction is not active any
more, and no transaction ever becomes active again.
-/

namespace ShardDB.Txn.Concurrent

open ShardDB.Lib ShardDB.Storage ShardDB.Routing

/-- No `COMMIT` is sent while a `Commit` of the transaction runs. -/
def NoOverlap (s : State) : Label → Prop
  | .commit t _ => ¬ s.Running t
  | _ => True

instance (s : State) : (l : Label) → Decidable (NoOverlap s l)
  | .commit t _ => inferInstanceAs (Decidable (¬ s.Running t))
  | .begin _ => .isTrue trivial
  | .insert _ _ _ => .isTrue trivial
  | .rollback _ => .isTrue trivial
  | .call _ _ => .isTrue trivial

/-! ## The messages of one call -/

/-- The call got past its first section. -/
def Stage.engaged : Stage → Bool
  | refused _ => false
  | _ => true

/-- The call has not sent a timestamp. -/
def Stage.unstamped : Stage → Bool
  | oneShotWait => false
  | oneShotDone => false
  | aborting _ => false
  | returned _ => false
  | _ => true

/-- The requests that are still to be sent or that wait for their reply. -/
def Stage.todo : Stage → List Message
  | preparing _ todo => todo
  | prepareWait _ m todo => m :: todo
  | _ => []

/-- What a call has sent: messages of its transaction, with at most one timestamp. -/
structure Stamps (t : Bytes) (stage : Stage) (sent : List Message) : Prop where
  refused : stage.engaged = false → sent = []
  own : ∀ m ∈ sent, m.txnID = t
  todo : ∀ m ∈ stage.todo, m.txnID = t ∧ m.call.ts? = none
  unstamped : stage.unstamped = true → ∀ m ∈ sent, m.call.ts? = none
  one : ∃ ts, ∀ m ∈ sent, ∀ ts', m.call.ts? = some ts' → ts' = ts

section Stamps

variable {t : Bytes} {stage stage' : Stage} {sent ms : List Message} {effect : Effect}

/-- Steps that send nothing with a timestamp. -/
theorem Stamps.plain (h : Stamps t stage sent) (hEngaged : stage'.engaged = true)
    (hTodo : ∀ m ∈ stage'.todo, m ∈ stage.todo) (hMs : ∀ m ∈ ms, m ∈ stage.todo)
    (hUnstamped : stage'.unstamped = true → stage.unstamped = true) :
    Stamps t stage' (sent ++ ms) := by
  obtain ⟨-, hOwn, hOldTodo, hNone, ts, hOne⟩ := h
  refine ⟨fun hNot => ?_, ?_, fun m hm => hOldTodo m (hTodo m hm), ?_, ts, ?_⟩
  · rw [hEngaged] at hNot
    cases hNot
  · intro m hm
    rcases List.mem_append.mp hm with hm | hm
    · exact hOwn m hm
    · exact (hOldTodo m (hMs m hm)).1
  · intro hUn m hm
    rcases List.mem_append.mp hm with hm | hm
    · exact hNone (hUnstamped hUn) m hm
    · exact (hOldTodo m (hMs m hm)).2
  · intro m hm ts' hTs
    rcases List.mem_append.mp hm with hm | hm
    · exact hOne m hm ts' hTs
    · rw [(hOldTodo m (hMs m hm)).2] at hTs
      cases hTs

/-- The one step of a call that sends timestamps. -/
theorem Stamps.stamp (h : Stamps t stage sent) (ts : UInt64) (hUnstamped : stage.unstamped = true)
    (hEngaged : stage'.engaged = true) (hTodo : stage'.todo = [])
    (hStamped : stage'.unstamped = false)
    (hMs : ∀ m ∈ ms, m.txnID = t ∧ m.call.ts? = some ts) : Stamps t stage' (sent ++ ms) := by
  obtain ⟨-, hOwn, -, hNone, -⟩ := h
  refine ⟨fun hNot => ?_, ?_, ?_, fun hUn => ?_, ts, ?_⟩
  · rw [hEngaged] at hNot
    cases hNot
  · intro m hm
    rcases List.mem_append.mp hm with hm | hm
    · exact hOwn m hm
    · exact (hMs m hm).1
  · rw [hTodo]
    intro m hm
    cases hm
  · rw [hStamped] at hUn
    cases hUn
  · intro m hm ts' hTs
    rcases List.mem_append.mp hm with hm | hm
    · rw [hNone hUnstamped m hm] at hTs
      cases hTs
    · exact Option.some.inj (hTs.symm.trans (hMs m hm).2)

theorem Stamps.transition (h : Stamps t stage sent)
    (hTransition : Transition t stage stage' ms effect) : Stamps t stage' (sent ++ ms) := by
  cases hTransition with
  | sendOneShot shard intents ts =>
    refine h.stamp ts rfl rfl rfl rfl ?_
    intro m hm
    rw [List.mem_singleton.mp hm]
    exact ⟨rfl, rfl⟩
  | spawn groups ts iter =>
    refine h.stamp ts rfl rfl rfl rfl ?_
    intro m hm
    obtain ⟨shard, w, rfl⟩ := exists_of_mem_requests hm
    exact ⟨rfl, rfl⟩
  | sendPrepare groups m todo => exact h.plain rfl (by simp [Stage.todo]) (by simp [Stage.todo]) id
  | replyPrepare groups m todo => exact h.plain rfl (by simp +contextual [Stage.todo]) (by simp) id
  | _ => exact h.plain rfl (by simp [Stage.todo]) (by simp) (by simp [Stage.unstamped])

end Stamps

theorem stamps_start (c : Coordinator) (t : Bytes) (iter : MapOrder) :
    Stamps t (CommitCall.start c t iter).stage (CommitCall.start c t iter).sent := by
  have hSent : (CommitCall.start c t iter).sent = [] := rfl
  rw [hSent]
  refine ⟨fun _ => rfl, by simp, ?_, by simp, 0, by simp⟩
  intro m hm
  rcases start_cases c t iter with
    ⟨err, hStage, -⟩ | ⟨-, ⟨shard, intents, hStage⟩ | ⟨groups, hStage⟩⟩
  · rw [hStage] at hm
    cases hm
  · rw [hStage] at hm
    cases hm
  · rw [hStage] at hm
    obtain ⟨shard, w, rfl⟩ := exists_of_mem_requests hm
    exact ⟨rfl, rfl⟩

/-! ## No transaction becomes active again -/

theorem Effect.on_ne_active {effect : Effect} {st : TxnState}
    (h : effect ≠ .none ∨ st ≠ .active) : effect.on st ≠ .active := by
  cases effect with
  | none =>
    rcases h with h | h
    · exact (h rfl).elim
    · exact h
  | commit => exact TxnState.noConfusion
  | abort => exact TxnState.noConfusion

theorem never_reactivated {s s' : State} {l : Label} {u : Bytes} {st : TxnState}
    (hNext : next s l = some s') (hu : s.stateOf u = some st) :
    ∃ st', s'.stateOf u = some st' ∧ (st ≠ .active → st' ≠ .active) := by
  cases l with
  | begin now => exact ⟨st, (next_begin hNext).1 u st hu, id⟩
  | insert t key value =>
    cases hNext
    exact ⟨st, (stateOf_insert s.coordinator t key value u).trans hu, id⟩
  | rollback t =>
    cases hNext
    rw [stateOf_rollback]
    split_ifs
    · exact ⟨.aborted, by rw [hu, Option.map_some], fun _ => TxnState.noConfusion⟩
    · exact ⟨st, hu, id⟩
  | commit t iter =>
    cases hNext
    exact ⟨st, hu, id⟩
  | call i event =>
    obtain ⟨call, call', ms, effect, clock, -, -, -, -, rfl⟩ := next_call hNext
    have hState := stateOf_apply s call.txnID effect u
    split_ifs at hState
    · refine ⟨effect.on st, hState.trans (by rw [hu, Option.map_some]), fun h => ?_⟩
      exact Effect.on_ne_active (Or.inr h)
    · exact ⟨st, hState.trans hu, id⟩

/-! ## Engaged calls -/

/-- The call has set the state of its transaction. -/
def Stage.settled : Stage → Bool
  | spawning _ _ => true
  | returned _ => true
  | _ => false

theorem Transition.settled {t : Bytes} {stage stage' : Stage} {ms : List Message}
    {effect : Effect} (h : Transition t stage stage' ms effect) :
    stage.engaged = true ∧ (stage'.settled = true → effect ≠ .none ∨ stage.settled = true) := by
  cases h <;> exact ⟨rfl, by simp [Stage.settled]⟩

theorem settled_of_not_running {stage : Stage} (hEngaged : stage.engaged = true)
    (hNot : stage.running ≠ true) : stage.settled = true := by
  cases stage with
  | refused err => cases hEngaged
  | returned err => rfl
  | _ => exact (hNot rfl).elim

section Steps

variable {s s' : State} {l : Label}

/-- A transaction is not active once an engaged call has set its state. -/
def StatesSet (s : State) : Prop :=
  ∀ call ∈ s.calls, call.stage.engaged = true →
    ∃ st, s.stateOf call.txnID = some st ∧ (call.stage.settled = true → st ≠ .active)

theorem StatesSet.preserved (h : StatesSet s) (hNext : next s l = some s') : StatesSet s' := by
  intro call hCall hEngaged
  rcases calls_next hNext hCall with hOld | ⟨t, iter, rfl, rfl⟩ |
    ⟨old, hOld, ms, effect, hTxn, -, hTransition, hCoordinator, -⟩
  · obtain ⟨st, hState, hSettled⟩ := h call hOld hEngaged
    obtain ⟨st', hState', hStays⟩ := never_reactivated hNext hState
    exact ⟨st', hState', fun hCallSettled => hStays (hSettled hCallSettled)⟩
  · cases hNext
    rcases start_cases s.coordinator t iter with
      ⟨err, hStage, -⟩ | ⟨hActive, ⟨shard, intents, hStage⟩ | ⟨groups, hStage⟩⟩
    · rw [hStage] at hEngaged
      cases hEngaged
    · exact ⟨.active, hActive, fun hSettled => by rw [hStage] at hSettled; cases hSettled⟩
    · exact ⟨.active, hActive, fun hSettled => by rw [hStage] at hSettled; cases hSettled⟩
  · obtain ⟨hOldEngaged, hSettles⟩ := hTransition.settled
    obtain ⟨st, hState, hSettled⟩ := h old hOld hOldEngaged
    refine ⟨effect.on st, ?_, fun hCallSettled => ?_⟩
    · have hApply := stateOf_apply s old.txnID effect call.txnID
      rw [if_pos hTxn, hTxn, hState, Option.map_some] at hApply
      rw [State.stateOf, hCoordinator, hTxn]
      exact hApply
    · exact Effect.on_ne_active ((hSettles hCallSettled).imp_right hSettled)

/-- Each transaction has at most one engaged call, and is not active once that call has set
its state. -/
structure Engagements (s : State) : Prop where
  stamps : ∀ call ∈ s.calls, Stamps call.txnID call.stage call.sent
  unique : AtMostOne Stage.engaged s.calls
  settled : StatesSet s
  aborts : ∀ m ∈ s.aborts, m.call.ts? = none

theorem stamps_next (h : ∀ call ∈ s.calls, Stamps call.txnID call.stage call.sent)
    (hNext : next s l = some s') :
    ∀ call ∈ s'.calls, Stamps call.txnID call.stage call.sent := by
  intro call hCall
  rcases calls_next hNext hCall with hOld | ⟨t, iter, -, rfl⟩ |
    ⟨old, hOld, ms, effect, hTxn, hSent, hTransition, -, -⟩
  · exact h call hOld
  · exact stamps_start s.coordinator t iter
  · rw [hTxn, hSent]
    exact (h old hOld).transition hTransition

theorem aborts_next (h : ∀ m ∈ s.aborts, m.call.ts? = none) (hNext : next s l = some s') :
    ∀ m ∈ s'.aborts, m.call.ts? = none := by
  rcases aborts_cases hNext with hSame | ⟨t, hAbort⟩
  · rw [hSame]
    exact h
  · rw [hAbort]
    intro m hm
    exact (List.mem_append.mp hm).elim (h m) fun hNew => (mem_abort hNew).2

/-- A call that gets engaged finds the transaction active, so no other call was. -/
theorem Engagements.not_engaged (h : Engagements s) {t : Bytes} (hFree : ¬ s.Running t)
    {iter : MapOrder}
    (hStart : (CommitCall.start s.coordinator t iter).stage.engaged = true) {call : CommitCall}
    (hCall : call ∈ s.calls) (hEngaged : call.stage.engaged = true) : call.txnID ≠ t := by
  rintro rfl
  have hNot : call.stage.running ≠ true := fun hRunning => hFree ⟨call, hCall, rfl, hRunning⟩
  obtain ⟨st, hState, hSettled⟩ := h.settled call hCall hEngaged
  have hInactive := hSettled (settled_of_not_running hEngaged hNot)
  rcases start_cases s.coordinator call.txnID iter with ⟨err, hStage, -⟩ | ⟨hActive, -⟩
  · rw [hStage] at hStart
    cases hStart
  · rw [State.stateOf, hActive] at hState
    exact hInactive (Option.some.inj hState).symm

theorem Engagements.unique_next (h : Engagements s) (hOk : NoOverlap s l)
    (hNext : next s l = some s') : AtMostOne Stage.engaged s'.calls := by
  cases l with
  | begin now =>
    rw [(next_begin hNext).2.1]
    exact h.unique
  | insert t key value =>
    cases hNext
    exact h.unique
  | rollback t =>
    cases hNext
    exact h.unique
  | commit t iter =>
    cases hNext
    refine h.unique.concat ?_
    intro hStart call hCall hEngaged
    exact h.not_engaged hOk hStart hCall hEngaged
  | call i event =>
    obtain ⟨call, call', ms, effect, clock, hGet, hTxn, -, hTransition, rfl⟩ := next_call hNext
    exact h.unique.set hGet hTransition.settled.1 hTxn

theorem Engagements.preserved (h : Engagements s) (hOk : NoOverlap s l)
    (hNext : next s l = some s') : Engagements s' where
  stamps := stamps_next h.stamps hNext
  unique := h.unique_next hOk hNext
  settled := StatesSet.preserved h.settled hNext
  aborts := aborts_next h.aborts hNext

end Steps

theorem engagements_start (r : Router) : Engagements (State.start r) where
  stamps call hCall := by cases hCall
  unique i j call call' hi := by cases hi
  settled call hCall := by cases hCall
  aborts m hm := by cases hm

/-- A message with a timestamp was sent by an engaged call of its transaction. -/
theorem Engagements.sender {s : State} (h : Engagements s) {m : Message} {ts : UInt64}
    (hm : m ∈ s.sent) (hTs : m.call.ts? = some ts) :
    ∃ call ∈ s.calls, m ∈ call.sent ∧ call.stage.engaged = true ∧ call.txnID = m.txnID := by
  rcases List.mem_append.mp hm with hm | hm
  · obtain ⟨call, hCall, hSent⟩ := List.mem_flatMap.mp hm
    refine ⟨call, hCall, hSent, ?_, ((h.stamps call hCall).own m hSent).symm⟩
    by_contra hNot
    rw [(h.stamps call hCall).refused (Bool.eq_false_iff.mpr hNot)] at hSent
    cases hSent
  · rw [h.aborts m hm] at hTs
    cases hTs

theorem Engagements.exists_ts {s : State} (h : Engagements s) (t : Bytes) :
    ∃ ts, ∀ m ∈ s.sent, m.txnID = t → ∀ ts', m.call.ts? = some ts' → ts' = ts := by
  by_cases hEngaged : ∃ call ∈ s.calls, call.stage.engaged = true ∧ call.txnID = t
  · obtain ⟨call, hCall, hCallEngaged, hTxn⟩ := hEngaged
    obtain ⟨ts, hOne⟩ := (h.stamps call hCall).one
    refine ⟨ts, fun m hm hmTxn ts' hTs => hOne m ?_ ts' hTs⟩
    obtain ⟨c, hc, hSent, hcEngaged, hcTxn⟩ := h.sender hm hTs
    obtain ⟨i, hi⟩ := List.mem_iff_getElem?.mp hc
    obtain ⟨j, hj⟩ := List.mem_iff_getElem?.mp hCall
    have hSame : c.txnID = call.txnID := hcTxn.trans (hmTxn.trans hTxn.symm)
    obtain rfl := h.unique i j c call hi hj hcEngaged hCallEngaged hSame
    obtain rfl : c = call := Option.some.inj (hi.symm.trans hj)
    exact hSent
  · refine ⟨0, fun m hm hmTxn ts' hTs => ?_⟩
    obtain ⟨c, hc, -, hcEngaged, hcTxn⟩ := h.sender hm hTs
    exact (hEngaged ⟨c, hc, hcEngaged, hcTxn.trans hmTxn⟩).elim

/-! ## Installed versions -/

/-- A version of a transaction is installed at the timestamp of one of its messages. -/
theorem exists_message_of_mem_installsOf {s : State} {t : Bytes} {store : MemoryStore}
    {calls : List Call} {i : Install}
    (hCalls : ∀ c ∈ calls, c.txnID = t → ∃ m ∈ s.sent, m.call = c)
    (hi : i ∈ installsOf t (store.runInstalls calls)) :
    ∃ m ∈ s.sent, m.txnID = t ∧ m.call.ts? = some i.ts := by
  obtain ⟨hi, hTxn⟩ := mem_installsOf.mp hi
  obtain ⟨c, hc, store', hInstall⟩ := mem_runInstalls hi
  have hcTxn : c.txnID = t := (txnID_of_mem_installs hInstall).symm.trans hTxn
  obtain ⟨m, hm, rfl⟩ := hCalls c hc hcTxn
  exact ⟨m, hm, (m.txnID_call).symm.trans hcTxn, ts?_of_mem_installs hInstall⟩

/-- If no two calls of `Commit` for one transaction overlap, all messages of a transaction
carry one timestamp. Whatever stores do with the calls they are sent, a key of the transaction
then gets at most one version. -/
theorem one_timestamp {r : Router} {s : State}
    (hReach : Reaches next NoOverlap (State.start r) s) (t : Bytes) :
    ∃ ts, (∀ m ∈ s.sent, m.txnID = t → ∀ ts', m.call.ts? = some ts' → ts' = ts) ∧
      ∀ (store : MemoryStore) (calls : List Call),
        (∀ c ∈ calls, c.txnID = t → ∃ m ∈ s.sent, m.call = c) →
        ∀ i ∈ installsOf t (store.runInstalls calls),
          ∀ j ∈ installsOf t (store.runInstalls calls),
            i.key = j.key → encodeKey i.key i.ts = encodeKey j.key j.ts := by
  have hEngagements := hReach.invariant (engagements_start r) fun _ _ _ h hOk hStep =>
    h.preserved hOk hStep
  obtain ⟨ts, hOne⟩ := hEngagements.exists_ts t
  refine ⟨ts, hOne, ?_⟩
  intro store calls hCalls i hi j hj hKey
  obtain ⟨m, hm, hmTxn, hmTs⟩ := exists_message_of_mem_installsOf hCalls hi
  obtain ⟨m', hm', hmTxn', hmTs'⟩ := exists_message_of_mem_installsOf hCalls hj
  rw [hKey, hOne m hm hmTxn _ hmTs, hOne m' hm' hmTxn' _ hmTs']

/-- A transaction with writes on two shards, and a second `COMMIT` once the first has returned. -/
def twoCommits : List Label :=
  [.begin 1, .insert (ascii "txn-1") (ascii "a") (ascii "1"),
    .insert (ascii "txn-1") (ascii "z") (ascii "2"), .commit (ascii "txn-1") sortedOrder,
    .call 0 .send, .call 0 (.reply none), .call 0 .send, .call 0 (.reply none),
    .call 0 (.readClock 5), .call 0 .critical, .call 0 (.spawn sortedOrder),
    .commit (ascii "txn-1") sortedOrder]

/-- Both `COMMIT` messages carry the timestamp 5, and the second call is refused. -/
theorem one_timestamp_twoCommits :
    ∃ s, runLabels next (State.start splitRouter) twoCommits = some s ∧
      s.sent.filterMap (fun m => m.call.ts?) = [5, 5] ∧ s.calls.length = 2 ∧
      ∃ ts, ∀ m ∈ s.sent, m.txnID = ascii "txn-1" → ∀ ts', m.call.ts? = some ts' → ts' = ts := by
  have hEnd : (runLabels next (State.start splitRouter) twoCommits).map (fun s =>
      (s.sent.filterMap (fun m => m.call.ts?), s.calls.length)) = some ([5, 5], 2) := by
    decide
  obtain ⟨s, hRun, hSent⟩ := Option.map_eq_some_iff.mp hEnd
  have hReach : Reaches next NoOverlap (State.start splitRouter) s :=
    reaches_of_runLabels hRun (by decide)
  obtain ⟨ts, hOne, -⟩ := one_timestamp hReach (ascii "txn-1")
  exact ⟨s, hRun, congrArg Prod.fst hSent, congrArg Prod.snd hSent, ts, hOne⟩

/-- Two calls of `Commit` that overlap. -/
def overlappingCommits : List Label :=
  [.begin 1, .insert (ascii "txn-1") (ascii "t:a") (ascii "1"), .commit (ascii "txn-1") sortedOrder,
    .commit (ascii "txn-1") sortedOrder, .call 0 (.readClock 5), .call 1 (.readClock 6),
    .call 0 .send, .call 1 .send]

/-- Both calls send a one-shot request, with the timestamps 5 and 6. -/
theorem not_one_timestamp :
    ¬ ∀ (r : Router) (s : State) (t : Bytes), Reaches next (fun _ _ => True) (State.start r) s →
      ∃ ts, ∀ m ∈ s.sent, m.txnID = t → ∀ ts', m.call.ts? = some ts' → ts' = ts := by
  intro hAll
  have hEnd : (runLabels next (State.start newRouter) overlappingCommits).map State.sent =
      some [.oneShot (ascii "http://localhost:9001") [⟨ascii "t:a", ascii "1"⟩] (ascii "txn-1") 5,
        .oneShot (ascii "http://localhost:9001") [⟨ascii "t:a", ascii "1"⟩] (ascii "txn-1") 6] := by
    decide
  obtain ⟨s, hRun, hSent⟩ := Option.map_eq_some_iff.mp hEnd
  have hReach : Reaches next (fun _ _ => True) (State.start newRouter) s :=
    reaches_of_runLabels hRun (allAllowed_of_forall (fun _ _ => trivial) _)
  obtain ⟨ts, hOne⟩ := hAll newRouter s (ascii "txn-1") hReach
  rw [hSent] at hOne
  have hFive := hOne _ List.mem_cons_self rfl 5 rfl
  have hSix := hOne _ (List.mem_cons_of_mem _ List.mem_cons_self) rfl 6 rfl
  exact absurd (hFive.trans hSix.symm) (by decide)

end ShardDB.Txn.Concurrent
