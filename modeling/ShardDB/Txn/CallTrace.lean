import ShardDB.Txn.OneTimestamp

/-!
# What a call of `Commit` has sent

An engaged call works on a copy of the writes that its transaction had when the call started.
`CallTrace` tells, for every stage of the call, which messages it has sent for that copy. The
transaction itself may get more writes meanwhile (`writesOf_next`), so a call knows a part of
them only; how the copy relates to the writes of the transaction is the parameter of the
invariant `Traced`, and depends on what clients are allowed to do.
-/

namespace ShardDB.Txn.Concurrent

open ShardDB.Lib ShardDB.Storage ShardDB.Routing

/-! ## The writes of a transaction -/

/-- The `Writes` field of a transaction. -/
def State.writesOf (s : State) (t : Bytes) : List WriteIntent :=
  ((s.coordinator.transactions.find? t).map Transaction.writes).getD []

/-- The write that a step adds to a transaction: an `AddWrite` that returns nil. -/
def ackedBy (t : Bytes) (s : State) : Label → List WriteIntent
  | .insert u key value =>
    if u = t ∧ (s.coordinator.addWrite u key value).2 = none then [⟨key, value⟩] else []
  | _ => []

section Writes

variable {s s' : State} {l : Label} {t : Bytes}

theorem find?_writes_setState (c : Coordinator) (t : Bytes) (st : TxnState) (u : Bytes) :
    ((c.setState t st).transactions.find? u).map Transaction.writes =
      (c.transactions.find? u).map Transaction.writes := by
  rw [find?_setState]
  split_ifs
  · rw [Option.map_map]
    rfl
  · rfl

theorem writesOf_abortTxn (s : State) (t u : Bytes) :
    (s.abortTxn t).writesOf u = s.writesOf u := by
  rw [State.writesOf, coordinator_abortTxn, find?_writes_setState]
  rfl

theorem writesOf_apply (s : State) (t : Bytes) (effect : Effect) (u : Bytes) :
    (s.apply t effect).writesOf u = s.writesOf u := by
  cases effect with
  | none => rfl
  | commit => exact congrArg (Option.getD · []) (find?_writes_setState s.coordinator t _ u)
  | abort => exact writesOf_abortTxn s t u

theorem writesOf_insert (s : State) (t key value u : Bytes) :
    ({ s with coordinator := (s.coordinator.addWrite t key value).1 } : State).writesOf u =
      s.writesOf u ++ ackedBy u s (.insert t key value) := by
  simp only [State.writesOf, ackedBy]
  rcases addWrite_cases s.coordinator t key value with ⟨txn, hTxn, -, hAdd⟩ | hRefused
  · rw [hAdd]
    dsimp only
    rw [SortedMap.find?_insert]
    by_cases hu : u = t
    · simp [hu, hTxn]
    · simp [hu, Ne.symm hu]
  · rw [hRefused]
    simp

theorem writesOf_begin {now : UInt64} (h : next s (.begin now) = some s') (u : Bytes) :
    s'.writesOf u = s.writesOf u := by
  obtain ⟨hNew, rfl⟩ := next_begin_eq h
  unfold State.writesOf
  rw [find?_begin]
  split_ifs with hu
  · rw [hu, hNew]
    rfl
  · rfl

/-- The writes of a transaction are what `AddWrite` acknowledged. -/
theorem writesOf_next (h : next s l = some s') (t : Bytes) :
    s'.writesOf t = s.writesOf t ++ ackedBy t s l := by
  cases l with
  | begin now => exact (writesOf_begin h t).trans (List.append_nil _).symm
  | insert u key value =>
    cases h
    exact writesOf_insert s u key value t
  | rollback u =>
    cases h
    exact (writesOf_abortTxn s u t).trans (List.append_nil _).symm
  | commit u iter =>
    cases h
    exact (List.append_nil _).symm
  | call i event =>
    obtain ⟨call, call', ms, effect, clock, -, -, -, -, rfl⟩ := next_call h
    exact (writesOf_apply s call.txnID effect t).trans (List.append_nil _).symm

end Writes

/-! ## The messages of one call -/

section CallTrace

variable (r : Router) (t : Bytes) (writes : List WriteIntent)

/-- All writes are on one shard, and its request is sent. -/
def OneShotSent (sent : List Message) : Prop :=
  ∃ shard intents ts, (groupByShard r writes).entries = [(shard, intents)] ∧
    sent = [.oneShot shard intents t ts]

/-- The requests of phase one that are sent and those that are still to be sent. -/
def PreparesSent (sent todo : List Message) : Prop :=
  ∃ iter : MapOrder,
    sent ++ todo = requests (prepareRequest t) (iter.order (groupByShard r writes).entries)

/-- What a call for `t` that has copied `writes` has sent when it is at a stage. -/
def CallTrace : Stage → List Message → Prop
  | .refused _, _ => False
  | .oneShot shard intents, sent =>
    (groupByShard r writes).entries = [(shard, intents)] ∧ sent = []
  | .oneShotAt shard intents _, sent =>
    (groupByShard r writes).entries = [(shard, intents)] ∧ sent = []
  | .oneShotWait, sent => OneShotSent r t writes sent
  | .oneShotDone, sent => OneShotSent r t writes sent
  | .preparing groups todo, sent =>
    groups = (groupByShard r writes).entries ∧ PreparesSent r t writes sent todo
  | .prepareWait groups _ todo, sent =>
    groups = (groupByShard r writes).entries ∧ PreparesSent r t writes sent todo
  | .decided groups _, sent =>
    groups = (groupByShard r writes).entries ∧ PreparesSent r t writes sent []
  | .spawning groups _, sent =>
    groups = (groupByShard r writes).entries ∧ PreparesSent r t writes sent []
  | .aborting _, sent => OneShotSent r t writes sent ∨ ∃ todo, PreparesSent r t writes sent todo
  | .returned (some _), sent =>
    OneShotSent r t writes sent ∨ ∃ todo, PreparesSent r t writes sent todo
  | .returned none, sent =>
    OneShotSent r t writes sent ∨ ∃ prepares ts, ∃ iter : MapOrder,
      PreparesSent r t writes prepares [] ∧
        sent = prepares ++ requests (commitRequest t ts) (iter.order (groupByShard r writes).entries)

variable {r t writes} {stage stage' : Stage} {sent ms : List Message} {effect : Effect}

theorem CallTrace.transition (h : CallTrace r t writes stage sent)
    (hTransition : Transition t stage stage' ms effect) :
    CallTrace r t writes stage' (sent ++ ms) := by
  cases hTransition with
  | readOneShot shard intents now => simpa [CallTrace] using h
  | readDecided groups now => simpa [CallTrace] using h
  | sendOneShot shard intents ts =>
    obtain ⟨hGroup, rfl⟩ := h
    exact ⟨shard, intents, ts, hGroup, rfl⟩
  | sendPrepare groups m todo =>
    obtain ⟨hGroups, iter, hAll⟩ := h
    exact ⟨hGroups, iter, by rw [List.append_assoc]; exact hAll⟩
  | replyOneShot => simpa [CallTrace] using h
  | replyPrepare groups m todo => simpa [CallTrace] using h
  | failOneShot err =>
    rw [List.append_nil]
    exact Or.inl h
  | failPrepare groups m todo err =>
    rw [List.append_nil]
    exact Or.inr ⟨todo, h.2⟩
  | commitOneShot =>
    rw [List.append_nil]
    exact Or.inl h
  | commitDecided groups ts => simpa [CallTrace] using h
  | abort err => simpa [CallTrace] using h
  | spawn groups ts iter =>
    obtain ⟨rfl, hPrepares⟩ := h
    exact Or.inr ⟨sent, ts, iter, hPrepares, rfl⟩

theorem CallTrace.engaged (h : CallTrace r t writes stage sent) : stage.engaged = true := by
  cases stage with
  | refused err => exact h.elim
  | _ => rfl

/-- A call starts refused, or with a copy of the writes of its active transaction. -/
theorem start_trace (s : State) (t : Bytes) (iter : MapOrder) :
    (CommitCall.start s.coordinator t iter).stage.engaged = false ∨
      s.stateOf t = some .active ∧
        CallTrace s.coordinator.router t (s.writesOf t)
          (CommitCall.start s.coordinator t iter).stage [] := by
  unfold CommitCall.start
  dsimp only
  cases hWrites : s.coordinator.activeWrites t with
  | error err => exact Or.inl rfl
  | ok writes =>
    cases writes with
    | nil => exact Or.inl rfl
    | cons w writes =>
      obtain ⟨txn, hTxn, hActive, hEq⟩ := activeWrites_eq_ok hWrites
      have hState : s.stateOf t = some .active := by
        rw [State.stateOf, hTxn, Option.map_some, hActive]
      have hCopy : s.writesOf t = w :: writes := by
        rw [State.writesOf, hTxn, Option.map_some, Option.getD_some, hEq]
      refine Or.inr ⟨hState, ?_⟩
      rw [hCopy]
      dsimp only
      split
      · next shard intents hSingle => exact ⟨hSingle, rfl⟩
      · exact ⟨rfl, iter, rfl⟩

/-- The messages of a call: the request of a single shard, or requests for copied writes. -/
theorem CallTrace.sent_cases (h : CallTrace r t writes stage sent) {m : Message} (hm : m ∈ sent) :
    (∃ shard intents ts, (groupByShard r writes).entries = [(shard, intents)] ∧
      m = .oneShot shard intents t ts) ∨
      ∃ w ∈ writes, m = prepareRequest t (r.locate w.key) w ∨
        ∃ ts, m = commitRequest t ts (r.locate w.key) w := by
  have hOneShot : OneShotSent r t writes sent → ∃ shard intents ts,
      (groupByShard r writes).entries = [(shard, intents)] ∧ m = .oneShot shard intents t ts := by
    rintro ⟨shard, intents, ts, hGroup, rfl⟩
    exact ⟨shard, intents, ts, hGroup, List.mem_singleton.mp hm⟩
  have hPrepares : ∀ {sent todo : List Message}, m ∈ sent → PreparesSent r t writes sent todo →
      ∃ w ∈ writes, m = prepareRequest t (r.locate w.key) w ∨
        ∃ ts, m = commitRequest t ts (r.locate w.key) w := by
    rintro sent todo hm ⟨iter, hAll⟩
    have hRequest := List.mem_append_left todo hm
    rw [hAll] at hRequest
    obtain ⟨w, hw, rfl⟩ := (mem_requests_iff fun _ _ => rfl).mp hRequest
    exact ⟨w, hw, Or.inl rfl⟩
  unfold CallTrace at h
  split at h
  · exact h.elim
  · rw [h.2] at hm
    cases hm
  · rw [h.2] at hm
    cases hm
  · exact Or.inl (hOneShot h)
  · exact Or.inl (hOneShot h)
  · exact Or.inr (hPrepares hm h.2)
  · exact Or.inr (hPrepares hm h.2)
  · exact Or.inr (hPrepares hm h.2)
  · exact Or.inr (hPrepares hm h.2)
  · exact h.imp hOneShot fun ⟨_, hSent⟩ => hPrepares hm hSent
  · exact h.imp hOneShot fun ⟨_, hSent⟩ => hPrepares hm hSent
  · refine h.imp hOneShot ?_
    rintro ⟨prepares, ts, iter, hSent, rfl⟩
    rcases List.mem_append.mp hm with hm | hm
    · exact hPrepares hm hSent
    · obtain ⟨w, hw, rfl⟩ := (mem_requests_iff fun _ _ => rfl).mp hm
      exact ⟨w, hw, Or.inr ⟨ts, rfl⟩⟩

end CallTrace

/-! ## All calls of a state -/

/-- The call was refused and has sent nothing, or it has sent what belongs to its copy of the
writes. The copy is related to the writes that the transaction has by now; when the call has
returned an error, an `ABORT` was sent for all of it. -/
def Traced (r : Router) (rel : List WriteIntent → List WriteIntent → Prop) (s : State)
    (call : CommitCall) : Prop :=
  call.stage.engaged = false ∧ call.sent = [] ∨
    ∃ writes, rel writes (s.writesOf call.txnID) ∧
      CallTrace r call.txnID writes call.stage call.sent ∧
      ∀ err, call.stage = .returned (some err) →
        ∀ w ∈ writes, .abort (r.locate w.key) w.key call.txnID ∈ s.aborts

structure AllTraced (r : Router) (rel : List WriteIntent → List WriteIntent → Prop) (s : State) :
    Prop where
  router : s.coordinator.router = r
  calls : ∀ call ∈ s.calls, Traced r rel s call

section AllTraced

variable {r : Router} {rel : List WriteIntent → List WriteIntent → Prop} {s s' : State} {l : Label}

theorem router_apply (s : State) (t : Bytes) (effect : Effect) :
    (s.apply t effect).coordinator.router = s.coordinator.router := by
  cases effect with
  | none => rfl
  | commit => exact router_setState ..
  | abort => exact router_abort ..

theorem router_next (h : next s l = some s') : s'.coordinator.router = s.coordinator.router := by
  cases l with
  | begin now =>
    obtain ⟨-, rfl⟩ := next_begin_eq h
    rfl
  | insert t key value =>
    cases h
    exact router_addWrite ..
  | rollback t =>
    cases h
    exact router_abort ..
  | commit t iter =>
    cases h
    rfl
  | call i event =>
    obtain ⟨call, call', ms, effect, clock, -, -, -, -, rfl⟩ := next_call h
    exact router_apply s call.txnID effect

theorem mem_aborts_next (h : next s l = some s') {m : Message} (hm : m ∈ s.aborts) :
    m ∈ s'.aborts := by
  rcases aborts_cases h with hSame | ⟨t, hAbort⟩
  · rwa [hSame]
  · rw [hAbort]
    exact List.mem_append_left _ hm

/-- `Abort` sends a message for every write of the transaction. -/
theorem mem_aborts_abortTxn {t : Bytes} {w : WriteIntent} (h : w ∈ s.writesOf t) :
    .abort (s.coordinator.router.locate w.key) w.key t ∈ (s.abortTxn t).aborts := by
  refine List.mem_append_right _ (mem_abort_iff.mpr ?_)
  rw [State.writesOf] at h
  cases hTxn : s.coordinator.transactions.find? t with
  | none =>
    rw [hTxn] at h
    cases h
  | some txn =>
    rw [hTxn] at h
    exact ⟨txn, rfl, w, h, rfl⟩

theorem Transition.aborts_of_error {t err : Bytes} {stage : Stage} {ms : List Message}
    {effect : Effect} (h : Transition t stage (.returned (some err)) ms effect) :
    effect = .abort := by
  cases h
  rfl

theorem allTraced_start (r : Router) (rel : List WriteIntent → List WriteIntent → Prop) :
    AllTraced r rel (State.start r) where
  router := rfl
  calls call hCall := by cases hCall

/-- One step, when the relation is reflexive, implies inclusion and survives the step for every
engaged call. -/
theorem AllTraced.preserved (h : AllTraced r rel s) (hRefl : ∀ writes, rel writes writes)
    (hSubset : ∀ writes writes', rel writes writes' → writes ⊆ writes')
    (hNext : next s l = some s')
    (hKeep : ∀ call ∈ s.calls, call.stage.engaged = true → ∀ writes,
      rel writes (s.writesOf call.txnID) → rel writes (s'.writesOf call.txnID)) :
    AllTraced r rel s' := by
  refine ⟨(router_next hNext).trans h.router, fun call hCall => ?_⟩
  rcases calls_next hNext hCall with hOld | ⟨t, iter, rfl, rfl⟩ |
    ⟨old, hOld, ms, effect, hTxn, hSent, hTransition, hCoordinator, hAborts⟩
  · rcases h.calls call hOld with hRefused | ⟨writes, hRel, hTrace, hAborted⟩
    · exact Or.inl hRefused
    · have hEngaged : call.stage.engaged = true := hTrace.engaged
      refine Or.inr ⟨writes, hKeep call hOld hEngaged writes hRel, hTrace, fun err hStage w hw => ?_⟩
      exact mem_aborts_next hNext (hAborted err hStage w hw)
  · cases hNext
    rcases start_trace s t iter with hRefused | ⟨-, hTrace⟩
    · exact Or.inl ⟨hRefused, rfl⟩
    · rw [h.router] at hTrace
      refine Or.inr ⟨s.writesOf t, hRefl _, hTrace, fun err hStage => ?_⟩
      rcases start_cases s.coordinator t iter with
        ⟨err, hStart, -⟩ | ⟨-, ⟨shard, intents, hStart⟩ | ⟨groups, hStart⟩⟩ <;>
        cases hStart.symm.trans hStage
  · rcases h.calls old hOld with ⟨hRefused, -⟩ | ⟨writes, hRel, hTrace, -⟩
    · rw [hTransition.settled.1] at hRefused
      cases hRefused
    · refine Or.inr ⟨writes, ?_, ?_, fun err hStage w hw => ?_⟩
      · rw [hTxn]
        exact hKeep old hOld hTransition.settled.1 writes hRel
      · rw [hTxn, hSent]
        exact hTrace.transition hTransition
      · rw [hStage] at hTransition
        obtain rfl := hTransition.aborts_of_error
        rw [hTxn, hAborts, ← h.router]
        exact mem_aborts_abortTxn (hSubset _ _ hRel hw)

end AllTraced

end ShardDB.Txn.Concurrent
