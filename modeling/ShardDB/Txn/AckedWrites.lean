import ShardDB.Txn.CallTrace

/-!
# Acknowledged writes are sent

`AddWrite` acknowledges a write of an active transaction, and a transaction is active until its
`Commit` sets the state at the very end. A write that arrives after `Commit` has copied the
writes is acknowledged and never sent.

If no `INSERT` is sent while a `Commit` of its transaction runs, the copy of every engaged call
is all that was ever acknowledged (`AckedOk`): a call that has returned leaves the transaction
inactive, so that `AddWrite` refuses. The requests of a call go out group by group, in the
order of a Go map, so it is to each shard that the writes go in the order of the
acknowledgements.
-/

namespace ShardDB.Txn

open ShardDB.Lib ShardDB.Storage ShardDB.Routing

/-- The writes that a message carries to its shard. -/
def Message.writes : Message → List WriteIntent
  | prepare _ key val _ => [⟨key, val⟩]
  | oneShot _ intents _ _ => intents
  | _ => []

namespace Concurrent

/-- The writes that a call has sent. -/
def CommitCall.writesSent (call : CommitCall) : List WriteIntent :=
  call.sent.flatMap Message.writes

/-- The writes that a call has sent to one shard. -/
def CommitCall.writesTo (call : CommitCall) (a : Bytes) : List WriteIntent :=
  (call.sent.filter fun m => m.shard = a).flatMap Message.writes

/-- The writes of a transaction for which `AddWrite` returned nil in a run. -/
def acked (t : Bytes) : State → List Label → List WriteIntent
  | _, [] => []
  | s, l :: labels =>
    ackedBy t s l ++
      match next s l with
      | none => []
      | some s' => acked t s' labels

/-- No `INSERT` is sent while a `Commit` of the transaction runs. -/
def NoLateInsert (s : State) : Label → Prop
  | .insert t _ _ => ¬ s.Running t
  | _ => True

instance (s : State) : (l : Label) → Decidable (NoLateInsert s l)
  | .insert t _ _ => inferInstanceAs (Decidable (¬ s.Running t))
  | .begin _ => .isTrue trivial
  | .commit _ _ => .isTrue trivial
  | .rollback _ => .isTrue trivial
  | .call _ _ => .isTrue trivial

/-- A transaction has the writes that were acknowledged. -/
theorem writesOf_run {s s' : State} {labels : List Label}
    (h : runLabels next s labels = some s') (t : Bytes) :
    s'.writesOf t = s.writesOf t ++ acked t s labels := by
  induction labels generalizing s with
  | nil =>
    cases h
    exact (List.append_nil _).symm
  | cons l labels ih =>
    unfold runLabels at h
    unfold acked
    cases hNext : next s l with
    | none =>
      rw [hNext] at h
      cases h
    | some s₁ =>
      rw [hNext] at h
      rw [ih h, writesOf_next hNext, List.append_assoc]

/-! ## The writes of a call that has committed -/

/-- The call has committed its transaction. -/
def Stage.committed : Stage → Bool
  | spawning _ _ => true
  | returned none => true
  | _ => false

theorem engaged_of_committed {stage : Stage} (h : stage.committed = true) :
    stage.engaged = true := by
  cases stage with
  | refused err => cases h
  | _ => rfl

theorem Transition.committed {t : Bytes} {stage stage' : Stage} {ms : List Message}
    {effect : Effect} (h : Transition t stage stage' ms effect)
    (hCommits : effect = .commit ∨ stage.committed = true) : stage'.committed = true := by
  cases h <;> simp [Stage.committed] at hCommits ⊢

section CallTrace

variable {r : Router} {t : Bytes} {writes : List WriteIntent} {stage : Stage} {sent : List Message}

theorem OneShotSent.writesTo (h : OneShotSent r t writes sent) (a : Bytes) :
    (sent.filter fun m => m.shard = a).flatMap Message.writes = writesAt r writes a := by
  obtain ⟨shard, intents, ts, hGroup, rfl⟩ := h
  rw [writesAt_of_single hGroup]
  by_cases ha : a = shard
  · simp [ha, Message.shard, Message.writes]
  · simp [ha, Ne.symm ha, Message.shard]

theorem PreparesSent.writesTo (h : PreparesSent r t writes sent []) (a : Bytes) :
    (sent.filter fun m => m.shard = a).flatMap Message.writes = writesAt r writes a := by
  obtain ⟨iter, hAll⟩ := h
  rw [List.append_nil] at hAll
  rw [hAll, filter_requests fun _ _ => rfl]
  simp [List.flatMap_map, prepareRequest, Message.writes]

theorem flatMap_writes_commits (ts : UInt64) (groups : List (Bytes × List WriteIntent)) (a : Bytes) :
    ((requests (commitRequest t ts) groups).filter fun m => m.shard = a).flatMap Message.writes =
      [] := by
  rw [List.flatMap_eq_nil_iff]
  intro m hm
  obtain ⟨shard, w, rfl⟩ := exists_of_mem_requests (List.mem_filter.mp hm).1
  rfl

/-- A call that has committed has sent every shard the copied writes that belong on it, in
their order. -/
theorem CallTrace.writesTo (h : CallTrace r t writes stage sent) (hStage : stage.committed = true)
    (a : Bytes) :
    (sent.filter fun m => m.shard = a).flatMap Message.writes = writesAt r writes a := by
  unfold Stage.committed at hStage
  split at hStage
  · exact PreparesSent.writesTo h.2 a
  · rcases h with hOneShot | ⟨prepares, ts, iter, hPrepares, rfl⟩
    · exact hOneShot.writesTo a
    · rw [List.filter_append, List.flatMap_append, hPrepares.writesTo, flatMap_writes_commits,
        List.append_nil]
  · cases hStage

/-- A message goes to the shard of a copied write. -/
theorem CallTrace.shard_of_mem (h : CallTrace r t writes stage sent) {m : Message} (hm : m ∈ sent) :
    ∃ w ∈ writes, m.shard = r.locate w.key := by
  rcases h.sent_cases hm with ⟨shard, intents, ts, hGroup, rfl⟩ | ⟨w, hw, rfl | ⟨ts, rfl⟩⟩
  · have hWrites : writes ≠ [] := by
      rintro rfl
      cases hGroup
    exact exists_write_of_single hGroup hWrites
  · exact ⟨w, hw, rfl⟩
  · exact ⟨w, hw, rfl⟩

theorem filter_sent_of_single (h : CallTrace r t writes stage sent) {a : Bytes}
    (hSingle : ∀ w ∈ writes, r.locate w.key = a) : sent.filter (fun m => m.shard = a) = sent := by
  refine List.filter_eq_self.mpr fun m hm => decide_eq_true ?_
  obtain ⟨w, hw, hShard⟩ := h.shard_of_mem hm
  exact hShard.trans (hSingle w hw)

end CallTrace

/-! ## Runs without late inserts -/

section Steps

variable {r : Router} {s s' : State} {l : Label}

theorem stateOf_begin {now : UInt64} (h : next s (.begin now) = some s') (u : Bytes) :
    s'.stateOf u = s.stateOf u ∨ s'.stateOf u = some .active := by
  obtain ⟨-, rfl⟩ := next_begin_eq h
  unfold State.stateOf
  rw [find?_begin]
  split_ifs
  · exact Or.inr rfl
  · exact Or.inl rfl

/-- A transaction gets committed by a call only. -/
theorem committed_origin (h : next s l = some s') {t : Bytes}
    (hState : s'.stateOf t = some .committed) :
    s.stateOf t = some .committed ∨
      ∃ call ∈ s'.calls, call.txnID = t ∧ call.stage.committed = true := by
  cases l with
  | begin now =>
    rcases stateOf_begin h t with hSame | hActive
    · exact Or.inl (hSame.symm.trans hState)
    · cases hActive.symm.trans hState
  | insert u key value =>
    cases h
    exact Or.inl ((stateOf_insert s.coordinator u key value t).symm.trans hState)
  | rollback u =>
    cases h
    rw [stateOf_rollback] at hState
    split_ifs at hState
    · obtain ⟨st, -, hAborted⟩ := Option.map_eq_some_iff.mp hState
      cases hAborted
    · exact Or.inl hState
  | commit u iter =>
    cases h
    exact Or.inl hState
  | call i event =>
    obtain ⟨call, call', ms, effect, clock, hGet, hTxn, -, hTransition, rfl⟩ := next_call h
    have hApply := (stateOf_apply s call.txnID effect t).symm.trans hState
    split_ifs at hApply with ht
    · cases effect with
      | none =>
        obtain ⟨st, hSt, rfl⟩ := Option.map_eq_some_iff.mp hApply
        exact Or.inl hSt
      | commit =>
        exact Or.inr ⟨call', mem_set_of_getElem? hGet, hTxn.trans ht.symm,
          hTransition.committed (Or.inl rfl)⟩
      | abort =>
        obtain ⟨st, -, hAborted⟩ := Option.map_eq_some_iff.mp hApply
        cases hAborted
    · exact Or.inl hApply

/-- The copy of every engaged call is what was acknowledged, and a committed transaction has a
call that committed it. -/
structure AckedOk (r : Router) (s : State) : Prop where
  traced : AllTraced r Eq s
  states : StatesSet s
  committed : ∀ t, s.stateOf t = some .committed →
    ∃ call ∈ s.calls, call.txnID = t ∧ call.stage.committed = true

/-- While a call is engaged, nothing is acknowledged. -/
theorem AckedOk.ackedBy_eq_nil (h : AckedOk r s) (hOk : NoLateInsert s l) {call : CommitCall}
    (hCall : call ∈ s.calls) (hEngaged : call.stage.engaged = true) :
    ackedBy call.txnID s l = [] := by
  cases l with
  | insert u key value =>
    refine if_neg ?_
    rintro ⟨rfl, hAcked⟩
    rcases addWrite_cases s.coordinator call.txnID key value with ⟨txn, hTxn, hActive, -⟩ | hRefused
    · -- the call has returned, but the transaction is still active
      have hNot : call.stage.running ≠ true := fun hRunning => hOk ⟨call, hCall, rfl, hRunning⟩
      obtain ⟨st, hState, hSettled⟩ := h.states call hCall hEngaged
      rw [State.stateOf, hTxn, Option.map_some, hActive] at hState
      exact hSettled (settled_of_not_running hEngaged hNot) (Option.some.inj hState).symm
    · rw [hRefused] at hAcked
      cases hAcked
  | _ => rfl

theorem AckedOk.preserved (h : AckedOk r s) (hOk : NoLateInsert s l)
    (hNext : next s l = some s') : AckedOk r s' where
  traced := by
    refine h.traced.preserved (fun _ => rfl) (fun _ _ hEq => hEq ▸ List.Subset.refl _) hNext ?_
    intro call hCall hEngaged writes hEq
    rw [writesOf_next hNext, h.ackedBy_eq_nil hOk hCall hEngaged, List.append_nil]
    exact hEq
  states := h.states.preserved hNext
  committed := by
    intro t hState
    rcases committed_origin hNext hState with hOld | hNew
    · obtain ⟨call, hCall, hTxn, hStage⟩ := h.committed t hOld
      rcases calls_persist hNext hCall with hSame | ⟨new, hNew, hNewTxn, ms, effect, hTransition⟩
      · exact ⟨call, hSame, hTxn, hStage⟩
      · exact ⟨new, hNew, hNewTxn.trans hTxn, hTransition.committed (Or.inr hStage)⟩
    · exact hNew

end Steps

theorem ackedOk_start (r : Router) : AckedOk r (State.start r) where
  traced := allTraced_start r Eq
  states call hCall := by cases hCall
  committed t hState := by cases hState

/-- If no `INSERT` is sent while a `Commit` of its transaction runs, then a committed
transaction has a call of `Commit` that has sent to every shard exactly the acknowledged writes
that belong on it, in the order of the acknowledgements. When they all belong on one shard,
this is the list of all writes that the call has sent. -/
theorem acked_sent {r : Router} {labels : List Label} {s : State}
    (hRun : runLabels next (State.start r) labels = some s)
    (hOk : AllAllowed next NoLateInsert (State.start r) labels) {t : Bytes}
    (hCommitted : s.stateOf t = some .committed) :
    ∃ call ∈ s.calls, call.txnID = t ∧
      (∀ a, call.writesTo a = writesAt r (acked t (State.start r) labels) a) ∧
      ∀ a, (∀ w ∈ acked t (State.start r) labels, r.locate w.key = a) →
        call.writesSent = acked t (State.start r) labels := by
  have hInv := (reaches_of_runLabels hRun hOk).invariant (ackedOk_start r) fun _ _ _ h hOk hStep =>
    h.preserved hOk hStep
  obtain ⟨call, hCall, rfl, hStage⟩ := hInv.committed t hCommitted
  rcases hInv.traced.calls call hCall with ⟨hRefused, -⟩ | ⟨writes, rfl, hTrace, -⟩
  · rw [engaged_of_committed hStage] at hRefused
    cases hRefused
  · have hWrites : s.writesOf call.txnID = acked call.txnID (State.start r) labels :=
      writesOf_run hRun call.txnID
    rw [← hWrites]
    have hTo := hTrace.writesTo hStage
    refine ⟨call, hCall, rfl, hTo, fun a hSingle => ?_⟩
    have hAll := hTo a
    rw [filter_sent_of_single hTrace hSingle] at hAll
    exact hAll.trans (List.filter_eq_self.mpr fun w hw => decide_eq_true (hSingle w hw))

/-- The write that arrives after the commit is refused, so it is not acknowledged. -/
theorem acked_sent_oneWrite :
    ∃ s, runLabels next (State.start newRouter) (oneWrite ++ [.call 0 .critical,
        .insert (ascii "txn-1") (ascii "t:b") (ascii "2")]) = some s ∧
      ∃ call ∈ s.calls, call.writesSent = [⟨ascii "t:a", ascii "1"⟩] := by
  have hEnd : (runLabels next (State.start newRouter) (oneWrite ++ [.call 0 .critical,
      .insert (ascii "txn-1") (ascii "t:b") (ascii "2")])).map
        (fun s => s.stateOf (ascii "txn-1")) = some (some .committed) := by decide
  obtain ⟨s, hRun, hState⟩ := Option.map_eq_some_iff.mp hEnd
  obtain ⟨call, hCall, -, -, hSingle⟩ := acked_sent hRun (by decide) hState
  have hAcked : acked (ascii "txn-1") (State.start newRouter) (oneWrite ++ [.call 0 .critical,
      .insert (ascii "txn-1") (ascii "t:b") (ascii "2")]) = [⟨ascii "t:a", ascii "1"⟩] := by decide
  have hSent := hSingle (ascii "http://localhost:9001") (by decide)
  exact ⟨s, hRun, call, hCall, hSent.trans hAcked⟩

/-- A write is acknowledged while `Commit` waits for the reply of the shard. -/
def lateInsert : List Label :=
  [.begin 1, .insert (ascii "txn-1") (ascii "t:a") (ascii "1"), .commit (ascii "txn-1") sortedOrder,
    .call 0 (.readClock 5), .call 0 .send, .insert (ascii "txn-1") (ascii "t:b") (ascii "2"),
    .call 0 (.reply none), .call 0 .critical]

/-- The transaction is committed, and its second write was sent to nobody. -/
theorem not_acked_sent :
    ¬ ∀ (r : Router) (labels : List Label) (s : State) (t : Bytes),
      runLabels next (State.start r) labels = some s → s.stateOf t = some .committed →
        ∀ w ∈ acked t (State.start r) labels, w ∈ s.sent.flatMap Message.writes := by
  intro hAll
  have hEnd : (runLabels next (State.start newRouter) lateInsert).map
      (fun s => (s.stateOf (ascii "txn-1"), s.sent.flatMap Message.writes)) =
        some (some .committed, [⟨ascii "t:a", ascii "1"⟩]) := by decide
  obtain ⟨s, hRun, hLast⟩ := Option.map_eq_some_iff.mp hEnd
  obtain ⟨hState, hSent⟩ := Prod.mk.inj hLast
  have hMem := hAll newRouter lateInsert s (ascii "txn-1") hRun hState
    ⟨ascii "t:b", ascii "2"⟩ (by decide)
  rw [hSent] at hMem
  revert hMem
  decide

end Concurrent

end ShardDB.Txn
