import ShardDB.Txn.System

/-!
# The life of a transaction

The part of a system state that belongs to one transaction (`TxnView`): its record, its
running `Commit` call, and its messages in the logs of the shards and in flight. It changes
only by steps of that transaction. `Status` lists what it can look like, from `Begin` to the
end, when the client leaves the transaction alone during its `Commit` and does not abort it
afterwards; a lemma for each kind of step says where the transaction goes from there.
-/

namespace ShardDB.Txn

open ShardDB.Lib ShardDB.Storage ShardDB.Routing

/-! ## The part of a state that belongs to a transaction -/

/-- The record of a transaction, its `Commit` call, and its messages in the logs and in
flight. -/
@[ext]
structure TxnView where
  txn : Option Transaction
  call : Option Pc
  log : Bytes → List Message
  flight : List Message

def ofTxn (t : Bytes) (l : List Message) : List Message := l.filter fun m => m.txnID = t

def Config.view (c : Config) (t : Bytes) : TxnView where
  txn := c.coordinator.transactions.find? t
  call := c.calls.find? t
  log a := ofTxn t (c.shard a).log
  flight := ofTxn t c.flight

/-- The life of a transaction, as its view shows it. -/
inductive Status (r : Router) (serves : Bytes → Bool) (t : Bytes) (v : TxnView) : Prop
  /-- Not begun, or active and not yet in `Commit`. -/
  | idle (hTxn : ∀ txn, v.txn = some txn → txn.state = .active) (hCall : v.call = none)
      (hLog : ∀ a, v.log a = []) (hFlight : v.flight = [])
  /-- In phase one: the requests in `done` have been proposed. -/
  | preparing (txn : Transaction) (iter : MapOrder) (done todo : List Message)
      (hTxn : v.txn = some txn) (hState : txn.state = .active)
      (hCall : v.call = some (.preparing (groupByShard r txn.writes).entries todo))
      (hAll : done ++ todo =
        requests (prepareRequest t) (iter.order (groupByShard r txn.writes).entries))
      (hServed : ∀ m ∈ done, serves m.shard = true)
      (hLog : ∀ a, v.log a = done.filter fun m => m.shard = a) (hFlight : v.flight = [])
  /-- About to send the one-shot request. -/
  | oneShot (txn : Transaction) (shard : Bytes) (intents : List WriteIntent)
      (hTxn : v.txn = some txn) (hState : txn.state = .active)
      (hCall : v.call = some (.oneShot shard intents))
      (hSingle : (groupByShard r txn.writes).entries = [(shard, intents)])
      (hLog : ∀ a, v.log a = []) (hFlight : v.flight = [])
  /-- The one-shot request has been proposed; the state is set soon or has been set. -/
  | oneShotSent (txn : Transaction) (shard : Bytes) (intents : List WriteIntent) (ts : UInt64)
      (hTxn : v.txn = some txn)
      (hState : txn.state = .active ∧ v.call = some .oneShotSent ∨
        txn.state = .committed ∧ v.call = none)
      (hSingle : (groupByShard r txn.writes).entries = [(shard, intents)])
      (hLog : ∀ a, v.log a = if a = shard then [.oneShot shard intents t ts] else [])
      (hFlight : v.flight = [])
  /-- Committed in two phases: all prepares are in the logs, followed by those commits that
  are not in flight any more. -/
  | committed (txn : Transaction) (ts : UInt64)
      (hTxn : v.txn = some txn) (hState : txn.state = .committed) (hCall : v.call = none)
      (hServed : ∀ a, writesAt r txn.writes a ≠ [] → serves a = true)
      (hLog : ∀ a, ∃ commits,
        v.log a = (writesAt r txn.writes a).map (prepareRequest t a) ++ commits ∧
          (commits ++ v.flight.filter fun m => m.shard = a).Perm
            ((writesAt r txn.writes a).map (commitRequest t ts a)))
  /-- Aborted: no message asks for a version. -/
  | aborted (txn : Transaction) (hTxn : v.txn = some txn) (hState : txn.state = .aborted)
      (hCall : v.call = none) (hLog : ∀ a, ∀ m ∈ v.log a, m.call.ts? = none)
      (hFlight : ∀ m ∈ v.flight, m.call.ts? = none)

/-! ## How the parts of a step change the views -/

section Views

variable {c : Config} {t t' : Bytes}

theorem shard_setShard (c : Config) (a a' : Bytes) (s : ShardNode) :
    (c.setShard a s).shard a' = if a' = a then s else c.shard a' := by
  rw [Config.shard, Config.setShard, SortedMap.find?_insert]
  split_ifs <;> rfl

theorem shard_propose (c : Config) (m : Message) (a : Bytes) :
    (c.propose m).shard a =
      if a = m.shard then { c.shard a with log := (c.shard a).log ++ [m] } else c.shard a := by
  rw [Config.propose, shard_setShard]
  split_ifs with ha
  · rw [ha]
  · rfl

theorem ofTxn_append (t : Bytes) (l l' : List Message) :
    ofTxn t (l ++ l') = ofTxn t l ++ ofTxn t l' := List.filter_append ..

theorem ofTxn_eq_self {l : List Message} (h : ∀ m ∈ l, m.txnID = t) : ofTxn t l = l :=
  List.filter_eq_self.mpr fun m hm => by simpa using h m hm

theorem ofTxn_eq_nil {l : List Message} (h : ∀ m ∈ l, m.txnID ≠ t) : ofTxn t l = [] :=
  List.filter_eq_nil_iff.mpr fun m hm => by simpa using h m hm

theorem view_propose_self {m : Message} (h : m.txnID = t) :
    (c.propose m).view t =
      { c.view t with log := fun a => (c.view t).log a ++ if a = m.shard then [m] else [] } := by
  refine TxnView.ext rfl rfl (funext fun a => ?_) rfl
  simp only [Config.view, shard_propose]
  split_ifs with ha
  · rw [ofTxn_append, ofTxn_eq_self (l := [m]) (by simpa using h)]
  · rw [List.append_nil]

theorem view_propose_of_ne {m : Message} (h : m.txnID ≠ t) : (c.propose m).view t = c.view t := by
  refine TxnView.ext rfl rfl (funext fun a => ?_) rfl
  simp only [Config.view, shard_propose]
  split_ifs with ha
  · rw [ofTxn_append, ofTxn_eq_nil (l := [m]) (by simpa using h), List.append_nil]
  · rfl

theorem view_setCall_self (pc : Pc) :
    (c.setCall t pc).view t = { c.view t with call := some pc } :=
  TxnView.ext rfl (SortedMap.find?_insert_self ..) rfl rfl

theorem view_setCall_of_ne (h : t' ≠ t) (pc : Pc) : (c.setCall t' pc).view t = c.view t :=
  TxnView.ext rfl (SortedMap.find?_insert_of_ne _ _ (Ne.symm h)) rfl rfl

theorem view_endCall_self : (c.endCall t).view t = { c.view t with call := none } :=
  TxnView.ext rfl (SortedMap.find?_erase_self ..) rfl rfl

theorem view_endCall_of_ne (h : t' ≠ t) : (c.endCall t').view t = c.view t :=
  TxnView.ext rfl (SortedMap.find?_erase_of_ne _ (Ne.symm h)) rfl rfl

theorem view_abortTxn_self {txn : Transaction} (h : (c.view t).txn = some txn) :
    (c.abortTxn t).view t =
      { c.view t with
        txn := some { txn with state := .aborted }
        flight := (c.view t).flight ++ (c.coordinator.abort t).2.1 } := by
  have hFind : c.coordinator.transactions.find? t = some txn := h
  refine TxnView.ext ?_ rfl rfl ?_
  · simp only [Config.view, Config.abortTxn, Coordinator.abort, hFind]
    exact find?_setState_self hFind _
  · simp only [Config.view, Config.abortTxn]
    rw [ofTxn_append, ofTxn_eq_self fun m hm => (mem_abort hm).1]

theorem view_abortTxn_of_none (h : (c.view t).txn = none) : (c.abortTxn t).view t = c.view t := by
  have hFind : c.coordinator.transactions.find? t = none := h
  refine TxnView.ext ?_ rfl rfl ?_
  · simp only [Config.view, Config.abortTxn, Coordinator.abort, hFind]
  · simp only [Config.view, Config.abortTxn, Coordinator.abort, hFind, List.append_nil]

theorem view_abortTxn_of_ne (h : t' ≠ t) : (c.abortTxn t').view t = c.view t := by
  refine TxnView.ext ?_ rfl rfl ?_
  · simp only [Config.view, Config.abortTxn, Coordinator.abort]
    split
    · rfl
    · exact find?_setState_of_ne h _
  · simp only [Config.view, Config.abortTxn]
    rw [ofTxn_append, ofTxn_eq_nil (l := (c.coordinator.abort t').2.1) fun m hm => ?_,
      List.append_nil]
    rw [(mem_abort hm).1]
    exact h

end Views

/-! ## Steps of a transaction -/

section Steps

variable {r : Router} {serves : Bytes → Bool} {t : Bytes} {v : TxnView}

/-- The messages of a transaction before its commits ask for no version. -/
theorem ts?_of_mem_requests_prepare {groups : List (Bytes × List WriteIntent)} {m : Message}
    (h : m ∈ requests (prepareRequest t) groups) : m.txnID = t ∧ m.call.ts? = none := by
  obtain ⟨shard, w, rfl⟩ := exists_of_mem_requests h
  exact ⟨rfl, rfl⟩

/-- `Abort` of a transaction that has sent prepares and aborts only. -/
theorem Status.abort {txn : Transaction} {aborts : List Message}
    (hLog : ∀ a, ∀ m ∈ v.log a, m.call.ts? = none) (hFlight : ∀ m ∈ v.flight, m.call.ts? = none)
    (hAborts : ∀ m ∈ aborts, m.call.ts? = none) :
    Status r serves t
      { v with
        txn := some { txn with state := .aborted }
        call := none
        flight := v.flight ++ aborts } := by
  refine .aborted _ rfl rfl rfl hLog fun m hm => ?_
  rcases List.mem_append.mp hm with hm | hm
  · exact hFlight m hm
  · exact hAborts m hm

/-- A transaction whose `Commit` is in phase one. -/
theorem Status.of_preparing {groups : List (Bytes × List WriteIntent)} {todo : List Message}
    (h : Status r serves t v) (hCall : v.call = some (.preparing groups todo)) :
    ∃ (txn : Transaction) (iter : MapOrder) (done : List Message),
      v.txn = some txn ∧ txn.state = .active ∧
      groups = (groupByShard r txn.writes).entries ∧
      done ++ todo =
        requests (prepareRequest t) (iter.order (groupByShard r txn.writes).entries) ∧
      (∀ m ∈ done, serves m.shard = true) ∧
      (∀ a, v.log a = done.filter fun m => m.shard = a) ∧ v.flight = [] := by
  cases h with
  | preparing txn iter done todo' hTxn hState hCall' hAll hDone hLog hFlight =>
    rw [hCall] at hCall'
    cases hCall'
    exact ⟨txn, iter, done, hTxn, hState, rfl, hAll, hDone, hLog, hFlight⟩
  | oneShotSent txn shard intents ts hTxn hState =>
    rcases hState with ⟨-, hCall'⟩ | ⟨-, hCall'⟩ <;> simp [hCall] at hCall'
  | idle hTxn hCall' => simp [hCall] at hCall'
  | oneShot txn shard intents hTxn hState hCall' => simp [hCall] at hCall'
  | committed txn ts hTxn hState hCall' => simp [hCall] at hCall'
  | aborted txn hTxn hState hCall' => simp [hCall] at hCall'

/-- A transaction that is about to send its one-shot request. -/
theorem Status.of_oneShot {shard : Bytes} {intents : List WriteIntent} (h : Status r serves t v)
    (hCall : v.call = some (.oneShot shard intents)) :
    ∃ txn, v.txn = some txn ∧ txn.state = .active ∧
      (groupByShard r txn.writes).entries = [(shard, intents)] ∧
      (∀ a, v.log a = []) ∧ v.flight = [] := by
  cases h with
  | oneShot txn shard' intents' hTxn hState hCall' hSingle hLog hFlight =>
    rw [hCall] at hCall'
    cases hCall'
    exact ⟨txn, hTxn, hState, hSingle, hLog, hFlight⟩
  | oneShotSent txn shard intents ts hTxn hState =>
    rcases hState with ⟨-, hCall'⟩ | ⟨-, hCall'⟩ <;> simp [hCall] at hCall'
  | idle hTxn hCall' => simp [hCall] at hCall'
  | preparing txn iter done todo hTxn hState hCall' => simp [hCall] at hCall'
  | committed txn ts hTxn hState hCall' => simp [hCall] at hCall'
  | aborted txn hTxn hState hCall' => simp [hCall] at hCall'

/-- A request of phase one is proposed. -/
theorem Status.prepare {groups : List (Bytes × List WriteIntent)} {m : Message}
    {todo : List Message} (h : Status r serves t v)
    (hCall : v.call = some (.preparing groups (m :: todo))) (hServed : serves m.shard = true) :
    m.txnID = t ∧ Status r serves t
      { v with
        call := some (.preparing groups todo)
        log := fun a => v.log a ++ if a = m.shard then [m] else [] } := by
  obtain ⟨txn, iter, done, hTxn, hState, rfl, hAll, hDone, hLog, hFlight⟩ := h.of_preparing hCall
  have hMem : m ∈ requests (prepareRequest t) (iter.order (groupByShard r txn.writes).entries) :=
    hAll ▸ List.mem_append_right _ List.mem_cons_self
  refine ⟨(ts?_of_mem_requests_prepare hMem).1,
    .preparing txn iter (done ++ [m]) todo hTxn hState rfl ?_ ?_ (fun a => ?_) hFlight⟩
  · rw [List.append_assoc, List.singleton_append, hAll]
  · intro m' hm'
    rcases List.mem_append.mp hm' with hm' | hm'
    · exact hDone m' hm'
    · rw [List.mem_singleton.mp hm']
      exact hServed
  · dsimp only
    rw [List.filter_append, hLog a]
    by_cases ha : a = m.shard
    · simp [ha]
    · simp [ha, Ne.symm ha]

/-- A failed request of phase one: the transaction is aborted. -/
theorem Status.abort_preparing {groups : List (Bytes × List WriteIntent)} {todo aborts : List Message}
    (h : Status r serves t v) (hCall : v.call = some (.preparing groups todo))
    (hAborts : ∀ m ∈ aborts, m.call.ts? = none) :
    ∃ txn, v.txn = some txn ∧ Status r serves t
      { v with
        txn := some { txn with state := .aborted }
        call := none
        flight := v.flight ++ aborts } := by
  obtain ⟨txn, iter, done, hTxn, hState, rfl, hAll, hDone, hLog, hFlight⟩ := h.of_preparing hCall
  refine ⟨txn, hTxn, Status.abort (fun a m hm => ?_) (by simp [hFlight]) hAborts⟩
  rw [hLog a] at hm
  exact (ts?_of_mem_requests_prepare (hAll ▸ List.mem_append_left _ (List.mem_filter.mp hm).1)).2

/-- All requests of phase one have been proposed: the transaction is committed. -/
theorem Status.decide {groups : List (Bytes × List WriteIntent)} (h : Status r serves t v)
    (hCall : v.call = some (.preparing groups [])) (iter : MapOrder) (now : UInt64) :
    ∃ txn, v.txn = some txn ∧ Status r serves t
      { v with
        txn := some { txn with state := .committed }
        call := none
        flight := v.flight ++ requests (commitRequest t now) (iter.order groups) } := by
  obtain ⟨txn, iter', done, hTxn, hState, rfl, hAll, hDone, hLog, hFlight⟩ := h.of_preparing hCall
  rw [List.append_nil] at hAll
  have hAt : ∀ a, v.log a = (writesAt r txn.writes a).map (prepareRequest t a) := by
    intro a
    rw [hLog a, hAll, filter_requests fun _ _ => rfl]
  refine ⟨txn, hTxn, .committed _ now rfl rfl rfl (fun a ha => ?_) fun a => ⟨[], ?_, ?_⟩⟩
  · obtain ⟨w, rest, hCons⟩ := List.exists_cons_of_ne_nil ha
    have hMem : prepareRequest t a w ∈ done.filter fun m => m.shard = a := by
      rw [← hLog a, hAt a]
      exact List.mem_map_of_mem (hCons ▸ List.mem_cons_self)
    exact hDone _ (List.mem_filter.mp hMem).1
  · rw [List.append_nil]
    exact hAt a
  · dsimp only
    rw [hFlight, List.nil_append, List.nil_append, filter_requests fun _ _ => rfl]

/-- An active transaction without a running call has sent nothing. -/
theorem Status.of_active {txn : Transaction} (h : Status r serves t v) (hCall : v.call = none)
    (hTxn : v.txn = some txn) (hState : txn.state = .active) :
    (∀ a, v.log a = []) ∧ v.flight = [] := by
  cases h with
  | idle _ _ hLog hFlight => exact ⟨hLog, hFlight⟩
  | preparing _ _ _ _ _ _ hCall' => simp [hCall] at hCall'
  | oneShot _ _ _ _ _ hCall' => simp [hCall] at hCall'
  | oneShotSent txn' _ _ _ hTxn' hState' =>
    rw [hTxn] at hTxn'
    cases hTxn'
    rcases hState' with ⟨-, hCall'⟩ | ⟨hState', -⟩
    · simp [hCall] at hCall'
    · simp [hState] at hState'
  | committed txn' _ hTxn' hState' =>
    rw [hTxn] at hTxn'
    cases hTxn'
    simp [hState] at hState'
  | aborted txn' hTxn' hState' =>
    rw [hTxn] at hTxn'
    cases hTxn'
    simp [hState] at hState'

/-- Of a transaction without a running call that is not committed no message asks for a version. -/
theorem Status.unstamped {txn : Transaction} (h : Status r serves t v) (hCall : v.call = none)
    (hTxn : v.txn = some txn) (hState : txn.state ≠ .committed) :
    (∀ a, ∀ m ∈ v.log a, m.call.ts? = none) ∧ ∀ m ∈ v.flight, m.call.ts? = none := by
  cases h with
  | idle _ _ hLog hFlight => exact ⟨by simp [hLog], by simp [hFlight]⟩
  | preparing _ _ _ _ _ _ hCall' => simp [hCall] at hCall'
  | oneShot _ _ _ _ _ hCall' => simp [hCall] at hCall'
  | oneShotSent txn' _ _ _ hTxn' hState' =>
    rw [hTxn] at hTxn'
    cases hTxn'
    rcases hState' with ⟨-, hCall'⟩ | ⟨hState', -⟩
    · simp [hCall] at hCall'
    · exact absurd hState' hState
  | committed txn' _ hTxn' hState' =>
    rw [hTxn] at hTxn'
    cases hTxn'
    exact absurd hState' hState
  | aborted _ _ _ _ hLog hFlight => exact ⟨hLog, hFlight⟩

/-- A client aborts a transaction that is not committed. -/
theorem Status.abort_client {txn : Transaction} {aborts : List Message} (h : Status r serves t v)
    (hCall : v.call = none) (hTxn : v.txn = some txn) (hState : txn.state ≠ .committed)
    (hAborts : ∀ m ∈ aborts, m.call.ts? = none) :
    Status r serves t
      { v with
        txn := some { txn with state := .aborted }
        flight := v.flight ++ aborts } := by
  have hEq : ({ v with txn := some { txn with state := .aborted }, flight := v.flight ++ aborts } :
      TxnView) =
      { v with txn := some { txn with state := .aborted }, call := none, flight := v.flight ++ aborts } := by
    rw [← hCall]
  rw [hEq]
  obtain ⟨hLog, hFlight⟩ := h.unstamped hCall hTxn hState
  exact Status.abort hLog hFlight hAborts

/-- The one-shot request is proposed. -/
theorem Status.sendOneShot {shard : Bytes} {intents : List WriteIntent} (h : Status r serves t v)
    (hCall : v.call = some (.oneShot shard intents)) (now : UInt64) :
    Status r serves t
      { v with
        call := some .oneShotSent
        log := fun a => v.log a ++ if a = shard then [.oneShot shard intents t now] else [] } := by
  obtain ⟨txn, hTxn, hState, hSingle, hLog, hFlight⟩ := h.of_oneShot hCall
  refine .oneShotSent txn shard intents now hTxn (Or.inl ⟨hState, rfl⟩) hSingle (fun a => ?_) hFlight
  dsimp only
  rw [hLog a, List.nil_append]

/-- After the reply to the one-shot request the transaction is committed. -/
theorem Status.finish (h : Status r serves t v) (hCall : v.call = some .oneShotSent) :
    ∃ txn, v.txn = some txn ∧ Status r serves t
      { v with txn := some { txn with state := .committed }, call := none } := by
  cases h with
  | oneShotSent txn shard intents ts hTxn hState hSingle hLog hFlight =>
    exact ⟨txn, hTxn, .oneShotSent _ shard intents ts rfl (Or.inr ⟨rfl, rfl⟩) hSingle hLog hFlight⟩
  | idle hTxn hCall' => simp [hCall] at hCall'
  | preparing _ _ _ _ _ _ hCall' => simp [hCall] at hCall'
  | oneShot _ _ _ _ _ hCall' => simp [hCall] at hCall'
  | committed _ _ _ _ hCall' => simp [hCall] at hCall'
  | aborted _ _ _ hCall' => simp [hCall] at hCall'

/-- A message of a goroutine arrives. -/
theorem Status.deliver {m : Message} {rest : List Message} (h : Status r serves t v)
    (hFlight : (m :: rest).Perm v.flight) :
    Status r serves t
      { v with
        log := fun a => v.log a ++ if a = m.shard then [m] else []
        flight := rest } := by
  have hNil : v.flight ≠ [] := fun hNil => List.cons_ne_nil m rest (hNil ▸ hFlight).eq_nil
  cases h with
  | idle _ _ _ hFlight' => exact absurd hFlight' hNil
  | preparing _ _ _ _ _ _ _ _ _ _ hFlight' => exact absurd hFlight' hNil
  | oneShot _ _ _ _ _ _ _ _ hFlight' => exact absurd hFlight' hNil
  | oneShotSent _ _ _ _ _ _ _ _ hFlight' => exact absurd hFlight' hNil
  | committed txn ts hTxn hState hCall hServed' hLog =>
    refine .committed txn ts hTxn hState hCall hServed' fun a => ?_
    obtain ⟨commits, hLogA, hPerm⟩ := hLog a
    have hFilter := hFlight.filter fun m => m.shard = a
    by_cases ha : a = m.shard
    · refine ⟨commits ++ [m], ?_, ?_⟩
      · dsimp only
        rw [if_pos ha, hLogA, List.append_assoc]
      · rw [List.filter_cons_of_pos (by simp [ha])] at hFilter
        rw [List.append_assoc, List.singleton_append]
        exact (hFilter.append_left commits).trans hPerm
    · refine ⟨commits, ?_, ?_⟩
      · dsimp only
        rw [if_neg ha, List.append_nil, hLogA]
      · rw [List.filter_cons_of_neg (by simpa using Ne.symm ha)] at hFilter
        exact (hFilter.append_left commits).trans hPerm
  | aborted txn hTxn hState hCall hLog hFlight' =>
    refine .aborted txn hTxn hState hCall (fun a m' hm' => ?_) fun m' hm' =>
      hFlight' m' (hFlight.mem_iff.mp (List.mem_cons_of_mem _ hm'))
    rcases List.mem_append.mp hm' with hm' | hm'
    · exact hLog a m' hm'
    · split_ifs at hm'
      · rw [List.mem_singleton.mp hm']
        exact hFlight' m (hFlight.mem_iff.mp List.mem_cons_self)
      · cases hm'

/-- A message of a goroutine to an address that nobody serves is of no consequence: a
committed transaction has no such message. -/
theorem Status.drop {m : Message} {rest : List Message} (h : Status r serves t v)
    (hFlight : (m :: rest).Perm v.flight) (hServed : serves m.shard ≠ true) :
    Status r serves t { v with flight := rest } := by
  have hNil : v.flight ≠ [] := fun hNil => List.cons_ne_nil m rest (hNil ▸ hFlight).eq_nil
  cases h with
  | idle _ _ _ hFlight' => exact absurd hFlight' hNil
  | preparing _ _ _ _ _ _ _ _ _ _ hFlight' => exact absurd hFlight' hNil
  | oneShot _ _ _ _ _ _ _ _ hFlight' => exact absurd hFlight' hNil
  | oneShotSent _ _ _ _ _ _ _ _ hFlight' => exact absurd hFlight' hNil
  | committed txn ts hTxn hState hCall hServed' hLog =>
    obtain ⟨commits, -, hPerm⟩ := hLog m.shard
    have hMem : m ∈ commits ++ v.flight.filter fun m' => m'.shard = m.shard :=
      List.mem_append_right _ (List.mem_filter.mpr ⟨hFlight.mem_iff.mp List.mem_cons_self, by simp⟩)
    obtain ⟨w, hw, -⟩ := List.mem_map.mp (hPerm.mem_iff.mp hMem)
    exact absurd (hServed' _ (List.ne_nil_of_mem hw)) hServed
  | aborted txn hTxn hState hCall hLog hFlight' =>
    exact .aborted txn hTxn hState hCall hLog fun m' hm' =>
      hFlight' m' (hFlight.mem_iff.mp (List.mem_cons_of_mem _ hm'))

end Steps

end ShardDB.Txn
