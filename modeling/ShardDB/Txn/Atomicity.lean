import ShardDB.Shard.Replay
import ShardDB.Txn.ConflictFree
import ShardDB.Txn.Status

/-!
# Atomicity across shards

A transaction is atomic if, once all messages have been applied, it is installed as a whole
at one timestamp when it is committed, and not at all when it is aborted. The system does
not have this property: a `PREPARE` is acknowledged when it is proposed, and when it is
later refused, because another transaction holds the lock, nobody tells the coordinator. Two
transactions that write the same keys can both become committed, and the second one installs
nothing (`not_atomic`).

It does hold in every run in which no entry meets a lock of another transaction, the wire
format carries the messages intact, and a client does not touch a transaction while its
`Commit` runs or abort it after it (`atomic_of_disciplined`). The proof follows one
transaction through the system. Its part of a state (`TxnView`) changes only by its own
steps, and `Status` says what that part looks like from `Begin` to the end. Since its
entries are granted, what the shards install for it is computed from its own messages
(`view_run`).
-/

namespace ShardDB.Txn

open ShardDB.Lib ShardDB.Storage ShardDB.Routing ShardDB.Shard

/-! ## Statement -/

/-- All writes of the transaction are installed at one timestamp: the last value of each key
at the shard of the key, and nothing elsewhere. -/
def AllInstalled (libs : Libs) (c : Config) (t : Bytes) (writes : List WriteIntent)
    (ts : UInt64) : Prop :=
  ∀ a, (∀ i ∈ installed libs c a t, i.ts = ts) ∧
    ∀ key, SortedMap.lastBinding ((installed libs c a t).map Install.binding) key =
      if c.coordinator.router.locate key = a then lastValue writes key else none

/-- Nothing is installed for the transaction. -/
def NoneInstalled (libs : Libs) (c : Config) (t : Bytes) : Prop :=
  ∀ a, installed libs c a t = []

/-- Committed transactions are installed, aborted ones are not, and none is in part. -/
def Atomic (libs : Libs) (c : Config) : Prop :=
  ∀ t txn, c.coordinator.transactions.find? t = some txn →
    (txn.state = .committed → ∃ ts, AllInstalled libs c t txn.writes ts) ∧
    (txn.state = .aborted → NoneInstalled libs c t) ∧
    (NoneInstalled libs c t ∨ ∃ ts, AllInstalled libs c t txn.writes ts)

/-- The wire format carries the message: no field of a plain text entry contains a space,
and the strings of a JSON body are valid UTF-8. -/
def Message.Clean : Message → Prop
  | prepare _ key val txnID => 32 ∉ key ∧ 32 ∉ val ∧ 32 ∉ txnID
  | commit _ key txnID _ => 32 ∉ key ∧ 32 ∉ txnID
  | abort _ key txnID => 32 ∉ key ∧ 32 ∉ txnID
  | oneShot _ intents txnID _ =>
    validUtf8 txnID = true ∧
      ∀ w ∈ intents, validUtf8 w.key = true ∧ validUtf8 w.value = true

instance (m : Message) : Decidable m.Clean :=
  match m with
  | .prepare _ key val txnID => inferInstanceAs (Decidable (32 ∉ key ∧ 32 ∉ val ∧ 32 ∉ txnID))
  | .commit _ key txnID _ => inferInstanceAs (Decidable (32 ∉ key ∧ 32 ∉ txnID))
  | .abort _ key txnID => inferInstanceAs (Decidable (32 ∉ key ∧ 32 ∉ txnID))
  | .oneShot _ intents txnID _ =>
    inferInstanceAs (Decidable (validUtf8 txnID = true ∧
      ∀ w ∈ intents, validUtf8 w.key = true ∧ validUtf8 w.value = true))

/-- The request that a `Commit` call sends next. -/
def Pc.request (txnID : Bytes) (now : UInt64) : Pc → Option Message
  | .oneShot shard intents => some (.oneShot shard intents txnID now)
  | .preparing _ (m :: _) => some m
  | _ => none

/-- The condition on a step. Clients leave a transaction alone while its `Commit` runs and do
not abort a committed one; messages that are proposed are clean; an entry that is applied
finds its keys not locked by another transaction. -/
def Allowed (c : Config) : Label → Prop
  | .addWrite txnID _ _ => c.calls.find? txnID = none
  | .abort txnID =>
    c.calls.find? txnID = none ∧
      ∀ txn ∈ c.coordinator.transactions.find? txnID, txn.state ≠ .committed
  | .oneShot txnID now => ∀ pc ∈ c.calls.find? txnID, ∀ m ∈ pc.request txnID now, m.Clean
  | .prepare txnID => ∀ pc ∈ c.calls.find? txnID, ∀ m ∈ pc.request txnID 0, m.Clean
  | .deliver i => ∀ m ∈ c.flight[i]?, m.Clean
  | .apply addr =>
    ∀ m ∈ (c.shard addr).log[(c.shard addr).applied]?, m.call.Granted (c.shard addr).store
  | _ => True

instance (c : Config) (l : Label) : Decidable (Allowed c l) :=
  match l with
  | .begin _ => .isTrue trivial
  | .addWrite txnID _ _ => inferInstanceAs (Decidable (c.calls.find? txnID = none))
  | .abort txnID =>
    inferInstanceAs (Decidable (c.calls.find? txnID = none ∧
      ∀ txn ∈ c.coordinator.transactions.find? txnID, txn.state ≠ .committed))
  | .commit _ _ => .isTrue trivial
  | .oneShot txnID now =>
    inferInstanceAs (Decidable (∀ pc ∈ c.calls.find? txnID, ∀ m ∈ pc.request txnID now, m.Clean))
  | .finish _ => .isTrue trivial
  | .prepare txnID =>
    inferInstanceAs (Decidable (∀ pc ∈ c.calls.find? txnID, ∀ m ∈ pc.request txnID 0, m.Clean))
  | .decide _ _ _ => .isTrue trivial
  | .deliver i => inferInstanceAs (Decidable (∀ m ∈ c.flight[i]?, m.Clean))
  | .apply addr =>
    inferInstanceAs (Decidable (∀ m ∈ (c.shard addr).log[(c.shard addr).applied]?,
      m.call.Granted (c.shard addr).store))

/-- Every step of a run is allowed. -/
def Disciplined (libs : Libs) (serves : Bytes → Bool) : Config → List Label → Prop
  | _, [] => True
  | c, l :: labels =>
    Allowed c l ∧
      match next libs serves c l with
      | none => True
      | some c => Disciplined libs serves c labels

instance instDecidableDisciplined (libs : Libs) (serves : Bytes → Bool) :
    (c : Config) → (labels : List Label) → Decidable (Disciplined libs serves c labels)
  | _, [] => .isTrue trivial
  | c, l :: labels =>
    match h : next libs serves c l with
    | none => decidable_of_iff (Allowed c l) (by simp [Disciplined, h])
    | some c' =>
      have := instDecidableDisciplined libs serves c' labels
      decidable_of_iff (Allowed c l ∧ Disciplined libs serves c' labels) (by simp [Disciplined, h])

/-! ## Every step keeps the status of every transaction -/

section Invariant

variable {libs : Libs} {serves : Bytes → Bool} {r : Router} {c c' : Config}

/-- A step of one transaction: the others keep their views. -/
theorem status_of_own (t₀ : Bytes) (h : ∀ t, Status r serves t (c.view t))
    (hOther : ∀ t, t₀ ≠ t → c'.view t = c.view t) (hOwn : Status r serves t₀ (c'.view t₀)) :
    ∀ t, Status r serves t (c'.view t) := by
  intro t
  by_cases ht : t₀ = t
  · exact ht ▸ hOwn
  · rw [hOther t ht]
    exact h t

theorem status_begin {now : UInt64} (h : ∀ t, Status r serves t (c.view t))
    (hFresh : c.coordinator.transactions.find? (c.coordinator.begin now).2 = none) :
    ∀ t, Status r serves t ({ c with coordinator := (c.coordinator.begin now).1 }.view t) := by
  refine status_of_own (c.coordinator.begin now).2 h (fun t ht => ?_) ?_
  · exact TxnView.ext (SortedMap.find?_insert_of_ne _ _ (Ne.symm ht)) rfl rfl rfl
  · have hView : Config.view { c with coordinator := (c.coordinator.begin now).1 }
        (c.coordinator.begin now).2 = { c.view (c.coordinator.begin now).2 with
          txn := some ⟨(c.coordinator.begin now).2, .active, []⟩ } :=
      TxnView.ext (SortedMap.find?_insert_self ..) rfl rfl rfl
    rw [hView]
    have hNone : (c.view (c.coordinator.begin now).2).txn = none := hFresh
    cases h (c.coordinator.begin now).2 with
    | idle _ hCall hLog hFlight =>
      exact .idle (fun txn hTxn => by cases hTxn; rfl) hCall hLog hFlight
    | preparing _ _ _ _ hTxn => simp [hNone] at hTxn
    | oneShot _ _ _ hTxn => simp [hNone] at hTxn
    | oneShotSent _ _ _ _ hTxn => simp [hNone] at hTxn
    | committed _ _ hTxn => simp [hNone] at hTxn
    | aborted _ hTxn => simp [hNone] at hTxn

theorem status_addWrite {t : Bytes} (key value : Bytes) (h : ∀ t, Status r serves t (c.view t))
    (hCall : c.calls.find? t = none) :
    ∀ t', Status r serves t'
      ({ c with coordinator := (c.coordinator.addWrite t key value).1 }.view t') := by
  rcases addWrite_cases c.coordinator t key value with ⟨txn, hFind, hState, hAdd⟩ | hRefused
  · rw [hAdd]
    refine status_of_own t h (fun t' ht => ?_) ?_
    · exact TxnView.ext (SortedMap.find?_insert_of_ne _ _ (Ne.symm ht)) rfl rfl rfl
    · obtain ⟨hLog, hFlight⟩ := (h t).of_active hCall hFind hState
      refine .idle (fun txn' hTxn' => ?_) hCall hLog hFlight
      have hNew : (c.coordinator.transactions.insert t
        { txn with writes := txn.writes ++ [⟨key, value⟩] }).find? t = some txn' := hTxn'
      rw [SortedMap.find?_insert_self] at hNew
      cases hNew
      exact hState
  · rw [hRefused]
    exact h

theorem status_abortTxn {t : Bytes} (h : ∀ t, Status r serves t (c.view t))
    (hCall : c.calls.find? t = none)
    (hState : ∀ txn, c.coordinator.transactions.find? t = some txn → txn.state ≠ .committed) :
    ∀ t', Status r serves t' ((c.abortTxn t).view t') := by
  refine status_of_own t h (fun t' ht => view_abortTxn_of_ne ht) ?_
  cases hTxn : (c.view t).txn with
  | none =>
    rw [view_abortTxn_of_none hTxn]
    exact h t
  | some txn =>
    rw [view_abortTxn_self hTxn]
    exact (h t).abort_client hCall hTxn (hState txn hTxn) fun m hm => (mem_abort hm).2

/-- A failed request aborts the transaction and ends its `Commit`. -/
theorem status_failed {t : Bytes} (h : ∀ t, Status r serves t (c.view t))
    (hAbort : ∃ txn, (c.view t).txn = some txn ∧ Status r serves t
      { c.view t with
        txn := some { txn with state := .aborted }
        call := none
        flight := (c.view t).flight ++ (c.coordinator.abort t).2.1 }) :
    ∀ t', Status r serves t' (((c.abortTxn t).endCall t).view t') := by
  obtain ⟨txn, hTxn, hStatus⟩ := hAbort
  refine status_of_own t h (fun t' ht => ?_) ?_
  · rw [view_endCall_of_ne ht, view_abortTxn_of_ne ht]
  · rw [view_endCall_self, view_abortTxn_self hTxn]
    exact hStatus

/-- The first section of `Commit`. -/
theorem status_commit {t : Bytes} {writes : List WriteIntent} {pc : Pc} (iter : MapOrder)
    (h : ∀ t, Status r serves t (c.view t)) (hCall : c.calls.find? t = none)
    (hActive : c.coordinator.activeWrites t = .ok writes)
    (hPc : (∃ shard intents, (groupByShard r writes).entries = [(shard, intents)] ∧
        pc = .oneShot shard intents) ∨
      pc = .preparing (groupByShard r writes).entries
        (requests (prepareRequest t) (iter.order (groupByShard r writes).entries))) :
    ∀ t', Status r serves t' ((c.setCall t pc).view t') := by
  refine status_of_own t h (fun t' ht => view_setCall_of_ne ht _) ?_
  rw [view_setCall_self]
  unfold Coordinator.activeWrites at hActive
  split at hActive
  · cases hActive
  · next txn hFind =>
    split_ifs at hActive with hState
    cases hActive
    have hState : txn.state = .active := by simpa using hState
    obtain ⟨hLog, hFlight⟩ := (h t).of_active hCall hFind hState
    rcases hPc with ⟨shard, intents, hSingle, rfl⟩ | rfl
    · exact .oneShot txn shard intents hFind hState rfl hSingle hLog hFlight
    · exact .preparing txn iter [] _ hFind hState rfl rfl (by simp) (by simp [hLog]) hFlight

/-- What is left in flight after a message has arrived. -/
theorem exists_split_eraseIdx {i : Nat} {m : Message} {l : List Message} (h : l[i]? = some m) :
    ∃ l₁ l₂, l = l₁ ++ m :: l₂ ∧ l.eraseIdx i = l₁ ++ l₂ := by
  obtain ⟨hi, hEq⟩ := List.getElem?_eq_some_iff.mp h
  refine ⟨l.take i, l.drop (i + 1), ?_, List.eraseIdx_eq_take_drop_succ ..⟩
  rw [← hEq, ← List.drop_eq_getElem_cons hi, List.take_append_drop]

theorem status_deliver {i : Nat} {m : Message} (h : ∀ t, Status r serves t (c.view t))
    (hFlight : c.flight[i]? = some m) :
    (serves m.shard = true → ∀ t, Status r serves t
      (({ c with flight := c.flight.eraseIdx i }.propose m).view t)) ∧
    (serves m.shard ≠ true → ∀ t, Status r serves t
      ({ c with flight := c.flight.eraseIdx i }.view t)) := by
  obtain ⟨l₁, l₂, hSplit, hErase⟩ := exists_split_eraseIdx hFlight
  rw [hErase]
  have hOther : ∀ t, m.txnID ≠ t → Config.view { c with flight := l₁ ++ l₂ } t = c.view t := by
    intro t ht
    refine TxnView.ext rfl rfl rfl ?_
    simp [Config.view, hSplit, ofTxn, List.filter_append, ht]
  have hPerm : (m :: ofTxn m.txnID (l₁ ++ l₂)).Perm (c.view m.txnID).flight := by
    simp only [Config.view, hSplit, ofTxn, List.filter_append]
    rw [List.filter_cons_of_pos (by simp)]
    exact List.perm_middle.symm
  constructor
  · intro _
    refine status_of_own m.txnID h (fun t ht => ?_) ?_
    · rw [view_propose_of_ne ht, hOther t ht]
    · rw [view_propose_self rfl]
      exact (h m.txnID).deliver hPerm
  · intro hServed
    exact status_of_own m.txnID h hOther ((h m.txnID).drop hPerm hServed)

/-- Applying an entry concerns no view. -/
theorem view_setShard {a : Bytes} {s : ShardNode} (h : s.log = (c.shard a).log) (t : Bytes) :
    (c.setShard a s).view t = c.view t := by
  refine TxnView.ext rfl rfl (funext fun a' => ?_) rfl
  simp only [Config.view, shard_setShard]
  split_ifs with ha
  · rw [h, ha]
  · rfl

/-- The one-shot request was answered, and `Commit` returns. -/
theorem status_finish {t : Bytes} (h : ∀ t, Status r serves t (c.view t))
    (hCall : c.calls.find? t = some .oneShotSent) :
    ∀ t', Status r serves t'
      (({ c with coordinator := c.coordinator.setState t .committed }.endCall t).view t') := by
  obtain ⟨txn, hTxn, hStatus⟩ := (h t).finish hCall
  refine status_of_own t h (fun t' ht => ?_) ?_
  · rw [view_endCall_of_ne ht]
    exact TxnView.ext (find?_setState_of_ne ht _) rfl rfl rfl
  · rw [view_endCall_self]
    have hView : Config.view { c with coordinator := c.coordinator.setState t .committed } t =
        { c.view t with txn := some { txn with state := .committed } } :=
      TxnView.ext (find?_setState_self hTxn _) rfl rfl rfl
    rw [hView]
    exact hStatus

/-- Everything is prepared: the transaction is committed and phase two starts. -/
theorem status_decide {t : Bytes} (now : UInt64) (iter : MapOrder)
    {groups : List (Bytes × List WriteIntent)} (h : ∀ t, Status r serves t (c.view t))
    (hCall : c.calls.find? t = some (.preparing groups [])) :
    ∀ t', Status r serves t' (({ c with
      coordinator := c.coordinator.setState t .committed
      flight := c.flight ++
        requests (commitRequest t now) (iter.order groups) }.endCall t).view t') := by
  obtain ⟨txn, hTxn, hStatus⟩ := (h t).decide hCall iter now
  have hOwn : ∀ m ∈ requests (commitRequest t now) (iter.order groups), m.txnID = t := by
    intro m hm
    obtain ⟨shard, w, rfl⟩ := exists_of_mem_requests hm
    rfl
  refine status_of_own t h (fun t' ht => ?_) ?_
  · rw [view_endCall_of_ne ht]
    refine TxnView.ext (find?_setState_of_ne ht _) rfl rfl ?_
    simp only [Config.view]
    rw [ofTxn_append, ofTxn_eq_nil (l := requests _ _) fun m hm => by rw [hOwn m hm]; exact ht,
      List.append_nil]
  · rw [view_endCall_self]
    have hView : Config.view { c with
        coordinator := c.coordinator.setState t .committed
        flight := c.flight ++ requests (commitRequest t now) (iter.order groups) } t =
        { c.view t with
          txn := some { txn with state := .committed }
          flight := (c.view t).flight ++ requests (commitRequest t now) (iter.order groups) } := by
      refine TxnView.ext (find?_setState_self hTxn _) rfl rfl ?_
      simp only [Config.view]
      rw [ofTxn_append, ofTxn_eq_self hOwn]
    rw [hView]
    exact hStatus

theorem status_next {l : Label} (h : ∀ t, Status r serves t (c.view t))
    (hRouter : c.coordinator.router = r) (hAllowed : Allowed c l)
    (hStep : Step libs serves c l c') : ∀ t, Status r serves t (c'.view t) := by
  subst hRouter
  cases hStep with
  | begin now hFresh => exact status_begin h hFresh
  | addWrite t key value => exact status_addWrite key value h hAllowed
  | abort t => exact status_abortTxn h hAllowed.1 hAllowed.2
  | refuse t iter => exact h
  | commit t iter writes pc hCall hActive hPc => exact status_commit iter h hCall hActive hPc
  | oneShot t now shard intents hCall hServed =>
    refine status_of_own t h (fun t' ht => ?_) ?_
    · rw [view_setCall_of_ne ht, view_propose_of_ne (m := .oneShot shard intents t now) ht]
    · rw [view_setCall_self, view_propose_self (t := t) (m := .oneShot shard intents t now) rfl]
      exact (h t).sendOneShot hCall now
  | oneShotFails t now shard intents hCall =>
    obtain ⟨txn, hTxn, -, -, hLog, hFlight⟩ := (h t).of_oneShot hCall
    exact status_failed h ⟨txn, hTxn, Status.abort (by simp [hLog]) (by simp [hFlight])
      fun m hm => (mem_abort hm).2⟩
  | finish t hCall => exact status_finish h hCall
  | prepare t groups m todo hCall hServed =>
    obtain ⟨hTxn, hStatus⟩ := (h t).prepare hCall hServed
    refine status_of_own t h (fun t' ht => ?_) ?_
    · rw [view_setCall_of_ne ht, view_propose_of_ne (by rw [hTxn]; exact ht)]
    · rw [view_setCall_self, view_propose_self hTxn]
      exact hStatus
  | prepareFails t groups m todo hCall =>
    exact status_failed h ((h t).abort_preparing hCall fun m hm => (mem_abort hm).2)
  | decide t now iter groups hCall => exact status_decide now iter h hCall
  | deliver i m hFlight hServed => exact (status_deliver h hFlight).1 hServed
  | drop i m hFlight hServed => exact (status_deliver h hFlight).2 hServed
  | apply addr m hEntry =>
    intro t
    rw [view_setShard (s := { c.shard addr with
      applied := (c.shard addr).applied + 1
      store := ShardDB.Shard.apply libs (c.shard addr).store (m.entry libs) }) rfl]
    exact h t

/-! ## Every step keeps the shards in order -/

/-- A clean message is read back as the call it stands for. -/
theorem calls_entry {m : Message} (h : m.Clean) : (decode libs (m.entry libs)).calls = [m.call] := by
  cases m with
  | prepare shard key val t =>
    rw [Message.entry, decode_prepareEntry libs h.1 h.2.1 h.2.2]
    rfl
  | commit shard key t ts =>
    rw [Message.entry, decode_commitEntry libs h.1 h.2]
    rfl
  | abort shard key t =>
    rw [Message.entry, decode_abortEntry libs h.1 h.2]
    rfl
  | oneShot shard intents t ts =>
    have hBatch : (intents.map fun w => (⟨JsonString.ofBytes w.key, JsonString.ofBytes w.value⟩ :
        OneShotOp)).map (fun op => (⟨op.key.1, some op.val.1⟩ : BatchOp)) =
        intents.map fun w => ⟨w.key, some w.value⟩ := by
      rw [List.map_map]
      refine List.map_congr_left fun w hw => ?_
      obtain ⟨hKey, hValue⟩ := h.2 w hw
      simp [JsonString.ofBytes, toValidUtf8_eq_self_iff.mpr hKey, toValidUtf8_eq_self_iff.mpr hValue]
    have hTxn : (JsonString.ofBytes t).1 = t := toValidUtf8_eq_self_iff.mpr h.1
    rw [Message.entry, decode_oneShotEntry]
    simp only [Command.calls, OneShotReq.batch, hBatch, hTxn, Message.call]

theorem logCalls_entry {l : List Message} (h : ∀ m ∈ l, m.Clean) :
    logCalls libs (l.map (Message.entry libs)) = l.map Message.call := by
  induction l with
  | nil => rfl
  | cons m l ih =>
    rw [List.map_cons, logCalls_cons, calls_entry (h m List.mem_cons_self),
      ih fun m hm => h m (List.mem_cons_of_mem _ hm)]
    rfl

theorem apply_entry {m : Message} (h : m.Clean) (s : MemoryStore) :
    ShardDB.Shard.apply libs s (m.entry libs) = (m.call.exec s).1 := by
  rw [ShardDB.Shard.apply, Command.exec_eq_run, calls_entry h]
  rfl

theorem grantedFor_concat {t : Bytes} {s : MemoryStore} {calls : List Call} {call : Call}
    (h : GrantedFor t s calls) (hCall : call.Granted (s.run calls)) :
    GrantedFor t s (calls ++ [call]) := by
  induction calls generalizing s with
  | nil => exact ⟨fun _ => hCall, trivial⟩
  | cons c calls ih => exact ⟨h.1, ih h.2 hCall⟩

/-- The store of a shard is what the applied calls made of it, all of which were granted. -/
structure ShardOk (s : ShardNode) : Prop where
  bound : s.applied ≤ s.log.length
  clean : ∀ m ∈ s.log, m.Clean
  store : s.store = newMemoryStore.run ((s.log.take s.applied).map Message.call)
  granted : ∀ t, GrantedFor t newMemoryStore ((s.log.take s.applied).map Message.call)

theorem ShardOk.concat {s : ShardNode} (h : ShardOk s) {m : Message} (hm : m.Clean) :
    ShardOk { s with log := s.log ++ [m] } := by
  have hTake : (s.log ++ [m]).take s.applied = s.log.take s.applied :=
    List.take_append_of_le_length h.bound
  refine ⟨?_, ?_, ?_, ?_⟩
  · rw [List.length_append]
    exact h.bound.trans (Nat.le_add_right _ _)
  · intro m' hm'
    rcases List.mem_append.mp hm' with hm' | hm'
    · exact h.clean m' hm'
    · rw [List.mem_singleton.mp hm']
      exact hm
  · rw [hTake]
    exact h.store
  · rw [hTake]
    exact h.granted

theorem ShardOk.apply {s : ShardNode} (h : ShardOk s) {m : Message}
    (hm : s.log[s.applied]? = some m) (hGranted : m.call.Granted s.store) :
    ShardOk { s with
      applied := s.applied + 1
      store := ShardDB.Shard.apply libs s.store (m.entry libs) } := by
  obtain ⟨hLt, hEq⟩ := List.getElem?_eq_some_iff.mp hm
  have hTake : (s.log.take (s.applied + 1)).map Message.call =
      (s.log.take s.applied).map Message.call ++ [m.call] := by
    rw [List.take_succ_eq_append_getElem hLt, hEq, List.map_append, List.map_singleton]
  refine ⟨hLt, h.clean, ?_, fun t => ?_⟩
  · rw [hTake, MemoryStore.run, List.foldl_concat, apply_entry (h.clean m (List.mem_of_getElem? hm)),
      h.store]
    rfl
  · rw [hTake]
    exact grantedFor_concat (h.granted t) (h.store ▸ hGranted)

theorem shardOk_propose {m : Message} (h : ∀ a, ShardOk (c.shard a)) (hm : m.Clean) :
    ∀ a, ShardOk ((c.propose m).shard a) := by
  intro a
  rw [shard_propose]
  split_ifs
  · exact (h a).concat hm
  · exact h a

theorem shardOk_next {l : Label} (h : ∀ a, ShardOk (c.shard a)) (hAllowed : Allowed c l)
    (hStep : Step libs serves c l c') : ∀ a, ShardOk (c'.shard a) := by
  cases hStep with
  | oneShot t now shard intents hCall => exact shardOk_propose h (hAllowed _ hCall _ rfl)
  | prepare t groups m todo hCall => exact shardOk_propose h (hAllowed _ hCall _ rfl)
  | deliver i m hFlight =>
    exact shardOk_propose (c := { c with flight := c.flight.eraseIdx i }) h (hAllowed m hFlight)
  | apply addr m hEntry =>
    intro a
    rw [shard_setShard]
    split_ifs
    · exact (h addr).apply hEntry (hAllowed m hEntry)
    · exact h a
  -- the other steps do not touch the shards
  | _ => exact h

theorem router_next {l : Label} (hStep : Step libs serves c l c') :
    c'.coordinator.router = c.coordinator.router := by
  cases hStep with
  | addWrite t key value => exact router_addWrite ..
  | abort t => exact router_abort ..
  | oneShotFails t => exact router_abort ..
  | prepareFails t => exact router_abort ..
  | finish t => exact router_setState ..
  | decide t => exact router_setState ..
  | _ => rfl

/-- What holds along a disciplined run. -/
structure Inv (r : Router) (serves : Bytes → Bool) (c : Config) : Prop where
  router : c.coordinator.router = r
  status : ∀ t, Status r serves t (c.view t)
  shards : ∀ a, ShardOk (c.shard a)

theorem inv_start (r : Router) (serves : Bytes → Bool) : Inv r serves (Config.start r) where
  router := rfl
  status _ := .idle (fun _ hTxn => by cases hTxn) rfl (fun _ => rfl) rfl
  shards _ := ⟨Nat.le_refl 0, fun _ hm => (List.not_mem_nil hm).elim, rfl, fun _ => trivial⟩

theorem inv_run {labels : List Label} (h : Inv r serves c) (hOk : Disciplined libs serves c labels)
    (hRun : run libs serves c labels = some c') : Inv r serves c' := by
  induction labels generalizing c with
  | nil =>
    cases hRun
    exact h
  | cons l labels ih =>
    obtain ⟨hAllowed, hRest⟩ := hOk
    simp only [run] at hRun
    split at hRun
    · cases hRun
    · next c₁ hNext =>
      rw [hNext] at hRest
      have hStep := step_of_next libs serves hNext
      exact ih ⟨(router_next hStep).trans h.router, status_next h.status h.router hAllowed hStep,
        shardOk_next h.shards hAllowed hStep⟩ hRest hRun

/-! ## Installed versions of a transaction -/

/-- In a quiescent state the installed versions are computed from the messages of the
transaction. -/
theorem installed_eq (h : Inv r serves c) (hQuiet : Quiescent c) (a t : Bytes) :
    installed libs c a t =
      (ownRun (fun _ => none) (((c.view t).log a).map Message.call)).2 := by
  have hShard := h.shards a
  have hTake : (c.shard a).log.take (c.shard a).applied = (c.shard a).log := by
    rw [hQuiet.2 a, List.take_length]
  have hGranted := hShard.granted t
  rw [hTake] at hGranted
  have hCalls : callsOf t ((c.shard a).log.map Message.call) =
      ((c.view t).log a).map Message.call := by
    simp only [callsOf, Config.view, ofTxn, List.filter_map]
    congr 1
    exact List.filter_congr fun m _ => by simp
  rw [installed, hTake, logCalls_entry hShard.clean, (view_run hGranted).2, hCalls]
  rfl

theorem noneInstalled_of_ts? (libs : Libs) (h : Inv r serves c) (hQuiet : Quiescent c) {t : Bytes}
    (hLog : ∀ a, ∀ m ∈ (c.view t).log a, m.call.ts? = none) : NoneInstalled libs c t := by
  intro a
  rw [installed_eq h hQuiet, List.eq_nil_iff_forall_not_mem]
  intro i hi
  obtain ⟨call, hCall, hTs⟩ := ts?_of_mem_ownRun hi
  obtain ⟨m, hm, rfl⟩ := List.mem_map.mp hCall
  rw [hLog a m hm] at hTs
  cases hTs

/-- A transaction whose one-shot request is in the log is installed. -/
theorem allInstalled_of_oneShot (libs : Libs) (h : Inv r serves c) (hQuiet : Quiescent c)
    {t shard : Bytes} {writes intents : List WriteIntent} {ts : UInt64}
    (hSingle : (groupByShard r writes).entries = [(shard, intents)])
    (hLog : ∀ a, (c.view t).log a = if a = shard then [.oneShot shard intents t ts] else []) :
    AllInstalled libs c t writes ts := by
  intro a
  have hAt := lastValue_writesAt r writes
  rw [h.router, installed_eq h hQuiet, hLog a]
  refine ⟨fun i hi => ?_, fun key => ?_⟩
  · obtain ⟨call, hCall, hTs⟩ := ts?_of_mem_ownRun hi
    split_ifs at hCall
    · rw [List.mem_singleton.mp hCall] at hTs
      exact (Option.some.inj hTs).symm
    · cases hCall
  · rw [← hAt key a, writesAt_of_single hSingle]
    split_ifs
    · simp only [List.map_cons, List.map_nil, Message.call, ownRun, Call.own, List.append_nil,
        List.map_map]
      rfl
    · rfl

/-- A transaction all of whose prepares and commits are in the logs is installed. -/
theorem allInstalled_of_twoPhase (libs : Libs) (h : Inv r serves c) (hQuiet : Quiescent c) {t : Bytes}
    {writes : List WriteIntent} {ts : UInt64}
    (hLog : ∀ a, ∃ commits,
      (c.view t).log a = (writesAt r writes a).map (prepareRequest t a) ++ commits ∧
        commits.Perm ((writesAt r writes a).map (commitRequest t ts a))) :
    AllInstalled libs c t writes ts := by
  intro a
  obtain ⟨commits, hLogA, hPerm⟩ := hLog a
  obtain ⟨keys, hCommits, hKeys⟩ := calls_of_perm_commits hPerm
  have hCalls : ((c.view t).log a).map Message.call =
      ((writesAt r writes a).map fun w => .prepare w.key (some w.value) t) ++
        keys.map fun k => .commit k t ts := by
    rw [hLogA, List.map_append, hCommits, List.map_map]
    rfl
  rw [h.router, installed_eq h hQuiet]
  refine ⟨fun i hi => ?_, fun key => ?_⟩
  · obtain ⟨call, hCall, hTs⟩ := ts?_of_mem_ownRun hi
    rw [hCalls] at hCall
    rcases List.mem_append.mp hCall with hCall | hCall
    · obtain ⟨w, -, rfl⟩ := List.mem_map.mp hCall
      cases hTs
    · obtain ⟨k, -, rfl⟩ := List.mem_map.mp hCall
      exact (Option.some.inj hTs).symm
  · rw [(ownRun_twoPhase t ts (fun _ _ => rfl) hKeys hCalls).2, lastValue_writesAt]

end Invariant

/-- Every run whose steps are all allowed is atomic once all messages have been applied. -/
theorem atomic_of_disciplined (libs : Libs) (serves : Bytes → Bool) (r : Router)
    {labels : List Label} {c : Config} (hRun : run libs serves (Config.start r) labels = some c)
    (hOk : Disciplined libs serves (Config.start r) labels) (hQuiet : Quiescent c) :
    Atomic libs c := by
  have hInv := inv_run (inv_start r serves) hOk hRun
  intro t txn hFind
  have hTxn : (c.view t).txn = some txn := hFind
  have hNoFlight : (c.view t).flight = [] := by
    simp [Config.view, hQuiet.1, ofTxn]
  cases hInv.status t with
  | idle hIdle _ hLog _ =>
    have hNone := noneInstalled_of_ts? libs hInv hQuiet (t := t) (by simp [hLog])
    have hState := hIdle txn hTxn
    exact ⟨by simp [hState], fun _ => hNone, Or.inl hNone⟩
  | preparing txn' iter done todo hTxn' hState _ hAll _ hLog _ =>
    rw [hTxn] at hTxn'
    cases hTxn'
    have hNone := noneInstalled_of_ts? libs hInv hQuiet (t := t) fun a m hm => by
      rw [hLog a] at hm
      exact (ts?_of_mem_requests_prepare
        (hAll ▸ List.mem_append_left _ (List.mem_filter.mp hm).1)).2
    exact ⟨by simp [hState], fun _ => hNone, Or.inl hNone⟩
  | oneShot txn' shard intents hTxn' hState _ _ hLog _ =>
    rw [hTxn] at hTxn'
    cases hTxn'
    have hNone := noneInstalled_of_ts? libs hInv hQuiet (t := t) (by simp [hLog])
    exact ⟨by simp [hState], fun _ => hNone, Or.inl hNone⟩
  | oneShotSent txn' shard intents ts hTxn' hState hSingle hLog _ =>
    rw [hTxn] at hTxn'
    cases hTxn'
    have hSome := allInstalled_of_oneShot libs hInv hQuiet hSingle hLog
    refine ⟨fun _ => ⟨ts, hSome⟩, fun hAborted => ?_, Or.inr ⟨ts, hSome⟩⟩
    rcases hState with ⟨hState, -⟩ | ⟨hState, -⟩ <;> simp [hState] at hAborted
  | committed txn' ts hTxn' hState _ _ hLog =>
    rw [hTxn] at hTxn'
    cases hTxn'
    have hSome := allInstalled_of_twoPhase libs hInv hQuiet (t := t) fun a => by
      obtain ⟨commits, hLogA, hPerm⟩ := hLog a
      rw [hNoFlight, List.filter_nil, List.append_nil] at hPerm
      exact ⟨commits, hLogA, hPerm⟩
    exact ⟨fun _ => ⟨ts, hSome⟩, by simp [hState], Or.inr ⟨ts, hSome⟩⟩
  | aborted txn' hTxn' hState _ hLog _ =>
    rw [hTxn] at hTxn'
    cases hTxn'
    have hNone := noneInstalled_of_ts? libs hInv hQuiet hLog
    exact ⟨by simp [hState], fun _ => hNone, Or.inl hNone⟩

theorem quiescent_iff {c : Config} :
    Quiescent c ↔ c.flight = [] ∧ ∀ e ∈ c.shards.entries, e.2.applied = e.2.log.length := by
  refine and_congr_right fun _ => ⟨fun h e he => ?_, fun h a => ?_⟩
  · have hFind := h e.1
    rwa [Config.shard, SortedMap.mem_entries_iff.mp he] at hFind
  · unfold Config.shard
    cases hFind : c.shards.find? a with
    | none => rfl
    | some s => exact h (a, s) (SortedMap.mem_entries_iff.mpr hFind)

instance (c : Config) : Decidable (Quiescent c) := decidable_of_iff _ quiescent_iff.symm

/-- Every address but the empty one. -/
def anyAddress (a : Bytes) : Bool := a ≠ []

/-- One transaction on two shards, from `Begin` to the last applied entry. -/
def oneTransaction : List Label :=
  [.begin 1, .addWrite (ascii "txn-1") (ascii "k") (ascii "1"),
    .addWrite (ascii "txn-1") (ascii "z") (ascii "2"), .commit (ascii "txn-1") sortedOrder,
    .prepare (ascii "txn-1"), .prepare (ascii "txn-1"), .decide (ascii "txn-1") 7 sortedOrder,
    .deliver 1, .deliver 0,
    .apply (ascii "http://localhost:9001"), .apply (ascii "http://localhost:9001"),
    .apply (ascii "http://localhost:9002"), .apply (ascii "http://localhost:9002")]

theorem atomic_oneTransaction :
    ∃ c, run noSql anyAddress (Config.start splitRouter) oneTransaction = some c ∧
      Atomic noSql c := by
  obtain ⟨c, hRun⟩ := Option.isSome_iff_exists.mp
    (by decide : (run noSql anyAddress (Config.start splitRouter) oneTransaction).isSome = true)
  have hQuiet : ∀ c ∈ run noSql anyAddress (Config.start splitRouter) oneTransaction,
      Quiescent c := by
    decide
  exact ⟨c, hRun,
    atomic_of_disciplined noSql anyAddress splitRouter hRun (by decide) (hQuiet c hRun)⟩

/-- Two transactions that write the same two keys. The prepares of the second are refused
when they are applied, and it is committed nevertheless. -/
def overlappingTransactions : List Label :=
  [.begin 1, .begin 2,
    .addWrite (ascii "txn-1") (ascii "k") (ascii "1"),
    .addWrite (ascii "txn-1") (ascii "z") (ascii "1"),
    .addWrite (ascii "txn-2") (ascii "k") (ascii "2"),
    .addWrite (ascii "txn-2") (ascii "z") (ascii "2"),
    .commit (ascii "txn-1") sortedOrder, .commit (ascii "txn-2") sortedOrder,
    .prepare (ascii "txn-1"), .prepare (ascii "txn-1"),
    .prepare (ascii "txn-2"), .prepare (ascii "txn-2"),
    .decide (ascii "txn-1") 10 sortedOrder, .decide (ascii "txn-2") 20 sortedOrder,
    .deliver 0, .deliver 0, .deliver 0, .deliver 0,
    .apply (ascii "http://localhost:9001"), .apply (ascii "http://localhost:9001"),
    .apply (ascii "http://localhost:9001"), .apply (ascii "http://localhost:9001"),
    .apply (ascii "http://localhost:9002"), .apply (ascii "http://localhost:9002"),
    .apply (ascii "http://localhost:9002"), .apply (ascii "http://localhost:9002")]

theorem not_atomic :
    ¬ ∀ (libs : Libs) (serves : Bytes → Bool) (r : Router) (labels : List Label) (c : Config),
      run libs serves (Config.start r) labels = some c → Quiescent c → Atomic libs c := by
  intro hAll
  obtain ⟨c, hRun⟩ := Option.isSome_iff_exists.mp
    (by decide :
      (run noSql anyAddress (Config.start splitRouter) overlappingTransactions).isSome = true)
  have hEnd : ∀ c ∈ run noSql anyAddress (Config.start splitRouter) overlappingTransactions,
      Quiescent c ∧ installed noSql c (ascii "http://localhost:9001") (ascii "txn-2") = [] ∧
        c.coordinator.router.locate (ascii "k") = ascii "http://localhost:9001" ∧
        c.coordinator.transactions.find? (ascii "txn-2") = some ⟨ascii "txn-2", .committed,
          [⟨ascii "k", ascii "2"⟩, ⟨ascii "z", ascii "2"⟩]⟩ := by
    decide
  obtain ⟨hQuiet, hNone, hShard, hTxn⟩ := hEnd c hRun
  -- the transaction is committed, so its last write of the key should be installed
  obtain ⟨ts, hSome⟩ := (hAll _ _ _ _ c hRun hQuiet _ _ hTxn).1 rfl
  have hKey := (hSome (ascii "http://localhost:9001")).2 (ascii "k")
  rw [hNone, if_pos hShard] at hKey
  exact absurd hKey (by decide)

end ShardDB.Txn
