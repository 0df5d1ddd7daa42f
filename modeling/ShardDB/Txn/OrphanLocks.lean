import ShardDB.Shard.WireFormat
import ShardDB.Storage.Ownership
import ShardDB.Txn.CallTrace
import ShardDB.Txn.System

/-!
# Locks that nobody releases

A `PREPARE` that reports an error to the coordinator may still reach its shard. Once the calls of
`Commit` for a transaction have returned, a `COMMIT` or an `ABORT` was sent for every `PREPARE`
(`exists_release`), whatever the replies were and whatever else clients did. A shard does not
remember decisions, so a `PREPARE` that is applied after the message that should release its
lock locks the key for good.

When no shard applies a `PREPARE` after a `COMMIT` or an `ABORT` of the same transaction and
key, the last of these messages finds the lock, or there is none, and no later entry restores it
(`no_orphan_locks`). The messages are otherwise applied in any order, among any entries of
other transactions.
-/

namespace ShardDB.Shard

open ShardDB.Lib ShardDB.Storage ShardDB.Sql

/-- The key that a command prepares for a transaction. -/
def Command.lockedKey? (t : Bytes) : Command → Option Bytes
  | prepare key _ txnID => if txnID = t then some key else none
  | _ => none

/-- The key that a command commits or aborts for a transaction. -/
def Command.releasedKey? (t : Bytes) : Command → Option Bytes
  | commit key txnID _ => if txnID = t then some key else none
  | abort key txnID => if txnID = t then some key else none
  | _ => none

section Entries

variable {libs : Libs} {s : MemoryStore} {data t k : Bytes}

/-- Only a `Prepare` of a transaction creates an intent of it. -/
theorem intent?_exec_of_none {c : Call} (h : s.intent? t k = none)
    (hNot : ∀ v, c ≠ .prepare k v t) : (c.exec s).1.intent? t k = none := by
  cases hIntent : (c.exec s).1.intent? t k with
  | none => rfl
  | some v =>
    have hLock : (Operation.exec s (.call c)).locks.find? k = some ⟨t, v⟩ :=
      MemoryStore.intent?_eq_some_iff.mp hIntent
    rcases locked_origin hLock with ⟨hPrepare, -⟩ | ⟨hOld, -⟩
    · exact (hNot v (Operation.call.inj hPrepare)).elim
    · cases h.symm.trans (MemoryStore.intent?_eq_some_iff.mpr hOld)

/-- A plan leaves no lock: the row that it prepares is committed at once. -/
theorem intent?_execute_of_none (plan : PlanNode) (ts : UInt64) (h : s.intent? t k = none) :
    (execute plan s ts).1.intent? t k = none := by
  rw [execute_eq_run]
  unfold PlanNode.calls
  split
  · next table _ pk values =>
    rw [MemoryStore.run, List.foldl_cons, List.foldl_cons, List.foldl_nil]
    by_cases ht : autoTxn ts = t
    · rw [ht]
      refine (intent?_commit _ t (rowKey table pk) ts k).trans ?_
      split_ifs with hk
      · rfl
      · refine intent?_exec_of_none h fun v hEq => hk ?_
        exact (Call.prepare.inj hEq).1.symm
    · refine (intent?_exec_of_ne (c := .commit (rowKey table pk) (autoTxn ts) ts) ht k).trans ?_
      exact (intent?_exec_of_ne (c := .prepare (rowKey table pk) _ (autoTxn ts)) ht k).trans h
  · exact h

theorem intent?_apply_of_none (h : s.intent? t k = none)
    (hNot : (decode libs data).lockedKey? t ≠ some k) : (apply libs s data).intent? t k = none := by
  unfold apply
  cases hCommand : decode libs data with
  | prepare key value txnID =>
    rw [hCommand] at hNot
    refine intent?_exec_of_none (c := .prepare key (some value) txnID) h fun v hEq => hNot ?_
    obtain ⟨rfl, -, rfl⟩ := Call.prepare.inj hEq
    exact if_pos rfl
  | commit key txnID ts => exact intent?_exec_of_none (c := .commit key txnID ts) h (by simp)
  | abort key txnID => exact intent?_exec_of_none (c := .abort key txnID) h (by simp)
  | oneShot req =>
    exact intent?_exec_of_none (c := .onePhaseCommit req.batch req.txn.1 req.ts) h (by simp)
  | sql plan => exact intent?_execute_of_none plan sqlTs h
  | ignored => exact h

theorem intent?_apply_of_released (h : (decode libs data).releasedKey? t = some k) :
    (apply libs s data).intent? t k = none := by
  unfold apply
  cases hCommand : decode libs data with
  | commit key txnID ts =>
    rw [hCommand, Command.releasedKey?] at h
    split_ifs at h with ht
    obtain rfl := Option.some.inj h
    rw [ht]
    exact (intent?_commit s t key ts key).trans (if_pos rfl)
  | abort key txnID =>
    rw [hCommand, Command.releasedKey?] at h
    split_ifs at h with ht
    obtain rfl := Option.some.inj h
    rw [ht]
    exact (intent?_abort s t key key).trans (if_pos rfl)
  | _ =>
    rw [hCommand] at h
    cases h

theorem intent?_applyAll_of_none {log : List Bytes} (h : s.intent? t k = none)
    (hNot : ∀ data ∈ log, (decode libs data).lockedKey? t ≠ some k) :
    (applyAll libs s log).intent? t k = none := by
  induction log generalizing s with
  | nil => exact h
  | cons data log ih =>
    refine ih (intent?_apply_of_none h (hNot data List.mem_cons_self)) ?_
    exact fun data' hData => hNot data' (List.mem_cons_of_mem _ hData)

/-- No entry of a log prepares a key after an entry that commits or aborts the key for the
same transaction. -/
def NoLatePrepare (libs : Libs) (t : Bytes) (log : List Bytes) : Prop :=
  log.Pairwise fun data data' =>
    ∀ k ∈ (decode libs data).releasedKey? t, (decode libs data').lockedKey? t ≠ some k

instance (libs : Libs) (t : Bytes) (log : List Bytes) : Decidable (NoLatePrepare libs t log) :=
  inferInstanceAs (Decidable (log.Pairwise fun data data' =>
    ∀ k ∈ (decode libs data).releasedKey? t, (decode libs data').lockedKey? t ≠ some k))

/-- A key that some entry releases and no later entry prepares is not locked in the end. -/
theorem intent?_applyAll_of_released {log : List Bytes} (hOrder : NoLatePrepare libs t log)
    (hData : data ∈ log) (hReleased : (decode libs data).releasedKey? t = some k) :
    (applyAll libs s log).intent? t k = none := by
  obtain ⟨pre, post, rfl⟩ := List.append_of_mem hData
  have hLate := (List.pairwise_cons.mp (List.pairwise_append.mp hOrder).2.1).1
  rw [applyAll_append]
  exact intent?_applyAll_of_none (s := apply libs (applyAll libs s pre) data)
    (intent?_apply_of_released hReleased) fun data' hData' => hLate data' hData' k hReleased

end Entries

end ShardDB.Shard

namespace ShardDB.Txn.Concurrent

open ShardDB.Lib ShardDB.Storage ShardDB.Routing ShardDB.Shard

/-! ## Every prepare has a message that releases it -/

/-- The copy of a call is a part of the writes that the transaction has by now. -/
theorem allTraced_of_reaches {r : Router} {s : State}
    (h : Reaches next (fun _ _ => True) (State.start r) s) : AllTraced r List.IsPrefix s := by
  refine h.invariant (allTraced_start r _) fun s l s' hInv _ hNext => ?_
  refine hInv.preserved List.prefix_refl (fun _ _ hPrefix => hPrefix.subset) hNext ?_
  intro call _ _ writes hPrefix
  rw [writesOf_next hNext]
  exact hPrefix.trans (List.prefix_append _ _)

theorem mem_aborts {r : Router} {s : State}
    (h : Reaches next (fun _ _ => True) (State.start r) s) :
    ∀ m ∈ s.aborts, ∃ shard key t, m = .abort shard key t := by
  refine h.invariant (I := fun s => ∀ m ∈ s.aborts, ∃ shard key t, m = .abort shard key t)
    (fun m hm => by cases hm) fun s l s' hInv _ hNext => ?_
  rcases aborts_cases hNext with hSame | ⟨t, hAbort⟩
  · rwa [hSame]
  · rw [hAbort]
    intro m hm
    refine (List.mem_append.mp hm).elim (hInv m) fun hNew => ?_
    obtain ⟨txn, -, w, -, rfl⟩ := mem_abort_iff.mp hNew
    exact ⟨_, _, _, rfl⟩

theorem returned_of_not_running {stage : Stage} (hEngaged : stage.engaged = true)
    (hNot : stage.running ≠ true) : ∃ err, stage = .returned err := by
  cases stage with
  | refused err => cases hEngaged
  | returned err => exact ⟨err, rfl⟩
  | _ => exact (hNot rfl).elim

/-- A call that has returned nil has sent a `COMMIT` for every `PREPARE`. -/
theorem CallTrace.exists_commit {r : Router} {t : Bytes} {writes : List WriteIntent}
    {sent : List Message} (h : CallTrace r t writes (.returned none) sent) {w : WriteIntent}
    (hw : w ∈ writes) (hm : prepareRequest t (r.locate w.key) w ∈ sent) :
    ∃ ts, .commit (r.locate w.key) w.key t ts ∈ sent := by
  rcases h with ⟨shard, intents, ts, -, rfl⟩ | ⟨prepares, ts, iter, -, rfl⟩
  · cases List.mem_singleton.mp hm
  · refine ⟨ts, List.mem_append_right _ ?_⟩
    exact (mem_requests_iff fun _ _ => rfl).mpr ⟨w, hw, rfl⟩

/-- Once the calls of a transaction have returned, a message that releases the lock was sent
after every `PREPARE`, to the same shard. -/
theorem exists_release {r : Router} {s : State}
    (hReach : Reaches next (fun _ _ => True) (State.start r) s) {t : Bytes}
    (hReturned : ¬ s.Running t) {a k v : Bytes} (hm : .prepare a k v t ∈ s.sent) :
    ∃ m ∈ s.sent, (∃ ts, m = .commit a k t ts) ∨ m = .abort a k t := by
  rcases List.mem_append.mp hm with hm | hm
  · obtain ⟨call, hCall, hSent⟩ := List.mem_flatMap.mp hm
    rcases (allTraced_of_reaches hReach).calls call hCall with
      ⟨-, hNil⟩ | ⟨writes, -, hTrace, hAborted⟩
    · rw [hNil] at hSent
      cases hSent
    · rcases hTrace.sent_cases hSent with ⟨shard, intents, ts, -, hEq⟩ | ⟨w, hw, hEq | ⟨ts, hEq⟩⟩
      · cases hEq
      · obtain ⟨rfl, rfl, rfl, rfl⟩ := Message.prepare.inj hEq
        have hNot : call.stage.running ≠ true := fun hRunning =>
          hReturned ⟨call, hCall, rfl, hRunning⟩
        obtain ⟨err, hStage⟩ := returned_of_not_running hTrace.engaged hNot
        cases err with
        | none =>
          rw [hStage] at hTrace
          obtain ⟨ts, hCommit⟩ := hTrace.exists_commit hw hSent
          refine ⟨_, List.mem_append_left _ (List.mem_flatMap.mpr ⟨call, hCall, hCommit⟩), ?_⟩
          exact Or.inl ⟨ts, rfl⟩
        | some err =>
          exact ⟨_, List.mem_append_right _ (hAborted err hStage w hw), Or.inr rfl⟩
      · cases hEq
  · obtain ⟨shard, key, u, hEq⟩ := mem_aborts hReach _ hm
    cases hEq

/-! ## Delivery -/

/-- The log of the shard at `a`, once all messages of the transaction `t` have been delivered.
What else is in the log is arbitrary, except that nobody else prepares for `t`. -/
structure Delivered (libs : Libs) (s : State) (t a : Bytes) (log : List Bytes) : Prop where
  all : ∀ m ∈ s.sent, m.txnID = t → m.shard = a → m.entry libs ∈ log
  only : ∀ data ∈ log, ((decode libs data).lockedKey? t).isSome = true →
    ∃ m ∈ s.sent, m.txnID = t ∧ m.shard = a ∧ m.entry libs = data

/-- An entry that prepares a key is that of a `PREPARE` message without spaces. -/
theorem prepare_of_lockedKey {libs : Libs} {m : Message} {t k : Bytes}
    (h : (decode libs (m.entry libs)).lockedKey? t = some k) :
    (∃ v, m = .prepare m.shard k v t) ∧ 32 ∉ k ∧ 32 ∉ t := by
  cases m with
  | prepare shard key val u =>
    rw [Message.entry, decode_prepareEntry_eq] at h
    split_ifs at h with hNone
    · rw [Command.lockedKey?] at h
      split_ifs at h with hu
      cases h
      rw [← hu]
      exact ⟨⟨val, rfl⟩, hNone.1, hNone.2.2⟩
    · cases h
  | commit shard key u ts =>
    rw [Message.entry, decode_commitEntry_eq] at h
    split_ifs at h <;> cases h
  | abort shard key u =>
    rw [Message.entry, decode_abortEntry_eq] at h
    split_ifs at h <;> cases h
  | oneShot shard intents u ts =>
    rw [Message.entry, decode_oneShotEntry] at h
    cases h

/-- If no shard applies a `PREPARE` of a transaction after a `COMMIT` or an `ABORT` of it for the
same key, then no shard holds a lock of the transaction once its calls of `Commit` have
returned and all its messages are applied. -/
theorem no_orphan_locks {r : Router} {s : State}
    (hReach : Reaches next (fun _ _ => True) (State.start r) s) {t : Bytes}
    (hReturned : ¬ s.Running t) {libs : Libs} {a : Bytes} {log : List Bytes}
    (hDelivered : Delivered libs s t a log) (hOrder : NoLatePrepare libs t log) {k : Bytes}
    {lock : Lock} (hLock : (applyAll libs newMemoryStore log).locks.find? k = some lock) :
    lock.txnID ≠ t := by
  rintro rfl
  have hIntent : (applyAll libs newMemoryStore log).intent? lock.txnID k = some lock.value :=
    MemoryStore.intent?_eq_some_iff.mpr hLock
  by_cases hPrepared : ∃ data ∈ log, (decode libs data).lockedKey? lock.txnID = some k
  · obtain ⟨data, hData, hKey⟩ := hPrepared
    obtain ⟨m, hm, -, rfl, rfl⟩ := hDelivered.only data hData (by rw [hKey]; rfl)
    obtain ⟨⟨v, hEq⟩, hSpace⟩ := prepare_of_lockedKey hKey
    rw [hEq] at hm
    obtain ⟨m', hm', hRelease⟩ := exists_release hReach hReturned hm
    have hReleased : (decode libs (m'.entry libs)).releasedKey? lock.txnID = some k := by
      rcases hRelease with ⟨ts, rfl⟩ | rfl
      · rw [Message.entry, decode_commitEntry_eq, if_pos hSpace]
        exact if_pos rfl
      · rw [Message.entry, decode_abortEntry_eq, if_pos hSpace]
        exact if_pos rfl
    have hEntry : m'.entry libs ∈ log := by
      refine hDelivered.all m' hm' ?_ ?_
      · rcases hRelease with ⟨ts, rfl⟩ | rfl <;> rfl
      · rcases hRelease with ⟨ts, rfl⟩ | rfl <;> rfl
    cases hIntent.symm.trans (intent?_applyAll_of_released hOrder hEntry hReleased)
  · have hNone : (applyAll libs newMemoryStore log).intent? lock.txnID k = none :=
      intent?_applyAll_of_none rfl fun data hData hKey => hPrepared ⟨data, hData, hKey⟩
    cases hIntent.symm.trans hNone

/-- A transaction on two shards whose first `PREPARE` reports an error. -/
def failedPrepare : List Label :=
  [.begin 1, .insert (ascii "txn-1") (ascii "a") (ascii "1"),
    .insert (ascii "txn-1") (ascii "z") (ascii "2"), .commit (ascii "txn-1") sortedOrder,
    .call 0 .send, .call 0 (.reply (some (ascii "timeout"))), .call 0 .critical]

theorem run_failedPrepare :
    ∃ s, Reaches next (fun _ _ => True) (State.start splitRouter) s ∧
      ¬ s.Running (ascii "txn-1") ∧
      s.sent = [.prepare (ascii "http://localhost:9001") (ascii "a") (ascii "1") (ascii "txn-1"),
        .abort (ascii "http://localhost:9001") (ascii "a") (ascii "txn-1"),
        .abort (ascii "http://localhost:9002") (ascii "z") (ascii "txn-1")] := by
  have hEnd : (runLabels next (State.start splitRouter) failedPrepare).map
      (fun s => (decide (s.Running (ascii "txn-1")), s.sent)) = some (false,
        [.prepare (ascii "http://localhost:9001") (ascii "a") (ascii "1") (ascii "txn-1"),
          .abort (ascii "http://localhost:9001") (ascii "a") (ascii "txn-1"),
          .abort (ascii "http://localhost:9002") (ascii "z") (ascii "txn-1")]) := by decide
  obtain ⟨s, hRun, hLast⟩ := Option.map_eq_some_iff.mp hEnd
  obtain ⟨hRunning, hSent⟩ := Prod.mk.inj hLast
  exact ⟨s, reaches_of_runLabels hRun (allAllowed_of_forall (fun _ _ => trivial) _),
    of_decide_eq_false hRunning, hSent⟩

/-- The `ABORT` comes after the `PREPARE`. What stays locked belongs to another transaction. -/
theorem no_orphan_locks_failedPrepare :
    let log := [prepareEntry (ascii "a") (ascii "1") (ascii "txn-1"),
      prepareEntry (ascii "b") (ascii "1") (ascii "txn-2"),
      abortEntry (ascii "a") (ascii "txn-1")]
    let shard := applyAll (compactJson fun _ => .error []) newMemoryStore log
    shard.locks.find? (ascii "b") = some ⟨ascii "txn-2", some (ascii "1")⟩ ∧
      ∀ k lock, shard.locks.find? k = some lock → lock.txnID ≠ ascii "txn-1" := by
  refine ⟨by decide, fun k lock hLock => ?_⟩
  obtain ⟨s, hReach, hReturned, hSent⟩ := run_failedPrepare
  refine no_orphan_locks (a := ascii "http://localhost:9001") hReach hReturned ⟨?_, ?_⟩ ?_ hLock
  · rw [hSent]
    decide
  · rw [hSent]
    decide
  · decide

/-- The `PREPARE` comes after the `ABORT`: the key stays locked. -/
theorem not_no_orphan_locks :
    ¬ ∀ (r : Router) (s : State) (t : Bytes) (libs : Libs) (a : Bytes) (log : List Bytes),
      Reaches next (fun _ _ => True) (State.start r) s → ¬ s.Running t →
        Delivered libs s t a log → ∀ k lock,
          (applyAll libs newMemoryStore log).locks.find? k = some lock → lock.txnID ≠ t := by
  intro hAll
  obtain ⟨s, hReach, hReturned, hSent⟩ := run_failedPrepare
  refine hAll splitRouter s (ascii "txn-1") (compactJson fun _ => .error [])
    (ascii "http://localhost:9001") [abortEntry (ascii "a") (ascii "txn-1"),
      prepareEntry (ascii "a") (ascii "1") (ascii "txn-1")] hReach hReturned ⟨?_, ?_⟩
    (ascii "a") ⟨ascii "txn-1", some (ascii "1")⟩ (by decide) rfl
  · rw [hSent]
    decide
  · rw [hSent]
    decide

end ShardDB.Txn.Concurrent
