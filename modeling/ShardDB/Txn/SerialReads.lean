import ShardDB.Lib.Timeline
import ShardDB.Storage.Ownership
import ShardDB.Storage.Refinement
import ShardDB.Txn.Atomicity

/-!
# Reads see transactions in the order of their timestamps

A transaction is decided once one of its messages carries a commit timestamp. The decided
transactions of a state, each at its timestamp, are its timeline. Take a run as in
`ShardDB.Txn.Atomicity`, in which no entry meets a lock of another transaction, and a timestamp
such that every message that is still to be applied has a later one. Then a read at that
timestamp, at whatever shard the key is on, returns what the decided transactions up to the
timestamp leave for the key when they are executed one after another, each as a whole
(`getTxn_eq_replay`). Reads of several keys at one timestamp are thus reads of one state, although
the shards apply the parts of a transaction at different times.

This needs distinct timestamps: of two transactions with the same one, each shard keeps the version
that it applied last.
-/

namespace ShardDB.Txn

open ShardDB.Lib ShardDB.Storage ShardDB.Routing ShardDB.Shard

/-! ## Decided transactions -/

namespace Config

/-- The messages that are in flight or in a log. -/
def messages (c : Config) : List Message := c.flight ++ c.shards.entries.flatMap fun e => e.2.log

/-- The timestamp on the messages of a transaction. -/
def commitTs? (c : Config) (t : Bytes) : Option UInt64 :=
  (ofTxn t c.messages).findSome? fun m => m.call.ts?

/-- The decided transactions: their timestamps and their writes. -/
def decided (c : Config) : List (UInt64 × List (Bytes × Slice)) :=
  c.coordinator.transactions.entries.filterMap fun e =>
    (c.commitTs? e.1).map fun ts => (ts, e.2.writes.map WriteIntent.binding)

/-- The decided transactions by their timestamps. -/
def timeline (c : Config) : Timeline UInt64 Bytes Slice := SortedMap.empty.insertAll c.decided

/-- No two transactions are decided at the same timestamp. -/
def DistinctTs (c : Config) : Prop :=
  ∀ e ∈ c.coordinator.transactions.entries, ∀ e' ∈ c.coordinator.transactions.entries,
    c.commitTs? e.1 ≠ none → c.commitTs? e.1 = c.commitTs? e'.1 → e.1 = e'.1

instance (c : Config) : Decidable c.DistinctTs :=
  inferInstanceAs (Decidable (∀ e ∈ _, ∀ e' ∈ _, _ → _ → _))

/-- The keys in the messages. -/
def keys (c : Config) : List Bytes := c.messages.flatMap fun m => m.call.keys

/-- Every message that is still to be applied carries a later timestamp or none. -/
def Settled (c : Config) (readTs : UInt64) : Prop :=
  (∀ m ∈ c.flight, m.call.ts?.all (readTs < ·) = true) ∧
    ∀ e ∈ c.shards.entries, ∀ m ∈ e.2.log.drop e.2.applied, m.call.ts?.all (readTs < ·) = true

instance (c : Config) (readTs : UInt64) : Decidable (c.Settled readTs) :=
  inferInstanceAs (Decidable (_ ∧ _))

end Config

section

variable {c : Config} {t : Bytes}

theorem shard_of_mem_entries {e : Bytes × ShardNode} (h : e ∈ c.shards.entries) :
    c.shard e.1 = e.2 := by
  rw [Config.shard, SortedMap.mem_entries_iff.mp h]
  rfl

theorem exists_entry_of_mem_log {a : Bytes} {m : Message} (h : m ∈ (c.shard a).log) :
    (a, c.shard a) ∈ c.shards.entries := by
  rw [SortedMap.mem_entries_iff]
  unfold Config.shard at h ⊢
  cases hFind : c.shards.find? a with
  | none =>
    rw [hFind] at h
    cases h
  | some s => rfl

theorem mem_messages {m : Message} :
    m ∈ c.messages ↔ m ∈ c.flight ∨ ∃ a, m ∈ (c.shard a).log := by
  rw [Config.messages, List.mem_append, List.mem_flatMap]
  refine or_congr_right ⟨?_, ?_⟩
  · rintro ⟨e, he, hm⟩
    exact ⟨e.1, by rwa [shard_of_mem_entries he]⟩
  · rintro ⟨a, hm⟩
    exact ⟨_, exists_entry_of_mem_log hm, hm⟩

/-- The messages of a transaction are those that its view shows. -/
theorem mem_ofTxn_messages {m : Message} :
    m ∈ ofTxn t c.messages ↔ m ∈ (c.view t).flight ∨ ∃ a, m ∈ (c.view t).log a := by
  simp only [Config.view, ofTxn, List.mem_filter, mem_messages, or_and_right, exists_and_right]

theorem Config.Settled.flight {readTs : UInt64} (h : c.Settled readTs) {m : Message}
    (hm : m ∈ c.flight) {ts : UInt64} (hTs : m.call.ts? = some ts) : readTs < ts := by
  simpa [hTs] using h.1 m hm

theorem Config.Settled.log {readTs : UInt64} (h : c.Settled readTs) {a : Bytes} {m : Message}
    (hm : m ∈ (c.shard a).log.drop (c.shard a).applied) {ts : UInt64} (hTs : m.call.ts? = some ts) :
    readTs < ts := by
  simpa [hTs] using h.2 _ (exists_entry_of_mem_log (List.mem_of_mem_drop hm)) m hm

end

/-! ## The messages of a decided transaction -/

section Decided

variable {r : Router} {serves : Bytes → Bool} {t : Bytes} {v : TxnView}

/-- The view of a transaction that is decided at a timestamp: its one-shot request or all its
prepares are in the logs, and every other message is a commit at the timestamp. -/
inductive Decided (r : Router) (t : Bytes) (v : TxnView) (ts : UInt64) (txn : Transaction) : Prop
  | oneShot (shard : Bytes) (intents : List WriteIntent)
      (hSingle : (groupByShard r txn.writes).entries = [(shard, intents)])
      (hLog : ∀ a, v.log a = if a = shard then [.oneShot shard intents t ts] else [])
      (hFlight : v.flight = [])
  | twoPhase
      (hLog : ∀ a, ∃ commits,
        v.log a = (writesAt r txn.writes a).map (prepareRequest t a) ++ commits ∧
          (commits ++ v.flight.filter fun m => m.shard = a).Perm
            ((writesAt r txn.writes a).map (commitRequest t ts a)))

/-- Only commits are in flight. -/
theorem Decided.ts?_of_mem_flight {ts : UInt64} {txn : Transaction} (h : Decided r t v ts txn)
    {m : Message} (hm : m ∈ v.flight) : m.call.ts? = some ts := by
  cases h with
  | oneShot shard intents hSingle hLog hFlight =>
    rw [hFlight] at hm
    cases hm
  | twoPhase hLog =>
    obtain ⟨commits, -, hPerm⟩ := hLog m.shard
    obtain ⟨w, -, hRequest⟩ := List.mem_map.mp
      (hPerm.mem_iff.mp (List.mem_append_right _ (List.mem_filter.mpr ⟨hm, by simp⟩)))
    rw [← hRequest]
    rfl

/-- A message in a log asks for no version or carries the timestamp. -/
theorem Decided.ts?_of_mem_log {ts : UInt64} {txn : Transaction} (h : Decided r t v ts txn)
    {a : Bytes} {m : Message} (hm : m ∈ v.log a) :
    m.call.ts? = none ∨ m.call.ts? = some ts := by
  cases h with
  | oneShot shard intents hSingle hLog hFlight =>
    rw [hLog a] at hm
    split_ifs at hm
    · rw [List.mem_singleton.mp hm]
      exact Or.inr rfl
    · cases hm
  | twoPhase hLog =>
    obtain ⟨commits, hLogA, hPerm⟩ := hLog a
    rw [hLogA] at hm
    rcases List.mem_append.mp hm with hm | hm
    · obtain ⟨w, -, rfl⟩ := List.mem_map.mp hm
      exact Or.inl rfl
    · obtain ⟨w, -, rfl⟩ := List.mem_map.mp (hPerm.mem_iff.mp (List.mem_append_left _ hm))
      exact Or.inr rfl

theorem Decided.ts? {ts : UInt64} {txn : Transaction} (h : Decided r t v ts txn) {m : Message}
    (hm : m ∈ v.flight ∨ ∃ a, m ∈ v.log a) : m.call.ts? = none ∨ m.call.ts? = some ts := by
  rcases hm with hm | ⟨a, hm⟩
  · exact Or.inr (h.ts?_of_mem_flight hm)
  · exact h.ts?_of_mem_log hm

/-- Once no commit is in flight, a message without the timestamp has one with it behind it in the
log. -/
theorem Decided.eq_nil_of_append {ts : UInt64} {txn : Transaction} (h : Decided r t v ts txn)
    (hFlight : v.flight = []) {a : Bytes} {front rest : List Message}
    (hLog : v.log a = front ++ rest) (hRest : ∀ m ∈ rest, m.call.ts? ≠ some ts) : rest = [] := by
  cases h with
  | oneShot shard intents hSingle hLog' _ =>
    refine List.eq_nil_iff_forall_not_mem.mpr fun m hm => hRest m hm ?_
    have hMem : m ∈ v.log a := hLog ▸ List.mem_append_right _ hm
    rw [hLog' a] at hMem
    split_ifs at hMem
    · rw [List.mem_singleton.mp hMem]
      rfl
    · cases hMem
  | twoPhase hLog' =>
    obtain ⟨commits, hLogA, hPerm⟩ := hLog' a
    rw [hFlight, List.filter_nil, List.append_nil] at hPerm
    rcases List.eq_nil_or_concat' rest with hNil | ⟨init, last, rfl⟩
    · exact hNil
    · rcases List.eq_nil_or_concat' commits with rfl | ⟨init', last', rfl⟩
      · -- no commits, so no prepares either
        rw [List.map_eq_nil_iff.mp hPerm.symm.eq_nil] at hLogA
        simp [hLogA] at hLog
      · rw [hLogA, ← List.append_assoc, ← List.append_assoc] at hLog
        obtain ⟨w, -, hLast⟩ := List.mem_map.mp (hPerm.mem_iff.mp (List.mem_append_right init'
          (List.mem_singleton_self last')))
        refine absurd ?_ (hRest last (by simp))
        rw [← List.singleton_inj.mp (List.append_inj' hLog rfl).2, ← hLast]
        rfl

/-- A transaction with a timestamp on a message is decided at that timestamp. -/
theorem Status.decided {ts : UInt64} {m : Message} (h : Status r serves t v)
    (hm : m ∈ v.flight ∨ ∃ a, m ∈ v.log a) (hTs : m.call.ts? = some ts) :
    ∃ txn, v.txn = some txn ∧ Decided r t v ts txn := by
  have hSame : ∀ {txn ts'}, Decided r t v ts' txn → Decided r t v ts txn := by
    intro txn ts' hDecided
    rcases hDecided.ts? hm with hNone | hSome
    · rw [hNone] at hTs
      cases hTs
    · rw [hSome] at hTs
      cases hTs
      exact hDecided
  have hStamped :
      ¬ ((∀ a, ∀ m ∈ v.log a, m.call.ts? = none) ∧ ∀ m ∈ v.flight, m.call.ts? = none) := by
    rintro ⟨hLog, hFlight⟩
    rcases hm with hm | ⟨a, hm⟩
    · rw [hFlight m hm] at hTs
      cases hTs
    · rw [hLog a m hm] at hTs
      cases hTs
  cases h with
  | idle _ _ hLog hFlight => exact absurd ⟨by simp [hLog], by simp [hFlight]⟩ hStamped
  | preparing txn iter done todo _ _ _ hAll _ hLog hFlight =>
    refine absurd ⟨fun a m hm => ?_, by simp [hFlight]⟩ hStamped
    rw [hLog a] at hm
    exact (ts?_of_mem_requests_prepare (hAll ▸ List.mem_append_left _ (List.mem_filter.mp hm).1)).2
  | oneShot _ _ _ _ _ _ _ hLog hFlight =>
    exact absurd ⟨by simp [hLog], by simp [hFlight]⟩ hStamped
  | oneShotSent txn shard intents ts' hTxn _ hSingle hLog hFlight =>
    exact ⟨txn, hTxn, hSame (.oneShot shard intents hSingle hLog hFlight)⟩
  | committed txn ts' hTxn _ _ _ hLog => exact ⟨txn, hTxn, hSame (.twoPhase hLog)⟩
  | aborted _ _ _ _ hLog hFlight => exact absurd ⟨hLog, hFlight⟩ hStamped

end Decided

/-! ## The versions of a decided transaction -/

section Versions

variable {r : Router} {serves : Bytes → Bool} {c : Config} {readTs : UInt64}

/-- The versions that the applied entries of a shard put in its tree. -/
def shardInstalls (s : ShardNode) : List Install :=
  newMemoryStore.runInstalls ((s.log.take s.applied).map Message.call)

/-- The versions of a transaction are computed from its messages that have been applied. -/
theorem installsOf_shardInstalls (h : Inv r serves c) (a t : Bytes) :
    installsOf t (shardInstalls (c.shard a)) =
      (ownRun (fun _ => none)
        ((ofTxn t ((c.shard a).log.take (c.shard a).applied)).map Message.call)).2 := by
  have hCalls : callsOf t (((c.shard a).log.take (c.shard a).applied).map Message.call) =
      (ofTxn t ((c.shard a).log.take (c.shard a).applied)).map Message.call := by
    simp only [callsOf, ofTxn, List.filter_map]
    congr 1
    exact List.filter_congr fun m _ => by simp
  rw [shardInstalls, (view_run ((h.shards a).granted t)).2, hCalls]
  rfl

/-- The messages of a decided transaction have all been applied, unless its timestamp is later. -/
theorem ofTxn_take_of_decided (hSettled : c.Settled readTs) {t : Bytes} {ts : UInt64}
    {txn : Transaction} (hDecided : Decided r t (c.view t) ts txn) (hTs : ts ≤ readTs) (a : Bytes) :
    (c.view t).flight = [] ∧
      ofTxn t ((c.shard a).log.take (c.shard a).applied) = (c.view t).log a := by
  have hSplit : ofTxn t ((c.shard a).log.take (c.shard a).applied) ++
      ofTxn t ((c.shard a).log.drop (c.shard a).applied) = (c.view t).log a := by
    rw [← ofTxn_append, List.take_append_drop]
    rfl
  have hRest : ∀ m ∈ ofTxn t ((c.shard a).log.drop (c.shard a).applied), m.call.ts? ≠ some ts :=
    fun m hm hStamp => absurd (hSettled.log (List.mem_filter.mp hm).1 hStamp) (not_lt.mpr hTs)
  have hNoFlight : ∀ m ∈ (c.view t).flight, m.call.ts? ≠ some ts :=
    fun m hm hStamp => absurd (hSettled.flight (List.mem_filter.mp hm).1 hStamp) (not_lt.mpr hTs)
  have hFlight : (c.view t).flight = [] :=
    List.eq_nil_iff_forall_not_mem.mpr fun m hm => hNoFlight m hm (hDecided.ts?_of_mem_flight hm)
  refine ⟨hFlight, ?_⟩
  rw [← hSplit, hDecided.eq_nil_of_append hFlight hSplit.symm hRest, List.append_nil]

theorem stamped_of_mem_shardInstalls (h : Inv r serves c) {a : Bytes} {i : Install}
    (hi : i ∈ shardInstalls (c.shard a)) :
    ∃ m ∈ ofTxn i.txnID c.messages, m.call.ts? = some i.ts := by
  have hOwn : i ∈ installsOf i.txnID (shardInstalls (c.shard a)) := mem_installsOf.mpr ⟨hi, rfl⟩
  rw [installsOf_shardInstalls h] at hOwn
  obtain ⟨call, hCall, hTs⟩ := ts?_of_mem_ownRun hOwn
  obtain ⟨m, hm, rfl⟩ := List.mem_map.mp hCall
  refine ⟨m, mem_ofTxn_messages.mpr (Or.inr ⟨a, ?_⟩), hTs⟩
  obtain ⟨hTake, hTxn⟩ := List.mem_filter.mp hm
  exact List.mem_filter.mpr ⟨List.mem_of_mem_take hTake, hTxn⟩

theorem decided_of_commitTs? (h : Inv r serves c) {t : Bytes} {ts : UInt64}
    (hTs : c.commitTs? t = some ts) :
    ∃ txn, c.coordinator.transactions.find? t = some txn ∧ Decided r t (c.view t) ts txn := by
  obtain ⟨m, hm, hStamp⟩ := List.exists_of_findSome?_eq_some hTs
  exact (h.status t).decided (mem_ofTxn_messages.mp hm) hStamp

theorem commitTs?_of_stamped (h : Inv r serves c) {t : Bytes} {ts : UInt64} {m : Message}
    (hm : m ∈ ofTxn t c.messages) (hStamp : m.call.ts? = some ts) : c.commitTs? t = some ts := by
  obtain ⟨txn, -, hDecided⟩ := (h.status t).decided (mem_ofTxn_messages.mp hm) hStamp
  cases hTs : c.commitTs? t with
  | none =>
    rw [List.findSome?_eq_none_iff.mp hTs m hm] at hStamp
    cases hStamp
  | some ts' =>
    obtain ⟨m', hm', hStamp'⟩ := List.exists_of_findSome?_eq_some hTs
    rcases hDecided.ts? (mem_ofTxn_messages.mp hm') with hNone | hSome
    · rw [hNone] at hStamp'
      cases hStamp'
    · exact hStamp'.symm.trans hSome

/-- What a decided transaction has installed at a shard: the last value of each key of the shard. -/
theorem lastBinding_of_decided (h : Inv r serves c) (hSettled : c.Settled readTs) {t : Bytes}
    {ts : UInt64} {txn : Transaction} (hDecided : Decided r t (c.view t) ts txn)
    (hTs : ts ≤ readTs) (a key : Bytes) :
    SortedMap.lastBinding ((installsOf t (shardInstalls (c.shard a))).map Install.binding) key =
      if r.locate key = a then lastValue txn.writes key else none := by
  obtain ⟨hFlight, hLog⟩ := ofTxn_take_of_decided hSettled hDecided hTs a
  rw [installsOf_shardInstalls h, hLog, ← lastValue_writesAt]
  cases hDecided with
  | oneShot shard intents hSingle hLog _ =>
    rw [hLog a, writesAt_of_single hSingle]
    split_ifs
    · simp only [List.map_cons, List.map_nil, Message.call, ownRun, Call.own, List.append_nil,
        List.map_map]
      rfl
    · rfl
  | twoPhase hLog =>
    obtain ⟨commits, hLogA, hPerm⟩ := hLog a
    rw [hFlight, List.filter_nil, List.append_nil] at hPerm
    obtain ⟨keys, hCommits, hKeys⟩ := calls_of_perm_commits hPerm
    have hCalls : ((c.view t).log a).map Message.call =
        ((writesAt r txn.writes a).map fun w => .prepare w.key (some w.value) t) ++
          keys.map fun k => .commit k t ts := by
      rw [hLogA, List.map_append, hCommits, List.map_map]
      rfl
    exact (ownRun_twoPhase t ts (fun _ _ => rfl) hKeys hCalls).2 key

theorem tree_eq_putVersions (h : Inv r serves c) (a : Bytes) :
    (c.shard a).store.tree = putVersions SortedMap.empty (shardInstalls (c.shard a)) := by
  rw [(h.shards a).store, tree_run]
  rfl

/-- A shard holds a version at a timestamp only if a transaction is decided at it. -/
theorem decided_of_find?_tree (h : Inv r serves c) {a key : Bytes} {ts : UInt64} {v : Slice}
    (hFind : (c.shard a).store.tree.find? (encodeKey key ts) = some v) :
    ∃ t txn, c.commitTs? t = some ts ∧ c.coordinator.transactions.find? t = some txn := by
  rw [tree_eq_putVersions h, find?_putVersions_eq, SortedMap.find?_empty, Option.or_none] at hFind
  obtain ⟨i, hi, hBinding⟩ := List.mem_map.mp (SortedMap.mem_of_lastBinding hFind)
  obtain ⟨m, hm, hStamp⟩ := stamped_of_mem_shardInstalls h hi
  rw [(encodeKey_inj (Prod.ext_iff.mp hBinding).1).2] at hStamp
  have hTs := commitTs?_of_stamped h hm hStamp
  obtain ⟨txn, hTxn, -⟩ := decided_of_commitTs? h hTs
  exact ⟨i.txnID, txn, hTs, hTxn⟩

/-- The version of a key at the timestamp of a transaction is the last value that the transaction
has for the key. -/
theorem find?_tree_of_decided (h : Inv r serves c) (hSettled : c.Settled readTs)
    (hDistinct : c.DistinctTs) {t : Bytes} {txn : Transaction} {ts : UInt64}
    (hCommit : c.commitTs? t = some ts) (hTxn : c.coordinator.transactions.find? t = some txn)
    (hTs : ts ≤ readTs) (a key : Bytes) :
    (c.shard a).store.tree.find? (encodeKey key ts) =
      if r.locate key = a then lastValue txn.writes key else none := by
  obtain ⟨txn', hTxn', hDecided⟩ := decided_of_commitTs? h hCommit
  rw [hTxn] at hTxn'
  cases hTxn'
  -- all versions at the timestamp are of the transaction
  have hOwner : ∀ i ∈ shardInstalls (c.shard a), i.ts = ts → i.txnID = t := by
    intro i hi hStamp
    obtain ⟨m, hm, hStamp'⟩ := stamped_of_mem_shardInstalls h hi
    have hCommit' := commitTs?_of_stamped h hm (hStamp ▸ hStamp')
    obtain ⟨txn', hTxn', -⟩ := decided_of_commitTs? h hCommit'
    exact hDistinct _ (SortedMap.mem_entries_iff.mpr hTxn') _ (SortedMap.mem_entries_iff.mpr hTxn)
      (by simp [hCommit']) (hCommit'.trans hCommit.symm)
  have hOwnTs : ∀ i ∈ installsOf t (shardInstalls (c.shard a)), i.ts = ts := by
    intro i hi
    obtain ⟨hMem, rfl⟩ := mem_installsOf.mp hi
    obtain ⟨m, hm, hStamp⟩ := stamped_of_mem_shardInstalls h hMem
    exact Option.some.inj ((commitTs?_of_stamped h hm hStamp).symm.trans hCommit)
  have hPairs : (installsOf t (shardInstalls (c.shard a))).map
        (fun i => (encodeKey i.key i.ts, i.value)) =
      ((installsOf t (shardInstalls (c.shard a))).map Install.binding).map
        fun e => (encodeKey e.1 ts, e.2) := by
    rw [List.map_map]
    refine List.map_congr_left fun i hi => ?_
    rw [hOwnTs i hi]
    rfl
  calc (c.shard a).store.tree.find? (encodeKey key ts)
      = SortedMap.lastBinding ((shardInstalls (c.shard a)).map
          fun i => (encodeKey i.key i.ts, i.value)) (encodeKey key ts) := by
        rw [tree_eq_putVersions h, find?_putVersions_eq, SortedMap.find?_empty, Option.or_none]
    _ = SortedMap.lastBinding ((installsOf t (shardInstalls (c.shard a))).map
          fun i => (encodeKey i.key i.ts, i.value)) (encodeKey key ts) := by
        refine (SortedMap.lastBinding_map_filter _ _ fun i hi hKey => ?_).symm
        simpa using hOwner i hi (encodeKey_inj hKey).2
    _ = if r.locate key = a then lastValue txn.writes key else none := by
        rw [hPairs, lastBinding_encodeKey, if_pos rfl,
          lastBinding_of_decided h hSettled hDecided hTs]

/-- The timeline has the writes of each decided transaction at its timestamp, and nothing else. -/
theorem find?_timeline_eq_some_iff (hDistinct : c.DistinctTs) {ts : UInt64}
    {writes : List (Bytes × Slice)} :
    c.timeline.find? ts = some writes ↔
      ∃ t txn, c.commitTs? t = some ts ∧ c.coordinator.transactions.find? t = some txn ∧
        writes = txn.writes.map WriteIntent.binding := by
  have hMem : ∀ writes, (ts, writes) ∈ c.decided ↔
      ∃ t txn, c.commitTs? t = some ts ∧ c.coordinator.transactions.find? t = some txn ∧
        writes = txn.writes.map WriteIntent.binding := by
    intro writes
    simp only [Config.decided, List.mem_filterMap, Option.map_eq_some_iff, Prod.mk.injEq,
      Prod.exists, SortedMap.mem_entries_iff]
    constructor
    · rintro ⟨t, txn, hTxn, ts', hTs, rfl, rfl⟩
      exact ⟨t, txn, hTs, hTxn, rfl⟩
    · rintro ⟨t, txn, hTs, hTxn, rfl⟩
      exact ⟨t, txn, hTxn, ts, hTs, rfl, rfl⟩
  rw [Config.timeline, SortedMap.find?_insertAll, SortedMap.find?_empty, Option.or_none, ← hMem]
  refine ⟨SortedMap.mem_of_lastBinding, fun hDecided => ?_⟩
  cases hLast : SortedMap.lastBinding c.decided ts with
  | none => exact absurd (List.mem_map_of_mem hDecided) (SortedMap.lastBinding_eq_none_iff.mp hLast)
  | some writes' =>
    obtain ⟨t, txn, hTs, hTxn, rfl⟩ := (hMem writes).mp hDecided
    obtain ⟨t', txn', hTs', hTxn', rfl⟩ := (hMem writes').mp (SortedMap.mem_of_lastBinding hLast)
    obtain rfl : t = t' := hDistinct _ (SortedMap.mem_entries_iff.mpr hTxn) _
      (SortedMap.mem_entries_iff.mpr hTxn') (by simp [hTs]) (hTs.trans hTs'.symm)
    rw [hTxn] at hTxn'
    cases hTxn'
    rfl

/-- A shard stores versions of keys in messages only. -/
theorem storesOnly_keys (h : Inv r serves c) (a : Bytes) {keys : Set Bytes}
    (hKeys : ∀ k ∈ c.keys, k ∈ keys) : StoresOnly keys (c.shard a).store where
  encoded := by
    rw [(h.shards a).store]
    exact MemoryStore.Reachable.encoded ⟨_, rfl⟩
  mem key ts v hVersion := by
    rw [MemoryStore.HasVersion, tree_eq_putVersions h, find?_putVersions_eq, SortedMap.find?_empty,
      Option.or_none] at hVersion
    obtain ⟨i, hi, hBinding⟩ := List.mem_map.mp (SortedMap.mem_of_lastBinding hVersion)
    rw [← (encodeKey_inj (Prod.ext_iff.mp hBinding).1).1]
    obtain ⟨call, hCall, s, hInstall⟩ := mem_runInstalls hi
    obtain ⟨m, hm, rfl⟩ := List.mem_map.mp hCall
    exact hKeys _ (List.mem_flatMap.mpr
      ⟨m, mem_messages.mpr (Or.inr ⟨a, List.mem_of_mem_take hm⟩), key_of_mem_installs hInstall⟩)

end Versions

/-- Two transactions on the same two shards. The second one is decided at a later timestamp, and
only one of the shards has got to know of it. -/
def twoDecided : List Label :=
  oneTransaction ++
    [.begin 2, .addWrite (ascii "txn-2") (ascii "k") (ascii "3"),
      .addWrite (ascii "txn-2") (ascii "z") (ascii "4"), .commit (ascii "txn-2") sortedOrder,
      .prepare (ascii "txn-2"), .prepare (ascii "txn-2"), .decide (ascii "txn-2") 9 sortedOrder,
      .apply (ascii "http://localhost:9001"), .deliver 1,
      .apply (ascii "http://localhost:9002"), .apply (ascii "http://localhost:9002")]

end ShardDB.Txn
