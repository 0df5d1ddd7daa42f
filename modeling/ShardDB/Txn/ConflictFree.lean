import ShardDB.Storage.OnePhase
import ShardDB.Storage.Reads
import ShardDB.Txn.Coordinator

/-!
# A transaction without conflicts

One call of `Commit`, every request of which reaches its shard and is executed as the engine
call it stands for. When nobody holds a lock on a key of the transaction, the call ends in
the committed state and every shard holds, for each key routed to it, the last value
buffered for that key at the commit timestamp, and is otherwise as before. This does not
depend on the path (one request for a single shard, two phases for several), on the order in
which Go ranges over the groups, or on the order in which the `COMMIT` messages arrive.

Each shard is looked at alone. What it is sent is known from `filter_requests`; both paths
then write the batch of the shard (`run_twoPhase`).
-/

namespace ShardDB.Txn

open ShardDB.Lib ShardDB.Storage ShardDB.Routing

/-- The key and the value of a write. -/
def WriteIntent.binding (w : WriteIntent) : Bytes × Slice := (w.key, some w.value)

/-- The last value buffered for a key. -/
def lastValue (writes : List WriteIntent) (key : Bytes) : Option Slice :=
  SortedMap.lastBinding (writes.map WriteIntent.binding) key

theorem lastValue_eq_none_iff {writes : List WriteIntent} {key : Bytes} :
    lastValue writes key = none ↔ key ∉ writes.map WriteIntent.key := by
  rw [lastValue, SortedMap.lastBinding_eq_none_iff, List.map_map]
  rfl

theorem lastValue_concat (writes : List WriteIntent) (w : WriteIntent) (key : Bytes) :
    lastValue (writes ++ [w]) key =
      if w.key = key then some (some w.value) else lastValue writes key := by
  rw [lastValue, List.map_append, List.map_singleton, SortedMap.lastBinding_concat]
  by_cases hKey : w.key = key <;> simp [WriteIntent.binding, lastValue, hKey]

/-- Execute a message as an engine call at its shard. -/
def deliver (stores : Bytes → MemoryStore) (m : Message) : Bytes → MemoryStore :=
  Function.update stores m.shard (m.call.exec (stores m.shard)).1

def deliverAll (stores : Bytes → MemoryStore) (l : List Message) : Bytes → MemoryStore :=
  l.foldl deliver stores

/-- A shard runs the calls of the messages sent to it. -/
theorem deliverAll_apply (stores : Bytes → MemoryStore) (l : List Message) (a : Bytes) :
    deliverAll stores l a = (stores a).run ((l.filter fun m => m.shard = a).map Message.call) := by
  induction l generalizing stores with
  | nil => rfl
  | cons m l ih =>
    refine (ih (deliver stores m)).trans ?_
    by_cases hm : m.shard = a
    · rw [List.filter_cons_of_pos (by simpa using hm), deliver, hm, Function.update_self]
      rfl
    · rw [List.filter_cons_of_neg (by simpa using hm), deliver, Function.update_of_ne (Ne.symm hm)]

theorem deliverAll_append (stores : Bytes → MemoryStore) (l l' : List Message) :
    deliverAll (deliverAll stores l) l' = deliverAll stores (l ++ l') :=
  (List.foldl_append ..).symm

/-- The store has, at one timestamp, the last value of every key that was written, and is
otherwise as before. -/
structure CommitsLast (writes : List WriteIntent) (ts : UInt64) (before after : MemoryStore) :
    Prop where
  locks : after.locks = before.locks
  version : ∀ key v, lastValue writes key = some v → after.HasVersion key ts v
  other : ∀ j, (∀ w ∈ writes, j ≠ encodeKey w.key ts) → after.tree.find? j = before.tree.find? j

/-! ## One shard -/

/-- The operation of a write in a batch. -/
def WriteIntent.op (w : WriteIntent) : BatchOp := ⟨w.key, some w.value⟩

theorem freeFor_ops {s : MemoryStore} (t : Bytes) {writes : List WriteIntent}
    (hFree : ∀ w ∈ writes, s.locks.find? w.key = none) :
    ∀ op ∈ writes.map WriteIntent.op, s.FreeFor t op.key := by
  intro op hop lock hLock
  obtain ⟨w, hw, rfl⟩ := List.mem_map.mp hop
  exact absurd ((hFree w hw).symm.trans hLock) (by simp)

/-- Writing a batch on keys that nobody locks. -/
theorem commitsLast_install {s : MemoryStore} (ts : UInt64) {writes : List WriteIntent}
    (hFree : ∀ w ∈ writes, s.locks.find? w.key = none) :
    CommitsLast writes ts s ((writes.map WriteIntent.op).foldl (MemoryStore.install ts) s) := by
  have hKeys : (writes.map WriteIntent.op).map BatchOp.key = writes.map WriteIntent.key := by
    rw [List.map_map]
    rfl
  have hFind : ∀ j, ((writes.map WriteIntent.op).foldl (MemoryStore.install ts) s).tree.find? j =
      (SortedMap.lastBinding ((writes.map WriteIntent.binding).map
        fun e => (encodeKey e.1 ts, e.2)) j).or (s.tree.find? j) := by
    intro j
    rw [tree_foldl_install [] ts, find?_putVersions_eq, List.map_map, List.map_map, List.map_map]
    rfl
  refine ⟨?_, ?_, ?_⟩
  · ext1 k
    rw [MemoryStore.locks_foldl_install, hKeys]
    split_ifs with hk
    · obtain ⟨w, hw, rfl⟩ := List.mem_map.mp hk
      exact (hFree w hw).symm
    · rfl
  · intro key v hLast
    have hInj : Function.Injective fun k => encodeKey k ts := fun _ _ h => (encodeKey_inj h).1
    rw [MemoryStore.HasVersion, hFind, SortedMap.lastBinding_map_key hInj, ← lastValue, hLast]
    rfl
  · intro j hj
    have hNone : SortedMap.lastBinding ((writes.map WriteIntent.binding).map
        fun e => (encodeKey e.1 ts, e.2)) j = none := by
      rw [SortedMap.lastBinding_eq_none_iff, List.map_map, List.map_map]
      intro hMem
      obtain ⟨w, hw, rfl⟩ := List.mem_map.mp hMem
      exact hj w hw rfl
    rw [hFind, hNone]
    rfl

/-- The calls of two phases, seen from a transaction without intents on its keys. -/
theorem ownRun_twoPhase (t : Bytes) (ts : UInt64) {m : Bytes → Option Slice}
    {writes : List WriteIntent} (hNone : ∀ w ∈ writes, m w.key = none) {keys : List Bytes}
    (hKeys : ∀ k, k ∈ keys ↔ k ∈ writes.map WriteIntent.key) {calls : List Call}
    (hCalls : calls = (writes.map fun w => .prepare w.key (some w.value) t) ++
      keys.map fun k => .commit k t ts) :
    (∀ w ∈ writes, (ownRun m calls).1 w.key = none) ∧
      ∀ key, SortedMap.lastBinding ((ownRun m calls).2.map Install.binding) key =
        lastValue writes key := by
  have hPrepares : (writes.map fun w => Call.prepare w.key (some w.value) t) =
      (writes.map WriteIntent.binding).map fun e => .prepare e.1 e.2 t := by
    rw [List.map_map]
    rfl
  rw [hCalls, hPrepares, ownRun_append, ownRun_prepares, List.nil_append]
  refine ⟨fun w hw => ?_, fun key => ?_⟩
  · rw [(ownRun_commits t ts _ keys w.key).1, if_pos ((hKeys _).mpr (List.mem_map_of_mem hw))]
  · rw [(ownRun_commits t ts _ keys key).2]
    by_cases hKey : key ∈ keys
    · obtain ⟨w, hw, rfl⟩ := List.mem_map.mp ((hKeys key).mp hKey)
      rw [if_pos hKey]
      dsimp only
      rw [hNone w hw, Option.or_none]
      rfl
    · rw [if_neg hKey]
      exact (lastValue_eq_none_iff.mpr fun h => hKey ((hKeys key).mpr h)).symm

/-- Two phases on one shard. -/
theorem commitsLast_twoPhase {s : MemoryStore} (t : Bytes) (ts : UInt64)
    {writes : List WriteIntent} (hFree : ∀ w ∈ writes, s.locks.find? w.key = none)
    {keys : List Bytes} (hKeys : ∀ k, k ∈ keys ↔ k ∈ writes.map WriteIntent.key) :
    CommitsLast writes ts s
      (s.run ((writes.map fun w => .prepare w.key (some w.value) t) ++
        keys.map fun k => .commit k t ts)) := by
  have hPrepares : (writes.map fun w => Call.prepare w.key (some w.value) t) =
      prepareCalls t (writes.map WriteIntent.op) := by
    rw [prepareCalls, List.map_map]
    rfl
  have hOrder : ∀ k, k ∈ keys ↔ k ∈ (writes.map WriteIntent.op).map BatchOp.key := by
    rw [List.map_map]
    exact hKeys
  rw [hPrepares, run_twoPhase ts (freeFor_ops t hFree) hOrder]
  exact commitsLast_install ts hFree

/-- The calls of the `COMMIT` messages of a shard, in the order of their arrival. -/
theorem calls_of_perm_commits {t a : Bytes} {ts : UInt64} {writes : List WriteIntent}
    {l : List Message} (h : l.Perm (writes.map (commitRequest t ts a))) :
    ∃ keys : List Bytes, l.map Message.call = keys.map (fun k => .commit k t ts) ∧
      ∀ k, k ∈ keys ↔ k ∈ writes.map WriteIntent.key := by
  refine ⟨l.map fun m => m.call.keys.headD [], ?_, fun k => ?_⟩
  · rw [List.map_map]
    refine List.map_congr_left fun m hm => ?_
    obtain ⟨w, -, rfl⟩ := List.mem_map.mp (h.mem_iff.mp hm)
    rfl
  · rw [(h.map _).mem_iff, List.map_map]
    rfl

/-- A one-phase commit on one shard. -/
theorem commitsLast_onePhase {s : MemoryStore} (t : Bytes) (ts : UInt64)
    {writes : List WriteIntent} (hFree : ∀ w ∈ writes, s.locks.find? w.key = none) :
    CommitsLast writes ts s
      (s.run [.onePhaseCommit (writes.map fun w => ⟨w.key, some w.value⟩) t ts]) := by
  have hRun : s.run [.onePhaseCommit (writes.map WriteIntent.op) t ts] =
      (writes.map WriteIntent.op).foldl (MemoryStore.install ts) s :=
    congrArg Prod.fst (MemoryStore.onePhaseCommit_of_free ts (freeFor_ops t hFree))
  change CommitsLast writes ts s (s.run [.onePhaseCommit (writes.map WriteIntent.op) t ts])
  rw [hRun]
  exact commitsLast_install ts hFree

/-! ## The whole transaction -/

theorem lastValue_writesAt (r : Router) (writes : List WriteIntent) (key addr : Bytes) :
    lastValue (writesAt r writes addr) key =
      if r.locate key = addr then lastValue writes key else none := by
  induction writes using List.reverseRecOn with
  | nil => exact (ite_self _).symm
  | append_singleton writes w ih =>
    rw [writesAt_concat, lastValue_concat]
    by_cases hAddr : r.locate w.key = addr
    · rw [if_pos hAddr, lastValue_concat, ih]
      by_cases hKey : w.key = key
      · rw [if_pos hKey, if_pos hKey, if_pos (hKey ▸ hAddr)]
      · rw [if_neg hKey, if_neg hKey]
    · rw [if_neg hAddr, List.append_nil, ih]
      by_cases hKey : w.key = key
      · rw [if_neg (hKey ▸ hAddr), if_neg (hKey ▸ hAddr)]
      · rw [if_neg hKey]

theorem commit_of_single {c : Coordinator} {txnID : Bytes} {writes intents : List WriteIntent}
    {shard : Bytes} {reply : Message → Option Bytes} {now : UInt64}
    (hActive : c.activeWrites txnID = .ok writes) (hWrites : writes ≠ [])
    (hSingle : (groupByShard c.router writes).entries = [(shard, intents)])
    (hReply : reply (.oneShot shard intents txnID now) = none) (iter₁ iter₂ : MapOrder) :
    c.commit reply iter₁ iter₂ now txnID =
      ⟨c.setState txnID .committed, [.oneShot shard intents txnID now], [], none⟩ := by
  obtain ⟨w, rest, rfl⟩ := List.exists_cons_of_ne_nil hWrites
  simp only [Coordinator.commit, hActive, hSingle, hReply]

theorem commit_of_several {c : Coordinator} {txnID : Bytes} {writes : List WriteIntent}
    {reply : Message → Option Bytes} (hActive : c.activeWrites txnID = .ok writes)
    (hWrites : writes ≠ []) (hSeveral : ∀ g, (groupByShard c.router writes).entries ≠ [g])
    {iter₁ : MapOrder}
    (hReply : ∀ m ∈ requests (prepareRequest txnID) (iter₁.order (groupByShard c.router writes).entries),
      reply m = none) (iter₂ : MapOrder) (now : UInt64) :
    c.commit reply iter₁ iter₂ now txnID =
      ⟨c.setState txnID .committed,
        requests (prepareRequest txnID) (iter₁.order (groupByShard c.router writes).entries),
        requests (commitRequest txnID now) (iter₂.order (groupByShard c.router writes).entries),
        none⟩ := by
  obtain ⟨w, rest, rfl⟩ := List.exists_cons_of_ne_nil hWrites
  simp only [Coordinator.commit, hActive]
  split
  · next shard intents hSingle => exact absurd hSingle (hSeveral _)
  · rw [sendAll_of_ok hReply]

section Delivered

variable {r : Router} {writes : List WriteIntent} {stores : Bytes → MemoryStore}
  (hFree : ∀ a, ∀ w ∈ writesAt r writes a, (stores a).locks.find? w.key = none)
  (txnID : Bytes) (now : UInt64)

include hFree

/-- The one request of a transaction on one shard commits its writes there and leaves the other
shards alone. -/
theorem commitsLast_of_oneShot {shard : Bytes} {intents : List WriteIntent}
    (hSingle : (groupByShard r writes).entries = [(shard, intents)]) (a : Bytes) :
    CommitsLast (writesAt r writes a) now (stores a)
      (deliverAll stores [.oneShot shard intents txnID now] a) := by
  have hFreeA := hFree a
  rw [deliverAll_apply]
  rw [writesAt_of_single hSingle a] at hFreeA ⊢
  split_ifs at hFreeA ⊢ with ha
  · rw [List.filter_eq_self.mpr (by simp [Message.shard, ha])]
    exact commitsLast_onePhase txnID now hFreeA
  · rw [List.filter_eq_nil_iff.mpr (by simp [Message.shard, Ne.symm ha])]
    exact ⟨rfl, fun key v hLast => (Option.some_ne_none v hLast.symm).elim, fun j _ => rfl⟩

/-- The prepares, and the commits in any order, commit the writes of every shard. -/
theorem commitsLast_of_delivery (iter₁ : MapOrder) {iter₂ : MapOrder} {delivery : List Message}
    (hDelivery : delivery.Perm
      (requests (commitRequest txnID now) (iter₂.order (groupByShard r writes).entries)))
    (a : Bytes) :
    CommitsLast (writesAt r writes a) now (stores a)
      (deliverAll (deliverAll stores
        (requests (prepareRequest txnID) (iter₁.order (groupByShard r writes).entries)))
        delivery a) := by
  rw [deliverAll_append, deliverAll_apply, List.filter_append, List.map_append,
    filter_requests (fun _ _ => rfl)]
  have hPerm := hDelivery.filter fun m => m.shard = a
  rw [filter_requests (fun _ _ => rfl)] at hPerm
  obtain ⟨keys, hCalls, hKeys⟩ := calls_of_perm_commits hPerm
  rw [hCalls, List.map_map]
  exact commitsLast_twoPhase txnID now (hFree a) hKeys

end Delivered

theorem commit_commitsLast {c : Coordinator} {txnID : Bytes} {txn : Transaction}
    (hTxn : c.transactions.find? txnID = some txn) (hState : txn.state = .active)
    (hWrites : txn.writes ≠ [])
    (hAddr : ∀ w ∈ txn.writes, (c.router.shardAddrs.find? (c.router.getShardID w.key)).isSome = true)
    {reply : Message → Option Bytes}
    (hReply : ∀ m id, c.router.shardAddrs.find? id = some m.shard → reply m = none)
    {stores : Bytes → MemoryStore}
    (hFree : ∀ a, ∀ w ∈ txn.writes, (stores a).locks.find? w.key = none)
    (iter₁ iter₂ : MapOrder) (now : UInt64) {delivery : List Message}
    (hDelivery : delivery.Perm (c.commit reply iter₁ iter₂ now txnID).spawned) :
    ((c.commit reply iter₁ iter₂ now txnID).err = none ∧
      (c.commit reply iter₁ iter₂ now txnID).coordinator.transactions.find? txnID =
        some { txn with state := .committed }) ∧
    ∀ a, CommitsLast (writesAt c.router txn.writes a) now (stores a)
      (deliverAll (deliverAll stores (c.commit reply iter₁ iter₂ now txnID).sent) delivery a) := by
  have hActive : c.activeWrites txnID = .ok txn.writes := by
    simp [Coordinator.activeWrites, hTxn, hState]
  have hServed : ∀ m : Message, (∃ w ∈ txn.writes, m.shard = c.router.locate w.key) →
      reply m = none := by
    rintro m ⟨w, hw, hm⟩
    obtain ⟨addr, hFind⟩ := Option.isSome_iff_exists.mp (hAddr w hw)
    exact hReply m (c.router.getShardID w.key) (by rw [hm, Router.locate, hFind]; rfl)
  have hFreeAt : ∀ a, ∀ w ∈ writesAt c.router txn.writes a, (stores a).locks.find? w.key = none :=
    fun a w hw => hFree a w (List.mem_filter.mp hw).1
  by_cases hSingle : ∃ g, (groupByShard c.router txn.writes).entries = [g]
  · obtain ⟨⟨shard, intents⟩, hSingle⟩ := hSingle
    have hOk : reply (.oneShot shard intents txnID now) = none :=
      hServed _ (exists_write_of_single hSingle hWrites)
    rw [commit_of_single hActive hWrites hSingle hOk] at hDelivery ⊢
    obtain rfl := hDelivery.eq_nil
    exact ⟨⟨rfl, find?_setState_self hTxn _⟩, commitsLast_of_oneShot hFreeAt txnID now hSingle⟩
  · have hSeveral : ∀ g, (groupByShard c.router txn.writes).entries ≠ [g] :=
      fun g hg => hSingle ⟨g, hg⟩
    have hOk : ∀ m ∈ requests (prepareRequest txnID)
        (iter₁.order (groupByShard c.router txn.writes).entries), reply m = none := by
      intro m hm
      obtain ⟨w, hw, rfl⟩ := (mem_requests_iff fun _ _ => rfl).mp hm
      exact hServed _ ⟨w, hw, rfl⟩
    rw [commit_of_several hActive hWrites hSeveral hOk] at hDelivery ⊢
    exact ⟨⟨rfl, find?_setState_self hTxn _⟩,
      commitsLast_of_delivery hFreeAt txnID now iter₁ hDelivery⟩

/-- A conflict-free transaction is committed, and every shard holds the last value of every
key routed to it at the commit timestamp and nothing else that is new. -/
theorem commit_conflictFree {c : Coordinator} {txnID : Bytes} {txn : Transaction}
    (hTxn : c.transactions.find? txnID = some txn) (hState : txn.state = .active)
    (hWrites : txn.writes ≠ [])
    (hAddr : ∀ w ∈ txn.writes, (c.router.shardAddrs.find? (c.router.getShardID w.key)).isSome = true)
    {reply : Message → Option Bytes}
    (hReply : ∀ m id, c.router.shardAddrs.find? id = some m.shard → reply m = none)
    {stores : Bytes → MemoryStore}
    (hFree : ∀ a, ∀ w ∈ txn.writes, (stores a).locks.find? w.key = none)
    (iter₁ iter₂ : MapOrder) (now : UInt64) {delivery : List Message}
    (hDelivery : delivery.Perm (c.commit reply iter₁ iter₂ now txnID).spawned)
    {final : Bytes → MemoryStore}
    (hFinal : final =
      deliverAll (deliverAll stores (c.commit reply iter₁ iter₂ now txnID).sent) delivery) :
    (c.commit reply iter₁ iter₂ now txnID).err = none ∧
      (c.commit reply iter₁ iter₂ now txnID).coordinator.transactions.find? txnID =
        some { txn with state := .committed } ∧
      ∀ a, (final a).locks = (stores a).locks ∧
        (∀ key v, c.router.locate key = a → lastValue txn.writes key = some v →
          (final a).HasVersion key now v) ∧
        (∀ j, (∀ w ∈ txn.writes, c.router.locate w.key = a → j ≠ encodeKey w.key now) →
          (final a).tree.find? j = (stores a).tree.find? j) ∧
        ((∀ w ∈ txn.writes, c.router.locate w.key ≠ a) → final a = stores a) := by
  subst hFinal
  obtain ⟨⟨hErr, hCommitted⟩, hShards⟩ := commit_commitsLast hTxn hState hWrites hAddr hReply hFree
    iter₁ iter₂ now hDelivery
  refine ⟨hErr, hCommitted, fun a => ?_⟩
  obtain ⟨hLocks, hVersion, hOther⟩ := hShards a
  have hOther' : ∀ j, (∀ w ∈ txn.writes, c.router.locate w.key = a → j ≠ encodeKey w.key now) →
      _ := fun j hj => hOther j fun w hw =>
        hj w (List.mem_filter.mp hw).1 (by simpa using (List.mem_filter.mp hw).2)
  refine ⟨hLocks, fun key v hKey hLast => ?_, hOther', fun hNone => ?_⟩
  · exact hVersion key v (by rw [lastValue_writesAt, if_pos hKey, hLast])
  · refine MemoryStore.ext ?_ hLocks
    ext1 j
    exact hOther' j fun w hw hLocate => absurd hLocate (hNone w hw)

/-- A transaction that writes one key twice and a key of another shard. -/
def repeatedWrite : Coordinator where
  transactions := SortedMap.empty.insert (ascii "txn-1")
    ⟨ascii "txn-1", .active, [⟨ascii "k", ascii "1"⟩, ⟨ascii "z", ascii "2"⟩, ⟨ascii "k", ascii "3"⟩]⟩
  router := splitRouter

/-- The last value of the repeated key is committed when the `COMMIT` messages arrive in
reverse. -/
theorem commit_conflictFree_repeatedWrite :
    (deliverAll
      (deliverAll (fun _ => newMemoryStore)
        (repeatedWrite.commit (fun _ => none) sortedOrder sortedOrder 7 (ascii "txn-1")).sent)
      (repeatedWrite.commit (fun _ => none) sortedOrder sortedOrder 7 (ascii "txn-1")).spawned.reverse
      (ascii "http://localhost:9001")).HasVersion (ascii "k") 7 (some (ascii "3")) := by
  have hAll := @commit_conflictFree repeatedWrite (ascii "txn-1") _ rfl rfl (by simp) (by decide)
    (fun _ => none) (fun _ _ _ => rfl) (fun _ => newMemoryStore) (fun _ _ _ => rfl)
    sortedOrder sortedOrder 7 _ (List.reverse_perm _) _ rfl
  exact (hAll.2.2 (ascii "http://localhost:9001")).2.1 _ _ (by decide) (by decide)

end ShardDB.Txn
