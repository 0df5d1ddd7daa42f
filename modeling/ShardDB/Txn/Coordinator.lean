import ShardDB.Routing.Router
import ShardDB.Shard.Entry

/-!
# The transaction coordinator

`internal/txn/coordinator.go`. The methods of `Coordinator` hold its mutex only around the
map of transactions; those sections are functions of their own here (`activeWrites`,
`setState`, the first part of `abort`), so that they can be interleaved with the network
calls that `Commit` makes between them. `commit` is a whole call.

A network call is a `Message` to the address of a shard. Requests that are waited for have a
reply, which is all that the coordinator learns of them; `COMMIT` and `ABORT` messages are
sent by goroutines of their own and their replies are not looked at.

The writes of a transaction are grouped by address in a Go map, over which the loops of
`Commit` range in an unspecified order (`MapOrder`). What a single shard is sent does not
depend on that order (`filter_requests`).
-/

namespace ShardDB.Txn

open ShardDB.Lib ShardDB.Storage ShardDB.Routing

/-- `TxnState`. -/
inductive TxnState where
  | active
  | committed
  | aborted
  deriving DecidableEq, Repr

/-- `WriteIntent`. -/
structure WriteIntent where
  key : Bytes
  value : Bytes
  deriving DecidableEq, Repr

/-- `Transaction`. Its start time is never read. -/
structure Transaction where
  id : Bytes
  state : TxnState
  writes : List WriteIntent
  deriving DecidableEq, Repr

/-- `Coordinator`. -/
structure Coordinator where
  transactions : SortedMap Bytes Transaction
  router : Router
  deriving DecidableEq

/-- `NewCoordinator`. -/
def newCoordinator (r : Router) : Coordinator := ⟨SortedMap.empty, r⟩

/-! ## Messages -/

/-- A request to the shard node at an address. -/
inductive Message where
  | prepare (shard key val txnID : Bytes)
  | commit (shard key txnID : Bytes) (ts : UInt64)
  | abort (shard key txnID : Bytes)
  | oneShot (shard : Bytes) (intents : List WriteIntent) (txnID : Bytes) (ts : UInt64)
  deriving DecidableEq, Repr

namespace Message

def shard : Message → Bytes
  | prepare shard _ _ _ => shard
  | commit shard _ _ _ => shard
  | abort shard _ _ => shard
  | oneShot shard _ _ _ => shard

def txnID : Message → Bytes
  | prepare _ _ _ txnID => txnID
  | commit _ _ txnID _ => txnID
  | abort _ _ txnID => txnID
  | oneShot _ _ txnID _ => txnID

/-- The engine call that the message is meant to cause. -/
def call : Message → Call
  | prepare _ key val txnID => .prepare key (some val) txnID
  | commit _ key txnID ts => .commit key txnID ts
  | abort _ key txnID => .abort key txnID
  | oneShot _ intents txnID ts =>
    .onePhaseCommit (intents.map fun w => ⟨w.key, some w.value⟩) txnID ts

@[simp]
theorem txnID_call (m : Message) : m.call.txnID = m.txnID := by
  cases m <;> rfl

end Message

/-! ## Grouping by shard -/

/-- The loop that fills `shardWrites`. -/
def groupByShard (r : Router) (writes : List WriteIntent) : SortedMap Bytes (List WriteIntent) :=
  writes.foldl
    (fun groups w =>
      groups.insert (r.locate w.key) ((groups.find? (r.locate w.key)).getD [] ++ [w]))
    SortedMap.empty

/-- The writes that belong on the shard at an address, in their order. -/
def writesAt (r : Router) (writes : List WriteIntent) (addr : Bytes) : List WriteIntent :=
  writes.filter fun w => r.locate w.key = addr

theorem writesAt_concat (r : Router) (writes : List WriteIntent) (w : WriteIntent) (addr : Bytes) :
    writesAt r (writes ++ [w]) addr =
      writesAt r writes addr ++ if r.locate w.key = addr then [w] else [] := by
  by_cases ha : r.locate w.key = addr <;> simp [writesAt, List.filter_append, ha]

theorem find?_groupByShard (r : Router) (writes : List WriteIntent) (addr : Bytes) :
    (groupByShard r writes).find? addr =
      if writesAt r writes addr = [] then none else some (writesAt r writes addr) := by
  induction writes using List.reverseRecOn with
  | nil => rfl
  | append_singleton writes w ih =>
    have hStep : groupByShard r (writes ++ [w]) =
        (groupByShard r writes).insert (r.locate w.key)
          (((groupByShard r writes).find? (r.locate w.key)).getD [] ++ [w]) := List.foldl_concat ..
    rw [hStep, SortedMap.find?_insert, writesAt_concat]
    by_cases ha : r.locate w.key = addr
    · subst ha
      rw [if_pos rfl, if_pos rfl, ih]
      by_cases hNil : writesAt r writes (r.locate w.key) = []
      · simp [hNil]
      · simp [hNil]
    · rw [if_neg (Ne.symm ha), if_neg ha, List.append_nil, ih]

/-- An order in which a Go map may be ranged over. -/
structure MapOrder where
  order : List (Bytes × List WriteIntent) → List (Bytes × List WriteIntent)
  perm : ∀ l, (order l).Perm l

/-- Range over the groups in the order of the addresses. -/
def sortedOrder : MapOrder := ⟨id, fun _ => List.Perm.refl _⟩

/-- The requests of a loop over the groups: one for every write. -/
def requests (request : Bytes → WriteIntent → Message)
    (groups : List (Bytes × List WriteIntent)) : List Message :=
  groups.flatMap fun g => g.2.map (request g.1)

theorem requests_cons (request : Bytes → WriteIntent → Message) (g : Bytes × List WriteIntent)
    (groups : List (Bytes × List WriteIntent)) :
    requests request (g :: groups) = g.2.map (request g.1) ++ requests request groups :=
  List.flatMap_cons

theorem exists_of_mem_requests {request : Bytes → WriteIntent → Message}
    {groups : List (Bytes × List WriteIntent)} {m : Message} (h : m ∈ requests request groups) :
    ∃ shard w, m = request shard w := by
  obtain ⟨g, -, hm⟩ := List.mem_flatMap.mp h
  obtain ⟨w, -, rfl⟩ := List.mem_map.mp hm
  exact ⟨g.1, w, rfl⟩

/-- A shard is sent one request for every write that belongs on it, in the order of the
writes, whatever the order of the groups. -/
theorem filter_requests {request : Bytes → WriteIntent → Message}
    (hShard : ∀ a w, (request a w).shard = a) (r : Router) (writes : List WriteIntent)
    (iter : MapOrder) (addr : Bytes) :
    (requests request (iter.order (groupByShard r writes).entries)).filter
        (fun m => m.shard = addr) =
      (writesAt r writes addr).map (request addr) := by
  have hFlat : ∀ groups : List (Bytes × List WriteIntent),
      (requests request groups).filter (fun m => m.shard = addr) =
        requests request (groups.filter fun g => g.1 = addr) := by
    intro groups
    induction groups with
    | nil => rfl
    | cons g groups ih =>
      rw [requests_cons, List.filter_append, ih]
      by_cases hg : g.1 = addr
      · rw [List.filter_cons_of_pos (by simpa using hg), requests_cons,
          List.filter_eq_self.mpr (by simp [hShard, hg])]
      · rw [List.filter_cons_of_neg (by simpa using hg),
          List.filter_eq_nil_iff.mpr (by simp [hShard, hg]), List.nil_append]
  rw [hFlat, SortedMap.filter_key_of_perm (iter.perm _) (fun g => decide_eq_true_iff),
    find?_groupByShard]
  split_ifs with hNil
  · rw [hNil]
    rfl
  · simp [requests]

/-- The requests that range over the groups are one for each write, to the shard of its key. -/
theorem mem_requests_iff {request : Bytes → WriteIntent → Message}
    (hShard : ∀ a w, (request a w).shard = a) {r : Router} {writes : List WriteIntent}
    {iter : MapOrder} {m : Message} :
    m ∈ requests request (iter.order (groupByShard r writes).entries) ↔
      ∃ w ∈ writes, m = request (r.locate w.key) w := by
  constructor
  · intro h
    have hMem : m ∈ (requests request (iter.order (groupByShard r writes).entries)).filter
        fun m' => m'.shard = m.shard := List.mem_filter.mpr ⟨h, by simp⟩
    rw [filter_requests hShard] at hMem
    obtain ⟨w, hw, hEq⟩ := List.mem_map.mp hMem
    obtain ⟨hw, hAddr⟩ := List.mem_filter.mp hw
    have hLocate : r.locate w.key = m.shard := by simpa using hAddr
    exact ⟨w, hw, by rw [hLocate, hEq]⟩
  · rintro ⟨w, hw, rfl⟩
    have hMem : request (r.locate w.key) w ∈
        (writesAt r writes (r.locate w.key)).map (request (r.locate w.key)) :=
      List.mem_map_of_mem (List.mem_filter.mpr ⟨hw, by simp⟩)
    rw [← filter_requests hShard r writes iter] at hMem
    exact (List.mem_filter.mp hMem).1

/-- The group of a single shard holds all writes, and no other shard has any. -/
theorem writesAt_of_single {r : Router} {writes intents : List WriteIntent} {shard : Bytes}
    (h : (groupByShard r writes).entries = [(shard, intents)]) (a : Bytes) :
    writesAt r writes a = if a = shard then intents else [] := by
  have hFind : ∀ v, (groupByShard r writes).find? a = some v ↔ (a, v) = (shard, intents) := by
    intro v
    rw [← SortedMap.mem_entries_iff, h, List.mem_singleton]
  rw [find?_groupByShard] at hFind
  split_ifs with ha
  · have hSome := (hFind intents).mpr (by rw [ha])
    split_ifs at hSome
    exact Option.some.inj hSome
  · by_contra hNe
    rw [if_neg hNe] at hFind
    exact ha (Prod.mk.inj ((hFind _).mp rfl)).1

/-- The single shard is the one that a write is routed to. -/
theorem exists_write_of_single {r : Router} {writes : List WriteIntent} {shard : Bytes}
    {intents : List WriteIntent} (h : (groupByShard r writes).entries = [(shard, intents)])
    (hWrites : writes ≠ []) : ∃ w ∈ writes, shard = r.locate w.key := by
  obtain ⟨w, rest, hCons⟩ := List.exists_cons_of_ne_nil hWrites
  have hw : w ∈ writes := hCons ▸ List.mem_cons_self
  have hMem : w ∈ writesAt r writes (r.locate w.key) := List.mem_filter.mpr ⟨hw, by simp⟩
  rw [writesAt_of_single h] at hMem
  split_ifs at hMem with hShard
  · exact ⟨w, hw, hShard.symm⟩
  · cases hMem

/-! ## The methods -/

namespace Coordinator

/-- `Begin`, at a clock reading in nanoseconds. -/
def begin (c : Coordinator) (now : UInt64) : Coordinator × Bytes :=
  let id := ascii "txn-" ++ decimal now.toNat
  ({ c with transactions := c.transactions.insert id ⟨id, .active, []⟩ }, id)

/-- `AddWrite`. -/
def addWrite (c : Coordinator) (txnID key value : Bytes) : Coordinator × Option Bytes :=
  match c.transactions.find? txnID with
  | none => (c, some (ascii "transaction not active"))
  | some txn =>
    if txn.state ≠ .active then (c, some (ascii "transaction not active"))
    else
      ({ c with transactions :=
          c.transactions.insert txnID { txn with writes := txn.writes ++ [⟨key, value⟩] } }, none)

/-- The first section of `Commit`: the writes of an active transaction are copied. -/
def activeWrites (c : Coordinator) (txnID : Bytes) : Except Bytes (List WriteIntent) :=
  match c.transactions.find? txnID with
  | none => .error (ascii "transaction not active")
  | some txn =>
    if txn.state ≠ .active then .error (ascii "transaction not active") else .ok txn.writes

/-- The sections that set the state of a transaction. -/
def setState (c : Coordinator) (txnID : Bytes) (state : TxnState) : Coordinator :=
  match c.transactions.find? txnID with
  | none => c
  | some txn => { c with transactions := c.transactions.insert txnID { txn with state := state } }

/-- `Abort`: the state is set whatever it was, and an `ABORT` is sent for every write. -/
def abort (c : Coordinator) (txnID : Bytes) : Coordinator × List Message × Option Bytes :=
  match c.transactions.find? txnID with
  | none => (c, [], some (ascii "unknown txn"))
  | some txn =>
    (c.setState txnID .aborted,
      txn.writes.map fun w => .abort (c.router.locate w.key) w.key txnID, none)

end Coordinator

/-- The request of `sendPrepare`. -/
def prepareRequest (txnID shard : Bytes) (w : WriteIntent) : Message :=
  .prepare shard w.key w.value txnID

/-- The request of `sendCommit`. -/
def commitRequest (txnID : Bytes) (ts : UInt64) (shard : Bytes) (w : WriteIntent) : Message :=
  .commit shard w.key txnID ts

/-- Send requests and wait for each reply, until one is an error. -/
def sendAll (reply : Message → Option Bytes) :
    List Message → List Message × Option (Message × Bytes)
  | [] => ([], none)
  | m :: rest =>
    match reply m with
    | some err => ([m], some (m, err))
    | none => (m :: (sendAll reply rest).1, (sendAll reply rest).2)

/-- The error of `Commit` after a failed prepare. -/
def prepareError (m : Message) (err : Bytes) : Bytes :=
  match m with
  | .prepare shard key _ _ =>
    ascii "prepare failed on " ++ shard ++ ascii " for key " ++ key ++ ascii ": " ++ err
  | _ => err

/-- What a call of `Commit` leaves: the coordinator, the requests it waited for in order,
the messages of its goroutines and the error it returns. -/
structure CommitRun where
  coordinator : Coordinator
  sent : List Message
  spawned : List Message
  err : Option Bytes

/-- `Commit`, when no other method of the coordinator runs meanwhile. `reply` gives the error
of a request, if any; `now` is the clock reading of the commit timestamp. -/
def Coordinator.commit (reply : Message → Option Bytes) (iter₁ iter₂ : MapOrder) (now : UInt64)
    (c : Coordinator) (txnID : Bytes) : CommitRun :=
  match c.activeWrites txnID with
  | .error err => ⟨c, [], [], some err⟩
  | .ok [] => ⟨c, [], [], none⟩
  | .ok writes =>
    let shardWrites := (groupByShard c.router writes).entries
    match shardWrites with
    | [(shard, intents)] =>
      let m := .oneShot shard intents txnID now
      match reply m with
      | some err => ⟨(c.abort txnID).1, [m], (c.abort txnID).2.1, some err⟩
      | none => ⟨c.setState txnID .committed, [m], [], none⟩
    | _ =>
      match sendAll reply (requests (prepareRequest txnID) (iter₁.order shardWrites)) with
      | (sent, some (m, err)) =>
        ⟨(c.abort txnID).1, sent, (c.abort txnID).2.1, some (prepareError m err)⟩
      | (sent, none) =>
        ⟨c.setState txnID .committed, sent,
          requests (commitRequest txnID now) (iter₂.order shardWrites), none⟩

theorem sendAll_of_ok {reply : Message → Option Bytes} {l : List Message}
    (h : ∀ m ∈ l, reply m = none) : sendAll reply l = (l, none) := by
  induction l with
  | nil => rfl
  | cons m l ih =>
    rw [sendAll, h m List.mem_cons_self, ih fun m hm => h m (List.mem_cons_of_mem _ hm)]

/-! ## What the methods do to a transaction -/

theorem find?_begin (c : Coordinator) (now : UInt64) (t : Bytes) :
    (c.begin now).1.transactions.find? t =
      if t = (c.begin now).2 then some ⟨(c.begin now).2, .active, []⟩
      else c.transactions.find? t := by
  split_ifs with ht
  · rw [ht]
    exact SortedMap.find?_insert_self ..
  · exact SortedMap.find?_insert_of_ne _ _ ht

/-- `AddWrite` adds the write to an active transaction, and is refused otherwise. -/
theorem addWrite_cases (c : Coordinator) (t key value : Bytes) :
    (∃ txn, c.transactions.find? t = some txn ∧ txn.state = .active ∧
      c.addWrite t key value =
        (⟨c.transactions.insert t { txn with writes := txn.writes ++ [⟨key, value⟩] }, c.router⟩,
          none)) ∨
      c.addWrite t key value = (c, some (ascii "transaction not active")) := by
  unfold Coordinator.addWrite
  cases hTxn : c.transactions.find? t with
  | none => exact Or.inr rfl
  | some txn =>
    by_cases hActive : txn.state = .active
    · exact Or.inl ⟨txn, rfl, hActive, if_neg (not_not.mpr hActive)⟩
    · exact Or.inr (if_pos hActive)

theorem find?_setState (c : Coordinator) (t : Bytes) (state : TxnState) (u : Bytes) :
    (c.setState t state).transactions.find? u =
      if u = t then (c.transactions.find? u).map fun txn => { txn with state := state }
      else c.transactions.find? u := by
  unfold Coordinator.setState
  cases hTxn : c.transactions.find? t with
  | none =>
    split_ifs with hu
    · rw [hu, hTxn, Option.map_none]
    · rfl
  | some txn =>
    dsimp only
    rw [SortedMap.find?_insert]
    split_ifs with hu
    · rw [hu, hTxn, Option.map_some]
    · rfl

theorem find?_setState_self {c : Coordinator} {t : Bytes} {txn : Transaction}
    (h : c.transactions.find? t = some txn) (state : TxnState) :
    (c.setState t state).transactions.find? t = some { txn with state := state } := by
  rw [find?_setState, if_pos rfl, h, Option.map_some]

theorem find?_setState_of_ne {c : Coordinator} {t t' : Bytes} (h : t' ≠ t) (state : TxnState) :
    (c.setState t' state).transactions.find? t = c.transactions.find? t := by
  rw [find?_setState, if_neg (Ne.symm h)]

/-- All that `Abort` does to the coordinator. -/
theorem coordinator_abort (c : Coordinator) (t : Bytes) :
    (c.abort t).1 = c.setState t .aborted := by
  unfold Coordinator.abort Coordinator.setState
  cases c.transactions.find? t <;> rfl

/-- The messages of `Abort`. -/
theorem mem_abort_iff {c : Coordinator} {t : Bytes} {m : Message} :
    m ∈ (c.abort t).2.1 ↔ ∃ txn, c.transactions.find? t = some txn ∧
      ∃ w ∈ txn.writes, m = .abort (c.router.locate w.key) w.key t := by
  unfold Coordinator.abort
  cases hTxn : c.transactions.find? t with
  | none => simp
  | some txn => simp [eq_comm]

theorem mem_abort {c : Coordinator} {t : Bytes} {m : Message} (h : m ∈ (c.abort t).2.1) :
    m.txnID = t ∧ m.call.ts? = none := by
  obtain ⟨txn, -, w, -, rfl⟩ := mem_abort_iff.mp h
  exact ⟨rfl, rfl⟩

/-! ## The router stays -/

theorem router_setState (c : Coordinator) (t : Bytes) (state : TxnState) :
    (c.setState t state).router = c.router := by
  unfold Coordinator.setState
  split <;> rfl

theorem router_abort (c : Coordinator) (t : Bytes) : (c.abort t).1.router = c.router := by
  unfold Coordinator.abort
  split
  · rfl
  · exact router_setState ..

theorem router_addWrite (c : Coordinator) (t key value : Bytes) :
    (c.addWrite t key value).1.router = c.router := by
  rcases addWrite_cases c t key value with ⟨txn, -, -, hAdd⟩ | hRefused
  · rw [hAdd]
  · rw [hRefused]

end ShardDB.Txn
