import ShardDB.Txn.Coordinator

/-!
# The coordinator and the shards

A system of one coordinator and the shard nodes it sends requests to, as a step function. A
step is one mutex-protected section of a coordinator method, one request with its reply, the
arrival of a message that a goroutine sent, or the application of the next log entry of a
shard. Nothing is lost and nobody crashes.

A shard answers a request with status 200 once its entry is proposed, so the coordinator
learns nothing about how the entry will be applied. A request to an address that nobody
serves, in particular to the empty address of a key without a shard, is an error.

A client runs at most one `Commit` call of a transaction at a time; calls of different
transactions are interleaved in any way.
-/

namespace ShardDB.Txn

open ShardDB.Lib ShardDB.Storage ShardDB.Routing ShardDB.Shard

/-- The data of the log entry that the handler of a request proposes. The query parameters
carry arbitrary bytes; the strings of a JSON body are coerced to valid UTF-8. -/
def Message.entry (libs : Libs) : Message → Bytes
  | prepare _ key val txnID => prepareEntry key val txnID
  | commit _ key txnID ts => commitEntry key txnID (decimal ts.toNat)
  | abort _ key txnID => abortEntry key txnID
  | oneShot _ intents txnID ts =>
    oneShotEntry (libs.marshal ⟨JsonString.ofBytes txnID, ts,
      intents.map fun w => ⟨JsonString.ofBytes w.key, JsonString.ofBytes w.value⟩⟩)

/-- A shard node: the requests whose entries it has proposed, in log order, how many of them
it has applied, and its store. -/
structure ShardNode where
  log : List Message
  applied : Nat
  store : MemoryStore
  deriving DecidableEq

/-- A shard that has just started. -/
def ShardNode.empty : ShardNode := ⟨[], 0, newMemoryStore⟩

/-- Where a running call of `Commit` is: before its one-shot request, after it, or in phase
one with the requests that are still to be sent. -/
inductive Pc where
  | oneShot (shard : Bytes) (intents : List WriteIntent)
  | oneShotSent
  | preparing (groups : List (Bytes × List WriteIntent)) (todo : List Message)
  deriving DecidableEq

/-- A state of the system. `flight` holds the messages of goroutines that have not arrived. -/
structure Config where
  coordinator : Coordinator
  calls : SortedMap Bytes Pc
  flight : List Message
  shards : SortedMap Bytes ShardNode
  deriving DecidableEq

/-- What may happen next. -/
inductive Label where
  | begin (now : UInt64)
  | addWrite (txnID key value : Bytes)
  | abort (txnID : Bytes)
  | commit (txnID : Bytes) (iter : MapOrder)
  | oneShot (txnID : Bytes) (now : UInt64)
  | finish (txnID : Bytes)
  | prepare (txnID : Bytes)
  | decide (txnID : Bytes) (now : UInt64) (iter : MapOrder)
  | deliver (i : Nat)
  | apply (addr : Bytes)

namespace Config

def start (r : Router) : Config := ⟨newCoordinator r, SortedMap.empty, [], SortedMap.empty⟩

def shard (c : Config) (addr : Bytes) : ShardNode :=
  (c.shards.find? addr).getD ShardNode.empty

def setShard (c : Config) (addr : Bytes) (s : ShardNode) : Config :=
  { c with shards := c.shards.insert addr s }

/-- The entry of a request enters the log of its shard. -/
def propose (c : Config) (m : Message) : Config :=
  c.setShard m.shard { c.shard m.shard with log := (c.shard m.shard).log ++ [m] }

/-- `Abort`, called by a client or by a failed `Commit`. -/
def abortTxn (c : Config) (txnID : Bytes) : Config :=
  { c with
    coordinator := (c.coordinator.abort txnID).1
    flight := c.flight ++ (c.coordinator.abort txnID).2.1 }

def setCall (c : Config) (txnID : Bytes) (pc : Pc) : Config :=
  { c with calls := c.calls.insert txnID pc }

/-- The call of `Commit` returns. -/
def endCall (c : Config) (txnID : Bytes) : Config := { c with calls := c.calls.erase txnID }

end Config

variable (libs : Libs) (serves : Bytes → Bool)

/-- The step function. Ids of transactions are distinct, so `begin` needs a clock reading
that no transaction has for its id. -/
def next (c : Config) : Label → Option Config
  | .begin now =>
    if (c.coordinator.transactions.find? (c.coordinator.begin now).2).isSome then none
    else some { c with coordinator := (c.coordinator.begin now).1 }
  | .addWrite txnID key value =>
    some { c with coordinator := (c.coordinator.addWrite txnID key value).1 }
  | .abort txnID => some (c.abortTxn txnID)
  | .commit txnID iter =>
    match c.calls.find? txnID with
    | some _ => none
    | none =>
      match c.coordinator.activeWrites txnID with
      | .error _ => some c
      | .ok [] => some c
      | .ok writes =>
        match (groupByShard c.coordinator.router writes).entries with
        | [(shard, intents)] => some (c.setCall txnID (.oneShot shard intents))
        | groups =>
          some (c.setCall txnID
            (.preparing groups (requests (prepareRequest txnID) (iter.order groups))))
  | .oneShot txnID now =>
    match c.calls.find? txnID with
    | some (.oneShot shard intents) =>
      if serves shard then
        some ((c.propose (.oneShot shard intents txnID now)).setCall txnID .oneShotSent)
      else some ((c.abortTxn txnID).endCall txnID)
    | _ => none
  | .finish txnID =>
    match c.calls.find? txnID with
    | some .oneShotSent =>
      some ({ c with coordinator := c.coordinator.setState txnID .committed }.endCall txnID)
    | _ => none
  | .prepare txnID =>
    match c.calls.find? txnID with
    | some (.preparing groups (m :: todo)) =>
      if serves m.shard then some ((c.propose m).setCall txnID (.preparing groups todo))
      else some ((c.abortTxn txnID).endCall txnID)
    | _ => none
  | .decide txnID now iter =>
    -- the state is set before the goroutines start, and they may be late in any case
    match c.calls.find? txnID with
    | some (.preparing groups []) =>
      some ({ c with
        coordinator := c.coordinator.setState txnID .committed
        flight := c.flight ++ requests (commitRequest txnID now) (iter.order groups) }.endCall txnID)
    | _ => none
  | .deliver i =>
    match c.flight[i]? with
    | none => none
    | some m =>
      if serves m.shard then some ({ c with flight := c.flight.eraseIdx i }.propose m)
      else some { c with flight := c.flight.eraseIdx i }
  | .apply addr =>
    match (c.shard addr).log[(c.shard addr).applied]? with
    | none => none
    | some m =>
      some (c.setShard addr
        { c.shard addr with
          applied := (c.shard addr).applied + 1
          store := ShardDB.Shard.apply libs (c.shard addr).store (m.entry libs) })

/-! ## What a step can do -/

/-- All that a step can do, with what it found in the state before it. -/
inductive Step (c : Config) : Label → Config → Prop
  | begin (now : UInt64)
      (hFresh : c.coordinator.transactions.find? (c.coordinator.begin now).2 = none) :
      Step c (.begin now) { c with coordinator := (c.coordinator.begin now).1 }
  | addWrite (t key value : Bytes) : Step c (.addWrite t key value)
      { c with coordinator := (c.coordinator.addWrite t key value).1 }
  | abort (t : Bytes) : Step c (.abort t) (c.abortTxn t)
  /-- The transaction is not active or has no writes. -/
  | refuse (t : Bytes) (iter : MapOrder) : Step c (.commit t iter) c
  | commit (t : Bytes) (iter : MapOrder) (writes : List WriteIntent) (pc : Pc)
      (hCall : c.calls.find? t = none) (hActive : c.coordinator.activeWrites t = .ok writes)
      (hPc : (∃ shard intents,
          (groupByShard c.coordinator.router writes).entries = [(shard, intents)] ∧
          pc = .oneShot shard intents) ∨
        pc = .preparing (groupByShard c.coordinator.router writes).entries
          (requests (prepareRequest t)
            (iter.order (groupByShard c.coordinator.router writes).entries))) :
      Step c (.commit t iter) (c.setCall t pc)
  | oneShot (t : Bytes) (now : UInt64) (shard : Bytes) (intents : List WriteIntent)
      (hCall : c.calls.find? t = some (.oneShot shard intents)) (hServed : serves shard = true) :
      Step c (.oneShot t now)
        ((c.propose (.oneShot shard intents t now)).setCall t .oneShotSent)
  | oneShotFails (t : Bytes) (now : UInt64) (shard : Bytes) (intents : List WriteIntent)
      (hCall : c.calls.find? t = some (.oneShot shard intents)) :
      Step c (.oneShot t now) ((c.abortTxn t).endCall t)
  | finish (t : Bytes) (hCall : c.calls.find? t = some .oneShotSent) : Step c (.finish t)
      ({ c with coordinator := c.coordinator.setState t .committed }.endCall t)
  | prepare (t : Bytes) (groups : List (Bytes × List WriteIntent)) (m : Message)
      (todo : List Message) (hCall : c.calls.find? t = some (.preparing groups (m :: todo)))
      (hServed : serves m.shard = true) :
      Step c (.prepare t) ((c.propose m).setCall t (.preparing groups todo))
  | prepareFails (t : Bytes) (groups : List (Bytes × List WriteIntent)) (m : Message)
      (todo : List Message) (hCall : c.calls.find? t = some (.preparing groups (m :: todo))) :
      Step c (.prepare t) ((c.abortTxn t).endCall t)
  | decide (t : Bytes) (now : UInt64) (iter : MapOrder) (groups : List (Bytes × List WriteIntent))
      (hCall : c.calls.find? t = some (.preparing groups [])) : Step c (.decide t now iter)
      ({ c with
        coordinator := c.coordinator.setState t .committed
        flight := c.flight ++ requests (commitRequest t now) (iter.order groups) }.endCall t)
  | deliver (i : Nat) (m : Message) (hFlight : c.flight[i]? = some m)
      (hServed : serves m.shard = true) :
      Step c (.deliver i) ({ c with flight := c.flight.eraseIdx i }.propose m)
  | drop (i : Nat) (m : Message) (hFlight : c.flight[i]? = some m)
      (hServed : serves m.shard ≠ true) :
      Step c (.deliver i) { c with flight := c.flight.eraseIdx i }
  | apply (addr : Bytes) (m : Message)
      (hEntry : (c.shard addr).log[(c.shard addr).applied]? = some m) :
      Step c (.apply addr) (c.setShard addr
        { c.shard addr with
          applied := (c.shard addr).applied + 1
          store := ShardDB.Shard.apply libs (c.shard addr).store (m.entry libs) })

theorem step_of_next {c c' : Config} {l : Label} (h : next libs serves c l = some c') :
    Step libs serves c l c' := by
  cases l with
  | begin now =>
    simp only [next] at h
    split_ifs at h with hFresh
    cases h
    exact .begin now (by simpa using hFresh)
  | addWrite t key value =>
    cases h
    exact .addWrite t key value
  | abort t =>
    cases h
    exact .abort t
  | commit t iter =>
    simp only [next] at h
    split at h
    · cases h
    · next hCall =>
      split at h
      · cases h
        exact .refuse t iter
      · cases h
        exact .refuse t iter
      · next writes _ hActive =>
        split at h
        · next shard intents hSingle =>
          cases h
          exact .commit t iter writes _ hCall hActive (Or.inl ⟨shard, intents, hSingle, rfl⟩)
        · cases h
          exact .commit t iter writes _ hCall hActive (Or.inr rfl)
  | oneShot t now =>
    simp only [next] at h
    split at h
    · next shard intents hCall =>
      split_ifs at h with hServed
      · cases h
        exact .oneShot t now shard intents hCall hServed
      · cases h
        exact .oneShotFails t now shard intents hCall
    · cases h
  | finish t =>
    simp only [next] at h
    split at h
    · next hCall =>
      cases h
      exact .finish t hCall
    · cases h
  | prepare t =>
    simp only [next] at h
    split at h
    · next groups m todo hCall =>
      split_ifs at h with hServed
      · cases h
        exact .prepare t groups m todo hCall hServed
      · cases h
        exact .prepareFails t groups m todo hCall
    · cases h
  | decide t now iter =>
    simp only [next] at h
    split at h
    · next groups hCall =>
      cases h
      exact .decide t now iter groups hCall
    · cases h
  | deliver i =>
    simp only [next] at h
    split at h
    · cases h
    · next m hFlight =>
      split_ifs at h with hServed
      · cases h
        exact .deliver i m hFlight hServed
      · cases h
        exact .drop i m hFlight hServed
  | apply addr =>
    simp only [next] at h
    split at h
    · cases h
    · next m hEntry =>
      cases h
      exact .apply addr m hEntry

/-! ## Runs -/

/-- A run of the system. -/
def run : Config → List Label → Option Config
  | c, [] => some c
  | c, l :: labels =>
    match next libs serves c l with
    | none => none
    | some c => run c labels

/-! ## Installed versions -/

/-- The versions that the applied entries of a shard installed for a transaction. -/
def installed (c : Config) (addr t : Bytes) : List Install :=
  installsOf t (newMemoryStore.runInstalls
    (logCalls libs (((c.shard addr).log.take (c.shard addr).applied).map (Message.entry libs))))

/-- Every message has arrived and every entry has been applied. -/
def Quiescent (c : Config) : Prop :=
  c.flight = [] ∧ ∀ addr, (c.shard addr).applied = (c.shard addr).log.length

end ShardDB.Txn
