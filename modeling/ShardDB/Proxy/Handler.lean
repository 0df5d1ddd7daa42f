import ShardDB.Sql.Planner
import ShardDB.Txn.System

/-!
# The proxy

The `/execute` handler of `cmd/proxy/main.go`. What it does with a request is decided from the
text and the parameters alone (`dispatch`): a transaction command goes to the coordinator, an
`INSERT` of at least two values with a transaction id is buffered there, and everything else is
forwarded to one shard or to all. `handle` then carries out the decision.

The network is a parameter (`Net`), and the effect on the shards is the list of log entries that
the requests may lead to (`Proposal`). A forwarded statement is proposed by the `/execute`
handler of the shard as it is, whether it reads or writes.
-/

namespace ShardDB.Proxy

open ShardDB.Lib ShardDB.Storage ShardDB.Routing ShardDB.Sql ShardDB.Txn

/-- What the proxy and the shards use from outside. Both parse with the same library. -/
structure Libs where
  parser : SqlParser
  shard : Shard.Libs
  parseToPlan_shard : shard.parseToPlan = parseToPlan parser
  trimSpace : Bytes → Bytes
  toUpper : Bytes → Bytes
  /-- `json.Unmarshal` to rows of strings. -/
  decodeRows : Bytes → Option (List Row)

/-- The parameters of a request that the handler reads, and its body. -/
structure Request where
  sql : Bytes
  body : Bytes
  txn : Bytes
  routingKey : Bytes

/-- The statement of a request: the parameter, or the body if there is none. -/
def Request.sqlStr (req : Request) : Bytes := if req.sql = [] then req.body else req.sql

/-- What the handler does. -/
inductive Action where
  | begin
  | commit (txnID : Bytes)
  | rollback (txnID : Bytes)
  | addWrite (txnID key value : Bytes)
  | broadcast (sql : Bytes)
  | single (shardID : UInt64) (sql : Bytes)
  | reject (status : Nat) (text : Bytes)
  deriving DecidableEq

variable (libs : Libs)

/-- The statement in the form in which it is compared with the transaction commands. -/
def upperParams (sqlStr : Bytes) : Bytes := libs.toUpper (libs.trimSpace sqlStr)

/-- The key and the value of an `INSERT` that can be buffered. -/
def bufferedWrite? : PlanNode → Option (Bytes × Bytes)
  | .insert table _ (rawKey :: val :: _) => some (rowKey table rawKey, val)
  | _ => none

/-- The key that selects the shard; an empty one is replaced. -/
def routeKey (key : Bytes) : Bytes := if key = [] then ascii "default" else key

/-- Step 4 of the handler: planner, hint and routing. -/
def route (r : Router) (req : Request) : Action :=
  let pln : Plan :=
    match analyze libs.parser req.sqlStr with
    | .error _ => .broadcast
    | .ok pln => pln
  let pln : Plan := if req.routingKey = [] then pln else .single req.routingKey
  match pln with
  | .broadcast => .broadcast req.sqlStr
  | .single key => .single (r.getShardID (routeKey key)) req.sqlStr

/-- The decision of the handler. -/
def dispatch (r : Router) (req : Request) : Action :=
  if upperParams libs req.sqlStr = ascii "BEGIN" then .begin
  else if upperParams libs req.sqlStr = ascii "COMMIT" then
    if req.txn = [] then .reject 400 (ascii "COMMIT without txn param") else .commit req.txn
  else if upperParams libs req.sqlStr = ascii "ROLLBACK" then
    if req.txn = [] then .reject 400 (ascii "ROLLBACK without txn param") else .rollback req.txn
  else
    match parseToPlan libs.parser req.sqlStr with
    | .error err => .reject 400 (ascii "Proxy Parse Error: " ++ err)
    | .ok plan =>
      match bufferedWrite? plan with
      | some (key, val) =>
        if req.txn = [] then route libs r req else .addWrite req.txn key val
      | none => route libs r req

/-! ## Carrying out the decision -/

/-- The shards of a broadcast. -/
def shardIDs : List UInt64 := [1, 2, 3]

/-- The network and the clock during a request. -/
structure Net where
  now : UInt64
  reply : Message → Option Bytes
  iter₁ : MapOrder
  iter₂ : MapOrder
  /-- What a statement posted to an address returns, the body or an error. -/
  post : Bytes → Bytes → Except Bytes Bytes
  /-- The order in which the shards of a broadcast answer. -/
  arrival : List UInt64
  arrival_perm : arrival.Perm shardIDs

/-- An address and the data of a log entry that is proposed there. -/
abbrev Proposal := Bytes × Bytes

/-- The entry that the `/execute` handler of a shard proposes. -/
def sqlEntry (sql : Bytes) : Bytes := ascii "SQL:" ++ sql

/-- The entry that the handler of a message of the coordinator proposes. -/
def ofMessage (m : Message) : Proposal := (m.shard, m.entry libs.shard)

/-- `ForwardRequest`, with what the shard proposes. -/
def forwardRequest (net : Net) (r : Router) (shardID : UInt64) (sql : Bytes) :
    Except Bytes Bytes × List Proposal :=
  match r.shardAddrs.find? shardID with
  | none => (.error (ascii "unknown shard " ++ decimal shardID.toNat), [])
  | some addr => (net.post addr sql, [(addr, sqlEntry sql)])

/-- The rows that the answer of a shard adds to a broadcast. -/
def rowsOf : Except Bytes Bytes → List Row
  | .error _ => []
  | .ok resp => if libs.trimSpace resp = ascii "OK" then [] else (libs.decodeRows resp).getD []

/-- The answer of the handler. -/
inductive Response where
  | text (body : Bytes)
  | rows (rows : List Row)
  | error (status : Nat) (text : Bytes)
  deriving DecidableEq

/-- What a request leaves. -/
structure Outcome where
  coordinator : Coordinator
  proposals : List Proposal
  response : Response

/-- The `/execute` handler. -/
def handle (net : Net) (c : Coordinator) (req : Request) : Outcome :=
  match dispatch libs c.router req with
  | .begin => ⟨(c.begin net.now).1, [], .text (ascii "TxnID:" ++ (c.begin net.now).2)⟩
  | .commit txnID =>
    let run := c.commit net.reply net.iter₁ net.iter₂ net.now txnID
    ⟨run.coordinator, (run.sent ++ run.spawned).map (ofMessage libs),
      match run.err with
      | some err => .error 500 (ascii "COMMIT Failed: " ++ err)
      | none => .text (ascii "COMMIT OK")⟩
  | .rollback txnID =>
    ⟨(c.abort txnID).1, (c.abort txnID).2.1.map (ofMessage libs), .text (ascii "ROLLBACK OK")⟩
  | .addWrite txnID key value =>
    ⟨(c.addWrite txnID key value).1, [],
      match (c.addWrite txnID key value).2 with
      | some err => .error 500 err
      | none => .text (ascii "Buffered Write OK")⟩
  | .broadcast sql =>
    ⟨c, shardIDs.flatMap fun id => (forwardRequest net c.router id sql).2,
      .rows (net.arrival.flatMap fun id => rowsOf libs (forwardRequest net c.router id sql).1)⟩
  | .single shardID sql =>
    ⟨c, (forwardRequest net c.router shardID sql).2,
      match (forwardRequest net c.router shardID sql).1 with
      | .ok resp => .text resp
      | .error err => .error 500 err⟩
  | .reject status text => ⟨c, [], .error status text⟩

/-- Requests that arrive one after another. -/
def serve (c : Coordinator) : List (Net × Request) → Coordinator × List Proposal
  | [] => (c, [])
  | (net, req) :: rest =>
    let out := handle libs net c req
    ((serve out.coordinator rest).1, out.proposals ++ (serve out.coordinator rest).2)

/-! ## Statements that are no commands -/

/-- The handler looks at the statement, because it is none of the transaction commands. -/
def IsStatement (sql : Bytes) : Prop :=
  upperParams libs sql ≠ ascii "BEGIN" ∧ upperParams libs sql ≠ ascii "COMMIT" ∧
    upperParams libs sql ≠ ascii "ROLLBACK"

instance (sql : Bytes) : Decidable (IsStatement libs sql) :=
  inferInstanceAs (Decidable (_ ∧ _ ∧ _))

/-- A request with no hint. -/
def Request.plain (sql txn : Bytes) : Request := ⟨sql, [], txn, []⟩

theorem sqlStr_plain (sql txn : Bytes) : (Request.plain sql txn).sqlStr = sql := by
  unfold Request.sqlStr Request.plain
  split_ifs with h
  · exact h.symm
  · rfl

variable {libs}

theorem dispatch_of_statement {r : Router} {req : Request} {plan : PlanNode}
    (hStatement : IsStatement libs req.sqlStr)
    (hPlan : parseToPlan libs.parser req.sqlStr = .ok plan) :
    dispatch libs r req =
      match bufferedWrite? plan with
      | some (key, val) => if req.txn = [] then route libs r req else .addWrite req.txn key val
      | none => route libs r req := by
  obtain ⟨hBegin, hCommit, hRollback⟩ := hStatement
  rw [dispatch, if_neg hBegin, if_neg hCommit, if_neg hRollback, hPlan]

/-- Routing forwards the statement as it is. -/
theorem route_cases (r : Router) (req : Request) :
    route libs r req = .broadcast req.sqlStr ∨
      ∃ key, route libs r req = .single (r.getShardID key) req.sqlStr := by
  unfold route
  dsimp only
  split
  · exact Or.inl rfl
  · exact Or.inr ⟨_, rfl⟩

/-- The entries of a forwarded statement. -/
theorem entry_of_forwardRequest {net : Net} {r : Router} {shardID : UInt64} {sql : Bytes}
    {p : Proposal} (h : p ∈ (forwardRequest net r shardID sql).2) : p.2 = sqlEntry sql := by
  unfold forwardRequest at h
  split at h
  · cases h
  · rw [List.mem_singleton.mp h]

/-- Libraries around a parser, for texts in capital letters without spaces around them. -/
def plainLibs (parser : SqlParser) : Libs where
  parser := parser
  shard := Shard.compactJson (parseToPlan parser)
  parseToPlan_shard := rfl
  trimSpace := id
  toUpper := id
  decodeRows _ := none

end ShardDB.Proxy
