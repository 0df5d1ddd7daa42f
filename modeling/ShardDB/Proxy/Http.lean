import ShardDB.Lib.Url
import ShardDB.Proxy.Rollback
import ShardDB.Txn.Atomicity

/-!
# Requests between the proxy and the shards

The coordinator writes the fields of a `PREPARE`, `COMMIT` or `ABORT` into the query of a URL, and
the body of a one-shot request is JSON; a forwarded statement is the body of a request to
`/execute`. The handlers of a shard node read the fields and propose an entry. Keys and values are
escaped in the query, and ids of transactions are not.

The ids that `Begin` makes need no escape, and a client cannot bring another one into a message,
since the coordinator only sends for transactions it has begun. So whatever clients do, the entry
that a shard proposes for a request is the one of its message or statement, and it makes the applier
execute the engine call of the message if its fields fit the format of the entry: a space in a key
or value breaks a plain text entry, and the JSON of a one-shot request replaces what is not UTF-8
(`delivered_serveHttp`).
-/

namespace ShardDB

open ShardDB.Lib ShardDB.Storage ShardDB.Routing ShardDB.Sql ShardDB.Txn

namespace Txn.Message

/-- The URLs of `sendPrepare`, `sendCommit`, `sendAbort` and `sendOneShot`. -/
def url : Message → Bytes
  | prepare shard key val txnID =>
    shard ++ ascii "/txn/prepare?key=" ++ queryEscape key ++ ascii "&val=" ++ queryEscape val ++
      ascii "&txn=" ++ txnID
  | commit shard key txnID ts =>
    shard ++ ascii "/txn/commit?key=" ++ queryEscape key ++ ascii "&txn=" ++ txnID ++
      ascii "&ts=" ++ decimal ts.toNat
  | abort shard key txnID =>
    shard ++ ascii "/txn/abort?key=" ++ queryEscape key ++ ascii "&txn=" ++ txnID
  | oneShot shard _ _ _ => shard ++ ascii "/txn/oneshot"

/-- The body of `sendOneShot`; the other requests have none. -/
def body (libs : Shard.Libs) : Message → Bytes
  | oneShot _ intents txnID ts =>
    libs.marshal ⟨JsonString.ofBytes txnID, ts,
      intents.map fun w => ⟨JsonString.ofBytes w.key, JsonString.ofBytes w.value⟩⟩
  | _ => []

end Txn.Message

namespace Proxy

/-! ## The handlers of a shard node -/

/-- The entries that the handlers of a shard node propose. -/
def proposed (target : Target) (body : Bytes) : Option Bytes :=
  let get (name : String) : Bytes := queryGet target.query (ascii name)
  if target.path = ascii "/txn/prepare" then
    some (Shard.prepareEntry (get "key") (get "val") (get "txn"))
  else if target.path = ascii "/txn/commit" then
    some (Shard.commitEntry (get "key") (get "txn") (get "ts"))
  else if target.path = ascii "/txn/abort" then
    some (Shard.abortEntry (get "key") (get "txn"))
  else if target.path = ascii "/txn/oneshot" then some (Shard.oneShotEntry body)
  else if target.path = ascii "/execute" then
    some (sqlEntry (if get "sql" = [] then body else get "sql"))
  else none

/-- What a request leads to: the host that receives it, and the entry it proposes. -/
def delivered (url body : Bytes) : Option Proposal :=
  (parseURL url).bind fun target => (proposed target body).map fun data => (target.host, data)

/-! ## The requests of the proxy -/

variable (libs : Libs)

/-- The request of `ForwardRequest`. -/
def forwardHttp (r : Router) (shardID : UInt64) (sql : Bytes) : List (Bytes × Bytes) :=
  match r.shardAddrs.find? shardID with
  | none => []
  | some addr => [(addr ++ ascii "/execute", sql)]

/-- The request of a message. -/
def messageHttp (m : Message) : Bytes × Bytes := (m.url, m.body libs.shard)

/-- The URLs and bodies of the requests that the `/execute` handler makes. -/
def handleHttp (net : Net) (c : Coordinator) (req : Request) : List (Bytes × Bytes) :=
  match dispatch libs c.router req with
  | .commit txnID =>
    let run := c.commit net.reply net.iter₁ net.iter₂ net.now txnID
    (run.sent ++ run.spawned).map (messageHttp libs)
  | .rollback txnID => (c.abort txnID).2.1.map (messageHttp libs)
  | .broadcast sql => shardIDs.flatMap fun id => forwardHttp c.router id sql
  | .single shardID sql => forwardHttp c.router shardID sql
  | _ => []

/-- The messages of the coordinator among them. -/
def handleMessages (net : Net) (c : Coordinator) (req : Request) : List Message :=
  match dispatch libs c.router req with
  | .commit txnID =>
    let run := c.commit net.reply net.iter₁ net.iter₂ net.now txnID
    run.sent ++ run.spawned
  | .rollback txnID => (c.abort txnID).2.1
  | _ => []

/-- The requests for clients that arrive one after another. -/
def serveHttp (c : Coordinator) : List (Net × Request) → List (Bytes × Bytes)
  | [] => []
  | (net, req) :: rest =>
    handleHttp libs net c req ++ serveHttp (handle libs net c req).coordinator rest

def serveMessages (c : Coordinator) : List (Net × Request) → List Message
  | [] => []
  | (net, req) :: rest =>
    handleMessages libs net c req ++ serveMessages (handle libs net c req).coordinator rest

/-! ## Addresses and ids -/

/-- No address, or a host, with a port or without. -/
def PlainAddr (addr : Bytes) : Prop :=
  addr = [] ∨ ∃ host, isHost host = true ∧ addr = ascii "http://" ++ host

/-- Every shard has such an address. -/
def PlainAddrs (r : Router) : Prop := ∀ id addr, r.shardAddrs.find? id = some addr → PlainAddr addr

/-- The host of an address. -/
def hostOf (addr : Bytes) : Option Bytes :=
  if addr = [] then none else some (addr.drop 7)

/-- A proposal at the host of its address. -/
def atHost (p : Proposal) : Option Proposal := (hostOf p.1).map fun host => (host, p.2)

/-- An id that `Begin` makes. -/
def Begun (id : Bytes) : Prop := ∃ now : UInt64, id = ascii "txn-" ++ decimal now.toNat

/-- The coordinator has only transactions that it began. -/
def OnlyBegun (c : Coordinator) : Prop :=
  ∀ id txn, c.transactions.find? id = some txn → Begun id

variable {libs}

theorem isUnreserved_of_isDigit {c : UInt8} (h : isDigit c = true) : isUnreserved c = true := by
  simp only [isDigit] at h
  simp [isUnreserved, h]

theorem isUnreserved_decimal (n : Nat) : ∀ c ∈ decimal n, isUnreserved c = true :=
  fun _ hc => isUnreserved_of_isDigit (isDigit_of_mem_decimal hc)

/-- The literal parts of the queries need no escape. -/
theorem isUnreserved_literals :
    ∀ text ∈ [ascii "key", ascii "val", ascii "txn", ascii "ts", ascii "txn-"],
      ∀ c ∈ text, isUnreserved c = true := by decide +kernel

theorem Begun.isUnreserved {id : Bytes} (h : Begun id) : ∀ c ∈ id, isUnreserved c = true := by
  obtain ⟨now, rfl⟩ := h
  intro c hc
  rcases List.mem_append.mp hc with hc | hc
  · exact isUnreserved_literals _ (by simp) c hc
  · exact isUnreserved_decimal _ c hc

theorem plainAddr_locate {r : Router} (h : PlainAddrs r) (key : Bytes) :
    PlainAddr (r.locate key) := by
  rw [Router.locate]
  cases hFind : r.shardAddrs.find? (r.getShardID key) with
  | none => exact Or.inl rfl
  | some addr => exact h _ addr hFind

/-! ## One request -/

section Request

variable {host path : Bytes} (hHost : isHost host = true)

include hHost

/-- A request with fields, at a handler that reads them. -/
theorem delivered_fields (hPath : ∀ c ∈ path, isPathByte c = true) {fields : List QueryField}
    {url body data : Bytes}
    (hUrl : url = ascii "http://" ++ host ++ 47 :: path ++ 63 :: queryText fields)
    (hData : proposed ⟨host, 47 :: path, queryText fields⟩ body = some data) :
    delivered url body = some (host, data) := by
  have hParse := parseURL_queryText hHost hPath fields
  rw [← List.append_assoc] at hParse
  rw [delivered, hUrl, hParse, Option.bind_some, hData, Option.map_some]

/-- A request with a body and no query. -/
theorem delivered_body (hPath : ∀ c ∈ path, isPathByte c = true) {url body data : Bytes}
    (hUrl : url = ascii "http://" ++ host ++ 47 :: path)
    (hData : proposed ⟨host, 47 :: path, []⟩ body = some data) :
    delivered url body = some (host, data) := by
  have hParse := @parseURL_parts host path none hHost hPath (fun c hc => by cases hc)
  rw [← List.append_assoc, queryPart, List.append_nil] at hParse
  rw [delivered, hUrl, hParse, Option.bind_some]
  exact congrArg (Option.map _) hData

end Request

/-- The fields of the messages. -/
def keyField (key : Bytes) : QueryField :=
  .escaped (ascii "key") key (isUnreserved_literals _ (.head _))

def valField (val : Bytes) : QueryField :=
  .escaped (ascii "val") val (isUnreserved_literals _ (.tail _ (.head _)))

def txnField (txnID : Bytes) (h : Begun txnID) : QueryField :=
  .verbatim (ascii "txn") txnID (isUnreserved_literals _ (.tail _ (.tail _ (.head _))))
    h.isUnreserved

def tsField (ts : UInt64) : QueryField :=
  .verbatim (ascii "ts") (decimal ts.toNat)
    (isUnreserved_literals _ (.tail _ (.tail _ (.tail _ (.head _))))) (isUnreserved_decimal _)

/-- The paths of the handlers need no escape. -/
theorem isPathByte_paths :
    ∀ path ∈ [ascii "txn/prepare", ascii "txn/commit", ascii "txn/abort", ascii "txn/oneshot",
      ascii "execute"], ∀ c ∈ path, isPathByte c = true := by decide +kernel

/-- Without an address the URL is only a path. -/
theorem delivered_relative (rest body : Bytes) : delivered (47 :: rest) body = none := by
  rw [delivered, parseURL_relative]
  rfl

/-- A message is delivered at the host of its shard and proposes its entry. -/
theorem delivered_message {m : Message} (hAddr : PlainAddr m.shard) (hTxn : Begun m.txnID) :
    delivered m.url (m.body libs.shard) = atHost (ofMessage libs m) := by
  rcases hAddr with hNil | ⟨host, hHost, hShard⟩
  · obtain ⟨rest, hRest⟩ : ∃ rest, m.url = 47 :: rest := by
      cases m <;> cases hNil <;> exact ⟨_, rfl⟩
    rw [hRest, delivered_relative, atHost, ofMessage, hostOf, if_pos hNil]
    rfl
  · have hAt : atHost (ofMessage libs m) = some (host, m.entry libs.shard) := by
      rw [atHost, ofMessage, hShard]
      rfl
    rw [hAt]
    cases m with
    | prepare shard key val txnID =>
      change shard = _ at hShard
      have hUrl : (Message.prepare shard key val txnID).url =
          ascii "http://" ++ host ++ 47 :: ascii "txn/prepare" ++
            63 :: queryText [keyField key, valField val, txnField txnID hTxn] := by
        simp [hShard, Message.url, queryText, List.intercalate, ascii, keyField, valField,
          txnField, QueryField.escaped, QueryField.verbatim]
      refine delivered_fields hHost (isPathByte_paths _ (by simp)) hUrl ?_
      simp only [proposed, queryGet_queryText (List.cons_ne_nil _ _)]
      rfl
    | commit shard key txnID ts =>
      change shard = _ at hShard
      have hUrl : (Message.commit shard key txnID ts).url =
          ascii "http://" ++ host ++ 47 :: ascii "txn/commit" ++
            63 :: queryText [keyField key, txnField txnID hTxn, tsField ts] := by
        simp [hShard, Message.url, queryText, List.intercalate, ascii, keyField, tsField,
          txnField, QueryField.escaped, QueryField.verbatim]
      refine delivered_fields hHost (isPathByte_paths _ (by simp)) hUrl ?_
      simp only [proposed, queryGet_queryText (List.cons_ne_nil _ _)]
      rfl
    | abort shard key txnID =>
      change shard = _ at hShard
      have hUrl : (Message.abort shard key txnID).url =
          ascii "http://" ++ host ++ 47 :: ascii "txn/abort" ++
            63 :: queryText [keyField key, txnField txnID hTxn] := by
        simp [hShard, Message.url, queryText, List.intercalate, ascii, keyField, txnField,
          QueryField.escaped, QueryField.verbatim]
      refine delivered_fields hHost (isPathByte_paths _ (by simp)) hUrl ?_
      simp only [proposed, queryGet_queryText (List.cons_ne_nil _ _)]
      rfl
    | oneShot shard intents txnID ts =>
      change shard = _ at hShard
      have hUrl : (Message.oneShot shard intents txnID ts).url =
          ascii "http://" ++ host ++ 47 :: ascii "txn/oneshot" := by
        rw [Message.url, hShard]
        rfl
      exact delivered_body hHost (isPathByte_paths _ (by simp)) hUrl rfl

/-- A message that fits the format of its entry makes the applier execute its engine call. -/
theorem delivered_clean {m : Message} (hAddr : PlainAddr m.shard) (hTxn : Begun m.txnID)
    (hClean : m.Clean) (hShard : m.shard ≠ []) :
    ∃ host data, m.shard = ascii "http://" ++ host ∧
      delivered m.url (m.body libs.shard) = some (host, data) ∧
      ∀ s, Shard.apply libs.shard s data = (m.call.exec s).1 := by
  obtain ⟨host, -, hHost⟩ := hAddr.resolve_left hShard
  refine ⟨host, m.entry libs.shard, hHost, ?_, apply_entry hClean⟩
  rw [delivered_message hAddr hTxn, atHost, ofMessage, hHost]
  rfl

/-- A forwarded statement proposes an entry with its text. -/
theorem delivered_execute {addr : Bytes} (hAddr : PlainAddr addr) (sql : Bytes) :
    delivered (addr ++ ascii "/execute") sql = atHost (addr, sqlEntry sql) := by
  rcases hAddr with rfl | ⟨host, hHost, rfl⟩
  · exact delivered_relative _ _
  · exact @delivered_body host (ascii "execute") hHost (isPathByte_paths _ (by simp))
      _ sql _ rfl rfl

/-! ## All requests -/

/-- A message of the coordinator: about a transaction it has, to the shard of a key. -/
def FromCoordinator (c : Coordinator) (m : Message) : Prop :=
  (∃ txn, c.transactions.find? m.txnID = some txn) ∧ ∃ key, m.shard = c.router.locate key

theorem fromCoordinator_abort {c : Coordinator} {t : Bytes} :
    ∀ m ∈ (c.abort t).2.1, FromCoordinator c m := by
  intro m hm
  obtain ⟨txn, hTxn, w, -, rfl⟩ := mem_abort_iff.mp hm
  exact ⟨⟨txn, hTxn⟩, w.key, rfl⟩

theorem mem_of_mem_sendAll {reply : Message → Option Bytes} {l : List Message} {m : Message}
    (h : m ∈ (sendAll reply l).1) : m ∈ l := by
  induction l with
  | nil => cases h
  | cons m' l ih =>
    unfold sendAll at h
    split at h
    · exact List.mem_cons.mpr (Or.inl (List.mem_singleton.mp h))
    · rcases List.mem_cons.mp h with rfl | h
      · exact List.mem_cons_self
      · exact List.mem_cons_of_mem _ (ih h)

/-- All that `Commit` can do: it sends messages of the coordinator and sets the state of the
transaction, if anything. -/
theorem commit_spec (c : Coordinator) (reply : Message → Option Bytes) (iter₁ iter₂ : MapOrder)
    (now : UInt64) (t : Bytes) :
    (∀ m ∈ (c.commit reply iter₁ iter₂ now t).sent ++ (c.commit reply iter₁ iter₂ now t).spawned,
      FromCoordinator c m) ∧
    ((c.commit reply iter₁ iter₂ now t).coordinator = c ∨
      ∃ state, (c.commit reply iter₁ iter₂ now t).coordinator = c.setState t state) := by
  unfold Coordinator.commit
  split
  · exact ⟨fun m hm => (by cases hm), Or.inl rfl⟩
  · exact ⟨fun m hm => (by cases hm), Or.inl rfl⟩
  · next writes hNil hActive =>
    have hTxn : ∃ txn, c.transactions.find? t = some txn := by
      unfold Coordinator.activeWrites at hActive
      cases hFind : c.transactions.find? t with
      | none =>
        rw [hFind] at hActive
        cases hActive
      | some txn => exact ⟨txn, rfl⟩
    have hRequests : ∀ {request : Bytes → WriteIntent → Message} {iter : MapOrder},
        (∀ a w, (request a w).shard = a) → (∀ a w, (request a w).txnID = t) →
        ∀ m ∈ requests request (iter.order (groupByShard c.router writes).entries),
          FromCoordinator c m := by
      intro request iter hShard hId m hm
      obtain ⟨w, -, rfl⟩ := (mem_requests_iff hShard).mp hm
      exact ⟨by rw [hId]; exact hTxn, w.key, hShard _ _⟩
    have hPrepares := @hRequests (prepareRequest t) iter₁ (fun _ _ => rfl) fun _ _ => rfl
    have hSends : ∀ m ∈ (sendAll reply (requests (prepareRequest t)
        (iter₁.order (groupByShard c.router writes).entries))).1, FromCoordinator c m :=
      fun m hm => hPrepares m (mem_of_mem_sendAll hm)
    have hCommits := @hRequests (commitRequest t now) iter₂ (fun _ _ => rfl) fun _ _ => rfl
    dsimp only
    split
    · next shard intents hSingle =>
      obtain ⟨w, -, hShard⟩ := exists_write_of_single hSingle hNil
      have hOne : FromCoordinator c (.oneShot shard intents t now) := ⟨hTxn, w.key, hShard⟩
      split
      · refine ⟨fun m hm => ?_, Or.inr ⟨_, coordinator_abort c t⟩⟩
        rcases List.mem_append.mp hm with hm | hm
        · rw [List.mem_singleton.mp hm]
          exact hOne
        · exact fromCoordinator_abort m hm
      · refine ⟨fun m hm => ?_, Or.inr ⟨_, rfl⟩⟩
        rw [List.append_nil] at hm
        rw [List.mem_singleton.mp hm]
        exact hOne
    · split
      · next sent m' err hSent =>
        rw [hSent] at hSends
        refine ⟨fun m hm => ?_, Or.inr ⟨_, coordinator_abort c t⟩⟩
        rcases List.mem_append.mp hm with hm | hm
        · exact hSends m hm
        · exact fromCoordinator_abort m hm
      · next sent hSent =>
        rw [hSent] at hSends
        refine ⟨fun m hm => ?_, Or.inr ⟨_, rfl⟩⟩
        rcases List.mem_append.mp hm with hm | hm
        · exact hSends m hm
        · exact hCommits m hm

theorem onlyBegun_setState {c : Coordinator} (h : OnlyBegun c) (t : Bytes) (state : TxnState) :
    OnlyBegun (c.setState t state) := by
  intro id txn hFind
  rw [find?_setState] at hFind
  split_ifs at hFind
  · obtain ⟨txn', hFind', -⟩ := Option.map_eq_some_iff.mp hFind
    exact h id txn' hFind'
  · exact h id txn hFind

/-- A request leaves the router as it is. -/
theorem router_handle (net : Net) (c : Coordinator) (req : Request) :
    (handle libs net c req).coordinator.router = c.router := by
  unfold handle
  cases dispatch libs c.router req with
  | commit t =>
    dsimp only
    rcases (commit_spec c net.reply net.iter₁ net.iter₂ net.now t).2 with hSame | ⟨state, hState⟩
    · rw [hSame]
    · rw [hState, router_setState]
  | rollback t => exact router_abort c t
  | addWrite t key value => exact router_addWrite c t key value
  | _ => rfl

/-- A request leaves a coordinator with ids of its own. -/
theorem onlyBegun_handle {c : Coordinator} (h : OnlyBegun c) (net : Net) (req : Request) :
    OnlyBegun (handle libs net c req).coordinator := by
  unfold handle
  cases dispatch libs c.router req with
  | begin =>
    intro id txn hFind
    rw [find?_begin] at hFind
    split_ifs at hFind with hId
    · exact ⟨net.now, hId⟩
    · exact h id txn hFind
  | commit t =>
    dsimp only
    rcases (commit_spec c net.reply net.iter₁ net.iter₂ net.now t).2 with hSame | ⟨state, hState⟩
    · rw [hSame]
      exact h
    · rw [hState]
      exact onlyBegun_setState h t state
  | rollback t =>
    dsimp only
    rw [coordinator_abort]
    exact onlyBegun_setState h t _
  | addWrite t key value =>
    intro id txn hFind
    dsimp only at hFind
    rcases addWrite_cases c t key value with ⟨txn', hTxn, -, hAdd⟩ | hRefused
    · rw [hAdd, SortedMap.find?_insert] at hFind
      split_ifs at hFind with hId
      · exact hId ▸ h t txn' hTxn
      · exact h id txn hFind
    · rw [hRefused] at hFind
      exact h id txn hFind
  | _ => exact h

theorem delivered_messages {c : Coordinator} (hAddrs : PlainAddrs c.router) (h : OnlyBegun c)
    {l : List Message} (hl : ∀ m ∈ l, FromCoordinator c m) :
    (l.map (messageHttp libs)).filterMap (fun p => delivered p.1 p.2) =
      (l.map (ofMessage libs)).filterMap atHost := by
  rw [List.filterMap_map, List.filterMap_map]
  refine List.filterMap_congr fun m hm => ?_
  obtain ⟨⟨txn, hTxn⟩, key, hShard⟩ := hl m hm
  exact delivered_message (hShard ▸ plainAddr_locate hAddrs key) (h _ txn hTxn)

theorem delivered_forwardHttp {r : Router} (hAddrs : PlainAddrs r) (net : Net) (shardID : UInt64)
    (sql : Bytes) :
    (forwardHttp r shardID sql).filterMap (fun p => delivered p.1 p.2) =
      (forwardRequest net r shardID sql).2.filterMap atHost := by
  unfold forwardHttp forwardRequest
  cases hFind : r.shardAddrs.find? shardID with
  | none => rfl
  | some addr =>
    simp only [List.filterMap_cons, List.filterMap_nil, delivered_execute (hAddrs _ addr hFind)]

theorem delivered_handleHttp {c : Coordinator} (hAddrs : PlainAddrs c.router) (h : OnlyBegun c)
    (net : Net) (req : Request) :
    (handleHttp libs net c req).filterMap (fun p => delivered p.1 p.2) =
      (handle libs net c req).proposals.filterMap atHost := by
  unfold handleHttp handle
  cases dispatch libs c.router req with
  | begin => rfl
  | commit t =>
    exact delivered_messages hAddrs h (commit_spec c net.reply net.iter₁ net.iter₂ net.now t).1
  | rollback t => exact delivered_messages hAddrs h fromCoordinator_abort
  | addWrite t key value => rfl
  | broadcast sql =>
    dsimp only
    rw [List.filterMap_flatMap, List.filterMap_flatMap]
    exact List.flatMap_congr fun id _ => delivered_forwardHttp hAddrs net id sql
  | single shardID sql => exact delivered_forwardHttp hAddrs net shardID sql
  | reject status text => rfl

/-- The messages are those of the coordinator, and each of them is a request. -/
theorem mem_handleMessages {c : Coordinator} {net : Net} {req : Request} {m : Message}
    (h : m ∈ handleMessages libs net c req) :
    FromCoordinator c m ∧ messageHttp libs m ∈ handleHttp libs net c req := by
  unfold handleMessages at h
  unfold handleHttp
  cases hDispatch : dispatch libs c.router req with
  | commit t =>
    rw [hDispatch] at h
    exact ⟨(commit_spec c net.reply net.iter₁ net.iter₂ net.now t).1 m h, List.mem_map_of_mem h⟩
  | rollback t =>
    rw [hDispatch] at h
    exact ⟨fromCoordinator_abort m h, List.mem_map_of_mem h⟩
  | _ =>
    rw [hDispatch] at h
    cases h

theorem onlyBegun_newCoordinator (r : Router) : OnlyBegun (newCoordinator r) := by
  intro id txn hFind
  cases hFind

theorem plainAddrs_newRouter : PlainAddrs newRouter := by
  intro id addr hFind
  have hMem := SortedMap.mem_entries_iff.mpr hFind
  have hEntries : newRouter.shardAddrs.entries = [(1, ascii "http://" ++ ascii "localhost:9001"),
      (2, ascii "http://" ++ ascii "localhost:9002"),
      (3, ascii "http://" ++ ascii "localhost:9003")] := rfl
  have hHosts : ∀ host ∈ [ascii "localhost:9001", ascii "localhost:9002", ascii "localhost:9003"],
      isHost host = true := by decide +kernel
  rw [hEntries] at hMem
  simp only [List.mem_cons, Prod.mk.injEq, List.not_mem_nil, or_false] at hMem
  rcases hMem with ⟨-, rfl⟩ | ⟨-, rfl⟩ | ⟨-, rfl⟩
  · exact Or.inr ⟨_, hHosts _ (by simp), rfl⟩
  · exact Or.inr ⟨_, hHosts _ (by simp), rfl⟩
  · exact Or.inr ⟨_, hHosts _ (by simp), rfl⟩

/-- A transaction that buffers a key with an ampersand and is rolled back. -/
def ampersand : List (Net × Request) :=
  [(okNet, ⟨ascii "BEGIN", [], [], []⟩), (okNet, ⟨ascii "INSERT", [], ascii "txn-1", []⟩),
    (okNet, ⟨ascii "ROLLBACK", [], ascii "txn-1", []⟩)]

end Proxy

end ShardDB
