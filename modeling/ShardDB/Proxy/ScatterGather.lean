import ShardDB.Lib.Gather
import ShardDB.Lib.Json
import ShardDB.Proxy.Rollback
import ShardDB.Proxy.SelectRouting

/-!
# What a scatter-gather answer leaves out

A broadcast asks the shards 1, 2 and 3, whatever the range table says. A shard whose request
fails, whose reply is not 200 or whose reply cannot be decoded adds nothing, and the handler
answers with the rows of the others all the same: there is no answer to a broadcast that is an
error (`response_broadcast`).

So the answer has every row of every shard that owns a range exactly if the shards that are left
out have no rows to return, or if by chance other shards, which own no range, return as many equal
rows (`scatterComplete_iff`). Nothing is ever there twice.

A shard is left out also when it works: its handler answers with rows only if the text of the
statement begins with `SELECT`, so a blank in front is enough (`hasRows_executeBody`).
-/

namespace ShardDB.Proxy

open ShardDB.Lib ShardDB.Storage ShardDB.Routing ShardDB.Sql ShardDB.Txn

/-! ## The reply of a shard -/

/-- The rows that the `/execute` handler of a shard reads from its own engine. The errors of the
parser and of the executor are dropped there. -/
def engineRows (libs : Libs) (sql : Bytes) (s : MemoryStore) : List Row :=
  resultRows (do
    let plan ← parseToPlan libs.parser sql
    (execute plan s maxUint64).2)

/-- A plan whose result without rows is an empty slice: a point read makes one, while `executeScan`
leaves its slice nil. -/
def makesSlice : PlanNode → Bool
  | .pointGet _ _ => true
  | .project input _ => makesSlice input
  | .filter input _ => makesSlice input
  | _ => false

/-- The slice that `Execute` returns; `none` is nil. -/
def resultSlice (plan : PlanNode) : Except Bytes (List Row) → Option (List Row)
  | .ok rows => if rows = [] ∧ makesSlice plan = false then none else some rows
  | .error _ => none

/-- The slice that the `/execute` handler of a shard writes. -/
def engineSlice (libs : Libs) (sql : Bytes) (s : MemoryStore) : Option (List Row) :=
  match parseToPlan libs.parser sql with
  | .ok plan => resultSlice plan (execute plan s maxUint64).2
  | .error _ => none

/-- Its rows are the rows that are read. -/
theorem getD_engineSlice (libs : Libs) (sql : Bytes) (s : MemoryStore) :
    (engineSlice libs sql s).getD [] = engineRows libs sql s := by
  have hSlice : ∀ plan result, (resultSlice plan result).getD [] = resultRows result := by
    intro plan result
    cases result with
    | error err => rfl
    | ok rows =>
      rw [resultSlice]
      split_ifs with hNil
      · exact hNil.1.symm
      · rfl
  unfold engineSlice engineRows
  cases parseToPlan libs.parser sql with
  | error err => rfl
  | ok plan => exact hSlice plan _

/-- The rows as they are in the JSON text of the reply. -/
def shardRows (libs : Libs) (sql : Bytes) (s : MemoryStore) : List Row :=
  (engineRows libs sql s).map fun row => row.map toValidUtf8

/-- What can come back from a shard that has some rows to return: the rows, an error, or a body
that is not taken for rows. -/
inductive Replies (libs : Libs) (owed : List Row) : Except Bytes Bytes → Prop where
  | rows {body : Bytes} (hText : libs.trimSpace body ≠ ascii "OK")
      (hRows : libs.decodeRows body = some owed) : Replies libs owed (.ok body)
  | error (err : Bytes) : Replies libs owed (.error err)
  | unparsable {body : Bytes}
      (hBody : libs.trimSpace body = ascii "OK" ∨ libs.decodeRows body = none) :
      Replies libs owed (.ok body)

/-- The reply is taken for rows. -/
def hasRows (libs : Libs) : Except Bytes Bytes → Bool
  | .ok body => libs.trimSpace body ≠ ascii "OK" && (libs.decodeRows body).isSome
  | .error _ => false

/-- A reply adds all rows of the shard or none. -/
theorem rowsOf_of_replies {libs : Libs} {owed : List Row} {resp : Except Bytes Bytes}
    (h : Replies libs owed resp) : rowsOf libs resp = if hasRows libs resp then owed else [] := by
  cases h with
  | rows hText hRows => simp [rowsOf, hasRows, hText, hRows]
  | error err => rfl
  | @unparsable body hBody =>
    rcases hBody with hText | hNone
    · simp [rowsOf, hasRows, hText]
    · by_cases hText : libs.trimSpace body = ascii "OK"
      · simp [rowsOf, hasRows, hText]
      · simp [rowsOf, hasRows, hText, hNone]

/-! ## A shard that works -/

/-- The JSON texts of slices of rows, of which nil is `null`, and how they are told from other
replies. -/
structure RowsJson (libs : Libs) where
  codec : Codec (Option (List (List JsonString)))
  decodeRows_eq : ∀ body, libs.decodeRows body =
    (codec.dec body).map fun rows => (rows.getD []).map fun row => row.map Subtype.val
  trim_rows : ∀ rows, libs.trimSpace (codec.enc rows) ≠ ascii "OK"
  trim_ok : libs.trimSpace (ascii "OK") = ascii "OK"

section Working

variable {libs : Libs} (json : RowsJson libs) (sql : Bytes) (s : MemoryStore)

/-- What the `/execute` handler of a shard writes. -/
def executeBody : Bytes :=
  if Shard.hasPrefix (libs.toUpper sql) (ascii "SELECT") then
    json.codec.enc
      ((engineSlice libs sql s).map fun rows => rows.map fun row => row.map JsonString.ofBytes)
  else ascii "OK"

theorem decodeRows_enc : libs.decodeRows (json.codec.enc
      ((engineSlice libs sql s).map fun rows => rows.map fun row => row.map JsonString.ofBytes)) =
    some (shardRows libs sql s) := by
  rw [json.decodeRows_eq, json.codec.dec_enc, Option.map_some, shardRows, ← getD_engineSlice]
  cases engineSlice libs sql s with
  | none => rfl
  | some rows =>
    rw [Option.map_some, Option.getD_some, Option.getD_some, List.map_map]
    exact congrArg some (List.map_congr_left fun row _ => List.map_map)

theorem replies_executeBody :
    Replies libs (shardRows libs sql s) (.ok (executeBody json sql s)) := by
  unfold executeBody
  split_ifs
  · exact .rows (json.trim_rows _) (decodeRows_enc json sql s)
  · exact .unparsable (Or.inl json.trim_ok)

/-- The reply has rows exactly if the text of the statement begins with `SELECT`. -/
theorem hasRows_executeBody :
    hasRows libs (.ok (executeBody json sql s)) =
      Shard.hasPrefix (libs.toUpper sql) (ascii "SELECT") := by
  unfold executeBody
  split_ifs with hSelect
  · simp [hasRows, json.trim_rows, decodeRows_enc, hSelect]
  · simp [hasRows, json.trim_ok, hSelect]

end Working

/-! ## The answer -/

section Gathering

variable {libs : Libs} {net : Net} {r : Router} {sql : Bytes} {stores : UInt64 → MemoryStore}

/-- The shard has an address, and the reply from there is taken for rows. -/
def answered (libs : Libs) (net : Net) (r : Router) (sql : Bytes) (id : UInt64) : Bool :=
  hasRows libs (forwardRequest net r id sql).1

/-- The shards that own a range. -/
def rangeOwners (r : Router) : List UInt64 := (r.ranges.map Range.shardID).dedup

/-- Every shard replies in one of the three ways. -/
def AllReply (libs : Libs) (net : Net) (r : Router) (sql : Bytes) (stores : UInt64 → MemoryStore) :
    Prop :=
  ∀ id addr, r.shardAddrs.find? id = some addr →
    Replies libs (shardRows libs sql (stores id)) (net.post addr sql)

/-- A shard adds all its rows to the answer or none. -/
theorem AllReply.rowsOf_eq (h : AllReply libs net r sql stores) (id : UInt64) :
    rowsOf libs (forwardRequest net r id sql).1 =
      contribution (answered libs net r sql) (fun id => shardRows libs sql (stores id)) id := by
  have hReplies : Replies libs (shardRows libs sql (stores id))
      (forwardRequest net r id sql).1 := by
    unfold forwardRequest
    cases hAddr : r.shardAddrs.find? id with
    | none => exact .error _
    | some addr => exact h id addr hAddr
  exact rowsOf_of_replies hReplies

end Gathering

/-- The handler forwards a `SELECT` to all shards. -/
def BroadcastsSelect (libs : Libs) (r : Router) (req : Request) : Prop :=
  dispatch libs r req = .broadcast req.sqlStr ∧
    ∃ stmt, libs.parser.parse req.sqlStr = .ok (.select stmt)

/-- An answer with rows contains all rows of every shard that owns a range, and beyond them only
rows that shards without a range returned. Rows are counted, so no shard's rows are there twice. -/
def ScatterComplete (libs : Libs) (net : Net) (c : Coordinator) (req : Request)
    (stores : UInt64 → MemoryStore) : Prop :=
  let owed := fun id => shardRows libs req.sqlStr (stores id)
  let owners := rangeOwners c.router
  ∀ rows, (handle libs net c req).response = .rows rows →
    (owners.flatMap owed).Subperm rows ∧ rows.Subperm (owners.flatMap owed ++
      (bystanders shardIDs (answered libs net c.router req.sqlStr) owners).flatMap owed)

section Answer

variable {libs : Libs} {net : Net} {c : Coordinator} {req : Request}
  {stores : UInt64 → MemoryStore}

/-- A broadcast is answered with rows, whatever the shards reply. -/
theorem response_broadcast (h : BroadcastsSelect libs c.router req) :
    (handle libs net c req).response = .rows (net.arrival.flatMap fun id =>
      rowsOf libs (forwardRequest net c.router id req.sqlStr).1) := by
  unfold handle
  rw [h.1]

/-- The rows of the answer, in the order in which the shards are listed. -/
theorem AllReply.gathered_perm (h : AllReply libs net c.router req.sqlStr stores) :
    (net.arrival.flatMap fun id => rowsOf libs (forwardRequest net c.router id req.sqlStr).1).Perm
      (shardIDs.flatMap (contribution (answered libs net c.router req.sqlStr)
        fun id => shardRows libs req.sqlStr (stores id))) := by
  simp only [h.rowsOf_eq]
  exact net.arrival_perm.flatMap_right _

/-- The answer is complete if and only if the rows of the owners that are left out, because they
are not asked, have no address or do not reply with rows, are among those that shards without a
range return. -/
theorem scatterComplete_iff (hBroadcast : BroadcastsSelect libs c.router req)
    (hReplies : AllReply libs net c.router req.sqlStr stores) :
    ScatterComplete libs net c req stores ↔
      ((unheard shardIDs (answered libs net c.router req.sqlStr) (rangeOwners c.router)).flatMap
        fun id => shardRows libs req.sqlStr (stores id)).Subperm
      ((bystanders shardIDs (answered libs net c.router req.sqlStr)
        (rangeOwners c.router)).flatMap fun id => shardRows libs req.sqlStr (stores id)) := by
  have hAsked : shardIDs.Nodup := by decide
  have hOwners : (rangeOwners c.router).Nodup := List.nodup_dedup _
  rw [← subperm_gathered_iff hAsked hOwners, ← hReplies.gathered_perm.subperm_left]
  constructor
  · intro hComplete
    exact (hComplete _ (response_broadcast hBroadcast)).1
  · intro hAll rows hRows
    rw [response_broadcast hBroadcast] at hRows
    cases hRows
    refine ⟨hAll, ?_⟩
    rw [hReplies.gathered_perm.subperm_right]
    exact gathered_subperm hAsked hOwners

end Answer

/-! ## One row on one shard -/

/-- Every text is `SELECT * FROM t`. -/
def selectAll : SqlParser where
  parse _ := .ok (.select ⟨[.star], [.aliased (ascii "t")], none⟩)
  string _ := []

/-- Libraries that read rows from JSON texts. -/
def jsonLibs : Libs :=
  { plainLibs selectAll with
    decodeRows := fun body =>
      (tableLine.dec body).map fun rows => (rows.getD []).map fun row => row.map Subtype.val }

def jsonLibsRows : RowsJson jsonLibs where
  codec := tableLine
  decodeRows_eq _ := rfl
  trim_rows rows := by
    obtain ⟨c, text, hText, hFirst⟩ := tableLine_first rows
    rw [hText]
    intro hEq
    rw [(List.cons.inj hEq).1] at hFirst
    exact absurd hFirst (by decide)
  trim_ok := rfl

/-- A scan without rows is written as `null`. -/
example : executeBody jsonLibsRows (ascii "SELECT * FROM t") newMemoryStore = ascii "null\n" := by
  decide

/-- Shard 1 owns the only range. -/
def oneShard : Router where
  ranges := [⟨none, none, 1⟩]
  shardAddrs := SortedMap.empty.insert 1 (ascii "http://localhost:9001")

/-- The row `a`. -/
def oneRow : MemoryStore := newMemoryStore.run [.put (ascii "t:a") (some (ascii "1"))]

/-- The shard works. -/
def workingNet : Net :=
  { okNet with post := fun _ sql => .ok (executeBody jsonLibsRows sql oneRow) }

/-- The shard cannot be reached. -/
def downNet : Net := { okNet with post := fun _ _ => .error (ascii "connection refused") }

def selectRequest : Request := .plain (ascii "SELECT * FROM t") []

/-- The row is in the answer if the shard works, although the shards 2 and 3 are unknown. -/
theorem scatterComplete_workingNet :
    ScatterComplete jsonLibs workingNet (newCoordinator oneShard) selectRequest
      fun _ => oneRow := by
  have hReplies : AllReply jsonLibs workingNet oneShard selectRequest.sqlStr fun _ => oneRow :=
    fun id addr hAddr => replies_executeBody jsonLibsRows _ _
  have hAnswered : answered jsonLibs workingNet oneShard selectRequest.sqlStr 1 = true :=
    hasRows_executeBody jsonLibsRows _ _
  have hHeard : unheard shardIDs (answered jsonLibs workingNet oneShard selectRequest.sqlStr)
      (rangeOwners oneShard) = [] := by
    change [(1 : UInt64)].filter _ = []
    simp [hAnswered, shardIDs]
  refine (scatterComplete_iff (c := newCoordinator oneShard) ⟨by decide, _, rfl⟩ hReplies).mpr ?_
  change (List.flatMap _ (unheard shardIDs (answered jsonLibs workingNet oneShard
    selectRequest.sqlStr) (rangeOwners oneShard))).Subperm _
  rw [hHeard]
  exact List.nil_subperm

/-- If it cannot be reached, the answer is an array without rows. -/
theorem not_scatterComplete :
    ¬ ∀ (libs : Libs) (net : Net) (c : Coordinator) (req : Request)
      (stores : UInt64 → MemoryStore), BroadcastsSelect libs c.router req →
      AllReply libs net c.router req.sqlStr stores → ScatterComplete libs net c req stores := by
  intro hAll
  have hComplete := hAll jsonLibs downNet (newCoordinator oneShard) selectRequest
    (fun _ => oneRow) ⟨by decide, _, rfl⟩ fun id addr hAddr => .error _
  have hEmpty : (handle jsonLibs downNet (newCoordinator oneShard) selectRequest).response =
      .rows [] := by decide
  have hOwed := List.subperm_nil.mp (hComplete [] hEmpty).1
  revert hOwed
  decide

end ShardDB.Proxy
