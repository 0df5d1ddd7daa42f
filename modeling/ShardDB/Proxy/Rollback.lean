import ShardDB.Lib.History
import ShardDB.Proxy.Handler

/-!
# What a rolled-back transaction leaves

A client sends `INSERT`s and `SELECT`s with a transaction id to the proxy, and then `ROLLBACK`.
An `INSERT` of two or more values is buffered, and a `SELECT` is forwarded but only reads. An
`INSERT` of one value, however, is not buffered: the handler falls through to the routing of
auto-committed statements, and the shard executes it. So nothing is left in the version trees
exactly if every `INSERT` has at least two values (`no_trace_iff`).
-/

namespace ShardDB.Proxy

open ShardDB.Lib ShardDB.Storage ShardDB.Routing ShardDB.Sql ShardDB.Txn

variable (libs : Libs)

/-- A statement that the proxy parses: a `SELECT`, or an `INSERT` with at least one value. -/
def Accepted (sql : Bytes) : Prop :=
  IsStatement libs sql ∧ ∃ plan, parseToPlan libs.parser sql = .ok plan ∧
    ∀ table columns values, plan = .insert table columns values → values ≠ []

/-- An `INSERT` has a second value. -/
def HasSecondValue (sql : Bytes) : Prop :=
  ∀ table columns values, parseToPlan libs.parser sql = .ok (.insert table columns values) →
    2 ≤ values.length

/-- The entry leaves the version tree of every store. -/
def LeavesTree (data : Bytes) : Prop :=
  ∀ s : MemoryStore, (Shard.apply libs.shard s data).tree = s.tree

/-- Statements of a transaction and then a rollback. -/
structure RolledBack (t : Bytes) (statements : List (Net × Request)) (rollback : Net × Request) :
    Prop where
  txn : ∀ e ∈ statements, e.2.txn = t
  accepted : ∀ e ∈ statements, Accepted libs e.2.sqlStr
  txn_rollback : rollback.2.txn = t
  isRollback : upperParams libs rollback.2.sqlStr = ascii "ROLLBACK"

variable {libs}

/-! ## Entries -/

theorem decode_sqlEntry {sql : Bytes} {plan : PlanNode}
    (h : parseToPlan libs.parser sql = .ok plan) :
    Shard.decode libs.shard (sqlEntry sql) = .sql plan := by
  have hPrefix : Shard.hasPrefix (sqlEntry sql) (ascii "SQL:") = true := rfl
  have hNot : Shard.hasPrefix (sqlEntry sql) (ascii "PREPARE ") ≠ true ∧
      Shard.hasPrefix (sqlEntry sql) (ascii "COMMIT ") ≠ true ∧
      Shard.hasPrefix (sqlEntry sql) (ascii "ABORT ") ≠ true ∧
      Shard.hasPrefix (sqlEntry sql) (ascii "ONESHOT ") ≠ true := by
    simp [Shard.hasPrefix, sqlEntry, ascii]
  have hDrop : (sqlEntry sql).drop 4 = sql := rfl
  rw [Shard.decode, if_neg hNot.1, if_neg hNot.2.1, if_neg hNot.2.2.1, if_neg hNot.2.2.2,
    if_pos hPrefix, hDrop, libs.parseToPlan_shard, h]

theorem apply_sqlEntry {sql : Bytes} {plan : PlanNode}
    (h : parseToPlan libs.parser sql = .ok plan) (s : MemoryStore) :
    Shard.apply libs.shard s (sqlEntry sql) = s.run (plan.calls Shard.sqlTs) := by
  rw [Shard.apply, decode_sqlEntry h]
  exact execute_eq_run plan s Shard.sqlTs

/-- A forwarded `SELECT` only reads. -/
theorem leavesTree_of_readOnly {sql : Bytes} {plan : PlanNode}
    (h : parseToPlan libs.parser sql = .ok plan) (hRead : plan.ReadOnly) :
    LeavesTree libs (sqlEntry sql) := by
  intro s
  rw [apply_sqlEntry h, hRead.calls]
  rfl

/-- A forwarded `INSERT` writes a version. -/
theorem not_leavesTree_of_insert {sql table pk : Bytes} {columns values : List Bytes}
    (h : parseToPlan libs.parser sql = .ok (.insert table columns (pk :: values))) :
    ¬ LeavesTree libs (sqlEntry sql) := by
  intro hLeaves
  have hTree := congrArg (·.find? (encodeKey (rowKey table pk) Shard.sqlTs))
    (hLeaves newMemoryStore)
  rw [apply_sqlEntry h] at hTree
  simp [PlanNode.calls, MemoryStore.run, Call.exec, MemoryStore.prepare, MemoryStore.commit,
    MemoryStore.lockedByOther, newMemoryStore] at hTree

theorem leavesTree_abortEntry (key txn : Bytes) : LeavesTree libs (Shard.abortEntry key txn) := by
  intro s
  have hPrefix : Shard.hasPrefix (Shard.abortEntry key txn) (ascii "ABORT ") = true := rfl
  have hNot : Shard.hasPrefix (Shard.abortEntry key txn) (ascii "PREPARE ") ≠ true ∧
      Shard.hasPrefix (Shard.abortEntry key txn) (ascii "COMMIT ") ≠ true := by
    simp [Shard.hasPrefix, Shard.abortEntry, ascii]
  rw [Shard.apply, Shard.decode, if_neg hNot.1, if_neg hNot.2, if_pos hPrefix]
  split
  · exact tree_exec s (.abort _ _)
  · rfl

/-! ## Requests -/

/-- Routing proposes the statement at the shards it is forwarded to. -/
theorem proposals_of_route {net : Net} {c : Coordinator} {req : Request}
    (h : dispatch libs c.router req = route libs c.router req) :
    (handle libs net c req).coordinator = c ∧
      ∀ p ∈ (handle libs net c req).proposals, p.2 = sqlEntry req.sqlStr := by
  unfold handle
  rw [h]
  rcases @route_cases libs c.router req with hRoute | ⟨key, hRoute⟩
  · rw [hRoute]
    refine ⟨rfl, fun p hp => ?_⟩
    obtain ⟨id, -, hMem⟩ := List.mem_flatMap.mp hp
    exact entry_of_forwardRequest hMem
  · rw [hRoute]
    exact ⟨rfl, fun p hp => entry_of_forwardRequest hp⟩

/-- A statement inside a transaction is buffered, or it is forwarded. -/
theorem dispatch_in_txn {r : Router} {req : Request} {plan : PlanNode}
    (hStatement : IsStatement libs req.sqlStr)
    (hPlan : parseToPlan libs.parser req.sqlStr = .ok plan) (hTxn : req.txn ≠ []) :
    (∃ key val, bufferedWrite? plan = some (key, val) ∧
        dispatch libs r req = .addWrite req.txn key val) ∨
      bufferedWrite? plan = none ∧ dispatch libs r req = route libs r req := by
  rw [dispatch_of_statement hStatement hPlan]
  cases hBuffered : bufferedWrite? plan with
  | none => exact Or.inr ⟨rfl, rfl⟩
  | some write => exact Or.inl ⟨write.1, write.2, rfl, if_neg hTxn⟩

/-- An `INSERT` is routed by its first value. -/
theorem analyze_of_insert {sql table pk : Bytes} {columns values : List Bytes}
    (hPlan : parseToPlan libs.parser sql = .ok (.insert table columns (pk :: values))) :
    analyze libs.parser sql = .ok (.single pk) := by
  unfold parseToPlan at hPlan
  split at hPlan
  · cases hPlan
  · exact (readOnly_of_buildSelectPlan hPlan).elim
  · next stmt hParse =>
    unfold buildInsertPlan at hPlan
    rw [analyze, hParse]
    dsimp only
    unfold analyzeInsert
    split at hPlan
    · cases hPlan
    · simp at hPlan
    · next row rest hRows =>
      rw [hRows]
      cases row with
      | nil => simp at hPlan
      | cons expr row =>
        simp only [List.map_cons, Except.ok.injEq, PlanNode.insert.injEq, List.cons.injEq] at hPlan
        rw [← hPlan.2.2.1]
  · cases hPlan

/-- Hence it goes to one shard. -/
theorem route_of_insert {r : Router} {req : Request} {table pk : Bytes}
    {columns values : List Bytes}
    (hPlan : parseToPlan libs.parser req.sqlStr = .ok (.insert table columns (pk :: values))) :
    ∃ key, route libs r req = .single (r.getShardID key) req.sqlStr := by
  rw [route, analyze_of_insert hPlan]
  dsimp only
  split_ifs
  · exact ⟨_, rfl⟩
  · exact ⟨_, rfl⟩

/-- An `INSERT` is buffered exactly if it has a second value. -/
theorem bufferedWrite?_insert {table : Bytes} {columns values : List Bytes} :
    bufferedWrite? (.insert table columns values) = none ↔ values.length < 2 := by
  rcases values with - | ⟨pk, - | ⟨val, values⟩⟩ <;> simp [bufferedWrite?]

/-- What one statement of the transaction proposes. -/
theorem proposals_of_statement {net : Net} {c : Coordinator} {req : Request}
    (hAccepted : Accepted libs req.sqlStr) (hTxn : req.txn ≠ []) :
    (handle libs net c req).coordinator.router = c.router ∧
      (HasSecondValue libs req.sqlStr →
        ∀ p ∈ (handle libs net c req).proposals, LeavesTree libs p.2) := by
  obtain ⟨hStatement, plan, hPlan, -⟩ := hAccepted
  rcases dispatch_in_txn (r := c.router) hStatement hPlan hTxn with
    ⟨key, val, -, hDispatch⟩ | ⟨hNone, hDispatch⟩
  · unfold handle
    rw [hDispatch]
    exact ⟨router_addWrite c req.txn key val, fun _ p hp => absurd hp List.not_mem_nil⟩
  · obtain ⟨hSame, hProposals⟩ := @proposals_of_route libs net c req hDispatch
    refine ⟨by rw [hSame], fun hSecond p hp => ?_⟩
    rw [hProposals p hp]
    refine leavesTree_of_readOnly hPlan ?_
    cases plan with
    | insert table columns values =>
      have := hSecond table columns values hPlan
      rw [bufferedWrite?_insert] at hNone
      omega
    | _ => trivial

/-- An `INSERT` of one value is forwarded, and its entry writes. -/
theorem exists_proposal_of_insert {net : Net} {c : Coordinator} {req : Request}
    (hAccepted : Accepted libs req.sqlStr) (hTxn : req.txn ≠ [])
    (hAddr : ∀ key, (c.router.shardAddrs.find? (c.router.getShardID key)).isSome)
    (hOne : ¬ HasSecondValue libs req.sqlStr) :
    ∃ p ∈ (handle libs net c req).proposals, ¬ LeavesTree libs p.2 := by
  obtain ⟨hStatement, plan, hPlan, hValues⟩ := hAccepted
  simp only [HasSecondValue, not_forall, not_le] at hOne
  obtain ⟨table, columns, values, hInsert, hShort⟩ := hOne
  obtain rfl : plan = .insert table columns values := by
    rw [hPlan] at hInsert
    exact Except.ok.inj hInsert
  obtain ⟨pk, values, rfl⟩ := List.exists_cons_of_ne_nil (hValues _ _ _ rfl)
  have hDispatch : dispatch libs c.router req = route libs c.router req := by
    rcases dispatch_in_txn (r := c.router) hStatement hPlan hTxn with
      ⟨key, val, hBuffered, -⟩ | ⟨-, hDispatch⟩
    · rw [bufferedWrite?_insert.mpr hShort] at hBuffered
      cases hBuffered
    · exact hDispatch
  obtain ⟨key, hRoute⟩ : ∃ key, route libs c.router req =
      .single (c.router.getShardID key) req.sqlStr :=
    route_of_insert hPlan
  obtain ⟨addr, hFind⟩ := Option.isSome_iff_exists.mp (hAddr key)
  refine ⟨(addr, sqlEntry req.sqlStr), ?_, not_leavesTree_of_insert hPlan⟩
  unfold handle
  rw [hDispatch, hRoute]
  simp [forwardRequest, hFind]

/-- `ROLLBACK` proposes aborts. -/
theorem proposals_of_rollback {net : Net} {c : Coordinator} {req : Request}
    (hRollback : upperParams libs req.sqlStr = ascii "ROLLBACK") (hTxn : req.txn ≠ []) :
    ∀ p ∈ (handle libs net c req).proposals, LeavesTree libs p.2 := by
  have hDispatch : dispatch libs c.router req = .rollback req.txn := by
    rw [dispatch, hRollback, if_neg (by decide), if_neg (by decide), if_pos rfl, if_neg hTxn]
  intro p hp
  unfold handle at hp
  rw [hDispatch] at hp
  obtain ⟨m, hm, rfl⟩ := List.mem_map.mp hp
  obtain ⟨txn, -, w, -, rfl⟩ := mem_abort_iff.mp hm
  exact leavesTree_abortEntry _ _

/-! ## The whole transaction -/

/-- A proposal of a sequence of requests is one of a single request. -/
theorem mem_serve {c : Coordinator} {l : List (Net × Request)} {p : Proposal} :
    p ∈ (serve libs c l).2 ↔ ∃ pre e post, l = pre ++ e :: post ∧
      p ∈ (handle libs e.1 (serve libs c pre).1 e.2).proposals := by
  induction l generalizing c with
  | nil => simp [serve]
  | cons e l ih =>
    rw [serve, List.mem_append, ih]
    constructor
    · rintro (h | ⟨pre, e', post, rfl, h⟩)
      · exact ⟨[], e, l, rfl, h⟩
      · exact ⟨e :: pre, e', post, rfl, h⟩
    · rintro ⟨pre, e', post, hSplit, h⟩
      cases pre with
      | nil =>
        cases hSplit
        exact Or.inl h
      | cons e₁ pre =>
        cases hSplit
        exact Or.inr ⟨pre, e', post, rfl, h⟩

/-- Statements of a transaction do not change the router. -/
theorem router_serve {t : Bytes} (hTxn : t ≠ []) {statements : List (Net × Request)}
    (h : ∀ e ∈ statements, e.2.txn = t ∧ Accepted libs e.2.sqlStr) (c : Coordinator) :
    (serve libs c statements).1.router = c.router := by
  induction statements generalizing c with
  | nil => rfl
  | cons e statements ih =>
    obtain ⟨hOf, hAccepted⟩ := h e List.mem_cons_self
    refine (ih (fun e he => h e (List.mem_cons_of_mem _ he)) _).trans ?_
    exact (proposals_of_statement hAccepted (by rwa [hOf])).1

/-- A rolled-back transaction leaves the version trees alone if every `INSERT` has a second
value. When every key has a shard with an address, this is also necessary. -/
theorem no_trace_iff {t : Bytes} (hTxn : t ≠ []) (c : Coordinator)
    {statements : List (Net × Request)} {rollback : Net × Request}
    (h : RolledBack libs t statements rollback) :
    ((∀ e ∈ statements, HasSecondValue libs e.2.sqlStr) →
        ∀ p ∈ (serve libs c (statements ++ [rollback])).2, LeavesTree libs p.2) ∧
      ((∀ key, (c.router.shardAddrs.find? (c.router.getShardID key)).isSome) →
        (∀ p ∈ (serve libs c (statements ++ [rollback])).2, LeavesTree libs p.2) →
        ∀ e ∈ statements, HasSecondValue libs e.2.sqlStr) := by
  refine ⟨fun hSecond p hp => ?_, fun hAddr hLeaves e he => ?_⟩
  · obtain ⟨pre, e, post, hSplit, hMem⟩ := mem_serve.mp hp
    rcases concat_eq_append_cons hSplit with ⟨-, rfl, -⟩ | ⟨rest, -, rfl⟩
    · exact proposals_of_rollback h.isRollback (by rwa [h.txn_rollback]) p hMem
    · have he : e ∈ pre ++ e :: rest := List.mem_append_right _ List.mem_cons_self
      exact (proposals_of_statement (h.accepted e he) (by rwa [h.txn e he])).2 (hSecond e he) p hMem
  · by_contra hOne
    obtain ⟨pre, post, rfl⟩ := List.append_of_mem he
    have hRouter : (serve libs c pre).1.router = c.router :=
      router_serve hTxn (fun e he => ⟨h.txn e (List.mem_append_left _ he),
        h.accepted e (List.mem_append_left _ he)⟩) c
    obtain ⟨p, hp, hNot⟩ := @exists_proposal_of_insert libs e.1 (serve libs c pre).1 e.2
      (h.accepted e he) (by rwa [h.txn e he]) (by rwa [hRouter]) hOne
    refine hNot (hLeaves p (mem_serve.mpr ⟨pre, e, post ++ [rollback], ?_, hp⟩))
    rw [List.append_assoc, List.cons_append]

/-! ## Inserts of one and of two values -/

/-- A parser that takes a text for an `INSERT` of the given values. -/
def insertOf (values : List Bytes) : SqlParser where
  parse _ := .ok (.insert ⟨ascii "t", [], .values [values.map .sqlVal]⟩)
  string _ := []

/-- A network in which every request succeeds. -/
def okNet : Net where
  now := 1
  reply _ := none
  iter₁ := sortedOrder
  iter₂ := sortedOrder
  post _ _ := .ok (ascii "OK")
  arrival := shardIDs
  arrival_perm := List.Perm.refl _

/-- A coordinator with one active transaction. -/
def oneActive : Coordinator := ((newCoordinator newRouter).begin 1).1

theorem rolledBack_sample {values : List Bytes} (hValues : values ≠ []) :
    RolledBack (plainLibs (insertOf values)) (ascii "txn-1")
      [(okNet, ⟨ascii "INSERT", [], ascii "txn-1", []⟩)]
      (okNet, ⟨ascii "ROLLBACK", [], ascii "txn-1", []⟩) where
  txn e he := by
    rw [List.mem_singleton.mp he]
  accepted e he := by
    rw [List.mem_singleton.mp he]
    refine ⟨(by decide : ascii "INSERT" ≠ ascii "BEGIN" ∧ ascii "INSERT" ≠ ascii "COMMIT" ∧
      ascii "INSERT" ≠ ascii "ROLLBACK"), _, rfl, ?_⟩
    intro table columns values' hEq
    cases hEq
    simpa using hValues
  txn_rollback := rfl
  isRollback := rfl

/-- An `INSERT` of two values in a transaction that is rolled back. The proxy proposes an
abort. -/
theorem no_trace_two_values :
    (serve (plainLibs (insertOf [ascii "k", ascii "v"])) oneActive
        [(okNet, ⟨ascii "INSERT", [], ascii "txn-1", []⟩),
          (okNet, ⟨ascii "ROLLBACK", [], ascii "txn-1", []⟩)]).2 ≠ [] ∧
      ∀ p ∈ (serve (plainLibs (insertOf [ascii "k", ascii "v"])) oneActive
          [(okNet, ⟨ascii "INSERT", [], ascii "txn-1", []⟩),
            (okNet, ⟨ascii "ROLLBACK", [], ascii "txn-1", []⟩)]).2,
        LeavesTree (plainLibs (insertOf [ascii "k", ascii "v"])) p.2 := by
  refine ⟨by decide, ?_⟩
  refine (no_trace_iff (by decide) oneActive (rolledBack_sample (by decide))).1 ?_
  intro e he table columns values hPlan
  cases hPlan
  exact le_rfl

/-- An `INSERT` of one value with the id of an active transaction is executed by the shard. -/
theorem not_no_trace :
    ¬ ∀ (libs : Libs) (t : Bytes) (c : Coordinator) (statements : List (Net × Request))
      (rollback : Net × Request), t ≠ [] → (c.activeWrites t).isOk = true →
      RolledBack libs t statements rollback →
      ∀ p ∈ (serve libs c (statements ++ [rollback])).2, LeavesTree libs p.2 := by
  intro hAll
  have hLeaves := hAll (plainLibs (insertOf [ascii "k"])) (ascii "txn-1") oneActive _ _ (by decide)
    (by decide) (rolledBack_sample (by decide))
    (ascii "http://localhost:9001", sqlEntry (ascii "INSERT")) (by decide)
  exact not_leavesTree_of_insert rfl hLeaves

end ShardDB.Proxy
