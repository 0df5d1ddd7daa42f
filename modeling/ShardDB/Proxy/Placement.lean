import ShardDB.Proxy.Handler

/-!
# The shard of a row

A row is reached in three ways, and each of them has its own key. An auto-committed `INSERT` and
a `SELECT` by an equality are routed by the bare primary key, which the planner finds in the
statement. Inside a transaction the row is a buffered write of the key `table:pk`, and the
coordinator sends it to the shard of that key. The shards agree exactly if the ranges that hold
the two keys belong to one shard (`placement_iff`), in particular if no bound of the range table
lies between them; with the one range of the development setup there is no bound at all.
-/

namespace ShardDB.Proxy

open ShardDB.Lib ShardDB.Routing ShardDB.Sql ShardDB.Txn

/-! ## Keys on the same side of every bound -/

/-- No bound of the range table separates the two keys. -/
def Unseparated (r : Router) (k k' : Bytes) : Prop :=
  ∀ rng ∈ r.ranges, ∀ bound, rng.startKey = some bound ∨ rng.endKey = some bound →
    (bound ≤ k ↔ bound ≤ k')

theorem contains_congr {rng : Range} {k k' : Bytes}
    (h : ∀ bound, rng.startKey = some bound ∨ rng.endKey = some bound → (bound ≤ k ↔ bound ≤ k')) :
    rng.contains k = rng.contains k' := by
  have hStart : ∀ start, rng.startKey = some start → (k < start ↔ k' < start) := by
    intro start hSome
    rw [← not_le, ← not_le, h start (Or.inl hSome)]
  unfold Range.contains
  congr 1
  · cases hSome : rng.startKey with
    | none => rfl
    | some start => simp [hStart start hSome]
  · cases hSome : rng.endKey with
    | none => rfl
    | some stop => simp [h stop (Or.inr hSome)]

theorem getShardID_congr {r : Router} {k k' : Bytes} (h : Unseparated r k k') :
    r.getShardID k = r.getShardID k' := by
  have hFind : r.ranges.find? (fun rng => rng.contains k) =
      r.ranges.find? fun rng => rng.contains k' := by
    rw [← List.head?_filter, ← List.head?_filter]
    exact congrArg _ (List.filter_congr fun rng hrng => contains_congr (h rng hrng))
  rw [Router.getShardID, hFind, Router.getShardID]

/-- The table gives the key to a shard: the first range that contains the key is one of the
shard, or no range contains it and the shard is the default. -/
def InShard (r : Router) (k : Bytes) (id : UInt64) : Prop :=
  (∃ pre rng post, r.ranges = pre ++ rng :: post ∧ (∀ rng' ∈ pre, rng'.contains k = false) ∧
    rng.contains k = true ∧ rng.shardID = id) ∨
    (∀ rng ∈ r.ranges, rng.contains k = false) ∧ id = 1

theorem inShard_iff {r : Router} {k : Bytes} {id : UInt64} :
    InShard r k id ↔ r.getShardID k = id := by
  unfold InShard Router.getShardID
  cases hFind : r.ranges.find? fun rng => rng.contains k with
  | none =>
    have hNone : ∀ rng ∈ r.ranges, rng.contains k = false := by simpa using hFind
    constructor
    · rintro (⟨pre, rng, post, hSplit, -, hContains, -⟩ | ⟨-, rfl⟩)
      · rw [hNone rng (hSplit ▸ List.mem_append_right _ List.mem_cons_self)] at hContains
        cases hContains
      · rfl
    · rintro rfl
      exact Or.inr ⟨hNone, rfl⟩
  | some rng =>
    obtain ⟨hContains, pre, post, hSplit, hPre⟩ := List.find?_eq_some_iff_append.mp hFind
    have hSkipped : ∀ rng' ∈ pre, rng'.contains k = false := by simpa using hPre
    constructor
    · rintro (⟨pre', rng', post', hSplit', hPre', hContains', rfl⟩ | ⟨hNone, -⟩)
      · have hFind' : r.ranges.find? (fun rng => rng.contains k) = some rng' :=
          List.find?_eq_some_iff_append.mpr ⟨hContains', pre', post', hSplit', by simpa using hPre'⟩
        rw [Option.some.inj (hFind.symm.trans hFind')]
      · rw [hNone rng (hSplit ▸ List.mem_append_right _ List.mem_cons_self)] at hContains
        cases hContains
    · rintro rfl
      exact Or.inl ⟨pre, rng, post, hSplit, hSkipped, hContains, rfl⟩

/-! ## The three ways -/

variable (libs : Libs)

/-- The statement is an `INSERT` of a row with a literal primary key and further values. -/
def InsertsRow (sql table pk : Bytes) : Prop :=
  IsStatement libs sql ∧ ∃ columns value values rows,
    libs.parser.parse sql =
      .ok (.insert ⟨table, columns, .values ((.sqlVal pk :: value :: values) :: rows)⟩)

/-- The statement is `SELECT … FROM table WHERE column = pk`. -/
def SelectsRow (sql table pk : Bytes) : Prop :=
  IsStatement libs sql ∧ ∃ exprs tables column,
    libs.parser.parse sql = .ok (.select ⟨exprs, .aliased table :: tables,
      some (.comparison .equal (.colName column) (.sqlVal pk) [])⟩)

/-- The auto-committed `INSERT`, the write of the `INSERT` in a transaction and the `SELECT` of
a row go to one shard. -/
def PlacementAgrees (r : Router) (table pk ins sel txn : Bytes) : Prop :=
  ∃ id val, dispatch libs r (.plain ins []) = .single id ins ∧
    dispatch libs r (.plain ins txn) = .addWrite txn (rowKey table pk) val ∧
    dispatch libs r (.plain sel txn) = .single id sel ∧
    r.getShardID (rowKey table pk) = id ∧
    r.locate (rowKey table pk) = (r.shardAddrs.find? id).getD []

variable {libs}

theorem route_plain {r : Router} {sql txn key : Bytes}
    (h : analyze libs.parser sql = .ok (.single key)) :
    route libs r (.plain sql txn) = .single (r.getShardID (routeKey key)) sql := by
  rw [route, sqlStr_plain, h]
  rfl

theorem dispatch_insert {r : Router} {sql table pk : Bytes} (h : InsertsRow libs sql table pk) :
    dispatch libs r (.plain sql []) = .single (r.getShardID (routeKey pk)) sql ∧
      ∀ txn, txn ≠ [] →
        ∃ val, dispatch libs r (.plain sql txn) = .addWrite txn (rowKey table pk) val := by
  obtain ⟨hStatement, columns, value, values, rows, hParse⟩ := h
  have hPlan : parseToPlan libs.parser sql = .ok (.insert table columns
      (pk :: valueBytes libs.parser value :: values.map (valueBytes libs.parser))) := by
    rw [parseToPlan, hParse]
    rfl
  have hAnalyze : analyze libs.parser sql = .ok (.single pk) := by
    rw [analyze, hParse]
    rfl
  have hDispatch : ∀ txn, dispatch libs r (.plain sql txn) =
      if txn = [] then route libs r (.plain sql txn)
      else .addWrite txn (rowKey table pk) (valueBytes libs.parser value) := by
    intro txn
    rw [dispatch_of_statement (by rwa [sqlStr_plain]) (by rwa [sqlStr_plain])]
    rfl
  refine ⟨?_, fun txn hTxn => ⟨_, (hDispatch txn).trans (if_neg hTxn)⟩⟩
  rw [hDispatch, if_pos rfl, route_plain hAnalyze]

theorem dispatch_select {r : Router} {sql table pk : Bytes} (h : SelectsRow libs sql table pk)
    (txn : Bytes) :
    dispatch libs r (.plain sql txn) = .single (r.getShardID (routeKey pk)) sql := by
  obtain ⟨hStatement, exprs, tables, column, hParse⟩ := h
  have hPlan : parseToPlan libs.parser sql = .ok (.pointGet table pk) := by
    rw [parseToPlan, hParse]
    rfl
  have hAnalyze : analyze libs.parser sql = .ok (.single pk) := by
    rw [analyze, hParse]
    exact congrArg Except.ok (analyzeSelect_of_keyEquality rfl rfl)
  rw [dispatch_of_statement (by rwa [sqlStr_plain]) (by rwa [sqlStr_plain])]
  exact route_plain hAnalyze

theorem placement_of_getShardID {r : Router} {table pk ins sel txn : Bytes}
    (hIns : InsertsRow libs ins table pk) (hSel : SelectsRow libs sel table pk) (hTxn : txn ≠ [])
    (hSame : r.getShardID (routeKey pk) = r.getShardID (rowKey table pk)) :
    PlacementAgrees libs r table pk ins sel txn := by
  obtain ⟨hAuto, hBuffered⟩ := dispatch_insert (r := r) hIns
  obtain ⟨val, hBuffered⟩ := hBuffered txn hTxn
  exact ⟨_, val, hAuto, hBuffered, dispatch_select hSel txn, hSame.symm, by rw [hSame]; rfl⟩

/-- A row has one shard exactly if the table gives its routing key and its row key to one shard.
That is so when no bound of the table separates the two keys. -/
theorem placement_iff {r : Router} {table pk ins sel txn : Bytes}
    (hIns : InsertsRow libs ins table pk) (hSel : SelectsRow libs sel table pk) (hTxn : txn ≠ []) :
    (PlacementAgrees libs r table pk ins sel txn ↔
        ∃ id, InShard r (routeKey pk) id ∧ InShard r (rowKey table pk) id) ∧
      (Unseparated r (routeKey pk) (rowKey table pk) →
        PlacementAgrees libs r table pk ins sel txn) := by
  refine ⟨⟨?_, ?_⟩, fun hBounds => ?_⟩
  · rintro ⟨id, val, hAuto, -, -, hRow, -⟩
    rw [(dispatch_insert hIns).1] at hAuto
    have hId : r.getShardID (routeKey pk) = id := by injection hAuto
    exact ⟨id, inShard_iff.mpr hId, inShard_iff.mpr hRow⟩
  · rintro ⟨id, hKey, hRow⟩
    exact placement_of_getShardID hIns hSel hTxn
      ((inShard_iff.mp hKey).trans (inShard_iff.mp hRow).symm)
  · exact placement_of_getShardID hIns hSel hTxn (getShardID_congr hBounds)

/-! ## Range tables with and without bounds -/

/-- A parser that knows one `INSERT` and takes everything else for one `SELECT`. -/
def twoStatements (ins table pk : Bytes) : SqlParser where
  parse sql :=
    if sql = ins then
      .ok (.insert ⟨table, [], .values [[.sqlVal pk, .sqlVal (ascii "v")]]⟩)
    else
      .ok (.select ⟨[.star], [.aliased table],
        some (.comparison .equal (.colName (ascii "id")) (.sqlVal pk) [])⟩)
  string _ := []

def insertText : Bytes := ascii "INSERT INTO t VALUES ('z', 'v')"

def selectText : Bytes := ascii "SELECT * FROM t WHERE id = 'z'"

theorem insertsRow_sample :
    InsertsRow (plainLibs (twoStatements insertText (ascii "t") (ascii "z"))) insertText
      (ascii "t") (ascii "z") :=
  ⟨by decide, [], .sqlVal (ascii "v"), [], [], rfl⟩

theorem selectsRow_sample :
    SelectsRow (plainLibs (twoStatements insertText (ascii "t") (ascii "z"))) selectText
      (ascii "t") (ascii "z") :=
  ⟨by decide, [.star], [], ascii "id", rfl⟩

/-- The split at `m` is below both keys `z` and `t:z`, so that the row is on the second shard. -/
theorem placement_splitRouter :
    PlacementAgrees (plainLibs (twoStatements insertText (ascii "t") (ascii "z"))) splitRouter
      (ascii "t") (ascii "z") insertText selectText (ascii "txn-1") := by
  refine (placement_iff insertsRow_sample selectsRow_sample (by decide)).2 ?_
  intro rng hrng bound hBound
  simp only [splitRouter, List.mem_cons, List.not_mem_nil, or_false] at hrng
  rcases hrng with rfl | rfl <;> rcases hBound with h | h <;> cases h <;> decide

/-- With a table that is split at `u`, the row `z` of table `t` is inserted on the second shard,
but a transaction writes it on the first. -/
theorem not_placement :
    ¬ ∀ (libs : Libs) (r : Router) (table pk ins sel txn : Bytes), InsertsRow libs ins table pk →
      SelectsRow libs sel table pk → txn ≠ [] → PlacementAgrees libs r table pk ins sel txn := by
  intro hAll
  let r : Router := ⟨[⟨none, some (ascii "u"), 1⟩, ⟨some (ascii "u"), none, 2⟩],
    newRouter.shardAddrs⟩
  obtain ⟨id, val, hAuto, -, -, hRow, -⟩ := hAll _ r _ _ _ _ (ascii "txn-1") insertsRow_sample
    selectsRow_sample (by decide)
  rw [(dispatch_insert insertsRow_sample).1] at hAuto
  have hId : r.getShardID (routeKey (ascii "z")) = id := by
    injection hAuto
  rw [← hId] at hRow
  revert hRow
  decide

end ShardDB.Proxy
