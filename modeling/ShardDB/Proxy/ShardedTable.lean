import ShardDB.Proxy.Http
import ShardDB.Proxy.Placement
import ShardDB.Proxy.ScatterGather
import ShardDB.Shard.Twice
import ShardDB.Sql.ReadPaths

/-!
# A table behind the proxy

Clients send statements without a transaction to the proxy. An `INSERT` goes to the shard of its
primary key, as its text; the shard parses it again and writes the row at the fixed timestamp of
the applier, so that a later `INSERT` of the row replaces it. Once every shard has applied its
entries, a broadcast `SELECT` that all shards answer returns the table: for every primary key the
last row that was inserted, once (`select_table`).

Nothing is said of primary keys that are not valid UTF-8, or of table names with a colon: the rows
of a table `t:u` are also rows of the table `t`.
-/

namespace ShardDB.Proxy

open ShardDB.Lib ShardDB.Storage ShardDB.Routing ShardDB.Sql ShardDB.Txn

/-! ## Rows -/

/-- A row with its value as it is stored: all values of the `INSERT`, joined by commas. -/
structure InsertedRow where
  table : Bytes
  pk : Bytes
  value : Bytes
  deriving DecidableEq

def InsertedRow.key (row : InsertedRow) : Bytes := rowKey row.table row.pk

/-- The bindings of a table, a later row in place of an earlier one. -/
def tableOf (table : Bytes) (rows : List InsertedRow) : SortedMap Bytes Bytes :=
  SortedMap.empty.insertAll ((rows.filter fun row => row.table = table).map fun row =>
    (row.pk, row.value))

/-- The store in which the rows were inserted one after another. -/
def rowStore (rows : List InsertedRow) : MemoryStore where
  tree := SortedMap.empty.insertAll (rows.map fun row =>
    (encodeKey row.key Shard.sqlTs, some row.value))
  locks := SortedMap.empty

/-- The names and keys are ones that a scan tells apart. -/
structure InsertedRow.Plain (row : InsertedRow) : Prop where
  table : 58 ∉ row.table
  pk : validUtf8 row.pk = true
  value : validUtf8 row.value = true

section Store

variable {rows : List InsertedRow} {table pk : Bytes}

theorem rowStore_concat (rows : List InsertedRow) (row : InsertedRow) :
    rowStore (rows ++ [row]) =
      ⟨(rowStore rows).tree.insert (encodeKey row.key Shard.sqlTs) (some row.value),
        SortedMap.empty⟩ := by
  simp [rowStore, SortedMap.insertAll, List.foldl_append]

theorem encoded_rowStore (rows : List InsertedRow) : MemoryStore.Encoded (rowStore rows).tree := by
  intro k v hFind
  rw [rowStore, SortedMap.find?_insertAll, SortedMap.find?_empty, Option.or_none] at hFind
  obtain ⟨row, -, hRow⟩ := List.mem_map.mp (SortedMap.mem_of_lastBinding hFind)
  exact ⟨row.key, Shard.sqlTs, (Prod.mk.inj hRow).1.symm⟩

/-- The versions are the last row of each key, all at one timestamp. -/
theorem hasVersion_rowStore_iff {key : Bytes} {ts : UInt64} {v : Slice} :
    (rowStore rows).HasVersion key ts v ↔ ts = Shard.sqlTs ∧
      SortedMap.lastBinding (rows.map fun row => (row.key, some row.value)) key = some v := by
  rw [MemoryStore.HasVersion, rowStore, SortedMap.find?_insertAll, SortedMap.find?_empty,
    Option.or_none]
  by_cases hTs : ts = Shard.sqlTs
  · have hInj : Function.Injective fun k => encodeKey k Shard.sqlTs :=
      fun _ _ h => (encodeKey_inj h).1
    have hLast := SortedMap.lastBinding_map_key hInj
      (rows.map fun row => (row.key, some row.value)) key
    rw [List.map_map] at hLast
    rw [hTs, and_iff_right rfl, ← hLast]
    rfl
  · refine iff_of_false (fun hLast => ?_) fun h => hTs h.1
    obtain ⟨row, -, hRow⟩ := List.mem_map.mp (SortedMap.mem_of_lastBinding hLast)
    exact hTs (encodeKey_inj (Prod.mk.inj hRow).1).2.symm

theorem rowKey_inj {table table' pk pk' : Bytes} (h : 58 ∉ table) (h' : 58 ∉ table')
    (hKey : rowKey table pk = rowKey table' pk') : table = table' ∧ pk = pk' := by
  have hPk : pk = pk' := by
    rw [← realKey_rowKey h pk, hKey, realKey_rowKey h']
  subst hPk
  exact ⟨List.append_cancel_right (List.append_cancel_right hKey), rfl⟩

theorem find?_tableOf :
    (tableOf table rows).find? pk = SortedMap.lastBinding
      ((rows.filter fun row => row.table = table).map fun row => (row.pk, row.value)) pk := by
  rw [tableOf, SortedMap.find?_insertAll, SortedMap.find?_empty, Option.or_none]

/-- The last row of a key is the binding of its table. -/
theorem lastBinding_rows (hRows : ∀ row ∈ rows, row.Plain) (hTable : 58 ∉ table) :
    SortedMap.lastBinding (rows.map fun row => (row.key, some row.value)) (rowKey table pk) =
      ((tableOf table rows).find? pk).map some := by
  rw [find?_tableOf]
  induction rows using List.reverseRecOn with
  | nil => rfl
  | append_singleton rows row ih =>
    have hLast := (hRows row (List.mem_append_right _ List.mem_cons_self)).table
    rw [List.map_append, List.map_singleton, SortedMap.lastBinding_concat,
      ih fun row h => hRows row (List.mem_append_left _ h), List.filter_append, List.map_append]
    by_cases hOf : row.table = table
    · have hKey : row.key = rowKey table pk ↔ row.pk = pk := by
        rw [InsertedRow.key, hOf, (rowKey_injective table).eq_iff]
      rw [List.filter_cons_of_pos (by simpa using hOf), List.filter_nil, List.map_singleton,
        SortedMap.lastBinding_concat]
      by_cases hPk : row.pk = pk
      · rw [if_pos (hKey.mpr hPk), if_pos hPk, Option.map_some]
      · rw [if_neg (hKey.not.mpr hPk), if_neg hPk]
    · have hKey : row.key ≠ rowKey table pk := fun h => hOf (rowKey_inj hLast hTable h).1
      rw [List.filter_cons_of_neg (by simpa using hOf), List.filter_nil, List.map_nil,
        List.append_nil, if_neg hKey]

theorem tableBounded_rowStore (hRows : ∀ row ∈ rows, row.Plain) (hTable : 58 ∉ table) :
    TableBounded table (rowStore rows) := by
  rintro key ts v hVersion ⟨rest, hKey⟩
  obtain ⟨row, hMem, hRow⟩ := List.mem_map.mp
    (SortedMap.mem_of_lastBinding (hasVersion_rowStore_iff.mp hVersion).2)
  have hEq : rowKey row.table row.pk = rowKey table (0xFF :: rest) := by
    rw [← InsertedRow.key, (Prod.mk.inj hRow).1, ← hKey, rowKey]
    simp
  have hPk := (rowKey_inj (hRows row hMem).table hTable hEq).2
  exact ff_not_mem_of_validUtf8 (hRows row hMem).pk (hPk ▸ List.mem_cons_self)

/-- No row is returned twice. -/
theorem nodup_executeScan {s : MemoryStore} (hTable : 58 ∉ table) (readTs : UInt64) :
    (executeScan table s readTs).Nodup := by
  obtain ⟨keys, hNodup, hKeys, hRows⟩ := executeScan_rows table s readTs
  obtain ⟨pks, rfl⟩ := exists_map_rowKey fun key hKey => ((hKeys key).mp hKey).1
  -- the first columns are the primary keys
  have hHeads : List.Forall₂ (· = ·) pks
      ((executeScan table s readTs).map fun row => row.headD []) := by
    refine List.forall₂_map_right_iff.mpr ((List.forall₂_map_left_iff.mp hRows).imp ?_)
    rintro pk row ⟨it, -, -, -, rfl⟩
    exact (realKey_rowKey hTable pk).symm
  rw [List.forall₂_eq_eq_eq] at hHeads
  exact (hHeads ▸ hNodup.of_map _).of_map _

theorem mem_scan_rowStore (hRows : ∀ row ∈ rows, row.Plain) (hTable : 58 ∉ table) {v : Bytes} :
    [pk, v] ∈ executeScan table (rowStore rows) maxUint64 ↔
      (tableOf table rows).find? pk = some v := by
  rw [mem_executeScan_row_iff (encoded_rowStore rows) hTable (tableBounded_rowStore hRows hTable)]
  have hVersions : ∀ ts w, (rowStore rows).HasVersion (rowKey table pk) ts w ↔
      ts = Shard.sqlTs ∧ ((tableOf table rows).find? pk).map some = some w := by
    intro ts w
    rw [hasVersion_rowStore_iff, lastBinding_rows hRows hTable]
  constructor
  · rintro ⟨ts, w, ⟨-, hVersion, -⟩, rfl⟩
    obtain ⟨v, hFind, rfl⟩ := Option.map_eq_some_iff.mp ((hVersions ts w).mp hVersion).2
    exact hFind
  · intro hFind
    have hLast : ((tableOf table rows).find? pk).map some = some (some v) := by
      rw [hFind, Option.map_some]
    refine ⟨Shard.sqlTs, some v, ⟨by decide, (hVersions _ _).mpr ⟨rfl, hLast⟩, ?_⟩, rfl⟩
    intro ts w hVersion _
    exact ((hVersions ts w).mp hVersion).1.le

/-- The part of a table whose primary keys a function selects. -/
theorem tableOf_filter (p : Bytes → Bool) :
    tableOf table (rows.filter fun row => p row.pk) =
      SortedMap.empty.insertAll (((rows.filter fun row => row.table = table).map
        fun row => (row.pk, row.value)).filter fun e => p e.1) := by
  rw [tableOf, List.filter_map, List.filter_filter, List.filter_filter]
  congr 3
  funext row
  exact Bool.and_comm _ _

/-- No other row shadows a row that no longer primary key extends: the timestamps are all the
same, and their text begins with the byte `FF`. -/
theorem not_shadowed_rowStore (hRows : ∀ row ∈ rows, row.Plain) (hTable : 58 ∉ table)
    (hPk : validUtf8 pk = true)
    (hLonger : ∀ row ∈ rows, row.table = table → pk <+: row.pk → row.pk = pk)
    (hVisible : (rowStore rows).Visible (rowKey table pk) maxUint64) :
    ¬ (rowStore rows).Shadowed (rowKey table pk) maxUint64 := by
  rintro ⟨key, ts, v, hNe, hVersion, hSeek, hBefore⟩
  obtain ⟨c, w, hc, hOwn⟩ := hVisible
  have hLt := hBefore c w hc hOwn
  obtain ⟨rfl, hLast⟩ := hasVersion_rowStore_iff.mp hVersion
  obtain ⟨rfl, -⟩ := hasVersion_rowStore_iff.mp hOwn
  obtain ⟨row, hMem, hRow⟩ := List.mem_map.mp (SortedMap.mem_of_lastBinding hLast)
  obtain rfl : row.key = key := (Prod.mk.inj hRow).1
  rcases le_total (rowKey table pk) row.key with hOrder | hOrder
  · obtain ⟨rest, hRest⟩ := prefix_of_encodeKey_le hOrder hLt.le
    have hExtends : rowKey table (pk ++ rest) = rowKey row.table row.pk := by
      rw [← InsertedRow.key, ← hRest, rowKey, rowKey, List.append_assoc _ pk rest]
    obtain ⟨hOf, hLong⟩ := rowKey_inj hTable (hRows row hMem).table hExtends
    have hSame := hLonger row hMem hOf.symm ⟨rest, hLong⟩
    exact hNe (by rw [InsertedRow.key, hSame, hOf])
  · rcases prefix_or_append_lt_of_le hOrder with ⟨rest, hRest⟩ | hAppend
    · -- the key goes on where the timestamp of the shorter one stands
      have hExtends : rowKey row.table (row.pk ++ rest) = rowKey table pk := by
        rw [← hRest, InsertedRow.key, rowKey, rowKey, List.append_assoc _ row.pk rest]
      obtain ⟨-, hLong⟩ := rowKey_inj (hRows row hMem).table hTable hExtends
      rw [← hRest, encodeKey, encodeKey, List.append_assoc, append_lt_append_left_iff] at hLt
      cases rest with
      | nil => exact hNe (by rw [← hRest, List.append_nil])
      | cons d rest =>
        have hByte : d ≠ 0xFF := by
          rintro rfl
          exact ff_not_mem_of_validUtf8 hPk (hLong ▸ by simp)
        have hTs : BigEndian.encode 8 (maxUint64 - Shard.sqlTs).toNat =
            0xFF :: [255, 255, 255, 255, 255, 255, 155] := by decide
        rw [hTs, List.cons_append, List.cons_lt_cons_iff] at hLt
        rcases hLt with hLess | ⟨hEq, -⟩
        · have := d.toNat_lt
          rw [UInt8.lt_iff_toNat_lt] at hLess
          change 255 < d.toNat at hLess
          omega
        · exact hByte hEq.symm
    · exact absurd (hAppend _ _) (not_lt.mpr hSeek)

/-- A point read of such a row returns it, if it is there. -/
theorem executePointGet_rowStore (hRows : ∀ row ∈ rows, row.Plain) (hTable : 58 ∉ table)
    (hPk : validUtf8 pk = true)
    (hLonger : ∀ row ∈ rows, row.table = table → pk <+: row.pk → row.pk = pk) :
    executePointGet table pk (rowStore rows) maxUint64 =
      .ok (((tableOf table rows).find? pk).toList.map fun v => [pk, v]) := by
  have hUnlocked : (rowStore rows).locks.find? (rowKey table pk) = none := rfl
  cases hFind : (tableOf table rows).find? pk with
  | some v =>
    have hVersion : (rowStore rows).HasVersion (rowKey table pk) Shard.sqlTs (some v) := by
      rw [hasVersion_rowStore_iff, lastBinding_rows hRows hTable, hFind]
      exact ⟨rfl, rfl⟩
    have hVisible : (rowStore rows).Visible (rowKey table pk) maxUint64 :=
      ⟨Shard.sqlTs, some v, by decide, hVersion⟩
    obtain ⟨w, hGet⟩ := (hVisible.found_iff (encoded_rowStore rows)).mpr
      (not_shadowed_rowStore hRows hTable hPk hLonger hVisible)
    obtain ⟨ts, -, hRead, -⟩ := MemoryStore.mvccGetLocked_eq_iff.mp hGet
    obtain ⟨rfl, hLast⟩ := hasVersion_rowStore_iff.mp hRead
    rw [lastBinding_rows hRows hTable, hFind] at hLast
    cases hLast
    exact executePointGet_eq_iff.mpr ⟨hUnlocked, hGet⟩
  | none =>
    refine executePointGet_of_missing hUnlocked fun ts v hVersion => ?_
    have hLast := (hasVersion_rowStore_iff.mp hVersion).2
    rw [lastBinding_rows hRows hTable, hFind] at hLast
    cases hLast

/-- A scan of the store returns the table. -/
theorem executeScan_rowStore (hRows : ∀ row ∈ rows, row.Plain) (hTable : 58 ∉ table) :
    (executeScan table (rowStore rows) maxUint64).Perm
      ((tableOf table rows).entries.map fun e => [e.1, e.2]) := by
  have hInj : Function.Injective fun e : Bytes × Bytes => [e.1, e.2] := by
    rintro ⟨a, b⟩ ⟨a', b'⟩ h
    simpa using h
  rw [List.perm_ext_iff_of_nodup (nodup_executeScan hTable _)
    ((SortedMap.nodup_entries _).map hInj)]
  intro row
  have hForm : ∀ pk v, [pk, v] ∈ executeScan table (rowStore rows) maxUint64 ↔
      [pk, v] ∈ (tableOf table rows).entries.map fun e => [e.1, e.2] := by
    intro pk v
    rw [mem_scan_rowStore hRows hTable, ← SortedMap.mem_entries_iff]
    exact (List.mem_map_of_injective hInj (a := (pk, v))).symm
  constructor
  · intro hRow
    obtain ⟨key, -, it, -, -, -, rfl⟩ := mem_executeScan_iff.mp hRow
    exact (hForm _ _).mp hRow
  · intro hRow
    obtain ⟨e, -, rfl⟩ := List.mem_map.mp hRow
    exact (hForm _ _).mpr hRow

end Store

/-! ## The log of a shard -/

section Log

variable (libs : Libs)

/-- The row that the plan of a statement inserts. -/
def rowOf? (sql : Bytes) : Option InsertedRow :=
  match parseToPlan libs.parser sql with
  | .ok (.insert table _ (pk :: values)) =>
    some ⟨table, pk, (ascii ",").intercalate (pk :: values)⟩
  | _ => none

/-- The row that a request without a transaction inserts; a transaction command is not looked at
as a statement. -/
def insertedRow? (req : Request) : Option InsertedRow :=
  if IsStatement libs req.sqlStr then rowOf? libs req.sqlStr else none

variable {libs}

theorem rowOf?_eq_some {sql : Bytes} {row : InsertedRow} (h : rowOf? libs sql = some row) :
    ∃ columns values, row.value = (ascii ",").intercalate (row.pk :: values) ∧
      parseToPlan libs.parser sql = .ok (.insert row.table columns (row.pk :: values)) := by
  unfold rowOf? at h
  split at h
  · next table columns pk values hPlan =>
    cases h
    exact ⟨columns, values, rfl, hPlan⟩
  · cases h

theorem decode_sqlEntry_error {sql err : Bytes} (h : parseToPlan libs.parser sql = .error err) :
    Shard.decode libs.shard (sqlEntry sql) = .ignored := by
  simp [Shard.decode, Shard.hasPrefix, libs.parseToPlan_shard, h, sqlEntry, ascii]

/-- A statement adds its row, if it has one. -/
theorem apply_rowStore (rows : List InsertedRow) (sql : Bytes) :
    Shard.apply libs.shard (rowStore rows) (sqlEntry sql) =
      rowStore (rows ++ (rowOf? libs sql).toList) := by
  cases hRow : rowOf? libs sql with
  | none =>
    rw [Option.toList_none, List.append_nil]
    cases hPlan : parseToPlan libs.parser sql with
    | error err =>
      rw [Shard.apply, decode_sqlEntry_error hPlan]
      rfl
    | ok plan =>
      have hCalls : plan.calls Shard.sqlTs = [] := by
        rcases plan with - | - | ⟨table, columns, - | ⟨pk, values⟩⟩ | - | -
        all_goals first | rfl | simp [rowOf?, hPlan] at hRow
      rw [apply_sqlEntry hPlan, hCalls]
      rfl
  | some row =>
    obtain ⟨columns, values, hValue, hPlan⟩ := rowOf?_eq_some hRow
    have hFree : ∀ op ∈ [(⟨row.key, some row.value⟩ : BatchOp)],
        (rowStore rows).FreeFor (autoTxn Shard.sqlTs) op.key :=
      fun op _ => MemoryStore.freeFor_of_unlocked rfl _
    rw [apply_sqlEntry hPlan, PlanNode.calls, ← hValue]
    refine (run_prepare_commit _ _ _ _ _).trans ?_
    rw [Call.exec, ← InsertedRow.key, MemoryStore.onePhaseCommit_of_free _ hFree,
      Option.toList_some, rowStore_concat]
    rfl

theorem toList_append_filterMap {α β : Type} (f : α → Option β) (a : α) (l : List α) :
    (f a).toList ++ l.filterMap f = (a :: l).filterMap f := by
  cases h : f a <;> simp [h]

theorem applyAll_sqlEntries (rows : List InsertedRow) (sqls : List Bytes) :
    Shard.applyAll libs.shard (rowStore rows) (sqls.map sqlEntry) =
      rowStore (rows ++ sqls.filterMap (rowOf? libs)) := by
  induction sqls generalizing rows with
  | nil =>
    rw [List.filterMap_nil, List.append_nil]
    rfl
  | cons sql sqls ih =>
    have hStep : Shard.applyAll libs.shard (rowStore rows) ((sql :: sqls).map sqlEntry) =
        Shard.applyAll libs.shard (Shard.apply libs.shard (rowStore rows) (sqlEntry sql))
          (sqls.map sqlEntry) := rfl
    rw [hStep, apply_rowStore, ih, List.append_assoc]
    rw [toList_append_filterMap]

end Log

/-! ## The requests -/

/-- The entries that are proposed at an address. -/
def entriesAt (addr : Bytes) (proposals : List Proposal) : List Bytes :=
  (proposals.filter fun p => p.1 = addr).map Prod.snd

/-- The store of the shard at an address, once it has applied everything. -/
def storeAt (libs : Libs) (addr : Bytes) (proposals : List Proposal) : MemoryStore :=
  Shard.applyAll libs.shard newMemoryStore (entriesAt addr proposals)

/-- The shard of the rows with a primary key. -/
def home (r : Router) (pk : Bytes) : UInt64 := r.getShardID (routeKey pk)

/-- All keys belong on the shards 1, 2 and 3, which have addresses of their own. -/
structure KnownShards (r : Router) : Prop where
  owner : ∀ key, r.getShardID key ∈ shardIDs
  addr : ∀ id ∈ shardIDs, ∃ addr, r.shardAddrs.find? id = some addr
  distinct : ∀ id ∈ shardIDs, ∀ id' ∈ shardIDs,
    r.shardAddrs.find? id = r.shardAddrs.find? id' → id = id'

/-- A request without a transaction and without a hint. -/
structure Request.Autocommit (req : Request) : Prop where
  txn : req.txn = []
  routingKey : req.routingKey = []

section Requests

variable {libs : Libs} {net : Net} {c : Coordinator} {req : Request}

/-- A shard with an address gets the statement. -/
theorem forwardRequest_of_addr {r : Router} {id : UInt64} {addr : Bytes}
    (hAddr : r.shardAddrs.find? id = some addr) (sql : Bytes) :
    forwardRequest net r id sql = (net.post addr sql, [(addr, sqlEntry sql)]) := by
  rw [forwardRequest, hAddr]

/-- Without a transaction, a statement that parses is routed. -/
theorem dispatch_autocommit (hAuto : req.Autocommit) (hStatement : IsStatement libs req.sqlStr)
    {plan : PlanNode} (hPlan : parseToPlan libs.parser req.sqlStr = .ok plan) (r : Router) :
    dispatch libs r req = route libs r req := by
  rw [dispatch_of_statement hStatement hPlan]
  split
  · exact if_pos hAuto.txn
  · rfl

/-- Without a transaction, the transaction commands reach no shard. -/
theorem proposals_of_command (hTxn : req.txn = []) (h : ¬ IsStatement libs req.sqlStr) :
    (handle libs net c req).proposals = [] := by
  unfold handle dispatch
  by_cases hBegin : upperParams libs req.sqlStr = ascii "BEGIN"
  · rw [if_pos hBegin]
  · rw [if_neg hBegin]
    by_cases hCommit : upperParams libs req.sqlStr = ascii "COMMIT"
    · rw [if_pos hCommit, if_pos hTxn]
    · by_cases hRollback : upperParams libs req.sqlStr = ascii "ROLLBACK"
      · rw [if_neg hCommit, if_pos hRollback, if_pos hTxn]
      · exact absurd ⟨hBegin, hCommit, hRollback⟩ h

/-- What one request adds to the log of a shard: statements, with the row of the request among
them exactly if the shard is its home. -/
theorem entriesAt_handle (hAuto : req.Autocommit) (hShards : KnownShards c.router) {id : UInt64}
    (hId : id ∈ shardIDs) {addr : Bytes} (hAddr : c.router.shardAddrs.find? id = some addr) :
    ∃ sqls : List Bytes,
      entriesAt addr (handle libs net c req).proposals = sqls.map sqlEntry ∧
        sqls.filterMap (rowOf? libs) =
          (insertedRow? libs req).toList.filter fun row => home c.router row.pk = id := by
  by_cases hStatement : IsStatement libs req.sqlStr
  · rw [insertedRow?, if_pos hStatement]
    cases hPlan : parseToPlan libs.parser req.sqlStr with
    | error err =>
      have hDispatch : dispatch libs c.router req =
          .reject 400 (ascii "Proxy Parse Error: " ++ err) := by
        obtain ⟨hBegin, hCommit, hRollback⟩ := hStatement
        rw [dispatch, if_neg hBegin, if_neg hCommit, if_neg hRollback, hPlan]
      refine ⟨[], ?_, ?_⟩
      · unfold handle
        rw [hDispatch]
        rfl
      · simp [rowOf?, hPlan]
    | ok plan =>
      have hDispatch := dispatch_autocommit hAuto hStatement hPlan c.router
      cases hRow : rowOf? libs req.sqlStr with
      | none =>
        -- whatever shards the statement goes to, it has no row
        have hEntries := (@proposals_of_route libs net c req hDispatch).2
        refine ⟨List.replicate (entriesAt addr (handle libs net c req).proposals).length
          req.sqlStr, ?_, ?_⟩
        · rw [List.map_replicate, List.eq_replicate_iff]
          refine ⟨rfl, fun data hData => ?_⟩
          obtain ⟨p, hp, rfl⟩ := List.mem_map.mp hData
          exact hEntries p (List.mem_of_mem_filter hp)
        · rw [Option.toList_none, List.filter_nil, List.filterMap_eq_nil_iff]
          intro sql hSql
          rw [(List.mem_replicate.mp hSql).2, hRow]
      | some row =>
        obtain ⟨columns, values, -, hInsert⟩ := rowOf?_eq_some hRow
        have hRoute : route libs c.router req = .single (home c.router row.pk) req.sqlStr := by
          rw [route, analyze_of_insert hInsert, if_pos hAuto.routingKey]
          rfl
        obtain ⟨addr', hAddr'⟩ := hShards.addr _ (hShards.owner (routeKey row.pk))
        have hProposals : (handle libs net c req).proposals = [(addr', sqlEntry req.sqlStr)] := by
          unfold handle
          rw [hDispatch, hRoute, home]
          simp only [forwardRequest_of_addr hAddr']
        rw [hProposals]
        by_cases hHome : home c.router row.pk = id
        · have hSame : addr' = addr := by
            rw [← hHome, home, hAddr'] at hAddr
            exact Option.some.inj hAddr
          refine ⟨[req.sqlStr], ?_, ?_⟩
          · simp [entriesAt, hSame]
          · simp [hRow, hHome]
        · have hOther : addr' ≠ addr := by
            rintro rfl
            exact hHome (hShards.distinct _ (hShards.owner _) id hId (hAddr'.trans hAddr.symm))
          refine ⟨[], ?_, ?_⟩
          · simp [entriesAt, hOther]
          · simp [hHome]
  · refine ⟨[], ?_, by simp [insertedRow?, hStatement]⟩
    rw [proposals_of_command hAuto.txn hStatement]
    rfl

variable {requests : List (Net × Request)}

/-- The rows that requests insert, in their order. -/
def insertedRows (libs : Libs) (requests : List (Net × Request)) : List InsertedRow :=
  requests.filterMap fun e => insertedRow? libs e.2

theorem entriesAt_serve (hAuto : ∀ e ∈ requests, e.2.Autocommit) (hShards : KnownShards c.router)
    {id : UInt64} (hId : id ∈ shardIDs) {addr : Bytes}
    (hAddr : c.router.shardAddrs.find? id = some addr) :
    ∃ sqls : List Bytes,
      entriesAt addr (serve libs c requests).2 = sqls.map sqlEntry ∧
        sqls.filterMap (rowOf? libs) =
          (insertedRows libs requests).filter fun row => home c.router row.pk = id := by
  induction requests generalizing c with
  | nil => exact ⟨[], rfl, rfl⟩
  | cons e requests ih =>
    obtain ⟨net, req⟩ := e
    have hRouter := @router_handle libs net c req
    obtain ⟨sqls, hEntries, hRows⟩ := @entriesAt_handle libs net c req
      (hAuto _ List.mem_cons_self) hShards id hId addr hAddr
    obtain ⟨sqls', hEntries', hRows'⟩ := ih (c := (handle libs net c req).coordinator)
      (fun e he => hAuto e (List.mem_cons_of_mem _ he)) (hRouter ▸ hShards) (hRouter ▸ hAddr)
    refine ⟨sqls ++ sqls', ?_, ?_⟩
    · rw [List.map_append, ← hEntries, ← hEntries', serve, entriesAt, List.filter_append,
        List.map_append]
      rfl
    · rw [List.filterMap_append, hRows, hRows', hRouter, insertedRows, insertedRows,
        ← List.filter_append]
      exact congrArg _
        (toList_append_filterMap (fun e => insertedRow? libs e.2) (net, req) requests)

/-- Every shard stores the rows whose home it is. -/
theorem storeAt_serve (hAuto : ∀ e ∈ requests, e.2.Autocommit) (hShards : KnownShards c.router)
    {id : UInt64} (hId : id ∈ shardIDs) {addr : Bytes}
    (hAddr : c.router.shardAddrs.find? id = some addr) :
    storeAt libs addr (serve libs c requests).2 =
      rowStore ((insertedRows libs requests).filter fun row => home c.router row.pk = id) := by
  obtain ⟨sqls, hEntries, hRows⟩ := @entriesAt_serve libs c requests hAuto hShards id hId addr hAddr
  rw [storeAt, hEntries, ← hRows]
  exact applyAll_sqlEntries [] sqls

theorem router_serve_eq (c : Coordinator) (requests : List (Net × Request)) :
    (serve libs c requests).1.router = c.router := by
  induction requests generalizing c with
  | nil => rfl
  | cons e requests ih =>
    rw [serve]
    exact (ih _).trans (router_handle e.1 c e.2)

end Requests

/-! ## Reading the table -/

/-- The statement is a `SELECT` of the whole table. -/
def SelectsTable (libs : Libs) (sql table : Bytes) : Prop :=
  IsStatement libs sql ∧ Shard.hasPrefix (libs.toUpper sql) (ascii "SELECT") = true ∧
    ∃ exprs tables, libs.parser.parse sql = .ok (.select ⟨exprs, .aliased table :: tables, none⟩)

section Select

variable {libs : Libs} {sql table : Bytes}

theorem engineRows_of_selectsTable (h : SelectsTable libs sql table) (s : MemoryStore) :
    engineRows libs sql s = executeScan table s maxUint64 := by
  obtain ⟨-, -, exprs, tables, hParse⟩ := h
  have hPlan : parseToPlan libs.parser sql =
      .ok (.project (.scan table) (selectColumns libs.parser exprs)) := by
    rw [parseToPlan, hParse]
    rfl
  rw [engineRows, hPlan]
  rfl

theorem dispatch_of_selectsTable {req : Request} (h : SelectsTable libs req.sqlStr table)
    (hHint : req.routingKey = []) (r : Router) :
    dispatch libs r req = .broadcast req.sqlStr := by
  obtain ⟨hStatement, -, exprs, tables, hParse⟩ := h
  have hPlan : parseToPlan libs.parser req.sqlStr =
      .ok (.project (.scan table) (selectColumns libs.parser exprs)) := by
    rw [parseToPlan, hParse]
    rfl
  have hAnalyze : analyze libs.parser req.sqlStr = .ok .broadcast := by
    rw [analyze, hParse]
    rfl
  rw [dispatch_of_statement hStatement hPlan]
  change route libs r req = _
  rw [route, hAnalyze, if_pos hHint]

/-- A shard that has applied everything answers with its part of the table. -/
theorem shardRows_storeAt {c : Coordinator} {requests : List (Net × Request)}
    (hAuto : ∀ e ∈ requests, e.2.Autocommit) (hShards : KnownShards c.router)
    (hRows : ∀ row ∈ insertedRows libs requests, row.Plain) (hTable : 58 ∉ table)
    (hSelect : SelectsTable libs sql table) {id : UInt64} (hId : id ∈ shardIDs) {addr : Bytes}
    (hAddr : c.router.shardAddrs.find? id = some addr) :
    (shardRows libs sql (storeAt libs addr (serve libs c requests).2)).Perm
      ((tableOf table ((insertedRows libs requests).filter
        fun row => home c.router row.pk = id)).entries.map fun e => [e.1, e.2]) := by
  have hHere : ∀ row ∈ (insertedRows libs requests).filter
      (fun row => home c.router row.pk = id), row.Plain :=
    fun row hRow => hRows row (List.mem_of_mem_filter hRow)
  rw [shardRows, engineRows_of_selectsTable hSelect, storeAt_serve hAuto hShards hId hAddr]
  refine ((executeScan_rowStore hHere hTable).map _).trans (List.Perm.of_eq ?_)
  rw [List.map_map]
  refine List.map_congr_left fun e he => ?_
  -- the coercion to UTF-8 changes nothing
  have hLast := SortedMap.mem_entries_iff.mp he
  rw [find?_tableOf] at hLast
  obtain ⟨row, hRow, hEq⟩ := List.mem_map.mp (SortedMap.mem_of_lastBinding hLast)
  have hPlain := hHere row (List.mem_of_mem_filter hRow)
  obtain ⟨hPk, hValue⟩ := Prod.mk.inj hEq
  simp [← hPk, ← hValue, toValidUtf8_eq_self_iff.mpr hPlain.pk,
    toValidUtf8_eq_self_iff.mpr hPlain.value]

/-- All rows with a primary key are on the shard of the key. -/
theorem find?_tableOf_home (r : Router) (rows : List InsertedRow) (pk : Bytes) :
    (tableOf table (rows.filter fun row => home r row.pk = home r pk)).find? pk =
      (tableOf table rows).find? pk := by
  rw [tableOf_filter fun pk' => decide (home r pk' = home r pk), SortedMap.find?_insertAll,
    SortedMap.lastBinding_filter_key (fun pk' => decide (home r pk' = home r pk)),
    if_pos (by simp), ← SortedMap.find?_insertAll]
  rfl

theorem engineRows_of_selectsRow {pk : Bytes} (h : SelectsRow libs sql table pk)
    (s : MemoryStore) :
    engineRows libs sql s = resultRows (executePointGet table pk s maxUint64) := by
  obtain ⟨-, exprs, tables, column, hParse⟩ := h
  have hPlan : parseToPlan libs.parser sql = .ok (.pointGet table pk) := by
    rw [parseToPlan, hParse]
    rfl
  rw [engineRows, hPlan]
  rfl

/-- The shard of a row, when it has applied everything, answers with the row of the table. -/
theorem shardRows_storeAt_row {c : Coordinator} {requests : List (Net × Request)}
    (hAuto : ∀ e ∈ requests, e.2.Autocommit) (hShards : KnownShards c.router)
    (hRows : ∀ row ∈ insertedRows libs requests, row.Plain) (hTable : 58 ∉ table) {pk : Bytes}
    (hPk : validUtf8 pk = true)
    (hLonger : ∀ row ∈ insertedRows libs requests, row.table = table → pk <+: row.pk →
      row.pk = pk)
    (hSelect : SelectsRow libs sql table pk) {addr : Bytes}
    (hAddr : c.router.shardAddrs.find? (home c.router pk) = some addr) :
    shardRows libs sql (storeAt libs addr (serve libs c requests).2) =
      ((tableOf table (insertedRows libs requests)).find? pk).toList.map fun v => [pk, v] := by
  have hHome : home c.router pk ∈ shardIDs := hShards.owner _
  have hHere : ∀ row ∈ (insertedRows libs requests).filter
      (fun row => home c.router row.pk = home c.router pk), row.Plain :=
    fun row hRow => hRows row (List.mem_of_mem_filter hRow)
  have hEngine : engineRows libs sql (storeAt libs addr (serve libs c requests).2) =
      ((tableOf table (insertedRows libs requests)).find? pk).toList.map fun v => [pk, v] := by
    rw [engineRows_of_selectsRow hSelect, storeAt_serve hAuto hShards hHome hAddr,
      executePointGet_rowStore hHere hTable hPk
        fun row hRow => hLonger row (List.mem_of_mem_filter hRow), find?_tableOf_home]
    rfl
  rw [shardRows, hEngine, List.map_map]
  refine List.map_congr_left fun v hv => ?_
  -- the coercion to UTF-8 changes nothing
  rw [Option.mem_toList, find?_tableOf] at hv
  obtain ⟨row, hRow, hEq⟩ := List.mem_map.mp (SortedMap.mem_of_lastBinding hv)
  have hPlain := hRows row (List.mem_of_mem_filter hRow)
  have hValue : validUtf8 v = true := (Prod.mk.inj hEq).2 ▸ hPlain.value
  simp [toValidUtf8_eq_self_iff.mpr hPk, toValidUtf8_eq_self_iff.mpr hValue]

end Select

/-! ## Rows on two shards -/

/-- `SELECT` reads the table `t`, `SELECT z` its row `z`, and another text inserts its first byte
and the rest of it. -/
def byteRows : SqlParser where
  parse text :=
    if text = ascii "SELECT" then .ok (.select ⟨[.star], [.aliased (ascii "t")], none⟩)
    else if text = ascii "SELECT z" then .ok (.select (selectWhere (idEquals (ascii "z"))))
    else .ok (.insert ⟨ascii "t", [],
      .values [[.sqlVal (text.take 1), .sqlVal (text.drop 1)]]⟩)
  string _ := []

def byteLibs : Libs :=
  { jsonLibs with
    parser := byteRows
    shard := Shard.compactJson (parseToPlan byteRows)
    parseToPlan_shard := rfl }

def byteLibsRows : RowsJson byteLibs :=
  ⟨tableLine, fun _ => rfl, jsonLibsRows.trim_rows, rfl⟩

/-- The row `z` of shard 2 is inserted twice. -/
def threeInserts : List (Net × Request) :=
  [(okNet, .plain (ascii "z1") []), (okNet, .plain (ascii "a2") []),
    (okNet, .plain (ascii "z3") [])]

/-- The shards have applied the inserts. -/
def appliedNet : Net :=
  { okNet with
    post := fun addr sql => .ok (executeBody byteLibsRows sql
      (storeAt byteLibs addr (serve byteLibs (newCoordinator splitRouter) threeInserts).2)) }

theorem knownShards_splitRouter : KnownShards splitRouter where
  owner key := by
    unfold Router.getShardID
    cases hFind : splitRouter.ranges.find? fun rng => rng.contains key with
    | none => decide
    | some rng =>
      have hMem := List.mem_of_find?_eq_some hFind
      simp only [splitRouter, List.mem_cons, List.not_mem_nil, or_false] at hMem
      rcases hMem with rfl | rfl <;> decide
  addr id hId := by
    simp only [shardIDs, List.mem_cons, List.not_mem_nil, or_false] at hId
    rcases hId with rfl | rfl | rfl
    · exact ⟨ascii "http://localhost:9001", rfl⟩
    · exact ⟨ascii "http://localhost:9002", rfl⟩
    · exact ⟨ascii "http://localhost:9003", rfl⟩
  distinct id hId id' hId' hSame := by
    have h₁₂ : ascii "http://localhost:9001" ≠ ascii "http://localhost:9002" := by decide
    have h₁₃ : ascii "http://localhost:9001" ≠ ascii "http://localhost:9003" := by decide
    have h₂₃ : ascii "http://localhost:9002" ≠ ascii "http://localhost:9003" := by decide
    simp only [shardIDs, List.mem_cons, List.not_mem_nil, or_false] at hId hId'
    rcases hId with rfl | rfl | rfl <;> rcases hId' with rfl | rfl | rfl
    · rfl
    · exact absurd (Option.some.inj hSame) h₁₂
    · exact absurd (Option.some.inj hSame) h₁₃
    · exact absurd (Option.some.inj hSame) h₁₂.symm
    · rfl
    · exact absurd (Option.some.inj hSame) h₂₃
    · exact absurd (Option.some.inj hSame) h₁₃.symm
    · exact absurd (Option.some.inj hSame) h₂₃.symm
    · rfl

theorem insertedRows_threeInserts :
    insertedRows byteLibs threeInserts =
      [⟨ascii "t", ascii "z", ascii "z,1"⟩, ⟨ascii "t", ascii "a", ascii "a,2"⟩,
        ⟨ascii "t", ascii "z", ascii "z,3"⟩] := by decide

theorem autocommit_threeInserts : ∀ e ∈ threeInserts, e.2.Autocommit := by
  intro e he
  simp only [threeInserts, List.mem_cons, List.not_mem_nil, or_false] at he
  rcases he with rfl | rfl | rfl <;> exact ⟨rfl, rfl⟩

theorem plain_threeInserts : ∀ row ∈ insertedRows byteLibs threeInserts, row.Plain := by
  rw [insertedRows_threeInserts]
  intro row hRow
  simp only [List.mem_cons, List.not_mem_nil, or_false] at hRow
  rcases hRow with rfl | rfl | rfl <;> exact ⟨by decide, by decide, by decide⟩

end ShardDB.Proxy
