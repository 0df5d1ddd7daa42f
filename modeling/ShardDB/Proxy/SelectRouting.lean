import ShardDB.Routing.Router
import ShardDB.Sql.Planner
import ShardDB.Sql.ReadPaths

/-!
# A SELECT on one shard against a SELECT on all shards

The planner sends a `SELECT` to one shard as soon as an equality with a literal stands anywhere in
its condition. The parser of the shard looks at the root of the condition only: an equality there
becomes a point lookup, and every other condition becomes a scan of the whole table with a filter
that is never applied. So an equality below an `AND`, an `OR`, a `NOT` or a parenthesis decides
where the scan runs and not what it returns, and the rows of the other shards are missing from the
answer.

The two agree exactly if the equality is the root of the condition or no other shard has a row of
the table to show (`routedExact_iff`). The scans of two shards never return a row in common, since
a row contains its primary key and the primary key decides the shard (`home_of_mem_scan`).
-/

namespace ShardDB.Proxy

open ShardDB.Lib ShardDB.Storage ShardDB.Routing ShardDB.Sql

/-! ## The rows that a shard returns -/

/-- The rows of a result. A shard that fails contributes none. -/
def resultRows : Except Bytes (List Row) → List Row
  | .ok rows => rows
  | .error _ => []

/-- The rows that a shard returns for a `SELECT`. -/
def selectRows (parser : SqlParser) (stmt : Select) (readTs : UInt64) (s : MemoryStore) :
    List Row :=
  resultRows (do
    let plan ← buildSelectPlan parser stmt
    (execute plan s readTs).2)

section Rows

variable {parser : SqlParser} {stmt : Select} {table : Bytes}
  (hFrom : stmt.fromExprs = [.aliased table])

include hFrom

theorem selectRows_of_keyEquality {expr : Expr} {key : Bytes} (hWhere : stmt.whereExpr = some expr)
    (hKey : expr.keyEquality? = some key) (readTs : UInt64) (s : MemoryStore) :
    selectRows parser stmt readTs s = resultRows (executePointGet table key s readTs) := by
  have hPlan : buildSelectPlan parser stmt = .ok (.pointGet table key) := by
    simp only [buildSelectPlan, hFrom, hWhere, hKey]
  rw [selectRows, hPlan]
  rfl

/-- A condition of any other shape is not looked at. -/
theorem selectRows_of_not_keyEquality {expr : Expr} (hWhere : stmt.whereExpr = some expr)
    (hKey : expr.keyEquality? = none) (readTs : UInt64) (s : MemoryStore) :
    selectRows parser stmt readTs s = executeScan table s readTs := by
  have hPlan : buildSelectPlan parser stmt = .ok (.project (.filter (.scan table)
      (parser.string expr)) (selectColumns parser stmt.selectExprs)) := by
    simp only [buildSelectPlan, hFrom, hWhere, hKey]
  rw [selectRows, hPlan]
  rfl

end Rows

/-! ## Rows and their shards -/

/-- Every row of the table lies on the shard of its primary key. -/
def Placed (r : Router) (table : Bytes) (stores : UInt64 → MemoryStore) : Prop :=
  ∀ id pk ts v, (stores id).HasVersion (rowKey table pk) ts v → r.getShardID pk = id

/-- A row of the table is there to be scanned: it has a visible version, and every version of a
key past the table sorts after that one. -/
def ShowsRow (table : Bytes) (readTs : UInt64) (s : MemoryStore) : Prop :=
  ∃ pk ts v, s.HasVersion (rowKey table pk) ts v ∧ ts ≤ readTs ∧
    ∀ key' ts' v', s.HasVersion key' ts' v' → table ++ ascii ":" ++ [0xFF] ≤ key' →
      encodeKey (rowKey table pk) ts < encodeKey key' ts'

/-- The row returned by a scan begins with the primary key, behind what a colon in the name of the
table leaves of that name. -/
theorem realKey_rowKey_eq (table : Bytes) :
    ∃ rest, ∀ pk, realKey (rowKey table pk) = rest ++ pk := by
  induction table with
  | nil => exact ⟨[], fun pk => rfl⟩
  | cons c table ih =>
    by_cases hColon : c = 58
    · rw [hColon]
      exact ⟨table ++ ascii ":", fun pk => rfl⟩
    · obtain ⟨rest, hRest⟩ := ih
      refine ⟨rest, fun pk => ?_⟩
      rw [← hRest pk, realKey, realKey]
      change ((c :: rowKey table pk).dropWhile _).drop 1 = _
      rw [List.dropWhile_cons_of_pos (by simpa using hColon)]

section Scan

variable {table : Bytes} {readTs : UInt64} {s : MemoryStore}

/-- The versions of rows that the scan of a table visits. -/
theorem mem_tableItems_rowKey_iff (hEncoded : MemoryStore.Encoded s.tree) {pk : Bytes} {ts : UInt64}
    {v : Slice} :
    (encodeKey (rowKey table pk) ts, v) ∈ tableItems table s ↔
      s.HasVersion (rowKey table pk) ts v ∧
        ∀ key' ts' v', s.HasVersion key' ts' v' → table ++ ascii ":" ++ [0xFF] ≤ key' →
          encodeKey (rowKey table pk) ts < encodeKey key' ts' := by
  rw [tableItems, MemoryStore.scanned_version_iff hEncoded, Option.getD_some]
  refine and_congr_right fun _ => ?_
  constructor
  · rintro ⟨-, hInside⟩ key' ts' v' hVersion hPast
    by_contra hBefore
    -- a key past the table is past its start as well
    have hStart : table ++ ascii ":" ≤ key' := (le_of_isPrefix (List.prefix_append _ _)).trans hPast
    exact not_lt.mpr hPast
      (hInside key' ts' v' hVersion (encodeKey_maxUint64_le hStart ts') (not_lt.mp hBefore) _ rfl)
  · intro hAfter
    refine ⟨encodeKey_maxUint64_le (le_of_isPrefix (List.prefix_append _ _)) ts, ?_⟩
    rintro key' ts' v' hVersion - hLe bound hBound
    cases hBound
    by_contra hPast
    exact not_lt.mpr hLe (hAfter key' ts' v' hVersion (not_lt.mp hPast))

theorem exists_item_of_mem_scan (hEncoded : MemoryStore.Encoded s.tree) {row : Row}
    (h : row ∈ executeScan table s readTs) :
    ∃ pk ts v, (encodeKey (rowKey table pk) ts, v) ∈ tableItems table s ∧ ts ≤ readTs ∧
      row = [realKey (rowKey table pk), v.getD []] := by
  obtain ⟨key, ⟨pk, rfl⟩, ⟨j, v⟩, hMem, hShows, -, hRow⟩ := mem_executeScan_iff.mp h
  obtain ⟨ts, hTs, rfl, -⟩ := version_of_shows hEncoded hMem hShows
  exact ⟨pk, ts, v, hMem, hTs, hRow⟩

/-- The scan returns something exactly if a row of the table is there to be scanned. -/
theorem exists_row_iff (hEncoded : MemoryStore.Encoded s.tree) :
    (∃ row, row ∈ executeScan table s readTs) ↔ ShowsRow table readTs s := by
  constructor
  · rintro ⟨row, hRow⟩
    obtain ⟨pk, ts, v, hMem, hTs, -⟩ := exists_item_of_mem_scan hEncoded hRow
    obtain ⟨hVersion, hBefore⟩ := (mem_tableItems_rowKey_iff hEncoded).mp hMem
    exact ⟨pk, ts, v, hVersion, hTs, hBefore⟩
  · rintro ⟨pk, ts, v, hVersion, hTs, hBefore⟩
    have hMem := (mem_tableItems_rowKey_iff hEncoded).mpr ⟨hVersion, hBefore⟩
    obtain ⟨keys, -, hKeys, hRows⟩ := executeScan_rows table s readTs
    have hKey := (hKeys _).mpr ⟨List.prefix_append _ pk, _, hMem, shows_encodeKey.mpr hTs⟩
    exact List.exists_mem_of_length_pos (hRows.length_eq ▸ List.length_pos_of_mem hKey)

/-- A point read returns a row only if there is a version of it. -/
theorem exists_version_of_mem_pointGet {pk : Bytes} {row : Row}
    (h : row ∈ resultRows (executePointGet table pk s readTs)) :
    ∃ ts v, s.HasVersion (rowKey table pk) ts v := by
  have hRow : ∃ v, executePointGet table pk s readTs = .ok [[pk, v]] := by
    unfold executePointGet at h ⊢
    cases hGet : s.getTxn (rowKey table pk) readTs with
    | error err =>
      rw [hGet] at h
      cases h
    | ok val =>
      rw [hGet] at h
      cases val with
      | none => cases h
      | some val => exact ⟨val, rfl⟩
  obtain ⟨v, hRow⟩ := hRow
  obtain ⟨ts, -, hFirst⟩ := MemoryStore.mvccGetLocked_eq_iff.mp (executePointGet_eq_iff.mp hRow).2
  exact ⟨ts, some v, hFirst.1⟩

end Scan

/-- Two shards do not return the same row for a scan of the table. -/
theorem home_of_mem_scan {r : Router} {table : Bytes} {stores : UInt64 → MemoryStore}
    {readTs : UInt64} (hEncoded : ∀ id, MemoryStore.Encoded (stores id).tree)
    (hPlaced : Placed r table stores) {id id' : UInt64} {row : Row}
    (h : row ∈ executeScan table (stores id) readTs)
    (h' : row ∈ executeScan table (stores id') readTs) : id = id' := by
  obtain ⟨pk, ts, v, hMem, -, hRow⟩ := exists_item_of_mem_scan (hEncoded id) h
  obtain ⟨pk', ts', v', hMem', -, hRow'⟩ := exists_item_of_mem_scan (hEncoded id') h'
  have hPk : pk = pk' := by
    obtain ⟨rest, hRest⟩ := realKey_rowKey_eq table
    have hReal := (List.cons.inj (hRow.symm.trans hRow')).1
    rw [hRest, hRest] at hReal
    exact List.append_cancel_left hReal
  rw [← hPlaced id pk ts v (MemoryStore.mem_scanned_iff.mp hMem).1, hPk]
  exact hPlaced id' pk' ts' v' (MemoryStore.mem_scanned_iff.mp hMem').1

/-! ## One shard against all shards -/

/-- The shard of the key returns the rows that all shards together return. -/
def RoutedExact (parser : SqlParser) (r : Router) (stmt : Select) (key : Bytes) (readTs : UInt64)
    (stores : UInt64 → MemoryStore) : Prop :=
  ∀ row, row ∈ selectRows parser stmt readTs (stores (r.getShardID key)) ↔
    ∃ id, row ∈ selectRows parser stmt readTs (stores id)

section Routing

variable {parser : SqlParser} {r : Router} {stmt : Select} {table key : Bytes} {readTs : UInt64}
  {stores : UInt64 → MemoryStore}

/-- A point lookup finds its row on the shard of the key or nowhere. -/
theorem routedExact_of_keyEquality (hPlaced : Placed r table stores)
    (hFrom : stmt.fromExprs = [.aliased table]) {expr : Expr} (hWhere : stmt.whereExpr = some expr)
    (hKey : expr.keyEquality? = some key) : RoutedExact parser r stmt key readTs stores := by
  intro row
  refine ⟨fun hRow => ⟨_, hRow⟩, ?_⟩
  rintro ⟨id, hRow⟩
  have hRead := hRow
  rw [selectRows_of_keyEquality hFrom hWhere hKey] at hRead
  obtain ⟨ts, v, hVersion⟩ := exists_version_of_mem_pointGet hRead
  rwa [hPlaced id key ts v hVersion]

/-- A scan misses nothing exactly if the other shards have nothing to show. -/
theorem routedExact_iff_of_scan (hEncoded : ∀ id, MemoryStore.Encoded (stores id).tree)
    (hPlaced : Placed r table stores) (hFrom : stmt.fromExprs = [.aliased table]) {expr : Expr}
    (hWhere : stmt.whereExpr = some expr) (hKey : expr.keyEquality? = none) :
    RoutedExact parser r stmt key readTs stores ↔
      ∀ id, id ≠ r.getShardID key → ¬ ShowsRow table readTs (stores id) := by
  simp only [RoutedExact, selectRows_of_not_keyEquality hFrom hWhere hKey]
  constructor
  · intro hExact id hId hShows
    obtain ⟨row, hRow⟩ := (exists_row_iff (hEncoded id)).mpr hShows
    exact hId (home_of_mem_scan hEncoded hPlaced hRow ((hExact row).mpr ⟨id, hRow⟩))
  · intro hNone row
    refine ⟨fun hRow => ⟨_, hRow⟩, ?_⟩
    rintro ⟨id, hRow⟩
    by_cases hId : id = r.getShardID key
    · rwa [← hId]
    · exact absurd ((exists_row_iff (hEncoded id)).mp ⟨row, hRow⟩) (hNone id hId)

/-- A `SELECT` that the planner sends to one shard returns the rows of all shards if and only if
its condition is the equality itself or no other shard has a row of the table to show. -/
theorem routedExact_iff (hEncoded : ∀ id, MemoryStore.Encoded (stores id).tree)
    (hPlaced : Placed r table stores) (hFrom : stmt.fromExprs = [.aliased table])
    (hSingle : analyzeSelect stmt = .single key) :
    RoutedExact parser r stmt key readTs stores ↔
      (∃ expr, stmt.whereExpr = some expr ∧ expr.keyEquality? ≠ none) ∨
        ∀ id, id ≠ r.getShardID key → ¬ ShowsRow table readTs (stores id) := by
  cases hWhere : stmt.whereExpr with
  | none =>
    rw [analyzeSelect, hWhere] at hSingle
    cases hSingle
  | some expr =>
    cases hKey : expr.keyEquality? with
    | none =>
      rw [routedExact_iff_of_scan hEncoded hPlaced hFrom hWhere hKey]
      simp [hKey]
    | some key' =>
      rw [analyzeSelect_of_keyEquality hWhere hKey] at hSingle
      cases hSingle
      refine iff_of_true (routedExact_of_keyEquality hPlaced hFrom hWhere hKey) (Or.inl ?_)
      exact ⟨expr, rfl, by simp [hKey]⟩

end Routing

/-! ## Two rows on two shards -/

/-- The row `a` on shard 1 and the row `z` on shard 2. -/
def splitStores (id : UInt64) : MemoryStore :=
  if id = 1 then newMemoryStore.run [.put (ascii "t:a") (some (ascii "1"))]
  else if id = 2 then newMemoryStore.run [.put (ascii "t:z") (some (ascii "2"))]
  else newMemoryStore

/-- The texts of expressions play no part in the plans. -/
def noTexts : SqlParser where
  parse _ := .error []
  string _ := []

/-- `id = 'pk'`. -/
def idEquals (pk : Bytes) : Expr := .comparison .equal (.colName (ascii "id")) (.sqlVal pk) []

/-- `SELECT * FROM t WHERE cond`. -/
def selectWhere (cond : Expr) : Select := ⟨[.star], [.aliased (ascii "t")], some cond⟩

theorem encoded_splitStores (id : UInt64) : MemoryStore.Encoded (splitStores id).tree := by
  unfold splitStores
  split_ifs
  · exact MemoryStore.Reachable.encoded ⟨_, rfl⟩
  · exact MemoryStore.Reachable.encoded ⟨_, rfl⟩
  · exact MemoryStore.Reachable.encoded ⟨[], rfl⟩

theorem placed_splitStores : Placed splitRouter (ascii "t") splitStores := by
  intro id pk ts v hVersion
  unfold splitStores at hVersion
  split_ifs at hVersion with h₁ h₂
  · have hPk : pk = ascii "a" := rowKey_injective (ascii "t") hVersion.eq_of_put.1
    rw [hPk, h₁]
    decide
  · have hPk : pk = ascii "z" := rowKey_injective (ascii "t") hVersion.eq_of_put.1
    rw [hPk, h₂]
    decide
  · cases hVersion

/-- `WHERE id = 'a'` is a point lookup on shard 1. -/
theorem routedExact_root :
    RoutedExact noTexts splitRouter (selectWhere (idEquals (ascii "a"))) (ascii "a") maxUint64
      splitStores :=
  (routedExact_iff encoded_splitStores placed_splitStores rfl (by decide)).mpr
    (Or.inl ⟨_, rfl, by decide⟩)

/-- `WHERE id = 'a' OR id = 'z'` is a scan on shard 1 alone, which misses the row `z`. -/
theorem not_routedExact :
    ¬ ∀ (parser : SqlParser) (r : Router) (stmt : Select) (table key : Bytes) (readTs : UInt64)
      (stores : UInt64 → MemoryStore), (∀ id, MemoryStore.Encoded (stores id).tree) →
      Placed r table stores → stmt.fromExprs = [.aliased table] →
      analyzeSelect stmt = .single key → RoutedExact parser r stmt key readTs stores := by
  intro hAll
  have hExact := hAll noTexts splitRouter
    (selectWhere (.or (idEquals (ascii "a")) (idEquals (ascii "z")))) (ascii "t") (ascii "a")
    maxUint64 splitStores encoded_splitStores placed_splitStores rfl (by decide)
    [ascii "z", ascii "2"]
  have hMissing : [ascii "z", ascii "2"] ∉ selectRows noTexts
      (selectWhere (.or (idEquals (ascii "a")) (idEquals (ascii "z")))) maxUint64
      (splitStores (splitRouter.getShardID (ascii "a"))) := by decide
  exact hMissing (hExact.mpr ⟨2, by decide⟩)

end ShardDB.Proxy
