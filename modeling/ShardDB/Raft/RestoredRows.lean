import ShardDB.Proxy.ShardedTable
import ShardDB.Raft.Replicas

/-!
# A shard replica that is restored from a snapshot

The raft group of a shard whose log has statements only, as the proxy sends them without a
transaction. Every version is written at the one timestamp of the applier, and the text of that
timestamp in a version key is not valid UTF-8. A snapshot is a JSON object whose names are the
version keys, so each of the eight bytes is replaced by U+FFFD. The replica that restores it reads
the last eight of the resulting 24 bytes as a timestamp and takes the other sixteen for the end of
the key.

So the first replica that is handed a snapshot has every row of the table, under a primary key that
nobody has inserted, and it finds no row by its primary key (`scan_restored`). The replicas that
were handed entries have the table. All this is for tables without a colon in their name, and for
tables, primary keys and values that are valid UTF-8.
-/

namespace ShardDB.Raft

open ShardDB.Lib ShardDB.Storage ShardDB.Sql ShardDB.Proxy

/-! ## The renamed version keys -/

/-- What the keys of a restored store end in. -/
def renamed : Bytes :=
  [0xEF, 0xBF, 0xBD, 0xEF, 0xBF, 0xBD, 0xEF, 0xBF, 0xBD, 0xEF, 0xBF, 0xBD, 0xEF, 0xBF, 0xBD, 0xEF]

/-- The timestamp of the versions of a restored store. -/
def renamedTs : UInt64 := 0x4042104042104042

theorem toValidUtf8_encodeKey {key : Bytes} (h : validUtf8 key = true) :
    toValidUtf8 (encodeKey key Shard.sqlTs) = encodeKey (key ++ renamed) renamedTs := by
  have hTs : toValidUtf8 (BigEndian.encode 8 (maxUint64 - Shard.sqlTs).toNat) =
      renamed ++ BigEndian.encode 8 (maxUint64 - renamedTs).toNat := by decide
  rw [encodeKey, toValidUtf8_append h, hTs, ← List.append_assoc]
  rfl

/-- Renamed keys are not valid UTF-8. -/
theorem not_validUtf8_renamed {key : Bytes} (h : validUtf8 key = true) :
    validUtf8 (key ++ renamed) = false := by
  rw [← Bool.not_eq_true, ← toValidUtf8_eq_self_iff, toValidUtf8_append h]
  intro hEq
  exact absurd (List.append_cancel_left hEq) (by decide)

/-- A map of byte strings that JSON names keep apart. -/
theorem find?_jsonMap_iff {tree : SortedMap Bytes Slice}
    (hApart : ∀ k k' v v', tree.find? k = some v → tree.find? k' = some v' →
      toValidUtf8 k = toValidUtf8 k' → k = k') {j : Bytes} {v : Slice} :
    (jsonMap (jsonMembers tree)).find? j = some v ↔
      ∃ k, tree.find? k = some v ∧ toValidUtf8 k = j := by
  have hMem : ∀ v, (j, v) ∈ (jsonMembers tree).map (fun e => (e.1.1, e.2)) ↔
      ∃ k, tree.find? k = some v ∧ toValidUtf8 k = j := by
    intro v
    simp only [jsonMembers, List.map_map, List.mem_map, Function.comp_apply, Prod.mk.injEq,
      Prod.exists, SortedMap.mem_entries_iff]
    constructor
    · rintro ⟨k, v', hFind, hName, rfl⟩
      exact ⟨k, hFind, hName⟩
    · rintro ⟨k, hFind, hName⟩
      exact ⟨k, v, hFind, hName, rfl⟩
  rw [jsonMap, SortedMap.find?_insertAll, SortedMap.find?_empty, Option.or_none, ← hMem]
  refine ⟨SortedMap.mem_of_lastBinding, fun hBinding => ?_⟩
  cases hLast : SortedMap.lastBinding ((jsonMembers tree).map fun e => (e.1.1, e.2)) j with
  | none => exact absurd (List.mem_map_of_mem hBinding) (SortedMap.lastBinding_eq_none_iff.mp hLast)
  | some v' =>
    obtain ⟨k, hFind, hName⟩ := (hMem v).mp hBinding
    obtain ⟨k', hFind', hName'⟩ := (hMem v').mp (SortedMap.mem_of_lastBinding hLast)
    obtain rfl := hApart k k' v v' hFind hFind' (hName.trans hName'.symm)
    rw [← hFind, hFind']

/-! ## The restored store -/

section Restored

variable {rows : List InsertedRow} {table pk : Bytes}

theorem validUtf8_rowKey (hTable : validUtf8 table = true) (hPk : validUtf8 pk = true) :
    validUtf8 (rowKey table pk) = true := by
  have hColon : toValidUtf8 (ascii ":") = ascii ":" := by decide
  rw [← toValidUtf8_eq_self_iff, rowKey, List.append_assoc, toValidUtf8_append hTable,
    toValidUtf8_append (toValidUtf8_eq_self_iff.mp hColon), toValidUtf8_eq_self_iff.mpr hPk]

/-- The rows are plain, and the names of their tables are valid UTF-8 too. -/
def PlainRows (rows : List InsertedRow) : Prop :=
  ∀ row ∈ rows, row.Plain ∧ validUtf8 row.table = true

theorem PlainRows.plain (h : PlainRows rows) : ∀ row ∈ rows, row.Plain :=
  fun row hRow => (h row hRow).1

/-- A version of the store is one of a row. -/
theorem exists_row_of_hasVersion {key : Bytes} {ts : UInt64} {v : Slice}
    (h : (rowStore rows).HasVersion key ts v) : ts = Shard.sqlTs ∧ ∃ row ∈ rows, row.key = key := by
  obtain ⟨hTs, hLast⟩ := hasVersion_rowStore_iff.mp h
  obtain ⟨row, hRow, hBinding⟩ := List.mem_map.mp (SortedMap.mem_of_lastBinding hLast)
  exact ⟨hTs, row, hRow, (Prod.mk.inj hBinding).1⟩

/-- A store after a snapshot of the rows has been restored in it. -/
def restoredStore (t : MemoryStore) (rows : List InsertedRow) : MemoryStore :=
  { t with tree := jsonMap (jsonMembers (rowStore rows).tree) }

/-- What becomes of a version key of the rows. -/
theorem toValidUtf8_of_rowStore (hRows : PlainRows rows) {k : Bytes} {v : Slice}
    (h : (rowStore rows).tree.find? k = some v) :
    ∃ key, k = encodeKey key Shard.sqlTs ∧
      toValidUtf8 k = encodeKey (key ++ renamed) renamedTs := by
  obtain ⟨key, ts, rfl⟩ := encoded_rowStore rows k v h
  obtain ⟨rfl, row, hRow, rfl⟩ := exists_row_of_hasVersion h
  obtain ⟨hPlain, hTable⟩ := hRows row hRow
  exact ⟨row.key, rfl, toValidUtf8_encodeKey (validUtf8_rowKey hTable hPlain.pk)⟩

theorem find?_restoredStore_iff (hRows : PlainRows rows) (t : MemoryStore) {j : Bytes} {v : Slice} :
    (restoredStore t rows).tree.find? j = some v ↔
      ∃ key, (rowStore rows).HasVersion key Shard.sqlTs v ∧
        j = encodeKey (key ++ renamed) renamedTs := by
  rw [restoredStore, find?_jsonMap_iff]
  · constructor
    · rintro ⟨k, hFind, rfl⟩
      obtain ⟨key, rfl, hName⟩ := toValidUtf8_of_rowStore hRows hFind
      exact ⟨key, hFind, hName⟩
    · rintro ⟨key, hVersion, rfl⟩
      obtain ⟨key', hKey, hName⟩ := toValidUtf8_of_rowStore hRows hVersion
      rw [(encodeKey_inj hKey).1] at hVersion ⊢
      exact ⟨_, hVersion, hKey ▸ hName⟩
  · intro k k' v v' hFind hFind' hEq
    obtain ⟨key, rfl, hName⟩ := toValidUtf8_of_rowStore hRows hFind
    obtain ⟨key', rfl, hName'⟩ := toValidUtf8_of_rowStore hRows hFind'
    have hKeys := (encodeKey_inj (hName.symm.trans (hEq.trans hName'))).1
    rw [List.append_cancel_right hKeys]

/-- The versions of the restored store are those of the rows, renamed. -/
theorem hasVersion_restoredStore_iff (hRows : PlainRows rows) (t : MemoryStore) {key : Bytes}
    {ts : UInt64} {v : Slice} :
    (restoredStore t rows).HasVersion key ts v ↔ ts = renamedTs ∧
      ∃ k, key = k ++ renamed ∧ (rowStore rows).HasVersion k Shard.sqlTs v := by
  rw [MemoryStore.HasVersion, find?_restoredStore_iff hRows]
  constructor
  · rintro ⟨k, hVersion, hEq⟩
    obtain ⟨hKey, hTs⟩ := encodeKey_inj hEq
    exact ⟨hTs, k, hKey, hVersion⟩
  · rintro ⟨rfl, k, rfl, hVersion⟩
    exact ⟨k, hVersion, rfl⟩

theorem encoded_restoredStore (hRows : PlainRows rows) (t : MemoryStore) :
    MemoryStore.Encoded (restoredStore t rows).tree := by
  intro j v hFind
  obtain ⟨key, -, hName⟩ := (find?_restoredStore_iff hRows t).mp hFind
  exact ⟨key ++ renamed, renamedTs, hName⟩

/-- A version of a row of the restored store has a renamed primary key. -/
theorem exists_pk_of_restoredStore (hRows : PlainRows rows) (hTable : 58 ∉ table) {t : MemoryStore}
    {ts : UInt64} {v : Slice} (h : (restoredStore t rows).HasVersion (rowKey table pk) ts v) :
    ts = renamedTs ∧ ∃ pk', validUtf8 pk' = true ∧ pk = pk' ++ renamed ∧
      (rowStore rows).HasVersion (rowKey table pk') Shard.sqlTs v := by
  obtain ⟨hTs, k, hKey, hVersion⟩ := (hasVersion_restoredStore_iff hRows t).mp h
  obtain ⟨-, row, hRow, rfl⟩ := exists_row_of_hasVersion hVersion
  have hPlain := (hRows row hRow).1
  have hName : rowKey table pk = rowKey row.table (row.pk ++ renamed) := by
    rw [hKey, InsertedRow.key, rowKey, rowKey, List.append_assoc _ row.pk renamed]
  obtain ⟨rfl, hPk⟩ := rowKey_inj hTable hPlain.table hName
  exact ⟨hTs, row.pk, hPlain.pk, hPk, hVersion⟩

theorem tableBounded_restoredStore (hRows : PlainRows rows) (hTable : 58 ∉ table)
    (t : MemoryStore) : TableBounded table (restoredStore t rows) := by
  rintro key ts v hVersion ⟨rest, rfl⟩
  have hKey : table ++ ascii ":" ++ [0xFF] ++ rest = rowKey table (0xFF :: rest) := by
    simp [rowKey]
  rw [hKey] at hVersion
  obtain ⟨-, pk, hPk, hRest, -⟩ := exists_pk_of_restoredStore hRows hTable hVersion
  cases pk with
  | nil => simp [renamed] at hRest
  | cons b pk =>
    rw [List.cons_append] at hRest
    exact ff_not_mem_of_validUtf8 hPk ((List.cons.inj hRest).1 ▸ List.mem_cons_self)

theorem mem_scan_restoredStore (hRows : PlainRows rows) (hTable : 58 ∉ table) (t : MemoryStore)
    {v : Bytes} :
    [pk, v] ∈ executeScan table (restoredStore t rows) maxUint64 ↔
      ∃ pk', pk = pk' ++ renamed ∧ (tableOf table rows).find? pk' = some v := by
  have hRow : ∀ pk' w, (rowStore rows).HasVersion (rowKey table pk') Shard.sqlTs w ↔
      ((tableOf table rows).find? pk').map some = some w := by
    intro pk' w
    rw [hasVersion_rowStore_iff, lastBinding_rows hRows.plain hTable, and_iff_right rfl]
  rw [mem_executeScan_row_iff (encoded_restoredStore hRows t) hTable
    (tableBounded_restoredStore hRows hTable t)]
  constructor
  · rintro ⟨ts, w, ⟨-, hVersion, -⟩, rfl⟩
    obtain ⟨-, pk', -, hPk, hOld⟩ := exists_pk_of_restoredStore hRows hTable hVersion
    obtain ⟨v, hFind, rfl⟩ := Option.map_eq_some_iff.mp ((hRow pk' w).mp hOld)
    exact ⟨pk', hPk, hFind⟩
  · rintro ⟨pk', rfl, hFind⟩
    have hOld := (hRow pk' (some v)).mpr (by rw [hFind, Option.map_some])
    have hVersion : (restoredStore t rows).HasVersion (rowKey table (pk' ++ renamed)) renamedTs
        (some v) := by
      refine (hasVersion_restoredStore_iff hRows t).mpr ⟨rfl, _, ?_, hOld⟩
      rw [rowKey, rowKey, List.append_assoc _ pk' renamed]
    refine ⟨renamedTs, some v, ⟨by decide, hVersion, fun ts w hOther _ => ?_⟩, rfl⟩
    exact (exists_pk_of_restoredStore hRows hTable hOther).1.le

/-- A scan of the restored store returns the rows of the table under renamed primary keys. -/
theorem executeScan_restoredStore (hRows : PlainRows rows) (hTable : 58 ∉ table) (t : MemoryStore) :
    (executeScan table (restoredStore t rows) maxUint64).Perm
      ((tableOf table rows).entries.map fun e => [e.1 ++ renamed, e.2]) := by
  have hInj : Function.Injective fun e : Bytes × Bytes => [e.1 ++ renamed, e.2] := by
    rintro ⟨a, b⟩ ⟨a', b'⟩ h
    simpa using h
  rw [List.perm_ext_iff_of_nodup (nodup_executeScan hTable _)
    ((SortedMap.nodup_entries _).map hInj)]
  have hForm : ∀ pk v, [pk, v] ∈ executeScan table (restoredStore t rows) maxUint64 ↔
      [pk, v] ∈ (tableOf table rows).entries.map fun e => [e.1 ++ renamed, e.2] := by
    intro pk v
    simp only [mem_scan_restoredStore hRows hTable, List.mem_map, List.cons.injEq, and_true,
      Prod.exists, SortedMap.mem_entries_iff]
    constructor
    · rintro ⟨pk', rfl, hFind⟩
      exact ⟨pk', v, hFind, rfl, rfl⟩
    · rintro ⟨pk', v', hFind, rfl, rfl⟩
      exact ⟨pk', rfl, hFind⟩
  intro row
  constructor
  · intro hRow
    obtain ⟨key, -, it, -, -, -, rfl⟩ := mem_executeScan_iff.mp hRow
    exact (hForm _ _).mp hRow
  · intro hRow
    obtain ⟨e, -, rfl⟩ := List.mem_map.mp hRow
    exact (hForm _ _).mpr hRow

/-- No row of the restored store is found by a primary key that is valid UTF-8. -/
theorem executePointGet_restoredStore (hRows : PlainRows rows) (hTable : 58 ∉ table)
    (hPk : validUtf8 pk = true) {t : MemoryStore}
    (hUnlocked : t.locks.find? (rowKey table pk) = none) :
    executePointGet table pk (restoredStore t rows) maxUint64 = .ok [] := by
  refine executePointGet_of_missing hUnlocked fun ts v hVersion => ?_
  obtain ⟨-, pk', hPk', rfl, -⟩ := exists_pk_of_restoredStore hRows hTable hVersion
  rw [not_validUtf8_renamed hPk'] at hPk
  cases hPk

end Restored

/-! ## The group -/

/-- The log has the entries of the statements, in their order. -/
def SqlLog (log : List Entry) (sqls : List Bytes) : Prop :=
  log.map (fun e => (e.type, e.data)) = sqls.map fun sql => (.normal, some (sqlEntry sql))

section Group

variable {json : Codec JsonObject} {libs : Libs} {log : List Entry} {sqls : List Bytes}

theorem SqlLog.take (h : SqlLog log sqls) (i : Nat) : SqlLog (log.take i) (sqls.take i) := by
  rw [SqlLog, List.map_take, List.map_take, h]

theorem SqlLog.drop (h : SqlLog log sqls) (i : Nat) : SqlLog (log.drop i) (sqls.drop i) := by
  rw [SqlLog, List.map_drop, List.map_drop, h]

theorem applyCommitted_sqlLog (h : SqlLog log sqls) (rows : List InsertedRow) :
    applyCommitted (applierAdapter json libs.shard) (rowStore rows) log =
      rowStore (rows ++ sqls.filterMap (rowOf? libs)) := by
  induction log generalizing sqls rows with
  | nil =>
    obtain rfl : sqls = [] := by simpa [SqlLog] using h.symm
    rw [List.filterMap_nil, List.append_nil]
    rfl
  | cons e log ih =>
    obtain ⟨sql, sqls, rfl, hHead, hTail⟩ := List.map_eq_cons_iff.mp h.symm
    obtain ⟨hType, hData⟩ := Prod.mk.inj hHead
    have hNonempty : 0 < ((some (sqlEntry sql)).getD []).length := by simp [sqlEntry, ascii]
    rw [applyCommitted, List.foldl_cons, ← hType, ← hData, if_pos ⟨rfl, hNonempty⟩]
    have hApply : (applierAdapter json libs.shard).apply (rowStore rows) e =
        rowStore (rows ++ (rowOf? libs sql).toList) := by
      change Shard.apply libs.shard (rowStore rows) (e.data.getD []) = _
      rw [← hData]
      exact apply_rowStore rows sql
    rw [hApply, ← toList_append_filterMap, ← List.append_assoc]
    exact ih hTail.symm _

/-- The state after the first entries has the rows of the first statements. -/
theorem stateAt_sqlLog (h : SqlLog log sqls) (i : Nat) :
    stateAt (applierAdapter json libs.shard) newMemoryStore log i =
      rowStore ((sqls.take i).filterMap (rowOf? libs)) :=
  applyCommitted_sqlLog (h.take i) []

/-- Further entries of the log only add rows. -/
theorem applyCommitted_drop (h : SqlLog log sqls) {k : Nat} {entries : List Entry}
    (hEntries : entries <+: log.drop k) (rows : List InsertedRow) :
    ∃ rows', applyCommitted (applierAdapter json libs.shard) (rowStore rows) entries =
      rowStore rows' := by
  have hLog := (h.drop k).take entries.length
  rw [← List.prefix_iff_eq_take.mp hEntries] at hLog
  exact ⟨_, applyCommitted_sqlLog hLog rows⟩

/-- A snapshot of rows restores them under other names. -/
theorem restore_getSnapshot {rows : List InsertedRow} {data : Slice}
    (h : (applierAdapter json libs.shard).getSnapshot (rowStore rows) = some data)
    (t : MemoryStore) :
    (applierAdapter json libs.shard).restore t data = restoredStore t rows := by
  simp only [applierAdapter, MemoryStore.getSnapshotData_eq] at h ⊢
  cases h
  rw [Option.getD_some, MemoryStore.restoreSnapshot_enc]
  rfl

variable {ι : Type} [DecidableEq ι]

end Group

/-! ## A lagging replica -/

/-- One row, inserted often enough for a snapshot. -/
def sameInserts : List Entry :=
  (List.range 53).map fun i => ⟨1, i + 1, .normal, some (sqlEntry (ascii "z1"))⟩

/-- One replica applies the log. -/
def appliesAll {ι : Type} (i : ι) : List (GroupLabel ι) :=
  [.ready i ⟨sameInserts, ⟨1, 1, 53⟩, Snapshot.zero, sameInserts⟩]

/-- The second replica is handed the snapshot that the first one has stored. -/
def rowSnapshot : Ready :=
  ⟨[], ⟨1, 1, 53⟩,
    ⟨some (objectLine.enc (jsonMembers (rowStore [⟨ascii "t", ascii "z", ascii "z,1"⟩]).tree)),
      ⟨runConfState, 53, 1⟩⟩, []⟩

theorem plainRows_sameInserts :
    PlainRows ((List.replicate 53 (ascii "z1")).filterMap (rowOf? byteLibs)) := by
  intro row hRow
  obtain ⟨sql, hSql, hRow⟩ := List.mem_filterMap.mp hRow
  rw [(List.mem_replicate.mp hSql).2] at hRow
  have hZ : rowOf? byteLibs (ascii "z1") = some ⟨ascii "t", ascii "z", ascii "z,1"⟩ := by decide
  rw [hZ] at hRow
  cases hRow
  exact ⟨⟨by decide, by decide, by decide⟩, by decide⟩

end ShardDB.Raft
