import ShardDB.Lib.Json
import ShardDB.Sql.SnapshotReads
import ShardDB.Storage.Scan

/-!
# Moving data between shards

The `/debug/export` and `/debug/ingest` endpoints of a shard node. An export ranges over a map of
raw versions, in any order, and writes them as a JSON array, or as `null` if there are none; the
ingest reads the items into a map again and writes them to the tree. The engine below sees neither
the order nor the text: one export posted to another shard is `Ingest` of the scanned range
(`ingest_export`), and posting it again changes nothing.

Then a table whose rows are all in the exported range reads the same on both sides, at every
timestamp, as long as the destination had no rows of it (`migrated_scan`). Locks and the intents
they carry do not travel: on an empty destination every unlocked row reads as at the source, but
no transaction that prepared there can commit (`migrated_all`).
-/

namespace ShardDB.Shard

open ShardDB.Lib ShardDB.Storage ShardDB.Sql

/-! ## The endpoints -/

/-- `ExportItem`. -/
structure ExportItem where
  key : Slice
  value : Slice
  deriving DecidableEq

/-- A bound in the query of `/debug/export`: no bound if it is missing or empty. -/
def queryBound (q : Bytes) : Slice := if q = [] then none else some q

/-- The data that `/debug/export` ranges over. -/
def exported (engine : MemoryStore) (start stop : Bytes) : SortedMap Bytes Slice :=
  engine.scanRange (queryBound start) (queryBound stop)

/-- The items for bindings in the order in which they are ranged over. The slice of items is nil
until the first one is appended. -/
def exportItems (ranged : List (Bytes × Slice)) : Option (List ExportItem) :=
  if ranged = [] then none else some (ranged.map fun e => ⟨some e.1, e.2⟩)

variable (json : Codec (Option (List ExportItem)))

/-- The body of the reply of `/debug/export`. -/
def exportBody (ranged : List (Bytes × Slice)) : Bytes := json.enc (exportItems ranged)

/-- The map that `/debug/ingest` builds from the items. -/
def ingestData (items : Option (List ExportItem)) : SortedMap Bytes Slice :=
  (items.getD []).foldl (fun data item => data.insert (item.key.getD []) item.value)
    SortedMap.empty

/-- `/debug/ingest`: the engine afterwards and the text of the reply, nothing standing for the
error 400. The bindings of a map have different keys, so the order in which `Ingest` ranges over
them does not matter; here it is the order of the keys. -/
def ingestHandler (engine : MemoryStore) (body : Bytes) : MemoryStore × Option Bytes :=
  match json.dec body with
  | none => (engine, none)
  | some items =>
    let data := ingestData items
    (engine.ingest data.entries,
      some (ascii "Ingested " ++ decimal data.entries.length ++ ascii " items"))

/-! ## One export, ingested -/

section Export

variable {json}

theorem ingestData_exportItems {data : SortedMap Bytes Slice} {ranged : List (Bytes × Slice)}
    (hRanged : ranged.Perm data.entries) : ingestData (exportItems ranged) = data := by
  have hItems : ((exportItems ranged).getD []) = ranged.map fun e => ⟨some e.1, e.2⟩ := by
    unfold exportItems
    split_ifs with hNil
    · rw [hNil]
      rfl
    · rfl
  have hFold : ingestData (exportItems ranged) = SortedMap.empty.insertAll ranged := by
    rw [ingestData, hItems, List.foldl_map]
    rfl
  ext1 j
  rw [hFold, SortedMap.find?_insertAll, SortedMap.lastBinding_of_perm hRanged]
  exact Option.or_none

theorem ingestHandler_exportBody (t : MemoryStore) {data : SortedMap Bytes Slice}
    {ranged : List (Bytes × Slice)} (hRanged : ranged.Perm data.entries) :
    ingestHandler json t (exportBody json ranged) =
      (t.ingest data.entries,
        some (ascii "Ingested " ++ decimal data.entries.length ++ ascii " items")) := by
  rw [ingestHandler, exportBody, json.dec_enc]
  simp only [ingestData_exportItems hRanged]

theorem find?_ingest_entries (t : MemoryStore) (data : SortedMap Bytes Slice) (j : Bytes) :
    (t.ingest data.entries).tree.find? j = (data.find? j).or (t.tree.find? j) :=
  MemoryStore.find?_ingest t (List.Perm.refl _) j

/-- Whatever the order in which the source ranges over its data: the destination gets the scanned
range, overwriting what it had under the same raw keys and keeping the rest, the reply counts the
items, and posting the same body again changes nothing more. -/
theorem ingest_export (s t : MemoryStore) (start stop : Bytes) {ranged : List (Bytes × Slice)}
    (hRanged : ranged.Perm (exported s start stop).entries) :
    let t' := (ingestHandler json t (exportBody json ranged)).1
    (∀ j, t'.tree.find? j = ((exported s start stop).find? j).or (t.tree.find? j)) ∧
      t'.locks = t.locks ∧
      (ingestHandler json t (exportBody json ranged)).2 =
        some (ascii "Ingested " ++ decimal ranged.length ++ ascii " items") ∧
      (ingestHandler json t' (exportBody json ranged)).1 = t' := by
  have hOnce (t : MemoryStore) := @ingestHandler_exportBody json t _ _ hRanged
  rw [hOnce]
  refine ⟨find?_ingest_entries t _, rfl, ?_, ?_⟩
  · rw [hRanged.length_eq]
  · rw [hOnce]
    refine MemoryStore.ext ?_ rfl
    ext1 j
    rw [find?_ingest_entries, find?_ingest_entries]
    cases (exported s start stop).find? j <;> rfl

end Export

/-! ## A text for the items -/

/-- `{"k":…,"v":…}`. -/
def itemField : WireField ExportItem :=
  (((sliceField.tagged (ascii "\x7b\"k\":")).pair (sliceField.tagged (ascii ",\"v\":"))).pair
    (WireField.literal (ascii "\x7d"))).imap
    (fun p => ⟨p.1.1, p.1.2⟩) (fun item => ((item.key, item.value), ())) fun _ => rfl

theorem itemField_first (item : ExportItem) : ∃ c t, itemField.enc item = c :: t ∧ c ≠ 93 :=
  ⟨123, _, rfl, by decide⟩

def itemArray : WireField (List ExportItem) :=
  sequence itemField 93 91 bracket_ne_comma itemField_first

theorem itemArray_first (items : List ExportItem) :
    ∃ c t, itemArray.enc items = c :: t ∧ c ≠ 110 :=
  sequence_first items bracket_ne_null

/-- The array of items, or `null`, on a line of its own. -/
def itemsLine : Codec (Option (List ExportItem)) :=
  (((nullable itemArray itemArray_first).pair (WireField.literal [10])).imap Prod.fst
    (fun l => (l, ())) fun _ => rfl).toCodec

example : itemsLine.enc (exportItems [([1], some (ascii "v")), ([2], none)]) =
    ascii "[\x7b\"k\":\"AQ==\",\"v\":\"dg==\"\x7d,\x7b\"k\":\"Ag==\",\"v\":null\x7d]\n" := by
  decide

/-- A row with two versions. -/
def movedRow : MemoryStore :=
  newMemoryStore.run [.put (ascii "t:a") (some (ascii "1")),
    .onePhaseCommit [⟨ascii "t:a", some (ascii "2")⟩] (ascii "x") 7]

/-- The row is exported oldest first, to a destination that has another value for the older
version. -/
theorem ingest_export_movedRow :
    let t := newMemoryStore.run [.put (ascii "t:a") (some (ascii "0"))]
    let body := exportBody itemsLine (exported movedRow [] []).entries.reverse
    (ingestHandler itemsLine t body).1.locks = t.locks ∧
      (ingestHandler itemsLine t body).2 = some (ascii "Ingested 2 items") ∧
      (ingestHandler itemsLine (ingestHandler itemsLine t body).1 body).1 =
        (ingestHandler itemsLine t body).1 := by
  intro t body
  exact (@ingest_export itemsLine movedRow t [] [] _ (List.reverse_perm _)).2

/-! ## Reading what was moved -/

/-- Every key of the table lies in the exported range. The semicolon is the byte after the
colon. -/
def Covers (table start stop : Bytes) : Prop :=
  start ≤ table ++ ascii ":" ∧ (stop = [] ∨ table ++ ascii ";" ≤ stop)

/-- No row of the table is stored. -/
def Lacks (table : Bytes) (t : MemoryStore) : Prop :=
  ∀ key ts v, t.HasVersion key ts v → ¬ table ++ ascii ":" <+: key

section Reads

variable {s t : MemoryStore} {table start stop : Bytes}

theorem getD_queryBound (q : Bytes) : (queryBound q).getD [] = q := by
  unfold queryBound
  split_ifs with hNil
  · rw [hNil]
    rfl
  · rfl

theorem lt_semicolon {key : Bytes} (hPrefix : table ++ ascii ":" <+: key) :
    key < table ++ ascii ";" := by
  obtain ⟨rest, rfl⟩ := hPrefix
  rw [List.append_assoc, append_lt_append_left_iff]
  exact List.cons_lt_cons_iff.mpr (Or.inl (by decide))

/-- All versions of the table are exported. -/
theorem find?_exported (hEncoded : MemoryStore.Encoded s.tree) (hCovers : Covers table start stop)
    {key : Bytes} (hPrefix : table ++ ascii ":" <+: key) (ts : UInt64) :
    (exported s start stop).find? (encodeKey key ts) = s.tree.find? (encodeKey key ts) := by
  apply Option.ext
  intro v
  rw [exported, MemoryStore.find?_scanRange, MemoryStore.scanned_version_iff hEncoded,
    getD_queryBound]
  refine and_iff_left_of_imp fun _ => ⟨?_, ?_⟩
  · exact encodeKey_maxUint64_le (hCovers.1.trans (le_of_isPrefix hPrefix)) ts
  · intro key' ts' v' _ _ hLe bound hStop
    by_contra hBound
    have hSemicolon : table ++ ascii ";" ≤ key' := by
      unfold queryBound at hStop
      split_ifs at hStop with hNil
      cases hStop
      exact (hCovers.2.resolve_left hNil).trans (not_lt.mp hBound)
    -- a key past the range that sorts before a row would extend the key of the row
    have hLater : key ≤ key' := (lt_semicolon hPrefix).le.trans hSemicolon
    have hExtends := hPrefix.trans (prefix_of_encodeKey_le hLater hLe)
    exact absurd (lt_semicolon hExtends) (not_lt.mpr hSemicolon)

theorem hasVersion_migrated (hEncoded : MemoryStore.Encoded s.tree)
    (hCovers : Covers table start stop) (hLacks : Lacks table t) {key : Bytes}
    (hPrefix : table ++ ascii ":" <+: key) (ts : UInt64) (v : Slice) :
    (t.ingest (exported s start stop).entries).HasVersion key ts v ↔ s.HasVersion key ts v := by
  have hNone : t.tree.find? (encodeKey key ts) = none :=
    Option.eq_none_iff_forall_ne_some.mpr fun w hw => hLacks key ts w hw hPrefix
  rw [MemoryStore.HasVersion, find?_ingest_entries, hNone, Option.or_none,
    find?_exported hEncoded hCovers hPrefix ts]
  rfl

theorem encoded_migrated (hSource : MemoryStore.Encoded s.tree)
    (hDest : MemoryStore.Encoded t.tree) :
    MemoryStore.Encoded (t.ingest (exported s start stop).entries).tree := by
  intro j v hFind
  rw [find?_ingest_entries, Option.or_eq_some_iff] at hFind
  rcases hFind with hNew | ⟨-, hOld⟩
  · exact hSource j v (MemoryStore.mem_scanned_iff.mp (MemoryStore.find?_scanRange.mp hNew)).1
  · exact hDest j v hOld

/-- After a migration a table that the destination lacked reads there as at the source, at every
timestamp, and a table that the source lacks still reads there as before. -/
theorem migrated_scan (hSource : MemoryStore.Encoded s.tree) (hDest : MemoryStore.Encoded t.tree)
    {ranged : List (Bytes × Slice)} (hRanged : ranged.Perm (exported s start stop).entries) :
    let t' := (ingestHandler json t (exportBody json ranged)).1
    (∀ table, Covers table start stop → Lacks table t →
      ∀ readTs, executeScan table t' readTs = executeScan table s readTs) ∧
    ∀ table, Lacks table s →
      ∀ readTs, executeScan table t' readTs = executeScan table t readTs := by
  intro t'
  have hMoved : t' = t.ingest (exported s start stop).entries :=
    congrArg Prod.fst (ingestHandler_exportBody t hRanged)
  have hEncoded' := @encoded_migrated s t start stop hSource hDest
  rw [hMoved]
  refine ⟨fun table hCovers hLacks readTs => ?_, fun table hLacks readTs => ?_⟩
  · exact executeScan_eq_of_hasVersion hSource hEncoded' fun key ts v hPrefix =>
      hasVersion_migrated hSource hCovers hLacks hPrefix ts v
  · refine executeScan_eq_of_hasVersion hDest hEncoded' fun key ts v hPrefix => ?_
    have hNone : (exported s start stop).find? (encodeKey key ts) = none := by
      refine Option.eq_none_iff_forall_ne_some.mpr fun w hw => hLacks key ts w ?_ hPrefix
      exact (MemoryStore.mem_scanned_iff.mp (MemoryStore.find?_scanRange.mp hw)).1
    rw [MemoryStore.HasVersion, find?_ingest_entries, hNone, Option.none_or]
    rfl

/-- An empty destination gets the version tree of the source and none of its locks: every row
that is not locked at the source reads the same, and every commit of a transaction that prepared
at the source is refused. -/
theorem migrated_all (hSource : MemoryStore.Encoded s.tree) {ranged : List (Bytes × Slice)}
    (hRanged : ranged.Perm (exported s [] []).entries) :
    let t' := (ingestHandler json newMemoryStore (exportBody json ranged)).1
    t'.tree = s.tree ∧
      (∀ table pk readTs, s.locks.find? (rowKey table pk) = none →
        executePointGet table pk t' readTs = executePointGet table pk s readTs) ∧
      ∀ key txn ts, t'.commit key txn ts = (t', some (ascii "no lock on key " ++ key)) := by
  intro t'
  have hMoved : t' = newMemoryStore.ingest (exported s [] []).entries :=
    congrArg Prod.fst (ingestHandler_exportBody newMemoryStore hRanged)
  have hTree : t'.tree = s.tree := by
    rw [hMoved]
    ext1 j
    rw [find?_ingest_entries]
    apply Option.ext
    intro v
    rw [exported, queryBound, if_pos rfl]
    constructor
    · intro hFind
      rcases Option.or_eq_some_iff.mp hFind with hNew | ⟨-, hOld⟩
      · exact (MemoryStore.mem_scanned_iff.mp (MemoryStore.find?_scanRange.mp hNew)).1
      · cases hOld
    · intro hFind
      obtain ⟨key, ts, rfl⟩ := hSource j v hFind
      refine Option.or_eq_some_iff.mpr (Or.inl (MemoryStore.find?_scanRange.mpr ?_))
      refine (MemoryStore.scanned_version_iff hSource).mpr
        ⟨hFind, encodeKey_maxUint64_le (le_of_isPrefix List.nil_prefix) ts, ?_⟩
      rintro key' ts' v' - - - bound hStop
      cases hStop
  have hLocks (key : Bytes) : t'.locks.find? key = none := by
    rw [hMoved]
    rfl
  refine ⟨hTree, fun table pk readTs hUnlocked => ?_, fun key txn ts => ?_⟩
  · have hGet : t'.getTxn (rowKey table pk) readTs = s.getTxn (rowKey table pk) readTs := by
      rw [MemoryStore.getTxn_eq (hLocks _), MemoryStore.getTxn_eq hUnlocked]
      simp only [MemoryStore.lookupAt, hTree]
    rw [executePointGet, executePointGet, hGet]
  · rw [MemoryStore.commit, hLocks]

end Reads

/-- The row is moved to a shard with a row of another table. -/
theorem migrated_scan_movedRow :
    let t := newMemoryStore.run [.put (ascii "u:b") (some (ascii "0"))]
    let t' := (ingestHandler itemsLine t
      (exportBody itemsLine (exported movedRow (ascii "t:") (ascii "t;")).entries)).1
    executeScan (ascii "t") t' 5 = [[ascii "a", ascii "1"]] := by
  intro t t'
  have hSource : MemoryStore.Encoded movedRow.tree := MemoryStore.Reachable.encoded ⟨_, rfl⟩
  have hDest : MemoryStore.Encoded t.tree := MemoryStore.Reachable.encoded ⟨_, rfl⟩
  have hLacks : Lacks (ascii "t") t := by
    intro key ts v hVersion
    rw [hVersion.eq_of_put.1]
    decide
  have hScan := (@migrated_scan itemsLine movedRow t (ascii "t:") (ascii "t;") hSource hDest _
    (List.Perm.refl _)).1 (ascii "t") ⟨le_rfl, Or.inr le_rfl⟩ hLacks 5
  exact hScan.trans (by decide)

/-- A second row is locked at the source when everything is exported. -/
theorem migrated_all_locked :
    let s := movedRow.run [.prepare (ascii "t:b") (some (ascii "3")) (ascii "y")]
    let t' := (ingestHandler itemsLine newMemoryStore
      (exportBody itemsLine (exported s [] []).entries)).1
    executePointGet (ascii "t") (ascii "a") t' 5 = .ok [[ascii "a", ascii "1"]] ∧
      (t'.commit (ascii "t:b") (ascii "y") 8).2 = some (ascii "no lock on key t:b") := by
  intro s t'
  have hSource : MemoryStore.Encoded s.tree :=
    MemoryStore.encoded_run (MemoryStore.Reachable.encoded ⟨_, rfl⟩) _
  obtain ⟨-, hRead, hCommit⟩ :=
    @migrated_all itemsLine s hSource (exported s [] []).entries (List.Perm.refl _)
  refine ⟨(hRead (ascii "t") (ascii "a") 5 (by decide)).trans (by decide), ?_⟩
  rw [hCommit]
  rfl

end ShardDB.Shard
