import ShardDB.Sql.ReadPaths
import ShardDB.Sql.ScanGc
import ShardDB.Storage.GcRuns
import ShardDB.Storage.Ownership

/-!
# Reads at a fixed timestamp

A table scan reads the versions of its table up to the read timestamp and nothing else: two stores
that agree on those give the same rows in the same order (`executeScan_congr`). Hence a reader that
keeps its timestamp sees one snapshot, whatever is prepared, aborted and committed at later
timestamps in the meantime, and whatever is collected at or below its own (`reads_repeatable`).

A point read is weaker. It may be refused because of a lock, and a version of a longer key can
hide the row from it, but what it does return is the same as before.
-/

namespace ShardDB.Sql

open ShardDB.Lib ShardDB.Storage

/-! ## What a scan depends on -/

/-- An item that the callback of the scan can take a row from. -/
def counts (table : Bytes) (readTs : UInt64) (it : Bytes × Slice) : Bool :=
  (table ++ ascii ":").isPrefixOf (decodeKey it.1).1 && decide ((decodeKey it.1).2 ≤ readTs)

/-- The other items make no difference. -/
theorem executeScan_eq_foldl (table : Bytes) (s : MemoryStore) (readTs : UInt64) :
    executeScan table s readTs = (((tableItems table s).filter (counts table readTs)).foldl
      (fun acc it => (scanItem table readTs acc it.1 it.2).1) ([], [])).1 := by
  have hScan : executeScan table s readTs = ((tableItems table s).foldl
      (fun acc it => (scanItem table readTs acc it.1 it.2).1) ([], [])).1 :=
    congrArg Prod.fst (MemoryStore.scan_eq_foldl (scanItem_goes_on table readTs) s _ _ _)
  rw [hScan, List.foldl_filter]
  congr 2
  funext acc it
  split_ifs with hCounts
  · rfl
  · rcases scanItem_cases table readTs acc it with ⟨hPrefix, hTs, -⟩ | ⟨hSame, -⟩
    · refine absurd ?_ hCounts
      rw [counts, List.isPrefixOf_iff_prefix.mpr hPrefix, decide_eq_true hTs]
      rfl
    · exact hSame

section Congr

variable {s s' : MemoryStore} {table : Bytes} {readTs : UInt64}

theorem mem_filter_tableItems (hEncoded : MemoryStore.Encoded s.tree) {it : Bytes × Slice} :
    it ∈ (tableItems table s).filter (counts table readTs) ↔
      ∃ key ts, it.1 = encodeKey key ts ∧ table ++ ascii ":" <+: key ∧ ts ≤ readTs ∧
        (encodeKey key ts, it.2) ∈ tableItems table s := by
  obtain ⟨j, v⟩ := it
  rw [List.mem_filter]
  constructor
  · rintro ⟨hMem, hCounts⟩
    have hFind := (MemoryStore.mem_scanned_iff.mp hMem).1
    obtain ⟨key, ts, rfl⟩ := hEncoded j v hFind
    rw [counts, decodeKey_encodeKey, Bool.and_eq_true, List.isPrefixOf_iff_prefix,
      decide_eq_true_eq] at hCounts
    exact ⟨key, ts, rfl, hCounts.1, hCounts.2, hMem⟩
  · rintro ⟨key, ts, hItem, hPrefix, hTs, hMem⟩
    obtain rfl : j = encodeKey key ts := hItem
    refine ⟨hMem, ?_⟩
    rw [counts, decodeKey_encodeKey, Bool.and_eq_true, List.isPrefixOf_iff_prefix,
      decide_eq_true_eq]
    exact ⟨hPrefix, hTs⟩

/-- A scan depends on the versions of its table, up to the read timestamp, that it visits. -/
theorem executeScan_eq_of_visited (hEncoded : MemoryStore.Encoded s.tree)
    (hEncoded' : MemoryStore.Encoded s'.tree)
    (h : ∀ key ts v, table ++ ascii ":" <+: key → ts ≤ readTs →
      ((encodeKey key ts, v) ∈ tableItems table s' ↔ (encodeKey key ts, v) ∈ tableItems table s)) :
    executeScan table s' readTs = executeScan table s readTs := by
  have hNodup (s : MemoryStore) : ((tableItems table s).filter (counts table readTs)).Nodup :=
    ((sorted_tableItems table s).imp fun hLt hEq => hLt.ne (congrArg Prod.fst hEq)).filter _
  have hPerm : ((tableItems table s').filter (counts table readTs)).Perm
      ((tableItems table s).filter (counts table readTs)) := by
    rw [List.perm_ext_iff_of_nodup (hNodup s') (hNodup s)]
    intro it
    rw [mem_filter_tableItems hEncoded, mem_filter_tableItems hEncoded']
    refine exists_congr fun key => exists_congr fun ts => and_congr_right fun _ =>
      and_congr_right fun hPrefix => and_congr_right fun hTs => h key ts it.2 hPrefix hTs
  have hSame : (tableItems table s').filter (counts table readTs) =
      (tableItems table s).filter (counts table readTs) :=
    hPerm.eq_of_pairwise (fun _ _ _ _ hLt hGt => absurd hLt (lt_asymm hGt))
      ((sorted_tableItems table s').filter _) ((sorted_tableItems table s).filter _)
  rw [executeScan_eq_foldl, executeScan_eq_foldl, hSame]

/-- A scan depends on the versions of its table up to the read timestamp. -/
theorem executeScan_congr (hEncoded : MemoryStore.Encoded s.tree)
    (hEncoded' : MemoryStore.Encoded s'.tree) (hBounded : TableBounded table s)
    (hBounded' : TableBounded table s')
    (h : ∀ key ts v, table ++ ascii ":" <+: key → ts ≤ readTs →
      (s'.HasVersion key ts v ↔ s.HasVersion key ts v)) :
    executeScan table s' readTs = executeScan table s readTs := by
  refine executeScan_eq_of_visited hEncoded hEncoded' fun key ts v hPrefix hTs => ?_
  rw [mem_tableItems_iff hEncoded' hBounded' hPrefix, mem_tableItems_iff hEncoded hBounded hPrefix]
  exact h key ts v hPrefix hTs

/-- A key past the end of the table that sorts before a row is a key of the table as well. -/
theorem isPrefix_of_past {key key' : Bytes} {ts ts' : UInt64}
    (hPrefix : table ++ ascii ":" <+: key) (hPast : table ++ ascii ":" ++ [0xFF] ≤ key')
    (hLe : encodeKey key' ts' ≤ encodeKey key ts) : table ++ ascii ":" <+: key' := by
  have hStart : table ++ ascii ":" ≤ key' := (le_of_isPrefix (List.prefix_append _ _)).trans hPast
  rcases prefix_or_append_lt_of_le hStart with hExtends | hAppend
  · exact hExtends
  · obtain ⟨rest, rfl⟩ := hPrefix
    rw [encodeKey, encodeKey, List.append_assoc (table ++ ascii ":")] at hLe
    exact absurd (hAppend _ _) (not_lt.mpr hLe)

theorem mem_tableItems_of_hasVersion (hEncoded : MemoryStore.Encoded s.tree)
    (hEncoded' : MemoryStore.Encoded s'.tree)
    (h : ∀ key ts v, table ++ ascii ":" <+: key →
      (s'.HasVersion key ts v ↔ s.HasVersion key ts v)) {key : Bytes}
    (hPrefix : table ++ ascii ":" <+: key) {ts : UInt64} {v : Slice}
    (hMem : (encodeKey key ts, v) ∈ tableItems table s) :
    (encodeKey key ts, v) ∈ tableItems table s' := by
  obtain ⟨hVersion, hSeek, hInside⟩ := (MemoryStore.scanned_version_iff hEncoded).mp hMem
  refine (MemoryStore.scanned_version_iff hEncoded').mpr
    ⟨(h key ts v hPrefix).mpr hVersion, hSeek, ?_⟩
  intro key' ts' v' hVersion' hSeek' hLe bound hStop
  cases hStop
  by_contra hPast
  have hTable := isPrefix_of_past hPrefix (not_lt.mp hPast) hLe
  exact hPast (hInside key' ts' v' ((h key' ts' v' hTable).mp hVersion') hSeek' hLe _ rfl)

/-- A scan depends on the versions of its table, also where one of them ends it early. -/
theorem executeScan_eq_of_hasVersion (hEncoded : MemoryStore.Encoded s.tree)
    (hEncoded' : MemoryStore.Encoded s'.tree)
    (h : ∀ key ts v, table ++ ascii ":" <+: key →
      (s'.HasVersion key ts v ↔ s.HasVersion key ts v)) :
    executeScan table s' readTs = executeScan table s readTs := by
  refine executeScan_eq_of_visited hEncoded hEncoded' fun key ts v hPrefix _ => ⟨?_, ?_⟩
  · exact mem_tableItems_of_hasVersion hEncoded' hEncoded
      (fun key ts v hTable => (h key ts v hTable).symm) hPrefix
  · exact mem_tableItems_of_hasVersion hEncoded hEncoded' h hPrefix

end Congr

/-! ## Later operations -/

/-- An operation that a reader at the timestamp need not notice: a call on UTF-8 keys that
commits, if at all, at a later timestamp, or a collection at or below the timestamp. -/
def Later (readTs : UInt64) : Operation → Prop
  | .call c => (∀ ts ∈ c.ts?, readTs < ts) ∧ ∀ k ∈ c.keys, validUtf8 k = true
  | .runGC safeTs => safeTs ≤ readTs
  | .read => True

/-- A reader at the timestamp cannot tell the second store from the first. -/
structure SameSnapshot (readTs : UInt64) (s s' : MemoryStore) : Prop where
  newest : ∀ key ts v, s'.NewestUpTo key readTs ts v ↔ s.NewestUpTo key readTs ts v
  scan : ∀ table, executeScan table s' readTs = executeScan table s readTs

section Later

variable {readTs : UInt64} {s : MemoryStore}

theorem hasVersion_call_of_later {c : Call} (h : ∀ ts ∈ c.ts?, readTs < ts) {key : Bytes}
    {ts : UInt64} {v : Slice} (hTs : ts ≤ readTs) :
    (c.exec s).1.HasVersion key ts v ↔ s.HasVersion key ts v := by
  have hNone : SortedMap.lastBinding ((c.installs s).map fun i => (encodeKey i.key i.ts, i.value))
      (encodeKey key ts) = none := by
    rw [SortedMap.lastBinding_eq_none_iff]
    intro hMem
    simp only [List.map_map, List.mem_map, Function.comp] at hMem
    obtain ⟨i, hi, hKey⟩ := hMem
    have hLater := h i.ts (ts?_of_mem_installs hi)
    rw [(encodeKey_inj hKey).2] at hLater
    exact absurd hTs (not_le.mpr hLater)
  rw [MemoryStore.HasVersion, tree_exec, find?_putVersions_eq, hNone, Option.none_or]
  rfl

theorem sameSnapshot_exec (hEncoded : MemoryStore.Encoded s.tree) (hUtf8 : Utf8Keys s)
    {o : Operation} (h : Later readTs o) :
    SameSnapshot readTs s (o.exec s) ∧ MemoryStore.Encoded (o.exec s).tree ∧
      Utf8Keys (o.exec s) := by
  cases o with
  | call c =>
    obtain ⟨hTs, hKeys⟩ := h
    have hEncoded' : MemoryStore.Encoded (c.exec s).1.tree := by
      rw [tree_exec]
      exact MemoryStore.encoded_putVersions hEncoded _
    have hUtf8' : Utf8Keys (c.exec s).1 := hUtf8.call hKeys
    have hSame (key : Bytes) (ts : UInt64) (v : Slice) (hLe : ts ≤ readTs) :=
      @hasVersion_call_of_later readTs s c hTs key ts v hLe
    refine ⟨⟨fun key ts v => ?_, fun table => ?_⟩, hEncoded', hUtf8'⟩
    · refine and_congr_right fun hLe => and_congr (hSame key ts v hLe) ?_
      refine forall_congr' fun ts' => forall_congr' fun v' => ?_
      exact ⟨fun hMax hOld hLe' => hMax ((hSame key ts' v' hLe').mpr hOld) hLe',
        fun hMax hNew hLe' => hMax ((hSame key ts' v' hLe').mp hNew) hLe'⟩
    · exact executeScan_congr hEncoded hEncoded' (hUtf8.tableBounded table)
        (hUtf8'.tableBounded table) fun key ts v _ hLe => hSame key ts v hLe
  | runGC safeTs =>
    refine ⟨⟨fun key ts v => MemoryStore.newestUpTo_runGC hEncoded h,
      executeScan_runGC hEncoded h⟩, MemoryStore.encoded_runGC hEncoded safeTs, ?_⟩
    intro key ts v hVersion
    exact hUtf8 key ts v (MemoryStore.hasVersion_runGC.mp hVersion).1
  | read => exact ⟨⟨fun _ _ _ => Iff.rfl, fun _ => rfl⟩, hEncoded, hUtf8⟩

/-- Over a run of later operations a reader keeps its snapshot. -/
theorem sameSnapshot_run (hEncoded : MemoryStore.Encoded s.tree) (hUtf8 : Utf8Keys s)
    {ops : List Operation} (hLater : ∀ o ∈ ops, Later readTs o) :
    SameSnapshot readTs s (ops.foldl Operation.exec s) := by
  induction ops generalizing s with
  | nil => exact ⟨fun _ _ _ => Iff.rfl, fun _ => rfl⟩
  | cons o ops ih =>
    obtain ⟨hStep, hEncoded', hUtf8'⟩ :=
      sameSnapshot_exec hEncoded hUtf8 (hLater o List.mem_cons_self)
    have hRest := ih hEncoded' hUtf8' fun o' ho => hLater o' (List.mem_cons_of_mem _ ho)
    exact ⟨fun key ts v => (hRest.newest key ts v).trans (hStep.newest key ts v),
      fun table => (hRest.scan table).trans (hStep.scan table)⟩

/-- A reader that keeps its timestamp reads the same rows again: every table scan is the same,
and so is every point read that finds its row both times. -/
theorem reads_repeatable (hReachable : Utf8Reachable s) {ops : List Operation}
    (hLater : ∀ o ∈ ops, Later readTs o) :
    (∀ table, executeScan table (ops.foldl Operation.exec s) readTs = executeScan table s readTs) ∧
      ∀ table pk v v', executePointGet table pk s readTs = .ok [[pk, v]] →
        executePointGet table pk (ops.foldl Operation.exec s) readTs = .ok [[pk, v']] → v' = v := by
  obtain ⟨hEncoded, hUtf8⟩ := hReachable.invariant
  have hSame := sameSnapshot_run hEncoded hUtf8 hLater
  refine ⟨hSame.scan, fun table pk v v' hBefore hAfter => ?_⟩
  obtain ⟨ts, -, hFirst⟩ :=
    MemoryStore.mvccGetLocked_eq_iff.mp (executePointGet_eq_iff.mp hBefore).2
  obtain ⟨ts', -, hFirst'⟩ :=
    MemoryStore.mvccGetLocked_eq_iff.mp (executePointGet_eq_iff.mp hAfter).2
  have hOld := (hSame.newest _ _ _).mp hFirst'.newestUpTo
  exact Option.some.inj (newestUpTo_unique hOld hFirst.newestUpTo)

end Later

/-- A reader at timestamp 5, while another transaction writes the row at 6, prepares a second one
and the versions up to 5 are collected. -/
theorem reads_repeatable_put :
    let s := newMemoryStore.run [.put (ascii "t:a") (some (ascii "1"))]
    executeScan (ascii "t")
      ([.call (.onePhaseCommit [⟨ascii "t:a", some (ascii "2")⟩] (ascii "x") 6),
      .call (.prepare (ascii "t:b") (some (ascii "3")) (ascii "y")), .runGC 5].foldl
        Operation.exec s) 5 = [[ascii "a", ascii "1"]] := by
  intro s
  have hReachable : Utf8Reachable s :=
    ⟨[.call (.put (ascii "t:a") (some (ascii "1")))], by decide, rfl⟩
  have hLater : ∀ o ∈ ([.call (.onePhaseCommit [⟨ascii "t:a", some (ascii "2")⟩] (ascii "x") 6),
      .call (.prepare (ascii "t:b") (some (ascii "3")) (ascii "y")), .runGC 5] : List Operation),
      Later 5 o := by
    have hCommit : ∀ ts ∈ some (6 : UInt64), 5 < ts := by
      rintro ts ⟨⟩
      decide
    have hKey : ∀ k ∈ [ascii "t:a"], validUtf8 k = true := by decide
    have hKey' : ∀ k ∈ [ascii "t:b"], validUtf8 k = true := by decide
    refine List.forall_mem_cons.mpr ⟨⟨hCommit, hKey⟩, List.forall_mem_cons.mpr ⟨⟨?_, hKey'⟩, ?_⟩⟩
    · rintro ts ⟨⟩
    · exact List.forall_mem_singleton.mpr (show (5 : UInt64) ≤ 5 by decide)
  exact ((reads_repeatable hReachable hLater).1 (ascii "t")).trans (by decide)

end ShardDB.Sql
