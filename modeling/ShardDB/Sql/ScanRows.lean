import ShardDB.Sql.Executor
import ShardDB.Storage.Scan

/-!
# The rows of a table scan

`executeScan` visits the versions between the first possible one of its table and the first one
of a key past it, and takes of each key the first version that is visible. Versions of longer
keys come in between, and so do versions that are too new; neither matters, since the versions of
one key are met in descending order of their timestamps. The invariant of the walk is
`RowsInvariant`, and it holds for every list of items in ascending order.

For a table without a colon in its name, and as long as no stored key goes on with the byte `FF`
after the colon, the walk meets every version of every row, and the rows are the newest visible
versions (`executeScan_snapshot`).
-/

namespace ShardDB.Sql

open ShardDB.Lib ShardDB.Storage

/-! ## The walk over the items -/

/-- The key of a row without its table: the part after the first colon. -/
def realKey (key : Bytes) : Bytes := (key.dropWhile (· ≠ 58)).drop 1

/-- An item is a version of the key that is visible at the read timestamp. -/
def Shows (readTs : UInt64) (key : Bytes) (it : Bytes × Slice) : Prop :=
  (decodeKey it.1).1 = key ∧ (decodeKey it.1).2 ≤ readTs

/-- The row comes from the first visible version of the key among the items. -/
def FirstRow (readTs : UInt64) (items : List (Bytes × Slice)) (key : Bytes) (row : Row) : Prop :=
  ∃ it ∈ items, Shows readTs key it ∧ (∀ it' ∈ items, Shows readTs key it' → it.1 ≤ it'.1) ∧
    row = [realKey key, it.2.getD []]

/-- What the callback does with an item: it takes the row, or it has no reason to. -/
theorem scanItem_cases (table : Bytes) (readTs : UInt64) (acc : List Row × List Bytes)
    (it : Bytes × Slice) :
    (table ++ ascii ":" <+: (decodeKey it.1).1 ∧ (decodeKey it.1).2 ≤ readTs ∧
      (decodeKey it.1).1 ∉ acc.2 ∧ (scanItem table readTs acc it.1 it.2).1 =
        (acc.1 ++ [[realKey (decodeKey it.1).1, it.2.getD []]], (decodeKey it.1).1 :: acc.2)) ∨
    ((scanItem table readTs acc it.1 it.2).1 = acc ∧
      (table ++ ascii ":" <+: (decodeKey it.1).1 → (decodeKey it.1).2 ≤ readTs →
        (decodeKey it.1).1 ∈ acc.2)) := by
  unfold scanItem
  dsimp only
  split_ifs with hPrefix hSeen hTs
  · refine Or.inr ⟨rfl, fun hIs => ?_⟩
    rw [List.isPrefixOf_iff_prefix.mpr hIs] at hPrefix
    cases hPrefix
  · exact Or.inr ⟨rfl, fun _ _ => hSeen⟩
  · refine Or.inl ⟨List.isPrefixOf_iff_prefix.mp ?_, hTs, hSeen, rfl⟩
    simpa using hPrefix
  · exact Or.inr ⟨rfl, fun _ hVisible => (hTs hVisible).elim⟩

theorem scanItem_goes_on (table : Bytes) (readTs : UInt64) (acc : List Row × List Bytes)
    (k : Bytes) (v : Slice) : (scanItem table readTs acc k v).2 = true := by
  unfold scanItem
  dsimp only
  split_ifs <;> rfl

/-- The rows so far belong to the keys seen so far, in the order in which they were met. -/
structure RowsInvariant (table : Bytes) (readTs : UInt64) (visited : List (Bytes × Slice))
    (acc : List Row × List Bytes) : Prop where
  nodup : acc.2.Nodup
  seen : ∀ key, key ∈ acc.2 ↔ table ++ ascii ":" <+: key ∧ ∃ it ∈ visited, Shows readTs key it
  rows : List.Forall₂ (FirstRow readTs visited) acc.2.reverse acc.1

section Walk

variable {table : Bytes} {readTs : UInt64} {visited : List (Bytes × Slice)}
  {acc : List Row × List Bytes} {it : Bytes × Slice}

/-- Items that come later do not change the first one. -/
theorem FirstRow.concat {key : Bytes} {row : Row} (h : FirstRow readTs visited key row)
    (hLast : ∀ x ∈ visited, x.1 < it.1) : FirstRow readTs (visited ++ [it]) key row := by
  obtain ⟨x, hx, hShows, hFirst, hRow⟩ := h
  refine ⟨x, List.mem_append_left _ hx, hShows, ?_, hRow⟩
  intro y hy hShowsY
  rcases List.mem_append.mp hy with hy | hy
  · exact hFirst y hy hShowsY
  · rw [List.mem_singleton.mp hy]
    exact (hLast x hx).le

theorem exists_shows_concat {key : Bytes} :
    (∃ x ∈ visited ++ [it], Shows readTs key x) ↔
      (∃ x ∈ visited, Shows readTs key x) ∨ Shows readTs key it := by
  simp only [List.mem_append, List.mem_singleton, or_and_right, exists_or, exists_eq_left]

theorem RowsInvariant.visit (h : RowsInvariant table readTs visited acc)
    (hLast : ∀ x ∈ visited, x.1 < it.1) :
    RowsInvariant table readTs (visited ++ [it]) (scanItem table readTs acc it.1 it.2).1 := by
  have hOld : List.Forall₂ (FirstRow readTs (visited ++ [it])) acc.2.reverse acc.1 :=
    h.rows.imp fun _ _ hRow => hRow.concat hLast
  rcases scanItem_cases table readTs acc it with ⟨hPrefix, hTs, hNew, hAcc⟩ | ⟨hAcc, hSeen⟩
  · rw [hAcc]
    refine ⟨List.nodup_cons.mpr ⟨hNew, h.nodup⟩, fun key => ?_, ?_⟩
    · rw [List.mem_cons, h.seen, exists_shows_concat]
      constructor
      · rintro (rfl | ⟨hTable, hShows⟩)
        · exact ⟨hPrefix, Or.inr ⟨rfl, hTs⟩⟩
        · exact ⟨hTable, Or.inl hShows⟩
      · rintro ⟨hTable, hShows | hShows⟩
        · exact Or.inr ⟨hTable, hShows⟩
        · exact Or.inl hShows.1.symm
    · rw [List.reverse_cons]
      refine List.rel_append hOld (List.Forall₂.cons ?_ List.Forall₂.nil)
      refine ⟨it, List.mem_append_right _ (List.mem_singleton_self it), ⟨rfl, hTs⟩, ?_, rfl⟩
      intro x hx hShows
      rcases List.mem_append.mp hx with hx | hx
      · -- an earlier visible version would have been seen
        exact absurd ((h.seen _).mpr ⟨hPrefix, x, hx, hShows⟩) hNew
      · rw [List.mem_singleton.mp hx]
  · rw [hAcc]
    refine ⟨h.nodup, fun key => ?_, hOld⟩
    rw [h.seen, exists_shows_concat]
    refine and_congr_right fun hTable => ⟨Or.inl, ?_⟩
    rintro (hShows | hShows)
    · exact hShows
    · obtain ⟨rfl, hTs⟩ := hShows
      exact ((h.seen _).mp (hSeen hTable hTs)).2

end Walk

/-! ## The rows of a table -/

/-- The items that the scan of a table visits. -/
def tableItems (table : Bytes) (s : MemoryStore) : List (Bytes × Slice) :=
  s.scanned (some (table ++ ascii ":")) (some (table ++ ascii ":" ++ [0xFF]))

theorem sorted_tableItems (table : Bytes) (s : MemoryStore) :
    (tableItems table s).Pairwise fun a b => a.1 < b.1 := s.sorted_scanned _ _

theorem shows_encodeKey {key : Bytes} {ts readTs : UInt64} {v : Slice} :
    Shows readTs key (encodeKey key ts, v) ↔ ts ≤ readTs := by
  rw [Shows, decodeKey_encodeKey]
  exact and_iff_right rfl

/-- An item that shows a key is a visible version of it. -/
theorem version_of_shows {table : Bytes} {s : MemoryStore} (hEncoded : MemoryStore.Encoded s.tree)
    {it : Bytes × Slice} (hMem : it ∈ tableItems table s) {readTs : UInt64} {key : Bytes}
    (hShows : Shows readTs key it) :
    ∃ ts ≤ readTs, it.1 = encodeKey key ts ∧ s.HasVersion key ts it.2 := by
  have hFind := (MemoryStore.mem_scanned_iff.mp hMem).1
  obtain ⟨key', ts, hItem⟩ := hEncoded it.1 it.2 hFind
  obtain ⟨hKey, hTs⟩ := hShows
  rw [hItem, decodeKey_encodeKey] at hKey hTs
  obtain rfl : key' = key := hKey
  rw [hItem] at hFind
  exact ⟨ts, hTs, hItem, hFind⟩

/-- The rows are the first visible versions of the keys of the table among the visited items, one
row for each key. -/
theorem executeScan_rows (table : Bytes) (s : MemoryStore) (readTs : UInt64) :
    ∃ keys : List Bytes, keys.Nodup ∧
      (∀ key, key ∈ keys ↔
        table ++ ascii ":" <+: key ∧ ∃ it ∈ tableItems table s, Shows readTs key it) ∧
      List.Forall₂ (FirstRow readTs (tableItems table s)) keys (executeScan table s readTs) := by
  have hStart : RowsInvariant table readTs [] ([], []) :=
    ⟨List.nodup_nil, by simp, List.Forall₂.nil⟩
  have hEnd := SortedMap.foldl_ascending (fun visited acc it h hLast =>
    RowsInvariant.visit h hLast) (sorted_tableItems table s) hStart
  have hScan : executeScan table s readTs = ((tableItems table s).foldl
      (fun acc it => (scanItem table readTs acc it.1 it.2).1) ([], [])).1 :=
    congrArg Prod.fst (MemoryStore.scan_eq_foldl (scanItem_goes_on table readTs) s _ _ _)
  refine ⟨_, List.nodup_reverse.mpr hEnd.nodup, fun key => ?_, hScan ▸ hEnd.rows⟩
  rw [List.mem_reverse]
  exact hEnd.seen key

/-- A key has at most one row. -/
theorem FirstRow.unique {table : Bytes} {s : MemoryStore} {readTs : UInt64} {key : Bytes}
    {row row' : Row} (h : FirstRow readTs (tableItems table s) key row)
    (h' : FirstRow readTs (tableItems table s) key row') : row = row' := by
  obtain ⟨⟨j, v⟩, hMem, hShows, hFirst, rfl⟩ := h
  obtain ⟨⟨j', v'⟩, hMem', hShows', hFirst', rfl⟩ := h'
  obtain rfl : j = j' := le_antisymm (hFirst _ hMem' hShows') (hFirst' _ hMem hShows)
  have hFind := (MemoryStore.mem_scanned_iff.mp hMem).1
  rw [(MemoryStore.mem_scanned_iff.mp hMem').1] at hFind
  rw [Option.some.inj hFind]

theorem mem_executeScan_iff {table : Bytes} {s : MemoryStore} {readTs : UInt64} {row : Row} :
    row ∈ executeScan table s readTs ↔
      ∃ key, table ++ ascii ":" <+: key ∧ FirstRow readTs (tableItems table s) key row := by
  obtain ⟨keys, -, hKeys, hRows⟩ := executeScan_rows table s readTs
  constructor
  · intro hRow
    obtain ⟨i, hi, hGet⟩ := List.getElem_of_mem hRow
    have hFirst := hRows.get (hRows.length_eq ▸ hi) hi
    rw [List.get_eq_getElem, List.get_eq_getElem, hGet] at hFirst
    exact ⟨_, ((hKeys _).mp (List.getElem_mem _)).1, hFirst⟩
  · rintro ⟨key, hPrefix, hFirst⟩
    obtain ⟨it, hit, hShows, -⟩ := id hFirst
    obtain ⟨i, hi, rfl⟩ := List.getElem_of_mem ((hKeys key).mpr ⟨hPrefix, it, hit, hShows⟩)
    have hRow := hRows.get hi (hRows.length_eq ▸ hi)
    rw [hFirst.unique hRow]
    exact List.getElem_mem _

/-- No stored key goes on with the byte `FF` after the colon of the table. -/
def TableBounded (table : Bytes) (s : MemoryStore) : Prop :=
  ∀ key ts v, s.HasVersion key ts v → ¬ table ++ ascii ":" ++ [0xFF] <+: key

/-- A key that goes on after the prefix and is at or past the end of the table goes on with the
byte `FF`, which is the greatest. -/
theorem prefix_of_ff_le {start rest : Bytes} (h : start ++ [0xFF] ≤ start ++ rest) :
    start ++ [0xFF] <+: start ++ rest := by
  have hRest : [0xFF] ≤ rest := by
    by_contra hLt
    exact not_lt.mpr h ((append_lt_append_left_iff start rest [0xFF]).mpr (not_le.mp hLt))
  cases rest with
  | nil => exact absurd (List.nil_lt_cons _ _) (not_lt.mpr hRest)
  | cons c rest =>
    have hByte : c = 0xFF := by
      by_contra hNe
      have hLess : c < 0xFF := lt_of_le_of_ne (UInt8.le_iff_toNat_le.mpr (by
        have := c.toNat_lt
        change c.toNat ≤ 255
        omega)) hNe
      exact not_lt.mpr hRest (List.cons_lt_cons_iff.mpr (Or.inl hLess))
    rw [hByte]
    exact ⟨rest, by simp⟩

section Table

variable {s : MemoryStore} {table : Bytes} {readTs : UInt64}

theorem inRange_of_isPrefix {key : Bytes} (hPrefix : table ++ ascii ":" <+: key)
    (hKey : ¬ table ++ ascii ":" ++ [0xFF] <+: key) :
    MemoryStore.InRange (some (table ++ ascii ":")) (some (table ++ ascii ":" ++ [0xFF])) key := by
  refine ⟨le_of_isPrefix hPrefix, ?_⟩
  rintro bound hBound
  cases hBound
  by_contra hPast
  obtain ⟨rest, rfl⟩ := hPrefix
  exact hKey (prefix_of_ff_le (not_lt.mp hPast))

/-- A scan of the table does not end early: a key past the table whose versions come before one
of a row would extend the key of the row. -/
theorem TableBounded.not_cutsOff (h : TableBounded table s) :
    ¬ s.CutsOff (some (table ++ ascii ":")) (some (table ++ ascii ":" ++ [0xFF])) := by
  rintro ⟨key, ts, v, -, ⟨hStart, hEnd⟩, key', ts', v', bound, hVersion', hStop, hPast, hLt⟩
  cases hStop
  have hBelow := hEnd _ rfl
  have hTable : table ++ ascii ":" <+: key := by
    rcases prefix_or_append_lt_of_le hStart with hPrefix | hAppend
    · exact hPrefix
    · exact absurd (hAppend [0xFF] []) (not_lt.mpr (by rw [List.append_nil]; exact hBelow.le))
  obtain ⟨rest, rfl⟩ := hTable.trans (prefix_of_encodeKey_le (hBelow.le.trans hPast) hLt.le)
  exact h _ ts' v' hVersion' (prefix_of_ff_le hPast)

theorem mem_tableItems_iff (hEncoded : MemoryStore.Encoded s.tree) (h : TableBounded table s)
    {key : Bytes} (hPrefix : table ++ ascii ":" <+: key) {ts : UInt64} {v : Slice} :
    (encodeKey key ts, v) ∈ tableItems table s ↔ s.HasVersion key ts v := by
  constructor
  · intro hMem
    exact (MemoryStore.mem_scanned_iff.mp hMem).1
  · intro hVersion
    exact MemoryStore.scanned_of_inRange hEncoded hVersion
      (inRange_of_isPrefix hPrefix (h key ts v hVersion)) h.not_cutsOff

/-- The first visible version among the visited ones is the newest one of the store. -/
theorem FirstRow.newestUpTo (hEncoded : MemoryStore.Encoded s.tree) (h : TableBounded table s)
    {key : Bytes} (hPrefix : table ++ ascii ":" <+: key) {row : Row}
    (hRow : FirstRow readTs (tableItems table s) key row) :
    ∃ ts v, s.NewestUpTo key readTs ts v ∧ row = [realKey key, v.getD []] := by
  obtain ⟨⟨j, v⟩, hMem, hShows, hFirst, hRow⟩ := hRow
  obtain ⟨ts, hTs, rfl, hVersion⟩ := version_of_shows hEncoded hMem hShows
  refine ⟨ts, v, ⟨hTs, hVersion, ?_⟩, hRow⟩
  intro ts' v' hVersion' hTs'
  have hMem' := (mem_tableItems_iff hEncoded h hPrefix).mpr hVersion'
  exact (encodeKey_le_encodeKey_iff ..).mp (hFirst _ hMem' (shows_encodeKey.mpr hTs'))

theorem exists_shows_iff (hEncoded : MemoryStore.Encoded s.tree) (h : TableBounded table s)
    {key : Bytes} (hPrefix : table ++ ascii ":" <+: key) :
    (∃ it ∈ tableItems table s, Shows readTs key it) ↔ s.Visible key readTs := by
  constructor
  · rintro ⟨it, hMem, hShows⟩
    obtain ⟨ts, hTs, -, hVersion⟩ := version_of_shows hEncoded hMem hShows
    exact ⟨ts, it.2, hTs, hVersion⟩
  · rintro ⟨ts, v, hTs, hVersion⟩
    exact ⟨_, (mem_tableItems_iff hEncoded h hPrefix).mpr hVersion, shows_encodeKey.mpr hTs⟩

/-! ## Tables without a colon in their name -/

theorem realKey_rowKey (hTable : 58 ∉ table) (pk : Bytes) : realKey (rowKey table pk) = pk := by
  have hDrop : (rowKey table pk).dropWhile (fun c => decide (c ≠ 58)) = 58 :: pk := by
    rw [rowKey, List.append_assoc, List.dropWhile_append_of_pos]
    · rfl
    · intro c hc
      exact decide_eq_true fun hEq => hTable (hEq ▸ hc)
  rw [realKey, hDrop]
  rfl

theorem rowKey_injective (table : Bytes) : Function.Injective (rowKey table) :=
  fun _ _ h => List.append_cancel_left h

/-- Every key of the table is the key of a row. -/
theorem exists_map_rowKey {keys : List Bytes} (h : ∀ key ∈ keys, table ++ ascii ":" <+: key) :
    ∃ pks : List Bytes, keys = pks.map (rowKey table) := by
  refine ⟨keys.map (List.drop (table ++ ascii ":").length), ?_⟩
  rw [List.map_map]
  conv_lhs => rw [← List.map_id keys]
  refine List.map_congr_left fun key hKey => ?_
  obtain ⟨pk, rfl⟩ := h key hKey
  simp [rowKey]

/-- The scan of a table is a snapshot of it: one row for each key of the table with a visible
version, with the value of the newest one. -/
theorem executeScan_snapshot (hEncoded : MemoryStore.Encoded s.tree) (hTable : 58 ∉ table)
    (hBounded : TableBounded table s) (readTs : UInt64) :
    ∃ pks : List Bytes, pks.Nodup ∧ (∀ pk, pk ∈ pks ↔ s.Visible (rowKey table pk) readTs) ∧
      List.Forall₂
        (fun pk row => ∃ ts v, s.NewestUpTo (rowKey table pk) readTs ts v ∧ row = [pk, v.getD []])
        pks (executeScan table s readTs) := by
  obtain ⟨keys, hNodup, hKeys, hRows⟩ := executeScan_rows table s readTs
  obtain ⟨pks, rfl⟩ := exists_map_rowKey fun key hKey => ((hKeys key).mp hKey).1
  have hPrefix : ∀ pk, table ++ ascii ":" <+: rowKey table pk := fun pk => List.prefix_append _ _
  refine ⟨pks, hNodup.of_map _, fun pk => ?_, ?_⟩
  · rw [← List.mem_map_of_injective (rowKey_injective table), hKeys,
      exists_shows_iff hEncoded hBounded (hPrefix pk)]
    exact and_iff_right (hPrefix pk)
  · refine (List.forall₂_map_left_iff.mp hRows).imp fun pk row hRow => ?_
    obtain ⟨ts, v, hNewest, hEq⟩ := hRow.newestUpTo hEncoded hBounded (hPrefix pk)
    rw [realKey_rowKey hTable] at hEq
    exact ⟨ts, v, hNewest, hEq⟩

end Table

/-- Two versions of the row `a` of table `t`, one of its row `a0`, and a row of table `u`. -/
def nestedRows : MemoryStore :=
  newMemoryStore.run [.onePhaseCommit [⟨ascii "t:a", some (ascii "1")⟩] (ascii "x") 3,
    .onePhaseCommit [⟨ascii "t:a", some (ascii "2")⟩, ⟨ascii "t:a0", some (ascii "3")⟩]
      (ascii "y") 7,
    .onePhaseCommit [⟨ascii "u:b", some (ascii "4")⟩] (ascii "z") 4]

theorem executeScan_snapshot_nestedRows :
    executeScan (ascii "t") nestedRows 8 =
        [[ascii "a0", ascii "3"], [ascii "a", ascii "2"]] ∧
      ∃ pks : List Bytes, pks.Nodup ∧
        (∀ pk, pk ∈ pks ↔ nestedRows.Visible (rowKey (ascii "t") pk) 8) ∧
        List.Forall₂ (fun pk row => ∃ ts v,
            nestedRows.NewestUpTo (rowKey (ascii "t") pk) 8 ts v ∧ row = [pk, v.getD []])
          pks (executeScan (ascii "t") nestedRows 8) := by
  refine ⟨by decide, executeScan_snapshot (MemoryStore.Reachable.encoded ⟨_, rfl⟩) (by decide) ?_ 8⟩
  intro key ts v hVersion
  exact hVersion.of_entries (P := fun key _ _ => ¬ ascii "t" ++ ascii ":" ++ [0xFF] <+: key)
    (by decide)

end ShardDB.Sql
