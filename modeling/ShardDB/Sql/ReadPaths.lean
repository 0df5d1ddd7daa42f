import ShardDB.Lib.Utf8
import ShardDB.Sql.ScanRows
import ShardDB.Storage.View

/-!
# Point reads against table scans

A row can be read by its key (`executePointGet`) or found in a scan of its table
(`executeScan`). The first looks at the lock table, seeks once and takes a nil value for no row;
the second ignores the locks, walks over the whole table and prints a nil value as an empty
string. Both agree on a row that has no visible version. On a row that has one they agree exactly
when the row is not locked, no version of another key hides it from the seek, and its newest
visible value is not nil (`readPathsAgree_iff`).
-/

namespace ShardDB.Sql

open ShardDB.Lib ShardDB.Storage

/-! ## Stores with UTF-8 keys -/

/-- A call of the engine, or an insert. -/
inductive EngineStep where
  | call (c : Call)
  | insert (table : Bytes) (values : List Bytes) (commitTs : UInt64)

namespace EngineStep

def exec (s : MemoryStore) : EngineStep → MemoryStore
  | call c => (c.exec s).1
  | insert table values commitTs => (executeInsert table values s commitTs).1

/-- The keys of a step. -/
def keys : EngineStep → List Bytes
  | call c => c.keys
  | insert table values _ => values.head?.toList.map (rowKey table)

/-- The engine calls of a step. -/
def calls : EngineStep → List Call
  | call c => [c]
  | insert table values commitTs => (PlanNode.insert table [] values).calls commitTs

theorem exec_eq_run (o : EngineStep) (s : MemoryStore) : o.exec s = s.run o.calls := by
  cases o with
  | call c => rfl
  | insert table values commitTs => exact execute_eq_run (.insert table [] values) s commitTs

theorem mem_keys_of_mem_calls {o : EngineStep} {c : Call} (hc : c ∈ o.calls) {k : Bytes}
    (hk : k ∈ c.keys) : k ∈ o.keys := by
  cases o with
  | call c' => exact List.mem_singleton.mp hc ▸ hk
  | insert table values commitTs =>
    cases values with
    | nil => cases hc
    | cons pk values =>
      have hKeys : c.keys = [rowKey table pk] := by
        rcases List.mem_cons.mp hc with rfl | hc
        · rfl
        · rw [List.mem_singleton.mp hc]
          rfl
      rwa [hKeys] at hk

end EngineStep

/-- The store is reached from `NewMemoryStore` by steps on UTF-8 keys. -/
def Utf8Reachable (s : MemoryStore) : Prop :=
  ∃ steps : List EngineStep, (∀ o ∈ steps, ∀ k ∈ o.keys, validUtf8 k = true) ∧
    steps.foldl EngineStep.exec newMemoryStore = s

/-- Every stored user key is valid UTF-8. -/
def Utf8Keys (s : MemoryStore) : Prop := ∀ key ts v, s.HasVersion key ts v → validUtf8 key = true

theorem Utf8Keys.call {s : MemoryStore} (h : Utf8Keys s) {c : Call}
    (hc : ∀ k ∈ c.keys, validUtf8 k = true) : Utf8Keys (c.exec s).1 := by
  intro key ts v hVersion
  rw [MemoryStore.HasVersion, tree_exec] at hVersion
  rcases MemoryStore.find?_putVersions hVersion with ⟨i, hi, hEq, -⟩ | hOld
  · rw [(encodeKey_inj hEq).1]
    exact hc _ (key_of_mem_installs hi)
  · exact h key ts v hOld

theorem Utf8Keys.run {s : MemoryStore} (h : Utf8Keys s) {calls : List Call}
    (hCalls : ∀ c ∈ calls, ∀ k ∈ c.keys, validUtf8 k = true) : Utf8Keys (s.run calls) := by
  induction calls generalizing s with
  | nil => exact h
  | cons c calls ih =>
    exact ih (h.call (hCalls c List.mem_cons_self))
      fun c' hc' => hCalls c' (List.mem_cons_of_mem _ hc')

/-- The two facts that hold of every reached store. -/
theorem Utf8Reachable.invariant {s : MemoryStore} (h : Utf8Reachable s) :
    MemoryStore.Encoded s.tree ∧ Utf8Keys s := by
  obtain ⟨steps, hKeys, rfl⟩ := h
  induction steps using List.reverseRecOn with
  | nil =>
    constructor
    · intro j v hFind
      cases hFind
    · intro key ts v hVersion
      cases hVersion
  | append_singleton steps o ih =>
    obtain ⟨hEncoded, hUtf8⟩ := ih fun o' ho' => hKeys o' (List.mem_append_left _ ho')
    rw [List.foldl_concat, EngineStep.exec_eq_run]
    refine ⟨MemoryStore.encoded_run hEncoded _, hUtf8.run fun c hc k hk => ?_⟩
    exact hKeys o (by simp) k (EngineStep.mem_keys_of_mem_calls hc hk)

/-- The byte `FF` is in no stored key. -/
theorem Utf8Keys.tableBounded {s : MemoryStore} (h : Utf8Keys s) (table : Bytes) :
    TableBounded table s := by
  intro key ts v hVersion hPrefix
  exact ff_not_mem_of_validUtf8 (h key ts v hVersion) (hPrefix.subset (by simp))

/-! ## The two paths -/

section Paths

variable {s : MemoryStore} {table pk : Bytes} {readTs : UInt64}

/-- The row with a value is in the scan exactly if it is the newest visible version; a nil value
is shown as an empty one. -/
theorem mem_executeScan_row_iff (hEncoded : MemoryStore.Encoded s.tree) (hTable : 58 ∉ table)
    (hBounded : TableBounded table s) {v : Bytes} :
    [pk, v] ∈ executeScan table s readTs ↔
      ∃ ts w, s.NewestUpTo (rowKey table pk) readTs ts w ∧ v = w.getD [] := by
  have hPrefix : ∀ pk, table ++ ascii ":" <+: rowKey table pk := fun pk => List.prefix_append _ _
  rw [mem_executeScan_iff]
  constructor
  · rintro ⟨key, ⟨pk', rfl⟩, hRow⟩
    obtain ⟨ts, w, hNewest, hEq⟩ := hRow.newestUpTo hEncoded hBounded (hPrefix pk')
    change [pk, v] = [realKey (rowKey table pk'), w.getD []] at hEq
    rw [realKey_rowKey hTable] at hEq
    simp only [List.cons.injEq, and_true] at hEq
    obtain ⟨rfl, rfl⟩ := hEq
    exact ⟨ts, w, hNewest, rfl⟩
  · rintro ⟨ts, w, ⟨hTs, hVersion, hMax⟩, rfl⟩
    refine ⟨rowKey table pk, hPrefix pk, (encodeKey (rowKey table pk) ts, w),
      (mem_tableItems_iff hEncoded hBounded (hPrefix pk)).mpr hVersion, shows_encodeKey.mpr hTs,
      ?_, ?_⟩
    · intro it hMem hShows
      obtain ⟨ts', hTs', hItem, hVersion'⟩ := version_of_shows hEncoded hMem hShows
      rw [hItem]
      exact (encodeKey_le_encodeKey_iff ..).mpr (hMax ts' it.2 hVersion' hTs')
    · rw [realKey_rowKey hTable]

/-- A point read returns a row exactly if the key is not locked and the lookup finds the value. -/
theorem executePointGet_eq_iff {v : Bytes} :
    executePointGet table pk s readTs = .ok [[pk, v]] ↔
      s.locks.find? (rowKey table pk) = none ∧
        s.mvccGetLocked (rowKey table pk) readTs = (some v, true) := by
  rw [executePointGet, MemoryStore.getTxn]
  cases s.locks.find? (rowKey table pk) with
  | some lock =>
    constructor
    · intro h
      cases h
    · rintro ⟨h, -⟩
      cases h
  | none =>
    obtain ⟨w, found⟩ := s.mvccGetLocked (rowKey table pk) readTs
    cases found with
    | false =>
      constructor
      · intro h
        cases h
      · rintro ⟨-, h⟩
        cases h
    | true =>
      cases w with
      | none =>
        constructor
        · intro h
          cases h
        · rintro ⟨-, h⟩
          cases h
      | some w =>
        constructor
        · intro h
          cases h
          exact ⟨rfl, rfl⟩
        · rintro ⟨-, h⟩
          cases h
          rfl

/-- A point read of an unlocked row that the lookup does not find returns no row. -/
theorem executePointGet_of_not_found (hUnlocked : s.locks.find? (rowKey table pk) = none)
    (h : ∀ ts v, ¬ s.FirstFrom (encodeKey (rowKey table pk) readTs) (rowKey table pk) ts v) :
    executePointGet table pk s readTs = .ok [] := by
  have hNone : ∀ v, s.lookupAt (encodeKey (rowKey table pk) readTs) (rowKey table pk) ≠
      (v, true) := by
    intro v hFound
    obtain ⟨ts, -, hFirst⟩ := (MemoryStore.lookupAt_eq_iff le_rfl).mp hFound
    exact h ts v hFirst
  rw [executePointGet, MemoryStore.getTxn_eq hUnlocked, MemoryStore.lookupAt_of_not_found hNone]
  rfl

/-- So does one of a row without a version. -/
theorem executePointGet_of_missing (hUnlocked : s.locks.find? (rowKey table pk) = none)
    (hMissing : ∀ ts v, ¬ s.HasVersion (rowKey table pk) ts v) :
    executePointGet table pk s readTs = .ok [] :=
  executePointGet_of_not_found hUnlocked fun ts v hFirst => hMissing ts v hFirst.1

/-- The two paths agree on a row. -/
def ReadPathsAgree (s : MemoryStore) (table pk : Bytes) (readTs : UInt64) : Prop :=
  ∀ v, executePointGet table pk s readTs = .ok [[pk, v]] ↔ [pk, v] ∈ executeScan table s readTs

/-- Two newest visible versions are the same. -/
theorem newestUpTo_unique {key : Bytes} {ts ts' : UInt64} {v v' : Slice}
    (h : s.NewestUpTo key readTs ts v) (h' : s.NewestUpTo key readTs ts' v') : v = v' := by
  obtain ⟨hTs, hVersion, hMax⟩ := h
  obtain ⟨hTs', hVersion', hMax'⟩ := h'
  obtain rfl : ts = ts' := le_antisymm (hMax' ts v hVersion hTs) (hMax ts' v' hVersion' hTs')
  exact Option.some.inj (hVersion.symm.trans hVersion')

/-- The paths agree on a row exactly if it has no visible version, or is not locked, not shadowed
and its newest visible value is not nil. -/
theorem readPathsAgree_iff (hReachable : Utf8Reachable s) (hTable : 58 ∉ table) (pk : Bytes)
    (readTs : UInt64) :
    ReadPathsAgree s table pk readTs ↔
      (s.Visible (rowKey table pk) readTs →
        s.locks.find? (rowKey table pk) = none ∧ ¬ s.Shadowed (rowKey table pk) readTs ∧
          ∀ ts v, s.NewestUpTo (rowKey table pk) readTs ts v → v ≠ none) := by
  obtain ⟨hEncoded, hUtf8⟩ := hReachable.invariant
  have hScan : ∀ v, [pk, v] ∈ executeScan table s readTs ↔ _ :=
    fun v => mem_executeScan_row_iff hEncoded hTable (hUtf8.tableBounded table)
  constructor
  · intro hAgree hVisible
    obtain ⟨ts, w, hNewest⟩ := hVisible.exists_newest
    obtain ⟨hUnlocked, hGet⟩ := executePointGet_eq_iff.mp
      ((hAgree (w.getD [])).mpr ((hScan _).mpr ⟨ts, w, hNewest, rfl⟩))
    refine ⟨hUnlocked, (hVisible.found_iff hEncoded).mp ⟨_, hGet⟩, ?_⟩
    rintro ts' v' hNewest' rfl
    obtain ⟨ts₁, -, hFirst⟩ := MemoryStore.mvccGetLocked_eq_iff.mp hGet
    cases newestUpTo_unique hFirst.newestUpTo hNewest'
  · intro hPlain v
    rw [executePointGet_eq_iff, hScan]
    constructor
    · rintro ⟨-, hGet⟩
      obtain ⟨ts, -, hFirst⟩ := MemoryStore.mvccGetLocked_eq_iff.mp hGet
      exact ⟨ts, some v, hFirst.newestUpTo, rfl⟩
    · rintro ⟨ts, w, hNewest, rfl⟩
      have hVisible : s.Visible (rowKey table pk) readTs := ⟨ts, w, hNewest.1, hNewest.2.1⟩
      obtain ⟨hUnlocked, hClear, hValue⟩ := hPlain hVisible
      obtain ⟨v, hGet⟩ := (hVisible.found_iff hEncoded).mpr hClear
      obtain ⟨ts', -, hFirst⟩ := MemoryStore.mvccGetLocked_eq_iff.mp hGet
      rw [newestUpTo_unique hFirst.newestUpTo hNewest] at hGet
      obtain ⟨w, rfl⟩ := Option.ne_none_iff_exists'.mp (hValue ts w hNewest)
      exact ⟨hUnlocked, hGet⟩

end Paths

/-- The newer version of the row `a` is read on both paths, beside the row `a0`. -/
theorem readPathsAgree_nestedRows : ReadPathsAgree nestedRows (ascii "t") (ascii "a") 8 := by
  have hReachable : Utf8Reachable nestedRows :=
    ⟨[.call (.onePhaseCommit [⟨ascii "t:a", some (ascii "1")⟩] (ascii "x") 3),
      .call (.onePhaseCommit [⟨ascii "t:a", some (ascii "2")⟩, ⟨ascii "t:a0", some (ascii "3")⟩]
        (ascii "y") 7),
      .call (.onePhaseCommit [⟨ascii "u:b", some (ascii "4")⟩] (ascii "z") 4)], by decide, rfl⟩
  refine (readPathsAgree_iff hReachable (by decide) _ _).mpr fun _ => ⟨by decide, ?_, ?_⟩
  · have hVersion : nestedRows.HasVersion (ascii "t:a") 7 (some (ascii "2")) := by decide
    exact MemoryStore.not_shadowed_of_entries (by decide) hVersion (by decide)
  · rintro ts v ⟨-, hVersion, -⟩
    exact hVersion.of_entries (P := fun _ _ v => v ≠ none) (by decide)

/-- A version of the row `a0` hides the row `a` from a point read; the scan shows both. -/
theorem not_readPathsAgree :
    ¬ ∀ s : MemoryStore, Utf8Reachable s → ∀ table, 58 ∉ table → ∀ pk readTs,
      ReadPathsAgree s table pk readTs := by
  intro hAll
  have hAgree := hAll _ ⟨[.insert (ascii "t") [ascii "a", ascii "1"] 100,
    .insert (ascii "t") [ascii "a0", ascii "2"] 100], by decide, rfl⟩ (ascii "t") (by decide)
    (ascii "a") maxUint64 (ascii "a,1")
  revert hAgree
  decide

end ShardDB.Sql
