import ShardDB.Shard.Replay

/-!
# The current value of a key

The newest version of a key is the one that a read without a time bound must return. Three
kinds of entries install versions: `COMMIT` and `ONESHOT` entries, at a timestamp of the
coordinator's clock, and SQL inserts, at the fixed timestamp 100. Both write into one
version order, so the entry that is last in the log need not have installed the newest
version.

The versions of one key are collected in log order, each with the kind of its entry
(`history`). Among versions of one kind the timestamps do not decrease. The last write is
therefore hidden exactly when the last write of the other kind has a greater timestamp and
another value (`currentIsLast_iff`). With a clock that counts nanoseconds every SQL insert
after a transactional write is hidden (`not_currentIsLast`).
-/

namespace ShardDB.Shard

open ShardDB.Lib ShardDB.Storage

/-! ## Writes of a key in log order -/

/-- Where the timestamp of a version comes from. -/
inductive Origin where
  | clock
  | sql
  deriving DecidableEq, Repr

/-- A version of a key. -/
structure KeyWrite where
  origin : Origin
  ts : UInt64
  value : Slice
  deriving DecidableEq, Repr

/-- The origin and the timestamp of the versions that a command installs. -/
def Command.stamp : Command → Option (Origin × UInt64)
  | commit _ _ ts => some (.clock, ts)
  | oneShot req => some (.clock, req.ts)
  | sql _ => some (.sql, sqlTs)
  | _ => none

/-- The versions of a key that a command installs. -/
def Command.writes (s : MemoryStore) (key : Bytes) (c : Command) : List KeyWrite :=
  match c.stamp with
  | none => []
  | some (origin, _) =>
    ((s.runInstalls c.calls).filter fun i => i.key = key).map fun i => ⟨origin, i.ts, i.value⟩

/-- The versions of a key that a log installs, in log order. -/
def history (libs : Libs) (key : Bytes) : MemoryStore → List Bytes → List KeyWrite
  | _, [] => []
  | s, data :: log => (decode libs data).writes s key ++ history libs key (apply libs s data) log

/-- The timestamps of the `COMMIT` and `ONESHOT` entries of a log. -/
def clockTimes (libs : Libs) (log : List Bytes) : List UInt64 :=
  log.filterMap fun data =>
    match (decode libs data).stamp with
    | some (.clock, ts) => some ts
    | _ => none

end ShardDB.Shard

namespace ShardDB.Storage

open ShardDB.Lib

/-- The newest stored version of the key has the value `v`. -/
def MemoryStore.Newest (s : MemoryStore) (key : Bytes) (v : Slice) : Prop :=
  ∃ ts, s.HasVersion key ts v ∧ ∀ ts' v', s.HasVersion key ts' v' → ts' ≤ ts

/-- The versions of one key in a tree are the last writes at their timestamps. -/
theorem find?_putVersions_empty (l : List Install) (key : Bytes) (ts : UInt64) :
    (putVersions SortedMap.empty l).find? (encodeKey key ts) =
      SortedMap.lastBinding ((l.filter fun i => i.key = key).map fun i => (i.ts, i.value)) ts := by
  induction l using List.reverseRecOn with
  | nil => rfl
  | append_singleton l i ih =>
    rw [putVersions_append]
    change ((putVersions SortedMap.empty l).insert (encodeKey i.key i.ts) i.value).find? _ = _
    rw [SortedMap.find?_insert, List.filter_append, List.map_append]
    by_cases hKey : i.key = key
    · obtain rfl := hKey
      have hIff : encodeKey i.key ts = encodeKey i.key i.ts ↔ i.ts = ts :=
        ⟨fun h => (encodeKey_inj h).2.symm, fun h => by rw [h]⟩
      simp only [hIff, List.filter_cons, decide_true, if_true, List.filter_nil,
        List.map_cons, List.map_nil, SortedMap.lastBinding_concat, ih]
    · have hNe : encodeKey key ts ≠ encodeKey i.key i.ts := fun h => hKey (encodeKey_inj h).1.symm
      simp [hNe, hKey, ih]

end ShardDB.Storage

namespace ShardDB.Shard

open ShardDB.Lib ShardDB.Storage

/-! ## The history of a key describes its versions -/

theorem Command.map_writes (s : MemoryStore) (key : Bytes) (c : Command) :
    (c.writes s key).map (fun w => (w.ts, w.value)) =
      ((s.runInstalls c.calls).filter fun i => i.key = key).map fun i => (i.ts, i.value) := by
  cases c <;> simp [writes, stamp, calls, MemoryStore.runInstalls, Call.installs]

theorem map_history (libs : Libs) (key : Bytes) (s : MemoryStore) (log : List Bytes) :
    (history libs key s log).map (fun w => (w.ts, w.value)) =
      ((s.runInstalls (logCalls libs log)).filter fun i => i.key = key).map
        fun i => (i.ts, i.value) := by
  induction log generalizing s with
  | nil => rfl
  | cons data log ih =>
    rw [history, List.map_append, Command.map_writes, ih, logCalls_cons,
      MemoryStore.runInstalls_append, List.filter_append, List.map_append, apply,
      Command.exec_eq_run]

/-- A version of the key is stored exactly when it is the last write at its timestamp. -/
theorem hasVersion_applyAll_iff (libs : Libs) (log : List Bytes) (key : Bytes) (ts : UInt64)
    (v : Slice) :
    (applyAll libs newMemoryStore log).HasVersion key ts v ↔
      SortedMap.lastBinding ((history libs key newMemoryStore log).map fun w => (w.ts, w.value)) ts =
        some v := by
  rw [MemoryStore.HasVersion, applyAll_eq_run, tree_run, map_history, ← find?_putVersions_empty]
  rfl

/-! ## Timestamps of one kind do not decrease -/

/-- A command commits at its stamp only. -/
theorem Command.ts_eq_of_mem_calls {c : Command} {call : Call} {ts : UInt64} (h : call ∈ c.calls)
    (hTs : call.ts? = some ts) : ∃ origin, c.stamp = some (origin, ts) := by
  cases c with
  | sql plan =>
    refine ⟨.sql, ?_⟩
    simp only [calls] at h
    unfold Sql.PlanNode.calls at h
    split at h
    · rcases List.mem_cons.mp h with rfl | h
      · cases hTs
      · rw [List.mem_singleton.mp h] at hTs
        cases hTs
        rfl
    · cases h
  | ignored => cases h
  | _ =>
    rw [List.mem_singleton.mp h] at hTs
    cases hTs
    try exact ⟨_, rfl⟩

theorem Command.stamp_of_mem_writes {s : MemoryStore} {key : Bytes} {c : Command} {w : KeyWrite}
    (h : w ∈ c.writes s key) : c.stamp = some (w.origin, w.ts) := by
  unfold writes at h
  split at h
  · cases h
  · next origin ts hStamp =>
    obtain ⟨i, hi, rfl⟩ := List.mem_map.mp h
    obtain ⟨call, hCall, s', hInstall⟩ := mem_runInstalls (List.mem_filter.mp hi).1
    obtain ⟨origin', hTs⟩ := ts_eq_of_mem_calls hCall (ts?_of_mem_installs hInstall)
    rw [hStamp] at hTs ⊢
    cases hTs
    rfl

/-- A write of the clock has the timestamp of its entry, an insert the fixed one. -/
theorem stamped_of_mem_history {libs : Libs} {key : Bytes} {s : MemoryStore}
    {log : List Bytes} {w : KeyWrite} (h : w ∈ history libs key s log) :
    ∃ data ∈ log, (decode libs data).stamp = some (w.origin, w.ts) := by
  induction log generalizing s with
  | nil => cases h
  | cons data log ih =>
    rcases List.mem_append.mp h with h | h
    · exact ⟨data, List.mem_cons_self, Command.stamp_of_mem_writes h⟩
    · obtain ⟨data', hData, hStamp⟩ := ih h
      exact ⟨data', List.mem_cons_of_mem _ hData, hStamp⟩

theorem Command.ts_of_stamp_sql {c : Command} {ts : UInt64} (h : c.stamp = some (.sql, ts)) :
    ts = sqlTs := by
  cases c <;> simp_all [stamp]

theorem clockTimes_cons_of_clock {libs : Libs} {data : Bytes} {ts : UInt64}
    (h : (decode libs data).stamp = some (.clock, ts)) (log : List Bytes) :
    clockTimes libs (data :: log) = ts :: clockTimes libs log :=
  List.filterMap_cons_some (by rw [h])

theorem mem_clockTimes {libs : Libs} {log : List Bytes} {data : Bytes} {ts : UInt64}
    (hData : data ∈ log) (h : (decode libs data).stamp = some (.clock, ts)) :
    ts ∈ clockTimes libs log :=
  List.mem_filterMap.mpr ⟨data, hData, by rw [h]⟩

theorem pairwise_clockTimes_tail {libs : Libs} {data : Bytes} {log : List Bytes}
    (h : (clockTimes libs (data :: log)).Pairwise (· ≤ ·)) :
    (clockTimes libs log).Pairwise (· ≤ ·) :=
  h.sublist ((List.sublist_cons_self data log).filterMap _)

theorem pairwise_history (libs : Libs) (key : Bytes) (s : MemoryStore) {log : List Bytes}
    (hClock : (clockTimes libs log).Pairwise (· ≤ ·)) :
    (history libs key s log).Pairwise fun a b => a.origin = b.origin → a.ts ≤ b.ts := by
  induction log generalizing s with
  | nil => exact List.Pairwise.nil
  | cons data log ih =>
    refine List.pairwise_append.mpr ⟨?_, ih _ (pairwise_clockTimes_tail hClock), ?_⟩
    · refine List.pairwise_of_forall_mem_list fun a ha b hb _ => ?_
      have hStamp := (Command.stamp_of_mem_writes ha).symm.trans (Command.stamp_of_mem_writes hb)
      exact le_of_eq (Prod.mk.inj (Option.some.inj hStamp)).2
    · intro a ha b hb hOrigin
      have hA := Command.stamp_of_mem_writes ha
      obtain ⟨data', hMem, hB⟩ := stamped_of_mem_history hb
      rw [← hOrigin] at hB
      cases hKind : a.origin with
      | clock =>
        rw [hKind] at hA hB
        rw [clockTimes_cons_of_clock hA] at hClock
        exact (List.pairwise_cons.mp hClock).1 _ (mem_clockTimes hMem hB)
      | sql =>
        rw [hKind] at hA hB
        rw [Command.ts_of_stamp_sql hA, Command.ts_of_stamp_sql hB]

/-! ## The newest version -/

/-- The last write of the other kind. -/
def lastOther (h : List KeyWrite) (w : KeyWrite) : Option KeyWrite :=
  (h.filter fun w' => w'.origin ≠ w.origin).getLast?

/-- Some write of the other kind has a greater timestamp and another value. -/
def Hidden (h : List KeyWrite) (w : KeyWrite) : Prop :=
  ∃ w', lastOther h w = some w' ∧ w.ts < w'.ts ∧ w'.value ≠ w.value

theorem ts_le_of_getLast? {h : List KeyWrite}
    (hMono : h.Pairwise fun a b => a.origin = b.origin → a.ts ≤ b.ts) {w a : KeyWrite}
    (hLast : h.getLast? = some w) (ha : a ∈ h) (hOrigin : a.origin = w.origin) : a.ts ≤ w.ts := by
  obtain ⟨pre, rfl⟩ := List.getLast?_eq_some_iff.mp hLast
  rcases List.mem_append.mp ha with ha | ha
  · exact (List.pairwise_append.mp hMono).2.2 a ha w List.mem_cons_self hOrigin
  · rw [List.mem_singleton.mp ha]

/-- The last write at a timestamp, when all writes at it are among those that satisfy `p`. -/
theorem lastBinding_filter {h : List KeyWrite} {p : KeyWrite → Bool} {ts : UInt64}
    (hAll : ∀ a ∈ h, a.ts = ts → p a = true) :
    SortedMap.lastBinding (h.map fun w => (w.ts, w.value)) ts =
      SortedMap.lastBinding ((h.filter p).map fun w => (w.ts, w.value)) ts := by
  induction h using List.reverseRecOn with
  | nil => rfl
  | append_singleton h a ih =>
    have hRest := ih fun a ha => hAll a (List.mem_append_left _ ha)
    have hLast := hAll a (List.mem_append_right _ List.mem_cons_self)
    rw [List.map_append, List.filter_append, List.map_append]
    by_cases hTs : a.ts = ts
    · simp [SortedMap.lastBinding_concat, hTs, hLast hTs]
    · by_cases hp : p a = true
      · simp [SortedMap.lastBinding_concat, hTs, hp, hRest]
      · simp [SortedMap.lastBinding_concat, hTs, hp, hRest]

theorem lastBinding_getLast? {h : List KeyWrite} {w : KeyWrite} (hLast : h.getLast? = some w) :
    SortedMap.lastBinding (h.map fun w => (w.ts, w.value)) w.ts = some w.value := by
  obtain ⟨pre, rfl⟩ := List.getLast?_eq_some_iff.mp hLast
  rw [List.map_append, List.map_singleton, SortedMap.lastBinding_concat, if_pos rfl]

theorem exists_write_of_lastBinding {h : List KeyWrite} {ts : UInt64} {v : Slice}
    (hFind : SortedMap.lastBinding (h.map fun w => (w.ts, w.value)) ts = some v) :
    ∃ a ∈ h, a.ts = ts := by
  obtain ⟨a, ha, hEq⟩ := List.mem_map.mp (SortedMap.mem_of_lastBinding hFind)
  exact ⟨a, ha, (Prod.mk.inj hEq).1⟩

/-- The value at the greatest timestamp of a history. -/
def NewestIn (h : List KeyWrite) (v : Slice) : Prop :=
  ∃ ts, SortedMap.lastBinding (h.map fun w => (w.ts, w.value)) ts = some v ∧
    ∀ ts' v', SortedMap.lastBinding (h.map fun w => (w.ts, w.value)) ts' = some v' → ts' ≤ ts

theorem newestIn_of_forall_le {h : List KeyWrite} {ts : UInt64} {v : Slice}
    (hFind : SortedMap.lastBinding (h.map fun w => (w.ts, w.value)) ts = some v)
    (hMax : ∀ a ∈ h, a.ts ≤ ts) : NewestIn h v := by
  refine ⟨ts, hFind, fun ts' v' hFind' => ?_⟩
  obtain ⟨a, ha, rfl⟩ := exists_write_of_lastBinding hFind'
  exact hMax a ha

/-- The greatest timestamp determines the newest value. -/
theorem newestIn_unique {h : List KeyWrite} {ts : UInt64} {v v' : Slice}
    (hFind : SortedMap.lastBinding (h.map fun w => (w.ts, w.value)) ts = some v)
    (hMax : ∀ a ∈ h, a.ts ≤ ts) (hNewest : NewestIn h v') : v' = v := by
  obtain ⟨ts', hFind', hMax'⟩ := hNewest
  obtain ⟨a, ha, rfl⟩ := exists_write_of_lastBinding hFind'
  have hEq : a.ts = ts := le_antisymm (hMax a ha) (hMax' ts v hFind)
  rw [hEq, hFind] at hFind'
  exact (Option.some.inj hFind').symm

section Last

variable {h : List KeyWrite} {w w' : KeyWrite}

/-- No write of the other kind is later than the last one of that kind. -/
theorem ts_le_of_lastOther (hMono : h.Pairwise fun a b => a.origin = b.origin → a.ts ≤ b.ts)
    (hOther : lastOther h w = some w') {a : KeyWrite} (ha : a ∈ h) (hNe : a.origin ≠ w.origin) :
    a.ts ≤ w'.ts := by
  have hKind : w'.origin ≠ w.origin := by
    simpa using (List.mem_filter.mp (List.mem_of_getLast? hOther)).2
  have hFilter : a ∈ h.filter fun a => a.origin ≠ w.origin :=
    List.mem_filter.mpr ⟨ha, by simpa using hNe⟩
  refine ts_le_of_getLast? (hMono.filter _) hOther hFilter ?_
  -- there are two kinds only
  cases hA : a.origin <;> cases hW : w.origin <;> cases hW' : w'.origin <;> simp_all

/-- If it is later than all writes of the kind of `w`, its value is the one at its timestamp. -/
theorem lastBinding_lastOther (hOwn : ∀ a ∈ h, a.origin = w.origin → a.ts ≤ w.ts)
    (hOther : lastOther h w = some w') (hLt : w.ts < w'.ts) :
    SortedMap.lastBinding (h.map fun w => (w.ts, w.value)) w'.ts = some w'.value := by
  rw [lastBinding_filter (p := fun a => a.origin ≠ w.origin)]
  · exact lastBinding_getLast? hOther
  · intro a ha hTs
    refine decide_eq_true fun hA => ?_
    exact absurd (hOwn a ha hA) (not_le.mpr (hTs ▸ hLt))

theorem newestIn_iff_not_hidden
    (hMono : h.Pairwise fun a b => a.origin = b.origin → a.ts ≤ b.ts)
    (hLast : h.getLast? = some w) : NewestIn h w.value ↔ ¬ Hidden h w := by
  have hOwn : ∀ a ∈ h, a.origin = w.origin → a.ts ≤ w.ts :=
    fun a ha => ts_le_of_getLast? hMono hLast ha
  have hNewest : (∀ a ∈ h, a.origin ≠ w.origin → a.ts ≤ w.ts) → NewestIn h w.value := by
    intro hTheirs
    refine newestIn_of_forall_le (lastBinding_getLast? hLast) fun a ha => ?_
    by_cases hA : a.origin = w.origin
    · exact hOwn a ha hA
    · exact hTheirs a ha hA
  cases hOther : lastOther h w with
  | none =>
    have hNo : ∀ a ∈ h, a.origin = w.origin := by
      simpa [lastOther] using hOther
    refine iff_of_true (hNewest fun a ha hNe => absurd (hNo a ha) hNe) ?_
    rintro ⟨w', hw', -⟩
    rw [hOther] at hw'
    cases hw'
  | some w' =>
    have hTheirs : ∀ a ∈ h, a.origin ≠ w.origin → a.ts ≤ w'.ts :=
      fun a ha hNe => ts_le_of_lastOther hMono hOther ha hNe
    rcases le_or_gt w'.ts w.ts with hLe | hLt
    · refine iff_of_true (hNewest fun a ha hNe => (hTheirs a ha hNe).trans hLe) ?_
      rintro ⟨w'', hw'', hLt, -⟩
      rw [hOther] at hw''
      cases hw''
      exact absurd hLe (not_le.mpr hLt)
    · have hMax : ∀ a ∈ h, a.ts ≤ w'.ts := by
        intro a ha
        by_cases hA : a.origin = w.origin
        · exact (hOwn a ha hA).trans hLt.le
        · exact hTheirs a ha hA
      -- only writes of the other kind reach the timestamp of `w'`
      have hFind := lastBinding_lastOther hOwn hOther hLt
      constructor
      · rintro hNewest ⟨w'', hw'', -, hValue⟩
        rw [hOther] at hw''
        cases hw''
        exact hValue (newestIn_unique hFind hMax hNewest).symm
      · intro hHidden
        have hValue : w'.value = w.value := by
          by_contra hNe
          exact hHidden ⟨w', hOther, hLt, hNe⟩
        rw [← hValue]
        exact newestIn_of_forall_le hFind hMax

end Last

/-! ## Log order and the current value -/

/-- The newest version of an unlocked key carries the value of the last write to the key in
log order. -/
def CurrentIsLast (libs : Libs) (log : List Bytes) (key : Bytes) : Prop :=
  (applyAll libs newMemoryStore log).locks.find? key = none →
    ∀ w, (history libs key newMemoryStore log).getLast? = some w →
      (applyAll libs newMemoryStore log).Newest key w.value

theorem newest_applyAll_iff (libs : Libs) (log : List Bytes) (key : Bytes) (v : Slice) :
    (applyAll libs newMemoryStore log).Newest key v ↔
      NewestIn (history libs key newMemoryStore log) v := by
  simp only [MemoryStore.Newest, NewestIn, hasVersion_applyAll_iff]

/-- Log order decides the current value of an unlocked key exactly when the last write to it
is not hidden by the last write of the other kind. -/
theorem currentIsLast_iff (libs : Libs) {log : List Bytes}
    (hClock : (clockTimes libs log).Pairwise (· ≤ ·)) (key : Bytes) :
    CurrentIsLast libs log key ↔
      ((applyAll libs newMemoryStore log).locks.find? key = none →
        ∀ w, (history libs key newMemoryStore log).getLast? = some w →
          ¬ Hidden (history libs key newMemoryStore log) w) := by
  unfold CurrentIsLast
  refine forall_congr' fun _ => forall_congr' fun w => forall_congr' fun hLast => ?_
  rw [newest_applyAll_iff, newestIn_iff_not_hidden (pairwise_history libs key newMemoryStore hClock) hLast]

/-- A parser that knows one statement. -/
def oneInsert : Libs :=
  compactJson fun text =>
    if text = ascii "INSERT INTO t VALUES ('k', 'new')" then
      .ok (.insert (ascii "t") [] [ascii "k", ascii "new"])
    else .error (ascii "syntax error")

def insertRow : Bytes := ascii "SQL:INSERT INTO t VALUES ('k', 'new')"

/-- A one-shot write of the same row, at a time in nanoseconds. -/
def oneShotRow : Bytes :=
  oneShotEntry (oneInsert.marshal ⟨JsonString.ofBytes (ascii "txn-1"), 1700000000000000000,
    [⟨JsonString.ofBytes (ascii "t:k"), JsonString.ofBytes (ascii "old")⟩]⟩)

/-- The transactional write comes last and is the newest version. -/
theorem currentIsLast_insert_oneShot :
    CurrentIsLast oneInsert [insertRow, oneShotRow] (ascii "t:k") := by
  refine (currentIsLast_iff oneInsert (by decide) _).mpr fun _ w hLast ⟨w', hOther, hLt, _⟩ => ?_
  have hW : (history oneInsert (ascii "t:k") newMemoryStore [insertRow, oneShotRow]).getLast? =
      some ⟨.clock, 1700000000000000000, some (ascii "old")⟩ := by decide
  rw [hW] at hLast
  cases hLast
  have hW' : lastOther (history oneInsert (ascii "t:k") newMemoryStore [insertRow, oneShotRow])
      ⟨.clock, 1700000000000000000, some (ascii "old")⟩ =
      some ⟨.sql, 100, some (ascii "k,new")⟩ := by decide
  rw [hW'] at hOther
  cases hOther
  exact absurd hLt (by decide)

/-- An insert after a transactional write of the same row is not the newest version. -/
theorem not_currentIsLast :
    ¬ ∀ libs log, (clockTimes libs log).Pairwise (· ≤ ·) → ∀ key, CurrentIsLast libs log key := by
  intro hAll
  have hNewest := hAll oneInsert [oneShotRow, insertRow] (by decide) (ascii "t:k") (by decide)
    ⟨.sql, 100, some (ascii "k,new")⟩ (by decide)
  rw [newest_applyAll_iff] at hNewest
  have hValue := @newestIn_unique _ 1700000000000000000 (some (ascii "old")) _ (by decide)
    (by decide) hNewest
  exact absurd hValue (by decide)

end ShardDB.Shard
