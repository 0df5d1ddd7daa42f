import ShardDB.Proxy.Placement
import ShardDB.Proxy.Rollback
import ShardDB.Shard.Twice
import ShardDB.Sql.ReadPaths
import ShardDB.Storage.Commute
import ShardDB.Txn.ConflictFree

/-!
# An INSERT inside and outside a transaction

The shard executor stores all values of a row joined by commas, the primary key among them. The
proxy builds the write of a buffered `INSERT` itself and takes the second value alone. The two
values are never equal, whatever the literals are, since the first has a comma more
(`joined_ne_second`). So a row that is read after the one path is never the row that is read
after the other. Both reads return the same only when both return nothing, because a version of
another key hides the row from the lookup (`sameRow_iff`).

Inside a transaction the key and the value travel as JSON strings, and a key that is not valid
UTF-8 arrives as another one; then nothing is found after that path.
-/

namespace ShardDB.Proxy

open ShardDB.Lib ShardDB.Storage ShardDB.Routing ShardDB.Sql ShardDB.Txn

/-! ## Reading a row after it was written -/

section Read

variable {s s' : MemoryStore} {table pk : Bytes} {ts : UInt64}

/-- An item sorts at or after the position from which the latest version of the key is looked
for, and before the version at `ts`. -/
def Hidden (s : MemoryStore) (key : Bytes) (ts : UInt64) : Prop :=
  ∃ j v, s.tree.find? j = some v ∧ encodeKey key maxUint64 ≤ j ∧ j < encodeKey key ts

/-- A row that has one version is read unless that version is hidden. -/
theorem pointGet_of_insert {value : Bytes} (hUnlocked : s'.locks.find? (rowKey table pk) = none)
    (hNone : ∀ ts v, ¬ s.HasVersion (rowKey table pk) ts v)
    (hTree : s'.tree = s.tree.insert (encodeKey (rowKey table pk) ts) (some value)) :
    (Hidden s (rowKey table pk) ts → executePointGet table pk s' maxUint64 = .ok []) ∧
      (¬ Hidden s (rowKey table pk) ts →
        executePointGet table pk s' maxUint64 = .ok [[pk, value]]) := by
  have hVersion : s'.HasVersion (rowKey table pk) ts (some value) := by
    rw [MemoryStore.HasVersion, hTree, SortedMap.find?_insert_self]
  have hOld : ∀ j, j ≠ encodeKey (rowKey table pk) ts → s'.tree.find? j = s.tree.find? j := by
    intro j hj
    rw [hTree, SortedMap.find?_insert_of_ne _ _ hj]
  constructor
  · rintro ⟨j, w, hFind, hSeek, hBefore⟩
    refine executePointGet_of_not_found hUnlocked ?_
    rintro ts' v' ⟨hVersion', -, hLeast⟩
    -- the version found would be the new one, and the other item sorts before it
    have hTs : ts' = ts := by
      by_contra hNe
      rw [MemoryStore.HasVersion, hOld _ fun hEq => hNe (encodeKey_inj hEq).2] at hVersion'
      exact hNone ts' v' hVersion'
    rw [hTs] at hLeast
    exact not_lt.mpr (hLeast j w ((hOld j hBefore.ne).trans hFind) hSeek) hBefore
  · intro hSeen
    refine executePointGet_eq_iff.mpr ⟨hUnlocked, MemoryStore.mvccGetLocked_eq_iff.mpr
      ⟨ts, le_maxUint64 ts, hVersion, ?_, ?_⟩⟩
    · exact (encodeKey_le_encodeKey_iff ..).mpr (le_maxUint64 ts)
    · intro j w hFind hSeek
      by_contra hBefore
      have hLt := not_le.mp hBefore
      exact hSeen ⟨j, w, (hOld j hLt.ne).symm.trans hFind, hSeek, hLt⟩

end Read

/-! ## The two values -/

/-- The value that the executor stores has more commas than the one that the proxy buffers, even
after the coercion to UTF-8. -/
theorem joined_ne_second (pk val : Bytes) (rest : List Bytes) :
    (ascii ",").intercalate (pk :: val :: rest) ≠ toValidUtf8 val := by
  intro hEq
  obtain ⟨tail, hJoined⟩ : ∃ tail, (ascii ",").intercalate (pk :: val :: rest) =
      pk ++ (ascii "," ++ (val ++ tail)) := by
    cases rest with
    | nil => exact ⟨[], by simp [List.intercalate]⟩
    | cons v rest => exact ⟨ascii "," ++ (ascii ",").intercalate (v :: rest), by
        simp [List.intercalate]⟩
  have hCount := congrArg (List.count 44) (hJoined.symm.trans hEq)
  have hLe : (toValidUtf8 val).count 44 ≤ val.count 44 := count_toValidUtf8_le (by decide) val
  have hComma : (ascii ",").count 44 = 1 := by decide
  rw [List.count_append, List.count_append, List.count_append, hComma] at hCount
  omega

/-! ## The two paths -/

variable (libs : Libs)

/-- The statement is an `INSERT` of one row of literals. -/
def InsertsLiterals (sql table : Bytes) (values : List Bytes) : Prop :=
  IsStatement libs sql ∧ ∃ columns,
    libs.parser.parse sql = .ok (.insert ⟨table, columns, .values [values.map .sqlVal]⟩)

/-- A shard applies the entries of the proposals. -/
def received (s : MemoryStore) (proposals : List Proposal) : MemoryStore :=
  Shard.applyAll libs.shard s (proposals.map Prod.snd)

/-- The store after the statement was forwarded. -/
def autoCommitted (net : Net) (c : Coordinator) (sql : Bytes) (s : MemoryStore) : MemoryStore :=
  received libs s (handle libs net c (.plain sql [])).proposals

/-- The store after the statement was sent with a transaction id and the transaction was
committed. -/
def txnCommitted (net net' : Net) (c : Coordinator) (sql commit txn : Bytes) (s : MemoryStore) :
    MemoryStore :=
  received libs s (serve libs c [(net, .plain sql txn), (net', .plain commit txn)]).2

variable {libs}

theorem InsertsLiterals.insertsRow {sql table pk val : Bytes} {rest : List Bytes}
    (h : InsertsLiterals libs sql table (pk :: val :: rest)) : InsertsRow libs sql table pk := by
  obtain ⟨hStatement, columns, hParse⟩ := h
  exact ⟨hStatement, columns, .sqlVal val, rest.map .sqlVal, [], hParse⟩

theorem InsertsLiterals.plan {sql table : Bytes} {values : List Bytes}
    (h : InsertsLiterals libs sql table values) :
    ∃ columns, parseToPlan libs.parser sql = .ok (.insert table columns values) := by
  obtain ⟨-, columns, hParse⟩ := h
  have hValues : (values.map Expr.sqlVal).map (valueBytes libs.parser) = values := by
    rw [List.map_map]
    exact List.map_id values
  refine ⟨columns, ?_⟩
  rw [parseToPlan, hParse]
  exact congrArg (fun l => Except.ok (PlanNode.insert table columns l)) hValues

section Paths

variable {sql table pk val : Bytes} {rest : List Bytes} {c : Coordinator} {s : MemoryStore}

/-- The forwarded statement writes the joined values at the timestamp of the applier. -/
theorem autoCommitted_eq (h : InsertsLiterals libs sql table (pk :: val :: rest))
    (hAddr : (c.router.shardAddrs.find? (c.router.getShardID (routeKey pk))).isSome = true)
    (hUnlocked : s.locks.find? (rowKey table pk) = none) (net : Net) :
    autoCommitted libs net c sql s =
      ⟨s.tree.insert (encodeKey (rowKey table pk) Shard.sqlTs)
          (some ((ascii ",").intercalate (pk :: val :: rest))),
        s.locks.erase (rowKey table pk)⟩ := by
  obtain ⟨addr, hFind⟩ := Option.isSome_iff_exists.mp hAddr
  have hProposals : (handle libs net c (.plain sql [])).proposals = [(addr, sqlEntry sql)] := by
    unfold handle
    rw [(dispatch_insert h.insertsRow).1]
    simp [forwardRequest, hFind]
  obtain ⟨columns, hPlan⟩ := h.plan
  have hFree : ∀ op ∈ [(⟨rowKey table pk, some ((ascii ",").intercalate (pk :: val :: rest))⟩ :
      BatchOp)], s.FreeFor (autoTxn Shard.sqlTs) op.key := by
    intro op hop
    rw [List.mem_singleton.mp hop]
    exact MemoryStore.freeFor_of_unlocked hUnlocked _
  rw [autoCommitted, hProposals]
  change Shard.apply libs.shard s (sqlEntry sql) = _
  rw [apply_sqlEntry hPlan]
  refine (run_prepare_commit s _ _ _ _).trans ?_
  rw [Call.exec, MemoryStore.onePhaseCommit_of_free _ hFree]
  rfl

/-- A transaction with one write is committed by one request. -/
theorem commit_oneWrite {txn : Bytes} {w : WriteIntent} (hActive : c.activeWrites txn = .ok [w])
    (net : Net) (hReply : ∀ m, net.reply m = none) :
    (c.commit net.reply net.iter₁ net.iter₂ net.now txn).sent =
        [.oneShot (c.router.locate w.key) [w] txn net.now] ∧
      (c.commit net.reply net.iter₁ net.iter₂ net.now txn).spawned = [] := by
  have hSingle : (groupByShard c.router [w]).entries = [(c.router.locate w.key, [w])] := rfl
  rw [commit_of_single hActive (List.cons_ne_nil _ _) hSingle (hReply _)]
  exact ⟨rfl, rfl⟩

theorem activeWrites_addWrite {txn key value : Bytes} {writes : List WriteIntent}
    (hActive : c.activeWrites txn = .ok writes) :
    (c.addWrite txn key value).1.activeWrites txn = .ok (writes ++ [⟨key, value⟩]) := by
  unfold Coordinator.activeWrites at hActive
  rcases addWrite_cases c txn key value with ⟨t, hTxn, hState, hAdd⟩ | hRefused
  · rw [hTxn] at hActive
    dsimp only at hActive
    rw [if_neg (not_not.mpr hState)] at hActive
    rw [hAdd, Coordinator.activeWrites, SortedMap.find?_insert_self]
    dsimp only
    rw [if_neg (not_not.mpr hState), Except.ok.inj hActive]
  · unfold Coordinator.addWrite at hRefused
    cases hTxn : c.transactions.find? txn with
    | none =>
      rw [hTxn] at hActive
      cases hActive
    | some t =>
      rw [hTxn] at hActive hRefused
      dsimp only at hActive hRefused
      split_ifs at hActive hRefused with hState
      cases congrArg Prod.snd hRefused

/-- The committed transaction writes the second value, as far as key and value survive the
request. -/
theorem txnCommitted_eq (h : InsertsLiterals libs sql table (pk :: val :: rest))
    {txn commit : Bytes} (hTxn : txn ≠ []) (hCommit : upperParams libs commit = ascii "COMMIT")
    (hActive : c.activeWrites txn = .ok []) (net : Net) {net' : Net}
    (hReply : ∀ m, net'.reply m = none) :
    txnCommitted libs net net' c sql commit txn s =
      (s.onePhaseCommit [⟨toValidUtf8 (rowKey table pk), some (toValidUtf8 val)⟩]
        (toValidUtf8 txn) net'.now).1 := by
  obtain ⟨columns, hPlan⟩ := h.plan
  have hBuffer : dispatch libs c.router (.plain sql txn) = .addWrite txn (rowKey table pk) val := by
    rw [dispatch_of_statement (by rw [sqlStr_plain]; exact h.1) (by rwa [sqlStr_plain])]
    exact if_neg hTxn
  have hFirst : (handle libs net c (.plain sql txn)).coordinator =
      (c.addWrite txn (rowKey table pk) val).1 ∧
      (handle libs net c (.plain sql txn)).proposals = [] := by
    unfold handle
    rw [hBuffer]
    exact ⟨rfl, rfl⟩
  have hDispatch : ∀ r, dispatch libs r (.plain commit txn) = .commit txn := by
    intro r
    rw [dispatch, sqlStr_plain, hCommit, if_neg (by decide), if_pos rfl]
    exact if_neg hTxn
  have hWrites : (c.addWrite txn (rowKey table pk) val).1.activeWrites txn =
      .ok [⟨rowKey table pk, val⟩] := activeWrites_addWrite hActive
  obtain ⟨hSent, hSpawned⟩ := commit_oneWrite hWrites net' hReply
  have hProposals : (serve libs c [(net, .plain sql txn), (net', .plain commit txn)]).2 =
      [ofMessage libs (.oneShot (c.router.locate (rowKey table pk)) [⟨rowKey table pk, val⟩] txn
        net'.now)] := by
    simp only [serve, hFirst.1, hFirst.2, List.nil_append, List.append_nil]
    rw [handle, hDispatch]
    dsimp only
    rw [hSent, hSpawned, router_addWrite]
    rfl
  rw [txnCommitted, hProposals]
  change Shard.apply libs.shard s (Shard.oneShotEntry (libs.shard.marshal _)) = _
  rw [Shard.apply, Shard.decode_oneShotEntry]
  rfl

/-- The row is read the same whether it was written outside or inside a transaction. -/
def SameRow (libs : Libs) (net₀ net₁ net₂ : Net) (c : Coordinator) (sql commit txn table pk : Bytes)
    (s : MemoryStore) : Prop :=
  executePointGet table pk (autoCommitted libs net₀ c sql s) maxUint64 =
    executePointGet table pk (txnCommitted libs net₁ net₂ c sql commit txn s) maxUint64

/-- A statement, a transaction that has just begun, and a shard that knows nothing of the row. -/
structure FreshInsert (libs : Libs) (c : Coordinator) (sql commit txn table pk val : Bytes)
    (rest : List Bytes) (net₂ : Net) (s : MemoryStore) : Prop where
  inserts : InsertsLiterals libs sql table (pk :: val :: rest)
  address : (c.router.shardAddrs.find? (c.router.getShardID (routeKey pk))).isSome = true
  inTxn : txn ≠ []
  active : c.activeWrites txn = .ok []
  commits : upperParams libs commit = ascii "COMMIT"
  reply : ∀ m, net₂.reply m = none
  noVersion : ∀ ts v, ¬ s.HasVersion (rowKey table pk) ts v
  noLock : s.locks.find? (rowKey table pk) = none

variable {commit txn : Bytes} {net₂ : Net}

/-- What is read outside a transaction. -/
theorem FreshInsert.read_auto (h : FreshInsert libs c sql commit txn table pk val rest net₂ s)
    (net : Net) :
    (Hidden s (rowKey table pk) Shard.sqlTs →
        executePointGet table pk (autoCommitted libs net c sql s) maxUint64 = .ok []) ∧
      (¬ Hidden s (rowKey table pk) Shard.sqlTs →
        executePointGet table pk (autoCommitted libs net c sql s) maxUint64 =
          .ok [[pk, (ascii ",").intercalate (pk :: val :: rest)]]) := by
  rw [autoCommitted_eq h.inserts h.address h.noLock]
  exact pointGet_of_insert (SortedMap.find?_erase_self _ _) h.noVersion rfl

/-- What is read inside a transaction, if the key is valid UTF-8. -/
theorem FreshInsert.read_txn (h : FreshInsert libs c sql commit txn table pk val rest net₂ s)
    (hValid : validUtf8 (rowKey table pk) = true) (net : Net) :
    (Hidden s (rowKey table pk) net₂.now →
        executePointGet table pk (txnCommitted libs net net₂ c sql commit txn s) maxUint64 =
          .ok []) ∧
      (¬ Hidden s (rowKey table pk) net₂.now →
        executePointGet table pk (txnCommitted libs net net₂ c sql commit txn s) maxUint64 =
          .ok [[pk, toValidUtf8 val]]) := by
  have hFree : ∀ op ∈ [(⟨rowKey table pk, some (toValidUtf8 val)⟩ : BatchOp)],
      s.FreeFor (toValidUtf8 txn) op.key := by
    intro op hop
    rw [List.mem_singleton.mp hop]
    exact MemoryStore.freeFor_of_unlocked h.noLock _
  rw [txnCommitted_eq h.inserts h.inTxn h.commits h.active net h.reply,
    toValidUtf8_eq_self_iff.mpr hValid, MemoryStore.onePhaseCommit_of_free _ hFree]
  exact pointGet_of_insert (SortedMap.find?_erase_self _ _) h.noVersion rfl

/-- A key that is not valid UTF-8 arrives as another one. -/
theorem FreshInsert.read_txn_of_invalid
    (h : FreshInsert libs c sql commit txn table pk val rest net₂ s)
    (hInvalid : validUtf8 (rowKey table pk) ≠ true) (net : Net) :
    executePointGet table pk (txnCommitted libs net net₂ c sql commit txn s) maxUint64 =
      .ok [] := by
  let call : Call := .onePhaseCommit [⟨toValidUtf8 (rowKey table pk), some (toValidUtf8 val)⟩]
    (toValidUtf8 txn) net₂.now
  have hOther : rowKey table pk ∉ call.keys := by
    intro hMem
    exact hInvalid (toValidUtf8_eq_self_iff.mp (List.mem_singleton.mp hMem).symm)
  rw [txnCommitted_eq h.inserts h.inTxn h.commits h.active net h.reply]
  refine executePointGet_of_missing ?_ fun ts v hVersion => ?_
  · exact (locks_exec_of_disjoint hOther).trans h.noLock
  · change (call.exec s).1.tree.find? _ = _ at hVersion
    rw [tree_exec] at hVersion
    rcases MemoryStore.find?_putVersions hVersion with ⟨i, hi, hEq, -⟩ | hOld
    · have hKey := key_of_mem_installs hi
      rw [← (encodeKey_inj hEq).1] at hKey
      exact hOther hKey
    · exact h.noVersion ts v hOld

/-- The row is read the same after both paths if and only if neither read returns it: a stored
version of another key hides the row that the executor wrote, and it hides the one that the
transaction wrote too unless that one was stored under another key. -/
theorem sameRow_iff (h : FreshInsert libs c sql commit txn table pk val rest net₂ s)
    (net₀ net₁ : Net) :
    SameRow libs net₀ net₁ net₂ c sql commit txn table pk s ↔
      Hidden s (rowKey table pk) Shard.sqlTs ∧
        (validUtf8 (rowKey table pk) = true → Hidden s (rowKey table pk) net₂.now) := by
  obtain ⟨hAutoHidden, hAutoSeen⟩ := h.read_auto net₀
  unfold SameRow
  by_cases hAuto : Hidden s (rowKey table pk) Shard.sqlTs
  · rw [hAutoHidden hAuto, and_iff_right hAuto]
    by_cases hValid : validUtf8 (rowKey table pk) = true
    · obtain ⟨hTxnHidden, hTxnSeen⟩ := h.read_txn hValid net₁
      by_cases hTxn : Hidden s (rowKey table pk) net₂.now
      · simp [hTxnHidden hTxn, hTxn]
      · simp [hTxnSeen hTxn, hTxn, hValid]
    · simp [h.read_txn_of_invalid hValid net₁, hValid]
  · rw [hAutoSeen hAuto]
    refine iff_of_false ?_ fun hBoth => hAuto hBoth.1
    by_cases hValid : validUtf8 (rowKey table pk) = true
    · obtain ⟨hTxnHidden, hTxnSeen⟩ := h.read_txn hValid net₁
      by_cases hTxn : Hidden s (rowKey table pk) net₂.now
      · simp [hTxnHidden hTxn]
      · rw [hTxnSeen hTxn]
        intro hEq
        -- the rows agree in the key only
        have hRows := Except.ok.inj hEq
        simp only [List.cons.injEq, and_true, true_and] at hRows
        exact joined_ne_second pk val rest hRows
    · simp [h.read_txn_of_invalid hValid net₁]

end Paths

/-- `INSERT INTO t VALUES ('k', 'v')` inside and outside a transaction. -/
theorem freshInsert_sample {s : MemoryStore}
    (hNone : ∀ ts v, ¬ s.HasVersion (rowKey (ascii "t") (ascii "k")) ts v)
    (hLock : s.locks.find? (rowKey (ascii "t") (ascii "k")) = none) :
    FreshInsert (plainLibs (insertOf [ascii "k", ascii "v"])) oneActive (ascii "INSERT")
      (ascii "COMMIT") (ascii "txn-1") (ascii "t") (ascii "k") (ascii "v") [] okNet s where
  inserts := ⟨(by decide : ascii "INSERT" ≠ ascii "BEGIN" ∧ ascii "INSERT" ≠ ascii "COMMIT" ∧
      ascii "INSERT" ≠ ascii "ROLLBACK"), [], rfl⟩
  address := by decide
  inTxn := by decide
  active := by decide
  commits := rfl
  reply _ := rfl
  noVersion := hNone
  noLock := hLock

/-- The row `k0` hides the row `k` after both paths. -/
theorem sameRow_hidden :
    SameRow (plainLibs (insertOf [ascii "k", ascii "v"])) okNet okNet okNet oneActive
      (ascii "INSERT") (ascii "COMMIT") (ascii "txn-1") (ascii "t") (ascii "k")
      (newMemoryStore.run [.put (ascii "t:k0") (some (ascii "2"))]) := by
  refine (sameRow_iff (freshInsert_sample ?_ (by decide)) okNet okNet).mpr ⟨?_, fun _ => ?_⟩
  · intro ts v hVersion
    exact absurd hVersion.eq_of_put.1 (by decide)
  · exact ⟨encodeKey (ascii "t:k0") 1, some (ascii "2"), by decide, by decide, by decide⟩
  · exact ⟨encodeKey (ascii "t:k0") 1, some (ascii "2"), by decide, by decide, by decide⟩

/-- On an empty shard the row `k` reads as `k,v` after the statement alone and as `v` after the
transaction. -/
theorem not_sameRow :
    ¬ ∀ (libs : Libs) (c : Coordinator) (sql commit txn table pk val : Bytes) (rest : List Bytes)
      (net₀ net₁ net₂ : Net) (s : MemoryStore),
      FreshInsert libs c sql commit txn table pk val rest net₂ s →
      SameRow libs net₀ net₁ net₂ c sql commit txn table pk s := by
  intro hAll
  have hEmpty : ∀ (ts : UInt64) (v : Slice),
      ¬ newMemoryStore.HasVersion (rowKey (ascii "t") (ascii "k")) ts v := by
    intro ts v hVersion
    cases hVersion
  have hSame := hAll _ _ _ _ _ _ _ _ _ okNet okNet _ _ (freshInsert_sample hEmpty rfl)
  have hSeen : ∀ ts, ¬ Hidden newMemoryStore (rowKey (ascii "t") (ascii "k")) ts := by
    rintro ts ⟨j, v, hFind, -⟩
    cases hFind
  rw [SameRow, ((freshInsert_sample hEmpty rfl).read_auto okNet).2 (hSeen _),
    ((freshInsert_sample hEmpty rfl).read_txn (by decide) okNet).2 (hSeen _)] at hSame
  exact absurd hSame (by decide)

end ShardDB.Proxy
