import ShardDB.Lib.Decimal
import ShardDB.Storage.Reads

/-!
# Plans and their execution

The plan nodes of `internal/sql/plan.go` and the executor of `internal/sql/executor.go`. An
insert is the only plan that changes the store: it prepares and commits one key under a
transaction id made from the timestamp it is given. Every other plan reads. The rows of a
result are lists of strings; a nil result and an empty one are not told apart.
-/

namespace ShardDB.Sql

open ShardDB.Lib ShardDB.Storage

/-- `PlanNode`. -/
inductive PlanNode where
  | scan (table : Bytes)
  | pointGet (table key : Bytes)
  | insert (table : Bytes) (columns values : List Bytes)
  | project (input : PlanNode) (columns : List Bytes)
  | filter (input : PlanNode) (expr : Bytes)
  deriving DecidableEq, Repr

/-- The Go type of a node, as `%T` prints it. -/
def PlanNode.typeName : PlanNode → Bytes
  | scan _ => ascii "*sql.ScanNode"
  | pointGet _ _ => ascii "*sql.PointGetNode"
  | insert _ _ _ => ascii "*sql.InsertNode"
  | project _ _ => ascii "*sql.ProjectNode"
  | filter _ _ => ascii "*sql.FilterNode"

abbrev Row := List Bytes

/-- The user key of a row. -/
def rowKey (table pk : Bytes) : Bytes := table ++ ascii ":" ++ pk

/-- The transaction id of an insert. -/
def autoTxn (commitTs : UInt64) : Bytes := ascii "auto-" ++ decimal commitTs.toNat

/-- `executeInsert`. The first value is the primary key; the stored value is all values
joined by commas. -/
def executeInsert (table : Bytes) (values : List Bytes) (engine : MemoryStore)
    (commitTs : UInt64) : MemoryStore × Except Bytes (List Row) :=
  match values with
  | [] => (engine, .ok [])
  | pk :: _ =>
    let valStr := (ascii ",").intercalate values
    let userKey := rowKey table pk
    let txnID := autoTxn commitTs
    match engine.prepare userKey (some valStr) txnID with
    | (engine, some err) => (engine, .error err)
    | (engine, none) =>
      match engine.commit userKey txnID commitTs with
      | (engine, some err) => (engine, .error err)
      | (engine, none) => (engine, .ok [[ascii "Inserted 1 row"]])

/-- `executePointGet`. -/
def executePointGet (table key : Bytes) (engine : MemoryStore) (readTs : UInt64) :
    Except Bytes (List Row) := do
  match ← engine.getTxn (rowKey table key) readTs with
  | none => return []
  | some val => return [[key, val]]

/-- One call of the callback of `executeScan`, on the rows and the keys seen so far. -/
def scanItem (table : Bytes) (readTs : UInt64) (acc : List Row × List Bytes) (k : Bytes)
    (v : Slice) : (List Row × List Bytes) × Bool :=
  let (decodedKey, decodedTs) := decodeKey k
  if !(table ++ ascii ":").isPrefixOf decodedKey then (acc, true)
  else if decodedKey ∈ acc.2 then (acc, true)
  else if decodedTs ≤ readTs then
    -- the part after the first colon; there is one, the prefix ends with it
    let realKey := (decodedKey.dropWhile (· ≠ 58)).drop 1
    ((acc.1 ++ [[realKey, v.getD []]], decodedKey :: acc.2), true)
  else (acc, true)

/-- `executeScan`. -/
def executeScan (table : Bytes) (engine : MemoryStore) (readTs : UInt64) : List Row :=
  let start := table ++ ascii ":"
  (engine.scan (some start) (some (start ++ [0xFF])) (scanItem table readTs) ([], [])).1

/-- `executeAny`, with `executeFilter` and `executeProject`: both hand on the rows of their
one child. -/
def executeAny (engine : MemoryStore) (readTs : UInt64) : PlanNode → Except Bytes (List Row)
  | .scan table => .ok (executeScan table engine readTs)
  | .filter input _ => executeAny engine readTs input
  | .project input _ => executeAny engine readTs input
  | .pointGet table key => executePointGet table key engine readTs
  | plan => .error (ascii "unknown node type: " ++ plan.typeName)

/-- `Execute`. -/
def execute (plan : PlanNode) (engine : MemoryStore) (readTs : UInt64) :
    MemoryStore × Except Bytes (List Row) :=
  match plan with
  | .insert table _ values => executeInsert table values engine readTs
  | .pointGet table key => (engine, executePointGet table key engine readTs)
  | .project input _ => (engine, executeAny engine readTs input)
  | plan => (engine, .error (ascii "unsupported plan node: " ++ plan.typeName))

/-! ## What a plan does to the store -/

/-- The engine calls of a plan. -/
def PlanNode.calls (ts : UInt64) : PlanNode → List Call
  | .insert table _ (pk :: values) =>
    [.prepare (rowKey table pk) (some ((ascii ",").intercalate (pk :: values))) (autoTxn ts),
      .commit (rowKey table pk) (autoTxn ts) ts]
  | _ => []

/-- A plan leaves the store as a run of its calls does. When the prepare fails the commit is
not called; it would fail as well, since the lock belongs to another transaction. -/
theorem execute_eq_run (plan : PlanNode) (s : MemoryStore) (ts : UInt64) :
    (execute plan s ts).1 = s.run (plan.calls ts) := by
  cases plan with
  | scan table => rfl
  | pointGet table key => rfl
  | project input columns => rfl
  | filter input expr => rfl
  | insert table columns values =>
    cases values with
    | nil => rfl
    | cons pk values =>
      have hCommit : ∀ s : MemoryStore, (match s.commit (rowKey table pk) (autoTxn ts) ts with
          | (engine, some err) => (engine, Except.error err)
          | (engine, none) => (engine, Except.ok [[ascii "Inserted 1 row"]])).1 =
          (s.commit (rowKey table pk) (autoTxn ts) ts).1 := by
        intro s
        split <;> simp_all
      simp only [execute, executeInsert, PlanNode.calls, MemoryStore.run, List.foldl_cons,
        List.foldl_nil, Call.exec]
      by_cases hFree : s.FreeFor (autoTxn ts) (rowKey table pk)
      · rw [MemoryStore.prepare_of_free _ hFree]
        exact hCommit _
      · have hNone : s.intent? (autoTxn ts) (rowKey table pk) = none :=
          Option.eq_none_iff_forall_not_mem.mpr fun v hv => hFree (MemoryStore.freeFor_of_intent? hv)
        obtain ⟨hSame, hErr⟩ := MemoryStore.prepare_of_not_free
          (some ((ascii ",").intercalate (pk :: values))) hFree
        rw [hSame, (MemoryStore.commit_of_no_intent ts hNone).1]
        generalize s.prepare (rowKey table pk) (some ((ascii ",").intercalate (pk :: values)))
          (autoTxn ts) = r at hSame hErr
        obtain ⟨s', err⟩ := r
        cases err with
        | none => exact absurd rfl hErr
        | some err => exact hSame

end ShardDB.Sql
