import ShardDB.Sql.Parser

/-!
# The planner of the proxy

`internal/planner/planner.go`. An `INSERT` is routed by the first value of its first row. A
`SELECT` is routed by the first comparison of a column with a literal for equality that is found
in its condition, wherever it stands there; without one it goes to all shards.

`Walk` visits a node before its children and goes on to the children only if the visitor says
so. The visitor of `analyzeSelect` ends with the first key among all nodes (`walk_findKey`).
-/

namespace ShardDB.Sql

open ShardDB.Lib

/-- `Plan`, of type `PlanSingle` with a routing key or of type `PlanBroadcast`. -/
inductive Plan where
  | single (routingKey : Bytes)
  | broadcast
  deriving DecidableEq, Repr

/-! ## Walking through an expression -/

section Walk

variable {σ : Type}

/-- Go on below a node if its visitor says so. -/
def descend (visited : σ × Bool) (subtree : σ → σ) : σ :=
  if visited.2 then subtree visited.1 else visited.1

variable (visit : σ → Expr → σ × Bool)

mutual

/-- `Walk` with a visitor that keeps a state. -/
def walk (s : σ) : Expr → σ
  | .sqlVal val => descend (visit s (.sqlVal val)) id
  | .colName name => descend (visit s (.colName name)) id
  | .comparison operator left right escape =>
    descend (visit s (.comparison operator left right escape)) fun s =>
      walkAll (walk (walk s left) right) escape
  | .and left right => descend (visit s (.and left right)) fun s => walk (walk s left) right
  | .or left right => descend (visit s (.or left right)) fun s => walk (walk s left) right
  | .not expr => descend (visit s (.not expr)) fun s => walk s expr
  | .paren expr => descend (visit s (.paren expr)) fun s => walk s expr
  | .other children => descend (visit s (.other children)) fun s => walkAll s children

def walkAll (s : σ) : List Expr → σ
  | [] => s
  | expr :: rest => walkAll (walk s expr) rest

end

end Walk

/-- The visitor of `analyzeSelect`: the state is the key, once found. -/
def findKey (found : Option Bytes) (node : Expr) : Option Bytes × Bool :=
  match found with
  | some key => (some key, false)
  | none =>
    match node.keyEquality? with
    | some val => (some val, false)
    | none => (none, true)

mutual

/-- The nodes of an expression, parents first. -/
def Expr.nodes : Expr → List Expr
  | .sqlVal val => [.sqlVal val]
  | .colName name => [.colName name]
  | .comparison operator left right escape =>
    .comparison operator left right escape :: (left.nodes ++ (right.nodes ++ nodesAll escape))
  | .and left right => .and left right :: (left.nodes ++ right.nodes)
  | .or left right => .or left right :: (left.nodes ++ right.nodes)
  | .not expr => .not expr :: expr.nodes
  | .paren expr => .paren expr :: expr.nodes
  | .other children => .other children :: nodesAll children

def nodesAll : List Expr → List Expr
  | [] => []
  | expr :: rest => expr.nodes ++ nodesAll rest

end

/-- The first key among some nodes. -/
def firstKey (nodes : List Expr) : Option Bytes := nodes.findSome? Expr.keyEquality?

theorem firstKey_cons (node : Expr) (nodes : List Expr) :
    firstKey (node :: nodes) = node.keyEquality?.or (firstKey nodes) := by
  rw [firstKey, List.findSome?_cons]
  cases node.keyEquality? <;> rfl

theorem firstKey_append (nodes nodes' : List Expr) :
    firstKey (nodes ++ nodes') = (firstKey nodes).or (firstKey nodes') := List.findSome?_append

/-- The visitor goes on below a node only if nothing has been found yet. -/
theorem descend_findKey (found : Option Bytes) (node : Expr)
    (subtree : Option Bytes → Option Bytes) :
    descend (findKey found node) subtree = found.or (node.keyEquality?.or (subtree none)) := by
  cases found with
  | some key => rfl
  | none => cases h : node.keyEquality? <;> simp [descend, findKey, h]

mutual

/-- The visitor ends with the first key of the expression, parents first. -/
theorem walk_findKey (found : Option Bytes) :
    ∀ expr : Expr, walk findKey found expr = found.or (firstKey expr.nodes)
  | .sqlVal val => by
    rw [walk, descend_findKey, Expr.nodes, firstKey_cons]
    rfl
  | .colName name => by
    rw [walk, descend_findKey, Expr.nodes, firstKey_cons]
    rfl
  | .comparison operator left right escape => by
    rw [walk, descend_findKey, walk_findKey none left, walk_findKey _ right,
      walkAll_findKey _ escape, Expr.nodes, firstKey_cons, firstKey_append, firstKey_append,
      Option.none_or, Option.or_assoc]
  | .and left right => by
    rw [walk, descend_findKey, walk_findKey none left, walk_findKey _ right, Expr.nodes,
      firstKey_cons, firstKey_append, Option.none_or]
  | .or left right => by
    rw [walk, descend_findKey, walk_findKey none left, walk_findKey _ right, Expr.nodes,
      firstKey_cons, firstKey_append, Option.none_or]
  | .not expr => by
    rw [walk, descend_findKey, walk_findKey none expr, Expr.nodes, firstKey_cons, Option.none_or]
  | .paren expr => by
    rw [walk, descend_findKey, walk_findKey none expr, Expr.nodes, firstKey_cons, Option.none_or]
  | .other children => by
    rw [walk, descend_findKey, walkAll_findKey none children, Expr.nodes, firstKey_cons,
      Option.none_or]

theorem walkAll_findKey (found : Option Bytes) :
    ∀ exprs : List Expr, walkAll findKey found exprs = found.or (firstKey (nodesAll exprs))
  | [] => by simp [walkAll, nodesAll, firstKey]
  | expr :: rest => by
    rw [walkAll, walk_findKey found expr, walkAll_findKey _ rest, nodesAll, firstKey_append,
      Option.or_assoc]

end

/-! ## The planner -/

variable (parser : SqlParser)

/-- `analyzeInsert`. -/
def analyzeInsert (stmt : Insert) : Except Bytes Plan :=
  match stmt.rows with
  | .select => .error (ascii "insert without values not supported")
  | .values [] => .error (ascii "insert without values not supported")
  | .values ([] :: _) => .error (ascii "empty row")
  | .values ((expr :: _) :: _) => .ok (.single (valueBytes parser expr))

/-- `analyzeSelect`. -/
def analyzeSelect (stmt : Select) : Plan :=
  match stmt.whereExpr with
  | none => .broadcast
  | some expr =>
    match walk findKey none expr with
    | some key => .single key
    | none => .broadcast

/-- A condition that is itself an equality with a literal decides alone. -/
theorem analyzeSelect_of_keyEquality {stmt : Select} {expr : Expr} {key : Bytes}
    (hWhere : stmt.whereExpr = some expr) (hKey : expr.keyEquality? = some key) :
    analyzeSelect stmt = .single key := by
  have hFirst : firstKey expr.nodes = some key := by
    cases expr <;> first
      | cases hKey
      | rw [Expr.nodes, firstKey_cons, hKey, Option.some_or]
  simp [analyzeSelect, hWhere, walk_findKey, hFirst]

/-- `Analyze`. -/
def analyze (sql : Bytes) : Except Bytes Plan :=
  match parser.parse sql with
  | .error err => .error (ascii "parse error: " ++ err)
  | .ok (.select stmt) => .ok (analyzeSelect stmt)
  | .ok (.insert stmt) => analyzeInsert parser stmt
  | .ok (.other _) => .ok (.single (ascii "default"))

end ShardDB.Sql
