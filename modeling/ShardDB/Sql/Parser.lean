import ShardDB.Sql.Executor

/-!
# Statements and their plans

`internal/sql/parser.go` on the syntax trees of the `sqlparser` library. What the library does
with a text is left open (`SqlParser`); its trees are kept as far as the parser and the planner
look at them. A table and a column stand for their printed text.

Of a statement only the first table, the first row of values and one shape of condition are
looked at: a column compared with a literal for equality becomes a point lookup, whatever the
column is.
-/

namespace ShardDB.Sql

open ShardDB.Lib

/-! ## Syntax trees -/

/-- The operator of a comparison. -/
inductive Operator where
  | equal
  | other (text : Bytes)
  deriving DecidableEq

/-- An expression. A comparison with `LIKE` may have an escape expression, and `other` is any
further node with its children. -/
inductive Expr where
  | sqlVal (val : Bytes)
  | colName (name : Bytes)
  | comparison (operator : Operator) (left right : Expr) (escape : List Expr)
  | and (left right : Expr)
  | or (left right : Expr)
  | not (expr : Expr)
  | paren (expr : Expr)
  | other (children : List Expr)

inductive TableExpr where
  | aliased (expr : Bytes)
  | complex

inductive SelectExpr where
  | aliased (expr : Expr)
  | star
  | nextval

structure Select where
  selectExprs : List SelectExpr
  fromExprs : List TableExpr
  whereExpr : Option Expr

/-- The rows of an `INSERT`. -/
inductive InsertRows where
  | values (rows : List (List Expr))
  | select

structure Insert where
  table : Bytes
  columns : List Bytes
  rows : InsertRows

/-- A statement; one of another kind stands for the name of its Go type. -/
inductive Statement where
  | select (stmt : Select)
  | insert (stmt : Insert)
  | other (typeName : Bytes)

/-- The `sqlparser` library: `Parse`, and `String` on expressions. -/
structure SqlParser where
  parse : Bytes → Except Bytes Statement
  string : Expr → Bytes

/-! ## Plans -/

/-- The literal of a condition `column = literal`. -/
def Expr.keyEquality? : Expr → Option Bytes
  | comparison .equal (colName _) (sqlVal val) _ => some val
  | _ => none

variable (parser : SqlParser)

/-- The columns of a projection. -/
def selectColumns (exprs : List SelectExpr) : List Bytes :=
  exprs.filterMap fun
    | .aliased expr => some (parser.string expr)
    | .star => some (ascii "*")
    | .nextval => none

/-- `buildSelectPlan`. -/
def buildSelectPlan (stmt : Select) : Except Bytes PlanNode :=
  match stmt.fromExprs with
  | [] => .error (ascii "SELECT without FROM is not supported")
  | .complex :: _ => .error (ascii "complex FROM clauses not supported")
  | .aliased table :: _ =>
    match stmt.whereExpr with
    | none => .ok (.project (.scan table) (selectColumns parser stmt.selectExprs))
    | some expr =>
      match expr.keyEquality? with
      | some key => .ok (.pointGet table key)
      | none =>
        .ok (.project (.filter (.scan table) (parser.string expr))
          (selectColumns parser stmt.selectExprs))

/-- The bytes of a value: a literal is taken without its quotes. -/
def valueBytes : Expr → Bytes
  | .sqlVal val => val
  | expr => parser.string expr

/-- `buildInsertPlan`. -/
def buildInsertPlan (stmt : Insert) : Except Bytes PlanNode :=
  match stmt.rows with
  | .select => .error (ascii "INSERT from SELECT not supported")
  | .values [] => .ok (.insert stmt.table stmt.columns [])
  | .values (row :: _) => .ok (.insert stmt.table stmt.columns (row.map (valueBytes parser)))

/-- `ParseToPlan`. -/
def parseToPlan (sql : Bytes) : Except Bytes PlanNode :=
  match parser.parse sql with
  | .error err => .error err
  | .ok (.select stmt) => buildSelectPlan parser stmt
  | .ok (.insert stmt) => buildInsertPlan parser stmt
  | .ok (.other typeName) => .error (ascii "unsupported statement type: " ++ typeName)

/-! ## What the plans of statements are -/

/-- A plan that only reads: what `buildSelectPlan` makes. -/
def PlanNode.ReadOnly : PlanNode → Prop
  | .insert _ _ _ => False
  | _ => True

variable {parser}

theorem readOnly_of_buildSelectPlan {stmt : Select} {plan : PlanNode}
    (h : buildSelectPlan parser stmt = .ok plan) : plan.ReadOnly := by
  unfold buildSelectPlan at h
  split at h
  · cases h
  · cases h
  · split at h
    · cases h
      trivial
    · split at h
      · cases h
        trivial
      · cases h
        trivial

/-- A plan without writes makes no call. -/
theorem PlanNode.ReadOnly.calls {plan : PlanNode} (h : plan.ReadOnly) (ts : UInt64) :
    plan.calls ts = [] := by
  cases plan with
  | insert table columns values => exact h.elim
  | _ => rfl

end ShardDB.Sql
