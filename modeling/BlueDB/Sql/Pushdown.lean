import Mathlib.Tactic

/-!
# Equi-join pushdown

The planner moves the equalities of a WHERE that join two tables to the INNER join that
brings in the later of them, and refuses a statement that still joins on TRUE. Names and
aliases of the tables share one map, and a dictionary is not in it.
-/

namespace BlueDB.Pushdown

variable {X S : Type}

inductive BinaryOperator
  | and
  | eq
  | other (symbol : String)
  deriving DecidableEq

/-- An expression; `other` is one of a form that the pass leaves alone. -/
inductive Expr (X : Type)
  | identifier (name : String)
  | compoundIdentifier (table ident : String)
  | nested (e : Expr X)
  | bool (b : Bool)
  | binaryOp (left : Expr X) (op : BinaryOperator) (right : Expr X)
  | other (x : X)

inductive TableFactor (S : Type)
  | table (name : String) (aliasName : Option String)
  | derived (subquery : S) (aliasName : String)
  | series (size : S) (aliasName : String)
  | dictionary (dict : S) (aliasName : String)

inductive JoinConstraint (X : Type)
  | on (e : Expr X)
  | none

inductive JoinOperator (X : Type)
  | inner (c : JoinConstraint X)
  | leftOuter (c : JoinConstraint X)

structure Join (X S : Type) where
  relation : TableFactor S
  operator : JoinOperator X

structure Select (X S : Type) where
  relation : TableFactor S
  joins : List (Join X S)
  selection : Option (Expr X)

inductive SetExpr (X S : Type)
  | select (s : Select X S)
  | other

inductive Statement (X S : Type)
  | query (body : SetExpr X S)
  | other

structure Schema where
  columnDefs : Option (List String)

abbrev SchemaMap := String → Option Schema

/-- The tables in their order, the base relation first. -/
def Select.factors (s : Select X S) : List (TableFactor S) :=
  s.relation :: s.joins.map Join.relation

/-- `tablePos` is a map: an entry hides those of its key that were made before it. -/
structure Registered where
  tablePos : List (String × ℕ)
  tables : List (String × ℕ)

def registerTable (t : Registered) (pos : ℕ) : TableFactor S → Registered
  | .table name none => ⟨(name, pos) :: t.tablePos, t.tables ++ [(name, pos)]⟩
  | .table name (some aliasName) =>
    ⟨(aliasName, pos) :: (name, pos) :: t.tablePos, t.tables ++ [(name, pos)]⟩
  | .derived _ aliasName => ⟨(aliasName, pos) :: t.tablePos, t.tables⟩
  | .series _ aliasName => ⟨(aliasName, pos) :: t.tablePos, t.tables⟩
  | .dictionary _ _ => t

def registerTables (t : Registered) (pos : ℕ) : List (TableFactor S) → Registered
  | [] => t
  | factor :: factors => registerTables (registerTable t pos factor) (pos + 1) factors

def Select.registered (s : Select X S) : Registered := registerTables ⟨[], []⟩ 0 s.factors

def columnPositions (schemaMap : SchemaMap) (tables : List (String × ℕ)) : List (String × ℕ) :=
  tables.flatMap fun (table, pos) =>
    (((schemaMap table).bind Schema.columnDefs).getD []).map fun column => (column, pos)

/-- Only names that occur once have a position. -/
def buildColumnIndex (schemaMap : SchemaMap) (tables : List (String × ℕ)) (column : String) :
    Option ℕ :=
  match (columnPositions schemaMap tables).filter (·.1 == column) with
  | [(_, pos)] => some pos
  | _ => none

def colPosition (tablePos : List (String × ℕ)) (colPos : String → Option ℕ) : Expr X → Option ℕ
  | .identifier col => colPos col
  | .compoundIdentifier table _ => tablePos.lookup table
  | .nested inner => colPosition tablePos colPos inner
  | _ => none

def unnest : Expr X → Expr X
  | .nested inner => unnest inner
  | e => e

def splitAnd : Expr X → List (Expr X)
  | .binaryOp left .and right => splitAnd left ++ splitAnd right
  | e => [e]

def combineAnd : List (Expr X) → Option (Expr X)
  | [] => none
  | first :: rest => some (rest.foldl (fun acc e => .binaryOp acc .and e) first)

/-- The join that an equality of columns of two tables belongs to. -/
def equijoinTarget (tablePos : List (String × ℕ)) (colPos : String → Option ℕ)
    (conjunct : Expr X) : Option (ℕ × Expr X) :=
  match unnest conjunct with
  | .binaryOp left .eq right => do
    let p ← colPosition tablePos colPos left
    let q ← colPosition tablePos colPos right
    if p ≠ q then some (max p q - 1, .binaryOp left .eq right) else none
  | _ => none

def Join.isInner (j : Join X S) : Bool :=
  match j.operator with
  | .inner _ => true
  | .leftOuter _ => false

def mergeIntoOn (j : Join X S) (added : Expr X) : Join X S :=
  match j.operator with
  | .inner (.on e) => { j with operator := .inner (.on (.binaryOp e .and added)) }
  | .inner .none => { j with operator := .inner (.on added) }
  | .leftOuter _ => j

/-- The join that a conjunct of the WHERE is moved to, and the equality that is put there. -/
def Select.target (schemaMap : SchemaMap) (s : Select X S) (conjunct : Expr X) :
    Option (ℕ × Expr X) :=
  (equijoinTarget s.registered.tablePos (buildColumnIndex schemaMap s.registered.tables)
    conjunct).filter fun t => (s.joins[t.1]?).any Join.isInner

def rewriteSelect (schemaMap : SchemaMap) (s : Select X S) : Select X S :=
  if s.joins.isEmpty then s
  else
    match s.selection with
    | none => s
    | some selection =>
      let conjuncts := splitAnd selection
      let residual := conjuncts.filter fun c => (s.target schemaMap c).isNone
      let toOn := conjuncts.filterMap (s.target schemaMap)
      { s with
        joins := s.joins.mapIdx fun i j =>
          match combineAnd ((toOn.filter (·.1 == i)).map Prod.snd) with
          | some added => mergeIntoOn j added
          | none => j
        selection := combineAnd residual }

def pushdownEquijoins (schemaMap : SchemaMap) : Statement X S → Statement X S
  | .query (.select s) => .query (.select (rewriteSelect schemaMap s))
  | statement => statement

def isTriviallyTrue : Expr X → Bool
  | .bool true => true
  | .nested inner => isTriviallyTrue inner
  | _ => false

/-- Whether the join is refused. -/
def Join.isCrossProduct (j : Join X S) : Bool :=
  match j.operator with
  | .inner (.on e) => isTriviallyTrue e
  | _ => false

inductive GlueError
  | crossProduct
  deriving DecidableEq

def rejectCrossProducts : Statement X S → Except GlueError Unit
  | .query (.select s) => if s.joins.any Join.isCrossProduct then throw .crossProduct else return ()
  | _ => return ()

end BlueDB.Pushdown
