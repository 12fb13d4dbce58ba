import Mathlib.Logic.Function.Basic

/-!
# Inlining of common table expressions

Statements are syntax trees. Every reference to a common table expression, and to a stored
view, is replaced by its query as a derived table. The inliner looks into the places that
its functions name, the others stay as they are.
-/

namespace BlueDB.Cte

structure Ident where
  value : String
  quote : Option Char
  deriving DecidableEq

/-- A quote inside a quoted name is doubled. -/
def Ident.print (i : Ident) : String :=
  match i.quote with
  | none => i.value
  | some q => String.ofList
    (q :: (i.value.toList.flatMap fun c => if c = q then [c, c] else [c]) ++ [q])

abbrev ObjectName := List Ident

/-- `name.to_string()` -/
def ObjectName.print (name : ObjectName) : String := String.intercalate "." (name.map Ident.print)

structure TableAlias where
  name : String
  columns : List String

/-! A part of the syntax that the inliner does not look into is a list of the expressions
that stand there. The texts of a node are what is left of it without names of tables. -/

mutual

/-- A query with its WITH, which has no definitions when it is absent. After the body come
ORDER BY and the limits. -/
inductive Query
  | mk (recursive : Bool) (ctes : Ctes) (body : SetExpr) (rest : Exprs)

inductive Ctes
  | nil
  | cons (name : String) (columns : List String) (query : Query) (rest : Ctes)

inductive SetExpr
  /-- A WHERE or a HAVING that is absent has no expression. The last ones are those of
  GROUP BY, QUALIFY and so on. -/
  | select (text : String) (projection : Exprs) (tables : Tables) (selection having : Exprs)
    (rest : Exprs)
  | query (q : Query)
  | setOperation (op : String) (left right : SetExpr)
  | other (text : String) (rest : Exprs)

/-- FROM -/
inductive Tables
  | nil
  | cons (relation : TableFactor) (joins : Joins) (rest : Tables)

/-- A join with its condition. -/
inductive Joins
  | nil
  | cons (relation : TableFactor) (op : String) (condition : Exprs) (rest : Joins)

inductive TableFactor
  | table (name : ObjectName) (tableAlias : Option TableAlias)
  | derived (lateral : Bool) (subquery : Query) (tableAlias : Option TableAlias)
  | other (text : String) (tables : Tables) (rest : Exprs)

inductive Expr
  | leaf (text : String)
  | subquery (q : Query)
  | inSubquery (negated : Bool) (e : Expr) (q : Query)
  | existsQuery (negated : Bool) (q : Query)
  | binaryOp (op : String) (left right : Expr)
  | unaryOp (op : String) (e : Expr)
  | nested (e : Expr)
  | inList (negated : Bool) (e : Expr) (list : Exprs)
  | other (text : String) (rest : Exprs)

inductive Exprs
  | nil
  | cons (e : Expr) (rest : Exprs)

end

/-- The last is any statement without a query that is looked into. -/
inductive Statement
  | query (q : Query)
  | createTable (text : String) (q : Option Query)
  | insert (text : String) (source : Option Query)
  | other (text : String)

abbrev Scope := String → Option Query

def Scope.empty : Scope := fun _ => none

def Scope.insert (scope : Scope) (name : String) (body : Query) : Scope :=
  Function.update scope name (some body)

mutual

def inlineQuery (scope : Scope) : Query → Query
  -- recursive definitions stay
  | .mk true ctes body rest => .mk true ctes (subSetExpr scope body) rest
  | .mk false ctes body rest => .mk false .nil (subSetExpr (inlineCtes scope ctes) body) rest

/-- The scope after the definitions, each resolved in those before it. Their lists of
columns are not looked at. -/
def inlineCtes (scope : Scope) : Ctes → Scope
  | .nil => scope
  | .cons name _ query rest => inlineCtes (scope.insert name (inlineQuery scope query)) rest

def subSetExpr (scope : Scope) : SetExpr → SetExpr
  | .select text projection tables selection having rest =>
    .select text (subExprs scope projection) (subTables scope tables)
      (subExprs scope selection) (subExprs scope having) rest
  | .query q => .query (inlineQuery scope q)
  | .setOperation op left right => .setOperation op (subSetExpr scope left) (subSetExpr scope right)
  | .other text rest => .other text rest

def subTables (scope : Scope) : Tables → Tables
  | .nil => .nil
  | .cons relation joins rest =>
    .cons (subTableFactor scope relation) (subJoins scope joins) (subTables scope rest)

def subJoins (scope : Scope) : Joins → Joins
  | .nil => .nil
  | .cons relation op condition rest =>
    .cons (subTableFactor scope relation) op condition (subJoins scope rest)

def subTableFactor (scope : Scope) : TableFactor → TableFactor
  | .table name tableAlias => match scope name.print with
    | some body => .derived false body (some (tableAlias.getD ⟨name.print, []⟩))
    | none => .table name tableAlias
  | .derived lateral subquery tableAlias => .derived lateral (inlineQuery scope subquery) tableAlias
  | .other text tables rest => .other text tables rest

def subExpr (scope : Scope) : Expr → Expr
  | .leaf text => .leaf text
  | .subquery q => .subquery (inlineQuery scope q)
  | .inSubquery negated e q => .inSubquery negated e (inlineQuery scope q)
  | .existsQuery negated q => .existsQuery negated (inlineQuery scope q)
  | .binaryOp op left right => .binaryOp op (subExpr scope left) (subExpr scope right)
  | .unaryOp op e => .unaryOp op (subExpr scope e)
  | .nested e => .nested (subExpr scope e)
  | .inList negated e list => .inList negated (subExpr scope e) (subExprs scope list)
  | .other text rest => .other text rest

def subExprs (scope : Scope) : Exprs → Exprs
  | .nil => .nil
  | .cons e rest => .cons (subExpr scope e) (subExprs scope rest)

end

def Statement.mapQuery (f : Query → Query) : Statement → Statement
  | query q => query (f q)
  | createTable text q => createTable text (q.map f)
  | insert text source => insert text (source.map f)
  | other text => other text

def inlineCtesOf (stmts : List Statement) : List Statement :=
  stmts.map (Statement.mapQuery (inlineQuery .empty))

/-- A view is known by the query that its text parses to. -/
def inlineViews (views : Scope) (stmts : List Statement) : List Statement :=
  stmts.map (Statement.mapQuery (inlineQuery views))

end BlueDB.Cte
