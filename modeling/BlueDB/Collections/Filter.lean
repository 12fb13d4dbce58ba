import BlueDB.Collections.Json
import BlueDB.Lib.Trivalent

/-!
# Filters

A filter is a condition over comparisons of a path with a value. It is lowered to SQL,
where a path is read from the document or from an index column, and to an expression of
the analytical engine. Both are conditions with three values over the rows.
-/

namespace BlueDB.Collections

open Formula (Truth)

variable {F : Type}

inductive Cmp
  | eq
  | ne
  | gt
  | gte
  | lt
  | lte
  | isIn
  | nin
  | exists_
  | regex
  deriving DecidableEq

structure Comparison (F : Type) where
  path : String
  op : Cmp
  value : Json F

abbrev Filter (F : Type) := Formula (Comparison F)

/-- The expression on the left of a comparison. -/
inductive Operand
  | id
  /-- `(doc->'a'->>'b')` -/
  | arrows (keys : List String)
  /-- `json_get_str(doc, 'a.b')` -/
  | getStr (key : String)
  /-- `CAST(... AS DOUBLE)` -/
  | cast (o : Operand)
  | column (name : String)

inductive Relation
  | eq
  | ne
  | gt
  | gte
  | lt
  | lte

/-- A predicate without connectives. `blank` is no text at all, and `emptyList` is
`IN ()`, or `NOT IN ()`. -/
inductive Atom (F : Type)
  | blank
  | relate (o : Operand) (rel : Relation) (literal : Scalar F)
  | isNull (o : Operand) (negated : Bool)
  | inList (o : Operand) (literals : List (Scalar F)) (negated : Bool)
  | emptyList (o : Operand) (negated : Bool)
  | regex (o : Operand) (pattern : Scalar F)

abbrev Predicate (F : Type) := Formula (Atom F)

def sortAccessor (path : String) : Operand :=
  if path = "_id" then .id else .arrows (segments path)

def isNumber : Json F → Bool
  | .number _ => true
  | _ => false

def isNumeric : Json F → Bool
  | .number _ => true
  | .array items => !items.isEmpty && items.all isNumber
  | _ => false

def Json.asArray : Json F → Option (List (Json F))
  | .array items => some items
  | _ => none

def Json.asBool : Json F → Option Bool
  | .bool b => some b
  | _ => none

section

variable [Doubles F]

/-- A bound parameter. -/
def jsonToScalar : Json F → Scalar F
  | .null => .null
  | .bool b => .bool b
  | .number n =>
    match n.asI64 with
    | some i => .int i
    | none => .double n.asF64
  | .string s => .text s
  | v => .text v.write

/-- A literal of the analytical engine: a null is its JSON text. -/
def jsonToLit : Json F → Scalar F
  | .string s => .text s
  | .bool b => .bool b
  | .number n =>
    match n.asI64 with
    | some i => .int i
    | none => .double n.asF64
  | .null => .text (Json.null : Json F).write
  | v => .text v.write

def relationSql (o : Operand) (rel : Relation) (value : Json F) : Predicate F :=
  .atom (.relate o rel (jsonToScalar value))

def inSql (o : Operand) (value : Json F) (negated : Bool) : Predicate F :=
  let items := value.asArray.getD []
  if items.isEmpty then .atom (.emptyList o negated)
  else .atom (.inList o (items.map jsonToScalar) negated)

/-- The comparison of an operand, for the accessor and for an index column alike. -/
def cmpSqlCol (o : Operand) (op : Cmp) (value : Json F) : Predicate F :=
  match op with
  | .eq => relationSql o .eq value
  | .ne => .any [relationSql o .ne value, .atom (.isNull o false)]
  | .gt => relationSql o .gt value
  | .gte => relationSql o .gte value
  | .lt => relationSql o .lt value
  | .lte => relationSql o .lte value
  | .isIn => inSql o value false
  | .nin => .any [inSql o value true, .atom (.isNull o false)]
  | .exists_ => .atom (.isNull o (value.asBool.getD true))
  | .regex => .atom (.regex o (jsonToScalar value))

def cmpOperand (path : String) (value : Json F) : Operand :=
  if path ≠ "_id" ∧ isNumeric value = true then .cast (sortAccessor path) else sortAccessor path

def cmpSql (c : Comparison F) : Predicate F :=
  cmpSqlCol (cmpOperand c.path c.value) c.op c.value

/-- The joined text of an empty list is blank. -/
def toSql (f : Filter F) : Predicate F := Formula.lower (.atom .blank) cmpSql f

def valueMatchesType (v : Json F) : IndexType → Bool
  | .number => isWholeNumber v
  | .bool => v.asBool.isSome
  | .text => match v with
    | .string _ => true
    | _ => false

def useIndex (op : Cmp) (value : Json F) (t : IndexType) : Bool :=
  match op with
  | .exists_ => true
  | .isIn | .nin =>
    match value.asArray with
    | some items => !items.isEmpty && items.all fun v => valueMatchesType v t
    | none => false
  | _ => valueMatchesType value t

def asInt : Json F → Json F
  | .number (.float f) =>
    match h : wholeI64 f with
    | some i => .number (.int i (wholeI64_range h))
    | none => .number (.float f)
  | v => v

/-- Whole floats are compared as integers. -/
def canonicalizeNumberForIndex (op : Cmp) (value : Json F) : Json F :=
  match op with
  | .isIn | .nin =>
    match value with
    | .array items => .array (items.map asInt)
    | v => v
  | _ => asInt value

/-- A single-field index: its column is named after the path. -/
structure Index where
  path : String
  type : IndexType

def columnIndex (indexes : List Index) (path : String) : Option Index :=
  indexes.find? fun ix => derivedCol ix.path = derivedCol path

def servingIndex (indexes : List Index) (c : Comparison F) : Option Index :=
  if c.path = "_id" then none
  else (columnIndex indexes c.path).filter fun ix => useIndex c.op c.value ix.type

def columnValue (c : Comparison F) (t : IndexType) : Json F :=
  if t = .number then canonicalizeNumberForIndex c.op c.value else c.value

def cmpSqlIndexed (indexes : List Index) (c : Comparison F) : Predicate F :=
  match servingIndex indexes c with
  | some ix => cmpSqlCol (.column (derivedCol c.path)) c.op (columnValue c ix.type)
  | none => cmpSql c

def pathExpr (path : String) : Operand := if path = "_id" then .id else .getStr path

def pathExprFor (path : String) (value : Json F) : Operand :=
  if path ≠ "_id" ∧ isNumeric value = true then .cast (pathExpr path) else pathExpr path

def inDf (o : Operand) (value : Json F) (negated : Bool) : Predicate F :=
  .atom (.inList o ((value.asArray.getD []).map jsonToLit) negated)

/-- A pattern is refused. -/
def cmpDfExpr (c : Comparison F) : Option (Predicate F) :=
  let o := pathExprFor c.path c.value
  match c.op with
  | .eq => some (.atom (.relate o .eq (jsonToLit c.value)))
  | .ne => some (.atom (.relate o .ne (jsonToLit c.value)))
  | .gt => some (.atom (.relate o .gt (jsonToLit c.value)))
  | .gte => some (.atom (.relate o .gte (jsonToLit c.value)))
  | .lt => some (.atom (.relate o .lt (jsonToLit c.value)))
  | .lte => some (.atom (.relate o .lte (jsonToLit c.value)))
  | .isIn => some (inDf o c.value false)
  | .nin => some (inDf o c.value true)
  | .exists_ => some (.atom (.isNull (pathExpr c.path) (c.value.asBool.getD true)))
  | .regex => none

end

inductive Kind
  | null
  | text
  | int
  | double
  | bool
  deriving DecidableEq

def Kind.isNumber : Kind → Bool
  | .int => true
  | .double => true
  | _ => false

def Scalar.kind : Scalar F → Kind
  | .null => .null
  | .text _ => .text
  | .int _ => .int
  | .double _ => .double
  | .bool _ => .bool

def IndexType.kind : IndexType → Kind
  | .number => .int
  | .bool => .bool
  | .text => .text

/-- A query that is refused, or that fails on a row. -/
inductive Failure
  | malformed
  | types
  | cast
  | pattern
  deriving DecidableEq

/-- What is left to the engine: which texts are numbers, which values of different kinds
it compares and how, the empty list, and patterns. -/
structure Engine (F : Type) where
  castDouble : String → Option F
  accepts : Kind → Kind → Bool
  mixed : Scalar F → Scalar F → Ordering
  acceptsEmptyList : Bool
  isMatch : String → String → Except Failure Bool

structure Row (F : Type) where
  id : String
  doc : Json F

def Relation.test : Relation → Ordering → Bool
  | .eq, o => o == .eq
  | .ne, o => o != .eq
  | .gt, o => o == .gt
  | .gte, o => o != .lt
  | .lt, o => o == .lt
  | .lte, o => o != .gt

namespace Engine

variable [Doubles F]

def comparable (e : Engine F) (k k' : Kind) : Bool :=
  k == k' || k.isNumber && k'.isNumber || k == .null || k' == .null || e.accepts k k'

/-- Values of one kind are compared as such, and numbers as floats. -/
def order (e : Engine F) : Scalar F → Scalar F → Ordering
  | .text s, .text t => compare s t
  | .int i, .int j => compare i j
  | .int i, .double g => compare (Doubles.ofInt i) g
  | .double f, .int j => compare f (Doubles.ofInt j)
  | .double f, .double g => compare f g
  | .bool a, .bool b => compare a b
  | x, y => e.mixed x y

/-- A comparison with NULL is unknown. -/
def relate (e : Engine F) (x : Scalar F) (rel : Relation) (y : Scalar F) : Truth :=
  match x, y with
  | .null, _ => none
  | _, .null => none
  | x, y => some (rel.test (e.order x y))

def isIn (e : Engine F) (x : Scalar F) (ys : List (Scalar F)) : Truth :=
  ys.foldr (fun y t => (e.relate x .eq y).or t) (some false)

def value (e : Engine F) (indexes : List Index) (r : Row F) : Operand → Except Failure (Scalar F)
  | .id => .ok (.text r.id)
  | .arrows keys =>
    .ok (match keys.foldlM (fun v key => v.get key) r.doc with
      | some v => .text v.render
      | none => .null)
  | .getStr key =>
    .ok (match r.doc.get key with
      | some v => .text v.render
      | none => .null)
  | .cast o => do
    match ← e.value indexes r o with
    | .null => return .null
    | .text s =>
      match e.castDouble s with
      | some f => return .double f
      | none => throw .cast
    | _ => throw .types
  | .column name =>
    match indexes.find? fun ix => derivedCol ix.path = name with
    | some ix => .ok (cell r.doc ix.path ix.type)
    | none => throw .types

def kind (indexes : List Index) : Operand → Kind
  | .cast _ => .double
  | .column name =>
    match indexes.find? fun ix => derivedCol ix.path = name with
    | some ix => ix.type.kind
    | none => .null
  | _ => .text

def evalAtom (e : Engine F) (indexes : List Index) (r : Row F) : Atom F → Except Failure Truth
  | .blank => throw .malformed
  | .relate o rel y =>
    if e.comparable (kind indexes o) y.kind then do
      let x ← e.value indexes r o
      return e.relate x rel y
    else throw .types
  | .isNull o negated => do
    let x ← e.value indexes r o
    return some ((x.kind == .null) != negated)
  | .inList o ys negated =>
    if ys.all fun y => e.comparable (kind indexes o) y.kind then do
      let x ← e.value indexes r o
      return if negated then (e.isIn x ys).not else e.isIn x ys
    else throw .types
  | .emptyList o negated =>
    if e.acceptsEmptyList then do
      let _ ← e.value indexes r o
      return some negated
    else throw .malformed
  | .regex o pattern =>
    if kind indexes o = .text then
      match pattern with
      | .text p => do
        match ← e.value indexes r o with
        | .text s => return some (← e.isMatch s p)
        | _ => return none
      | _ => throw .types
    else throw .types

def selects (e : Engine F) (indexes : List Index) (r : Row F) (p : Predicate F) :
    Except Failure Bool :=
  Formula.selected (Formula.eval (e.evalAtom indexes r) p)

end Engine

end BlueDB.Collections
