import BlueDB.Sql.Pushdown

/-!
# The read guardrail

A SELECT from one table passes when a conjunct of its WHERE is served by the primary key or
an index, and without a WHERE it gets a LIMIT. What is taken for a column, for a bound and
for a bounded read is compared with what a served conjunct and a bounded read are.
-/

namespace BlueDB.Guardrail

open Pushdown (TableFactor)

variable {D S J R : Type}

inductive BinaryOperator
  | and
  | or
  | eq
  | lt
  | gt
  | ltEq
  | gtEq
  | other (symbol : String)
  deriving DecidableEq

inductive SelectItem (E : Type)
  | expr (e : E) (label : String)
  | wildcard
  | qualifiedWildcard (aliasName : String)

structure Select (S J E : Type) where
  distinct : Bool
  projection : List (SelectItem E)
  relation : TableFactor S
  joins : List J
  selection : Option E
  groupBy : List E
  having : Option E

inductive SetExpr (S J E : Type)
  | select (s : Select S J E)
  | values (rows : List (List E))

structure OrderByExpr (E : Type) where
  expr : E
  asc : Bool

structure Query (S J E : Type) where
  body : SetExpr S J E
  orderBy : List (OrderByExpr E)
  limit : Option E
  offset : Option E

/-- An expression; `other` is one of a form that the guardrail does not look into. -/
inductive Expr (D S J : Type)
  | identifier (name : String)
  | compoundIdentifier (table ident : String)
  | number (n : D)
  | nested (e : Expr D S J)
  | isNull (e : Expr D S J)
  | binaryOp (left : Expr D S J) (op : BinaryOperator) (right : Expr D S J)
  | between (e : Expr D S J) (negated : Bool) (low high : Expr D S J)
  | inList (e : Expr D S J) (list : List (Expr D S J)) (negated : Bool)
  | inSubquery (e : Expr D S J) (subquery : Query S J (Expr D S J)) (negated : Bool)
  | aggregate (function : String) (args : List (Expr D S J))
  | other (form : String) (args : List (Expr D S J)) (subqueries : List (Query S J (Expr D S J)))

inductive Statement (D S J : Type)
  | query (q : Query S J (Expr D S J))
  | other

structure ColumnDef where
  name : String
  isPrimary : Bool

structure Schema (D S J : Type) where
  columnDefs : Option (List ColumnDef)
  indexes : List (Expr D S J)

abbrev SchemaMap (D S J : Type) := String → Option (Schema D S J)

def guardrailRejectPrefix : String := "BLUEDB_GUARDRAIL_REJECT:"

def unfilteredScanCap : ℕ := 100

def isSargableOp : BinaryOperator → Bool
  | .eq | .lt | .gt | .ltEq | .gtEq => true
  | _ => false

def columnOf : Expr D S J → Option String
  | .identifier name => some name
  | .compoundIdentifier _ ident => some ident
  | .nested inner => columnOf inner
  | .isNull inner => columnOf inner
  | _ => none

def primaryKeyColumns (schema : Schema D S J) : List String :=
  ((schema.columnDefs.getD []).filter ColumnDef.isPrimary).map ColumnDef.name

def indexableColumns (schema : Schema D S J) : List String :=
  primaryKeyColumns schema ++ schema.indexes.filterMap columnOf

def isIndexable (e : Expr D S J) (indexable : List String) : Bool :=
  (columnOf e).any indexable.contains

def isPk (e : Expr D S J) (pkCols : List String) : Bool := isIndexable e pkCols

def splitAnd : Expr D S J → List (Expr D S J)
  | .binaryOp left .and right => splitAnd left ++ splitAnd right
  | .nested inner => splitAnd inner
  | e => [e]

theorem sizeOf_splitAnd {e c : Expr D S J} (h : c ∈ splitAnd e) : sizeOf c ≤ sizeOf e := by
  induction e using splitAnd.induct with
  | case1 left right ihleft ihright =>
    rcases List.mem_append.mp h with h | h
    · have := ihleft h
      simp only [Expr.binaryOp.sizeOf_spec]
      omega
    · have := ihright h
      simp only [Expr.binaryOp.sizeOf_spec]
      omega
  | case2 inner ih =>
    have := ih h
    simp only [Expr.nested.sizeOf_spec]
    omega
  | case3 e hand hnested =>
    rw [splitAnd] at h
    · rw [List.mem_singleton.mp h]
    · exact hand
    · exact hnested

mutual

def whereHitsIndex (schemaMap : SchemaMap D S J) (pkCols : List String) (e : Expr D S J)
    (indexable : List String) : Bool :=
  (splitAnd e).attach.any fun c => conjunctHitsIndex schemaMap pkCols c.1 indexable
termination_by (sizeOf e, 2)
decreasing_by
  have := sizeOf_splitAnd c.2
  grind

def conjunctHitsIndex (schemaMap : SchemaMap D S J) (pkCols : List String) (e : Expr D S J)
    (indexable : List String) : Bool :=
  match e with
  | .nested inner => conjunctHitsIndex schemaMap pkCols inner indexable
  | .binaryOp left op right => isSargableOp op &&
    (isIndexable left indexable && (columnOf right).isNone ||
      isIndexable right indexable && (columnOf left).isNone)
  | .between e negated _ _ => !negated && isIndexable e indexable
  | .inList e _ negated => !negated && isIndexable e indexable
  | .inSubquery e subquery negated =>
    !negated && inSubqueryHitsIndex schemaMap pkCols e subquery
  | _ => false
termination_by (sizeOf e, 1)

def inSubqueryHitsIndex (schemaMap : SchemaMap D S J) (pkCols : List String)
    (left : Expr D S J) (subquery : Query S J (Expr D S J)) : Bool :=
  match subquery with
  | ⟨.select ⟨_, [_], .table subTable _, [], some subWhere, [], none⟩, [], none, none⟩ =>
    isPk left pkCols && match schemaMap subTable with
      | some subSchema => whereHitsIndex schemaMap (primaryKeyColumns subSchema) subWhere
        (indexableColumns subSchema)
      | none => false
  | _ => false
termination_by (sizeOf subquery, 0)

end

/-- No conjunct has parentheses around it. -/
def whereIsPointBounded (pkCols : List String) (e : Expr D S J) : Bool :=
  (splitAnd e).any fun
    | .binaryOp left .eq right => isPk left pkCols && (columnOf right).isNone ||
      isPk right pkCols && (columnOf left).isNone
    | .inList e _ negated => !negated && isPk e pkCols
    | _ => false

def predicateColumns : Expr D S J → List String
  | .nested inner => predicateColumns inner
  | .binaryOp left op right =>
    if op = .and ∨ op = .or then predicateColumns left ++ predicateColumns right
    else if isSargableOp op then ((columnOf left).or (columnOf right)).toList
    else []
  | .between e _ _ _ => (columnOf e).toList
  | .inList e _ _ => (columnOf e).toList
  | _ => []

def createIndexDdl (table column : String) : String :=
  s!"CREATE INDEX {table}_{column} ON {table} ({column});"

def scanErr (table : String) (unindexed : List String) : String :=
  match unindexed.reverse.dedup.reverse with
  | first :: rest =>
    let list := String.intercalate ", " ((first :: rest).map fun c => s!"`{c}`")
    let ddl := createIndexDdl table first
    s!"{guardrailRejectPrefix} query on `{table}` filters only non-indexed column(s) {list} — " ++
    "this would scan the whole table (a LIMIT can't bound a post-scan filter). " ++
    s!"Create an index and retry, e.g.\n    {ddl}\nthen filter on that column " ++
    "(one index is enough). Or filter on the primary key, or run the scan in " ++
    "the warehouse via the Iceberg mirror."
  | [] =>
    s!"{guardrailRejectPrefix} query on `{table}` would scan the whole table — it filters no " ++
    "indexed column. Filter on the primary key or an indexed column (declare a " ++
    "trigram index to accelerate `LIKE`), or run the scan in the warehouse via " ++
    "the Iceberg mirror."

def sortErr (table : String) : Option String → String
  | some col =>
    let ddl := createIndexDdl table col
    s!"{guardrailRejectPrefix} ORDER BY `{col}` on `{table}` is an in-memory sort — `{col}` is " ++
    s!"neither the primary key nor indexed. Create an index and retry, e.g.\n    {ddl}\n" ++
    s!"then order by `{col}`. Or order by the primary key, or sort in the warehouse " ++
    "via the Iceberg mirror."
  | none =>
    s!"{guardrailRejectPrefix} in-memory sort on `{table}` — ORDER BY must use the " ++
      "primary key or " ++
    "an indexed column, or be sorted in the warehouse via the Iceberg mirror."

/-- What is left to the engine: decimals, the columns that a subquery takes from outside
itself, values and their order, the columns of other tables and the expressions that are no
columns, and what a query without limits returns. -/
structure Engine (D S J R : Type) where
  parseU64 : D → Option ℕ
  ofU64 : ℕ → D
  outer : Query S J (Expr D S J) → List (Option String × String)
  Value : Type
  [order : LinearOrder Value]
  ofBool : Bool → Value
  false_lt_true : ofBool false < ofBool true
  foreign : String → String → WithTop Value
  eval : Expr D S J → (String → WithTop Value) → WithTop Value
  rows : SetExpr S J (Expr D S J) → List (OrderByExpr (Expr D S J)) → List R
  count : Expr D S J → ℕ

attribute [instance] Engine.order

/-- A row by its columns; NULL is the largest cell. -/
abbrev Engine.Record (e : Engine D S J R) := String → WithTop e.Value

variable (e : Engine D S J R)

def literalU64 : Expr D S J → Option ℕ
  | .number n => e.parseU64 n
  | _ => none

def capUnfilteredLimit (q : Query S J (Expr D S J)) : Query S J (Expr D S J) :=
  let capped := match q.limit.bind (literalU64 e) with
    | some n => min n unfilteredScanCap
    | none => unfilteredScanCap
  { q with limit := some (.number (e.ofU64 capped)) }

inductive Decision
  | passThrough
  | capUnfiltered

def checkOrderBy (name : String) (schema : Schema D S J) (selection : Option (Expr D S J))
    (orderBy : List (OrderByExpr (Expr D S J))) : Except String Unit :=
  if selection.any (whereIsPointBounded (primaryKeyColumns schema)) then pure ()
  else orderBy.forM fun ob =>
    if isIndexable ob.expr (indexableColumns schema) then pure ()
    else throw (sortErr name (columnOf ob.expr))

def classify (schemaMap : SchemaMap D S J) : Statement D S J → Except String Decision
  | .query ⟨.select ⟨_, _, .table name _, [], selection, _, _⟩, orderBy, _, _⟩ =>
    match schemaMap name with
    | none => .ok .passThrough
    | some schema => do
      checkOrderBy name schema selection orderBy
      match selection with
      | none => pure .capUnfiltered
      | some w =>
        if whereHitsIndex schemaMap (primaryKeyColumns schema) w (indexableColumns schema) then
          pure .passThrough
        else
          let unindexed := (predicateColumns w).filter (!(indexableColumns schema).contains ·)
          throw (scanErr name unindexed)
  | _ => .ok .passThrough

def boundOrReject (schemaMap : SchemaMap D S J) (statement : Statement D S J) :
    Except String (Statement D S J) := do
  match ← classify schemaMap statement, statement with
  | .capUnfiltered, .query q => pure (.query (capUnfilteredLimit e q))
  | _, statement => pure statement

/-- The direct parts of an expression, the insides of subqueries apart. -/
def Expr.parts : Expr D S J → List (Expr D S J)
  | .nested x => [x]
  | .isNull x => [x]
  | .binaryOp left _ right => [left, right]
  | .between x _ low high => [x, low, high]
  | .inList x list _ => x :: list
  | .inSubquery x _ _ => [x]
  | .aggregate _ args => args
  | .other _ args _ => args
  | _ => []

inductive Expr.Within : Expr D S J → Expr D S J → Prop
  | refl (x : Expr D S J) : Within x x
  | part {p x y : Expr D S J} (hp : p ∈ x.parts) (h : Within y p) : Within y x

/-- A column is named with a qualifier or without. -/
def Expr.refs : Expr D S J → List (Option String × String)
  | .identifier name => [(none, name)]
  | .compoundIdentifier table ident => [(some table, ident)]
  | .inSubquery _ subquery _ => e.outer subquery
  | .other _ _ subqueries => subqueries.flatMap e.outer
  | _ => []

def Before {V : Type} [LT V] (asc : Bool) (a b : V) : Prop := if asc then a < b else b < a

/-- A table under the name that it has in a statement. -/
structure Table (D S J : Type) where
  label : String
  schema : Schema D S J

namespace Table

variable (t : Table D S J)

def Owns : Option String × String → Prop
  | (none, column) => ∀ defs, t.schema.columnDefs = some defs → column ∈ defs.map ColumnDef.name
  | (some table, _) => table = t.label

def Mentions (x : Expr D S J) : Prop := ∃ y, Expr.Within y x ∧ ∃ r ∈ y.refs e, t.Owns r

/-- The column that an expression is, parentheses apart. -/
def column : Expr D S J → Option String
  | .identifier name => some name
  | .compoundIdentifier table ident => if table = t.label then some ident else none
  | .nested inner => column inner
  | _ => none

def keys : List String := primaryKeyColumns t.schema ++ t.schema.indexes.filterMap t.column

def IsKey (keys : List String) (x : Expr D S J) : Prop := ∃ c ∈ keys, t.column x = some c

/-- A key column on the one side, and no column of the table on the other. -/
def Bounds (x bound : Expr D S J) : Prop := t.IsKey t.keys x ∧ ¬ t.Mentions e bound

/-- The rows of the table have a primary key. -/
def Row (r : e.Record) : Prop := ∀ c ∈ primaryKeyColumns t.schema, r c ≠ ⊤

def Apart (r r' : e.Record) : Prop :=
  primaryKeyColumns t.schema = [] ∨ ∃ c ∈ primaryKeyColumns t.schema, r c ≠ r' c

def cell (r : e.Record) : Expr D S J → WithTop e.Value
  | .identifier c => r c
  | .compoundIdentifier table c => if table = t.label then r c else e.foreign table c
  | .nested x => cell r x
  | .isNull x => e.ofBool (decide (cell r x = ⊤))
  | x => e.eval x r

/-- Two rows stand as an ORDER BY has them. -/
def Sorted (r r' : e.Record) : List (OrderByExpr (Expr D S J)) → Prop
  | [] => True
  | ob :: rest =>
    Before ob.asc (t.cell e r ob.expr) (t.cell e r' ob.expr) ∨
      t.cell e r ob.expr = t.cell e r' ob.expr ∧ Sorted r r' rest

/-- The rows stand in this order when they are read along the primary key or an index, or in
any order at all. -/
def InKeyOrder (orderBy : List (OrderByExpr (Expr D S J))) : Prop :=
  (∀ r r', t.Row e r → t.Row e r' → t.Apart e r r' → t.Sorted e r r' orderBy) ∨
    ∃ c ∈ t.keys, ∃ asc, ∀ r r', t.Row e r → t.Row e r' → t.Apart e r r' →
      ¬Before asc (r' c) (r c) → t.Sorted e r r' orderBy

/-- The column that decides how rows stand by an expression, and whether it does so only by
being NULL; none when all rows stand alike. -/
def term : Expr D S J → Option (String × Bool)
  | .identifier c => some (c, false)
  | .compoundIdentifier table c => if table = t.label then some (c, false) else none
  | .nested x => term x
  | .isNull x =>
    match term x with
    | some (c, false) => if c ∈ primaryKeyColumns t.schema then none else some (c, true)
    | _ => none
  | _ => none

/-- The column is the primary key. -/
def Identifies (c : String) : Prop :=
  primaryKeyColumns t.schema ≠ [] ∧ ∀ p ∈ primaryKeyColumns t.schema, p = c

/-- The ORDER BY is on one column in one direction, the column's NULLs before it or not; after
the column itself only what is on it as well, unless it is the primary key. -/
def Follows (c : String) (asc : Bool) (nulls : Bool) : List (OrderByExpr (Expr D S J)) → Prop
  | [] => True
  | ob :: rest =>
    match t.term ob.expr with
    | none => Follows c asc nulls rest
    | some (d, true) => d = c ∧ (nulls = true ∨ ob.asc = asc) ∧ Follows c asc true rest
    | some (d, false) => d = c ∧ ob.asc = asc ∧
      (t.Identifies c ∨ ∀ ob ∈ rest, ∀ p, t.term ob.expr = some p → p.1 = c)

def FollowsKey (orderBy : List (OrderByExpr (Expr D S J))) : Prop :=
  (∀ ob ∈ orderBy, t.term ob.expr = none) ∨ ∃ c ∈ t.keys, ∃ asc, t.Follows c asc false orderBy

end Table

def SelectItem.exprs {E : Type} : SelectItem E → List E
  | .expr x _ => [x]
  | _ => []

/-- One row of the answer comes from one row of the table, and they come in key order. -/
structure Streams (t : Table D S J) (s : Select S J (Expr D S J))
    (orderBy : List (OrderByExpr (Expr D S J))) : Prop where
  plain : ∀ x ∈ s.projection.flatMap SelectItem.exprs ++ s.having.toList ++
    orderBy.map OrderByExpr.expr, ∀ f args, ¬ Expr.Within (.aggregate f args) x
  ungrouped : s.groupBy = []
  repeats : s.distinct = false
  ordered : t.InKeyOrder e orderBy

def Reads (schemaMap : SchemaMap D S J) (q : Query S J (Expr D S J)) (s : Select S J (Expr D S J))
    (t : Table D S J) : Prop :=
  q.body = .select s ∧ s.joins = [] ∧ ∃ name aliasName schema,
    s.relation = .table name aliasName ∧ schemaMap name = some schema ∧
      t = ⟨aliasName.getD name, schema⟩

/-- A conjunct that the primary key or an index of the table serves. -/
inductive Served (schemaMap : SchemaMap D S J) : Table D S J → Expr D S J → Prop
  | binaryOp {t left op right} (hop : isSargableOp op = true)
    (hside : t.Bounds e left right ∨ t.Bounds e right left) :
    Served schemaMap t (.binaryOp left op right)
  | between {t x low high} (hkey : t.IsKey t.keys x) (hlow : ¬ t.Mentions e low)
    (hhigh : ¬ t.Mentions e high) : Served schemaMap t (.between x false low high)
  | inList {t x list} (hkey : t.IsKey t.keys x) (hlist : ∀ y ∈ list, ¬ t.Mentions e y) :
    Served schemaMap t (.inList x list false)
  | inSubquery {t x subquery s t' w c} (hkey : t.IsKey (primaryKeyColumns t.schema) x)
    (hreads : Reads schemaMap subquery s t') (hw : s.selection = some w) (hc : c ∈ splitAnd w)
    (h : Served schemaMap t' c) : Served schemaMap t (.inSubquery x subquery false)

/-- What the guardrail is to admit, with the LIMIT that the statement has then. -/
def Bounded (schemaMap : SchemaMap D S J) (t : Table D S J) (s : Select S J (Expr D S J))
    (q : Query S J (Expr D S J)) : Prop :=
  (s.selection = none ∧ (∃ n ≤ unfilteredScanCap, q.limit = some (.number (e.ofU64 n))) ∧
    Streams e t s q.orderBy) ∨
  ∃ w, s.selection = some w ∧ ∃ c ∈ splitAnd w, Served e schemaMap t c

def Engine.run (q : Query S J (Expr D S J)) : List R :=
  let found := (e.rows q.body q.orderBy).drop ((q.offset.map e.count).getD 0)
  match q.limit with
  | some limit => found.take (e.count limit)
  | none => found

namespace Table

variable (t : Table D S J)

/-- The column is written without IS NULL and without the name of another table, and what the
guardrail takes for its index is on the column itself. -/
def Own (x : Expr D S J) : Prop :=
  ∃ c, t.column x = some c ∧ (c ∈ indexableColumns t.schema → c ∈ t.keys)

/-- A side of a comparison: the column that the guardrail finds there is meant so, and what is
no column to it has none of the table inside. -/
def Side (x : Expr D S J) : Prop :=
  if (columnOf x).isSome = true then t.Own x else ¬ t.Mentions e x

def Hits (schemaMap : SchemaMap D S J) (c : Expr D S J) : Prop :=
  conjunctHitsIndex schemaMap (primaryKeyColumns t.schema) c (indexableColumns t.schema) = true

end Table

/-- A read without a WHERE groups nothing, and its ORDER BY is on a key of the table. -/
structure Browses (t : Table D S J) (s : Select S J (Expr D S J))
    (orderBy : List (OrderByExpr (Expr D S J))) : Prop where
  plain : ∀ x ∈ s.projection.flatMap SelectItem.exprs ++ s.having.toList,
    ∀ f args, ¬ Expr.Within (.aggregate f args) x
  ungrouped : s.groupBy = []
  repeats : s.distinct = false
  ordered : t.FollowsKey orderBy

/-- What the guardrail does not look at in a conjunct that it takes for served; and the
conjuncts that it passes over although they are. -/
inductive Meant (schemaMap : SchemaMap D S J) : Table D S J → Expr D S J → Prop
  | compared {t left op right} (hits : t.Hits schemaMap (.binaryOp left op right))
    (hleft : t.Side e left) (hright : t.Side e right) : Meant schemaMap t (.binaryOp left op right)
  | between {t x negated low high} (hits : t.Hits schemaMap (.between x negated low high))
    (hown : t.Own x) (hlow : ¬ t.Mentions e low) (hhigh : ¬ t.Mentions e high) :
    Meant schemaMap t (.between x negated low high)
  | inList {t x list negated} (hits : t.Hits schemaMap (.inList x list negated)) (hown : t.Own x)
    (hlist : ∀ y ∈ list, ¬ t.Mentions e y) : Meant schemaMap t (.inList x list negated)
  | inSubquery {t x subquery s t' w c} (hkey : t.IsKey (primaryKeyColumns t.schema) x)
    (hreads : Reads schemaMap subquery s t') (hw : s.selection = some w) (hc : c ∈ splitAnd w)
    (h : Meant schemaMap t' c) : Meant schemaMap t (.inSubquery x subquery false)
  /-- The bound is a column of another table. -/
  | joined {t left op right} (hop : isSargableOp op = true)
    (hcolumns : (columnOf left).isSome = true ∧ (columnOf right).isSome = true)
    (hside : t.Bounds e left right ∨ t.Bounds e right left) :
    Meant schemaMap t (.binaryOp left op right)

variable {e}

theorem Table.columnOf_column {t : Table D S J} {x : Expr D S J} {c : String}
    (h : t.column x = some c) : columnOf x = some c := by
  induction x using columnOf.induct with
  | case1 name => exact h
  | case2 table ident =>
    rw [Table.column] at h
    split_ifs at h
    exact h
  | case3 inner ih => exact ih h
  | case4 inner => exact absurd h nofun
  | case5 x _ _ _ _ => cases x <;> simp_all [Table.column]

theorem Table.IsKey.columnOf {t : Table D S J} {keys : List String} {x : Expr D S J}
    (h : t.IsKey keys x) : ∃ c ∈ keys, columnOf x = some c := by
  obtain ⟨c, hc, hcolumn⟩ := h
  exact ⟨c, hc, columnOf_column hcolumn⟩

theorem Table.IsKey.isIndexable {t : Table D S J} {keys indexable : List String} {x : Expr D S J}
    (h : t.IsKey keys x) (hkeys : keys ⊆ indexable) : isIndexable x indexable = true := by
  obtain ⟨c, hc, hcolumn⟩ := h.columnOf
  simpa [Guardrail.isIndexable, hcolumn] using hkeys hc

theorem Table.keys_subset (t : Table D S J) : t.keys ⊆ indexableColumns t.schema := by
  apply List.append_subset.mpr ⟨List.subset_append_left _ _, ?_⟩
  intro c hc
  obtain ⟨x, hx, hcolumn⟩ := List.mem_filterMap.mp hc
  exact List.mem_append_right _ (List.mem_filterMap.mpr ⟨x, hx, columnOf_column hcolumn⟩)

theorem isIndexable_isNone {x : Expr D S J} {keys : List String}
    (h : isIndexable x keys = true) : (columnOf x).isNone = false := by
  unfold isIndexable at h
  cases hcolumn : columnOf x with
  | none => simp [hcolumn] at h
  | some c => rfl

theorem Table.IsKey.own {t : Table D S J} {x : Expr D S J} (h : t.IsKey t.keys x) : t.Own x := by
  obtain ⟨c, hc, hcolumn⟩ := h
  exact ⟨c, hcolumn, fun _ => hc⟩

theorem Table.Own.isKey {t : Table D S J} {x : Expr D S J} (h : t.Own x)
    (hindexable : isIndexable x (indexableColumns t.schema) = true) : t.IsKey t.keys x := by
  obtain ⟨c, hcolumn, hkey⟩ := h
  refine ⟨c, hkey ?_, hcolumn⟩
  simpa [isIndexable, columnOf_column hcolumn] using hindexable

theorem Table.Side.bounds {t : Table D S J} {x bound : Expr D S J} (hx : t.Side e x)
    (hbound : t.Side e bound) (hindexable : isIndexable x (indexableColumns t.schema) = true)
    (hnone : (columnOf bound).isNone = true) : t.Bounds e x bound := by
  have hcolumn : (columnOf x).isSome = true := by
    simpa using isIndexable_isNone hindexable
  have hno : ¬(columnOf bound).isSome = true := by simpa using hnone
  unfold Table.Side at hx hbound
  rw [if_pos hcolumn] at hx
  rw [if_neg hno] at hbound
  exact ⟨hx.isKey hindexable, hbound⟩

theorem Table.Bounds.sides {t : Table D S J} {x bound : Expr D S J} (h : t.Bounds e x bound)
    (hnone : (columnOf bound).isNone = true) : t.Side e x ∧ t.Side e bound := by
  obtain ⟨c, -, hcolumn⟩ := h.1
  have hno : ¬(columnOf bound).isSome = true := by simpa using hnone
  constructor
  · rw [Table.Side, if_pos (by simp [columnOf_column hcolumn])]
    exact h.1.own
  · rw [Table.Side, if_neg hno]
    exact h.2

theorem Meant.served {schemaMap : SchemaMap D S J} {t : Table D S J} {c : Expr D S J}
    (h : Meant e schemaMap t c) : Served e schemaMap t c := by
  induction h with
  | compared hits hleft hright =>
    simp only [Table.Hits, conjunctHitsIndex, Bool.and_eq_true, Bool.or_eq_true] at hits
    obtain ⟨hop, ⟨hkey, hnone⟩ | ⟨hkey, hnone⟩⟩ := hits
    · exact .binaryOp hop (.inl (hleft.bounds hright hkey hnone))
    · exact .binaryOp hop (.inr (hright.bounds hleft hkey hnone))
  | between hits hown hlow hhigh =>
    simp only [Table.Hits, conjunctHitsIndex, Bool.and_eq_true, Bool.not_eq_true'] at hits
    obtain ⟨rfl, hindexable⟩ := hits
    exact .between (hown.isKey hindexable) hlow hhigh
  | inList hits hown hlist =>
    simp only [Table.Hits, conjunctHitsIndex, Bool.and_eq_true, Bool.not_eq_true'] at hits
    obtain ⟨rfl, hindexable⟩ := hits
    exact .inList (hown.isKey hindexable) hlist
  | inSubquery hkey hreads hw hc _ ih => exact .inSubquery hkey hreads hw hc ih
  | joined hop _ hside => exact .binaryOp hop hside

theorem Served.meant {schemaMap : SchemaMap D S J} {t : Table D S J} {c : Expr D S J}
    (h : Served e schemaMap t c) : Meant e schemaMap t c := by
  induction h with
  | @binaryOp t left op right hop hside =>
    by_cases hcolumns : (columnOf left).isSome = true ∧ (columnOf right).isSome = true
    · exact .joined hop hcolumns hside
    · rcases hside with hside | hside
      · have hkey := hside.1.isIndexable t.keys_subset
        have hnone : (columnOf right).isNone = true := by
          have := isIndexable_isNone hkey
          cases hright : columnOf right <;> simp_all
        obtain ⟨hleft, hright⟩ := hside.sides hnone
        exact .compared (by simp [Table.Hits, conjunctHitsIndex, hop, hkey, hnone]) hleft hright
      · have hkey := hside.1.isIndexable t.keys_subset
        have hnone : (columnOf left).isNone = true := by
          have := isIndexable_isNone hkey
          cases hleft : columnOf left <;> simp_all
        obtain ⟨hright, hleft⟩ := hside.sides hnone
        exact .compared (by simp [Table.Hits, conjunctHitsIndex, hop, hkey, hnone]) hleft hright
  | @between t x low high hkey hlow hhigh =>
    have hindexable := hkey.isIndexable t.keys_subset
    exact .between (by simp [Table.Hits, conjunctHitsIndex, hindexable]) hkey.own hlow hhigh
  | @inList t x list hkey hlist =>
    have hindexable := hkey.isIndexable t.keys_subset
    exact .inList (by simp [Table.Hits, conjunctHitsIndex, hindexable]) hkey.own hlist
  | inSubquery hkey hreads hw hc _ ih => exact .inSubquery hkey hreads hw hc ih

section Order

variable {t : Table D S J} {c : String} {asc : Bool} {orderBy : List (OrderByExpr (Expr D S J))}

/-- What a column decides of an expression. -/
theorem Table.cell_term {x : Expr D S J} (hx : (columnOf x).isSome = true) :
    (t.term x = none → ∀ r r', t.Row e r → t.Row e r' → t.cell e r x = t.cell e r' x) ∧
      (∀ d, t.term x = some (d, false) → ∀ r, t.cell e r x = r d) ∧
      ∀ d, t.term x = some (d, true) → d ∉ primaryKeyColumns t.schema ∧
        ∀ r, t.cell e r x = e.ofBool (decide (r d = ⊤)) := by
  induction x using columnOf.induct with
  | case1 name => simp [Table.term, Table.cell]
  | case2 table ident =>
    simp only [Table.term, Table.cell]
    split_ifs <;> simp
  | case3 inner ih => exact ih hx
  | case4 inner ih =>
    obtain ⟨hnone, hcell, hnull⟩ := ih hx
    simp only [Table.term, Table.cell]
    cases hterm : t.term inner with
    | none =>
      refine ⟨fun _ r r' hr hr' => ?_, by simp, by simp⟩
      rw [hnone hterm r r' hr hr']
    | some p =>
      obtain ⟨d, _ | _⟩ := p
      · have hd := hcell d hterm
        by_cases hpk : d ∈ primaryKeyColumns t.schema
        · simp only [hpk, if_true, reduceCtorEq, false_implies, implies_true, and_true,
            true_implies]
          intro r r' hr hr'
          simp [hd, hr d hpk, hr' d hpk]
        · simp only [hpk, if_false, reduceCtorEq, false_implies, true_and, Option.some.injEq,
            Prod.mk.injEq, and_true, and_false, implies_true]
          rintro _ rfl
          exact ⟨hpk, fun r => by rw [hd]⟩
      · have hd := (hnull d hterm).2
        simp [hd]
  | case5 x _ _ _ _ => cases x <;> simp_all [columnOf]

/-- The guardrail sees a column in every expression of the ORDER BY. -/
def OnColumns (orderBy : List (OrderByExpr (Expr D S J))) : Prop :=
  ∀ ob ∈ orderBy, (columnOf ob.expr).isSome = true

theorem Table.cell_eq {x : Expr D S J} (hx : (columnOf x).isSome = true) {r r' : e.Record}
    (hr : t.Row e r) (hr' : t.Row e r') (h : ∀ p, t.term x = some p → r p.1 = r' p.1) :
    t.cell e r x = t.cell e r' x := by
  obtain ⟨hnone, hcell, hnull⟩ := @Table.cell_term D S J R e t x hx
  cases hterm : t.term x with
  | none => exact hnone hterm r r' hr hr'
  | some p =>
    obtain ⟨d, _ | _⟩ := p
    · rw [hcell d hterm, hcell d hterm]
      exact h _ hterm
    · rw [(hnull d hterm).2, (hnull d hterm).2, h _ hterm]

theorem Table.Sorted.rest {ob : OrderByExpr (Expr D S J)} {rest : List (OrderByExpr (Expr D S J))}
    {r r' : e.Record} (h : t.Sorted e r r' (ob :: rest))
    (hcell : t.cell e r ob.expr = t.cell e r' ob.expr) : t.Sorted e r r' rest := by
  rcases h with hlt | ⟨-, hrest⟩
  · cases hasc : ob.asc <;> simp [Before, hasc, hcell] at hlt
  · exact hrest

theorem Table.sorted_of_alike (hcols : OnColumns orderBy) {r r' : e.Record} (hr : t.Row e r)
    (hr' : t.Row e r') (h : ∀ ob ∈ orderBy, ∀ p, t.term ob.expr = some p → r p.1 = r' p.1) :
    t.Sorted e r r' orderBy := by
  induction orderBy with
  | nil => trivial
  | cons ob rest ih =>
    obtain ⟨hcol, hcols⟩ := List.forall_mem_cons.mp hcols
    obtain ⟨hob, hrest⟩ := List.forall_mem_cons.mp h
    exact .inr ⟨t.cell_eq hcol hr hr' hob, ih hcols hrest⟩

theorem before_of_not {V : Type} [LinearOrder V] {a b : V} (h : ¬Before asc b a) (hne : a ≠ b) :
    Before asc a b := by
  cases asc with
  | false => exact lt_of_le_of_ne (le_of_not_gt h) (Ne.symm hne)
  | true => exact lt_of_le_of_ne (le_of_not_gt h) hne

theorem Table.Follows.sorted {nulls : Bool} (h : t.Follows c asc nulls orderBy)
    (hcols : OnColumns orderBy) {r r' : e.Record} (hr : t.Row e r) (hr' : t.Row e r')
    (hapart : t.Apart e r r') (hnulls : nulls = true → (r c = ⊤ ↔ r' c = ⊤))
    (hbefore : ¬Before asc (r' c) (r c)) : t.Sorted e r r' orderBy := by
  induction orderBy generalizing nulls with
  | nil => trivial
  | cons ob rest ih =>
    obtain ⟨hcol, hcols⟩ := List.forall_mem_cons.mp hcols
    unfold Table.Follows at h
    cases hterm : t.term ob.expr with
    | none =>
      simp only [hterm] at h
      exact .inr ⟨t.cell_eq hcol hr hr' (by simp [hterm]), ih h hcols hnulls⟩
    | some p =>
      obtain ⟨d, _ | _⟩ := p
      · simp only [hterm] at h
        obtain ⟨rfl, rfl, hrest⟩ := h
        by_cases heq : r d = r' d
        · refine .inr ⟨t.cell_eq hcol hr hr' (by simp [hterm, heq]), ?_⟩
          rcases hrest with hidentifies | hon
          · rcases hapart with hnil | ⟨p, hp, hne⟩
            · exact absurd hnil hidentifies.1
            · exact absurd (hidentifies.2 p hp ▸ heq) hne
          · refine t.sorted_of_alike hcols hr hr' fun ob hob p hp => ?_
            rw [hon ob hob p hp, heq]
        · refine .inl ?_
          rw [(t.cell_term hcol).2.1 d hterm, (t.cell_term hcol).2.1 d hterm]
          exact before_of_not hbefore heq
      · simp only [hterm] at h
        obtain ⟨rfl, hdir, hrest⟩ := h
        have hcell := ((t.cell_term (e := e) hcol).2.2 d hterm).2
        by_cases hiff : r d = ⊤ ↔ r' d = ⊤
        · refine .inr ⟨?_, ih hrest hcols fun _ => hiff⟩
          rw [hcell, hcell, decide_eq_decide.mpr hiff]
        · -- one of the rows has a NULL, and the values stand before it
          obtain rfl := hdir.resolve_left fun h => hiff (hnulls h)
          refine .inl ?_
          rw [hcell, hcell]
          cases hasc : ob.asc with
          | true =>
            rw [hasc] at hbefore
            by_cases hnull : r' d = ⊤
            · have hne : r d ≠ ⊤ := fun h => hiff (by simp [h, hnull])
              simpa [Before, hnull, hne] using e.false_lt_true
            · have hnull' : r d = ⊤ := by_contra fun h => hiff (by simp [h, hnull])
              exact absurd (lt_of_lt_of_eq (lt_top_iff_ne_top.mpr hnull) hnull'.symm) hbefore
          | false =>
            rw [hasc] at hbefore
            by_cases hnull : r d = ⊤
            · have hne : r' d ≠ ⊤ := fun h => hiff (by simp [h, hnull])
              simpa [Before, hnull, hne] using e.false_lt_true
            · have hnull' : r' d = ⊤ := by_contra fun h => hiff (by simp [h, hnull])
              exact absurd (lt_of_lt_of_eq (lt_top_iff_ne_top.mpr hnull) hnull'.symm) hbefore

/-- Two cells of the column `d`, the wrong way round for an expression that decides by `g`. -/
theorem Table.unsorted_of_lt {ob : OrderByExpr (Expr D S J)} {d : String}
    {g : WithTop e.Value → WithTop e.Value} (hcell : ∀ r, t.cell e r ob.expr = g (r d))
    {low high : WithTop e.Value} (hlt : low < high) (hg : g low < g high) :
    ∃ u v, (u = high ∧ v = low ∨ u = low ∧ v = high) ∧ ¬Before ob.asc u v ∧
      ∀ r r' : e.Record, r d = u → r' d = v → ∀ rest, ¬t.Sorted e r r' (ob :: rest) := by
  cases hasc : ob.asc with
  | true =>
    refine ⟨high, low, .inl ⟨rfl, rfl⟩, hlt.not_gt, ?_⟩
    rintro r r' hr hr' rest (h | ⟨h, -⟩)
    · rw [hcell, hcell, hr, hr', hasc] at h
      exact absurd h hg.not_gt
    · rw [hcell, hcell, hr, hr'] at h
      exact absurd h hg.ne'
  | false =>
    refine ⟨low, high, .inr ⟨rfl, rfl⟩, hlt.not_gt, ?_⟩
    rintro r r' hr hr' rest (h | ⟨h, -⟩)
    · rw [hcell, hcell, hr, hr', hasc] at h
      exact absurd h hg.not_gt
    · rw [hcell, hcell, hr, hr'] at h
      exact absurd h hg.ne

/-- Rows that do not stand as an ORDER BY has them whose first column is `d`; the values of
another column may be chosen. -/
theorem Table.exists_unsorted {ob : OrderByExpr (Expr D S J)}
    (hcol : (columnOf ob.expr).isSome = true) {d : String} {null : Bool}
    (hterm : t.term ob.expr = some (d, null)) (c : String) (a a' : e.Value) :
    ∃ r r' : e.Record, (t.Row e r ∧ t.Row e r') ∧ (d ≠ c → r c = a ∧ r' c = a') ∧
      (d = c → ¬Before ob.asc (r c) (r' c) ∧ (null = false → r c ≠ ⊤ ∧ r' c ≠ ⊤)) ∧
      (a ≠ a' ∨ d = c ∨ ¬t.Identifies c → t.Apart e r r') ∧
      ∀ rest, ¬t.Sorted e r r' (ob :: rest) := by
  have hlt := WithTop.coe_lt_coe.mpr e.false_lt_true
  obtain ⟨-, hcell, hnull⟩ := t.cell_term (e := e) hcol
  obtain ⟨u, v, hne, hbefore, hvalues, hunsorted⟩ : ∃ u v : WithTop e.Value, u ≠ v ∧
      ¬Before ob.asc u v ∧ (d ∈ primaryKeyColumns t.schema ∨ null = false → u ≠ ⊤ ∧ v ≠ ⊤) ∧
      ∀ r r' : e.Record, r d = u → r' d = v → ∀ rest, ¬t.Sorted e r r' (ob :: rest) := by
    cases null with
    | false =>
      obtain ⟨u, v, huv, h⟩ := t.unsorted_of_lt (g := id) (hcell d hterm) hlt hlt
      refine ⟨u, v, ?_, h.1, fun _ => ?_, h.2⟩
      · rcases huv with ⟨rfl, rfl⟩ | ⟨rfl, rfl⟩
        · exact hlt.ne'
        · exact hlt.ne
      · rcases huv with ⟨rfl, rfl⟩ | ⟨rfl, rfl⟩ <;> simp
    | true =>
      obtain ⟨hpk, hcell⟩ := hnull d hterm
      obtain ⟨u, v, huv, h⟩ := t.unsorted_of_lt (g := fun v => e.ofBool (decide (v = ⊤))) hcell
        (WithTop.coe_lt_top (e.ofBool false)) (by simpa using e.false_lt_true)
      refine ⟨u, v, ?_, h.1, by simp [hpk], h.2⟩
      rcases huv with ⟨rfl, rfl⟩ | ⟨rfl, rfl⟩ <;> simp
  let low : e.Record := fun _ => e.ofBool false
  let high : e.Record := fun _ => e.ofBool true
  have hrow : ∀ (rest : e.Record) (b : e.Value) (w : WithTop e.Value), (∀ x, rest x ≠ ⊤) →
      (d ∈ primaryKeyColumns t.schema → w ≠ ⊤) →
      t.Row e (Function.update (Function.update rest c b) d w) := by
    intro rest b w hrest hw x hx
    by_cases hd : x = d
    · subst hd
      simpa using hw hx
    · by_cases hc : x = c
      · subst hc
        simp [hd]
      · simp [hd, hc, hrest]
  refine ⟨Function.update (Function.update low c a) d u,
    Function.update (Function.update high c a') d v, ⟨?_, ?_⟩, ?_, ?_, ?_, ?_⟩
  · exact hrow low a u (by simp [low]) fun hd => (hvalues (.inl hd)).1
  · exact hrow high a' v (by simp [high]) fun hd => (hvalues (.inl hd)).2
  · intro hdc
    simp [Ne.symm hdc]
  · rintro rfl
    simpa using ⟨hbefore, fun h => hvalues (.inr h)⟩
  · intro h
    by_contra hapart
    unfold Table.Apart at hapart
    push Not at hapart
    obtain ⟨hpk, hsame⟩ := hapart
    have honly : ∀ p ∈ primaryKeyColumns t.schema, p = c ∧ p ≠ d ∧ a = a' := by
      intro p hp
      have := hsame p hp
      by_cases hd : p = d
      · subst hd
        exact absurd this (by simpa using hne)
      · by_cases hc : p = c
        · subst hc
          exact ⟨rfl, hd, by simpa [Function.update_apply, hd] using this⟩
        · exact absurd this (by simp [hd, hc, low, high, WithTop.coe_inj, e.false_lt_true.ne])
    obtain ⟨p, hp⟩ := List.exists_mem_of_ne_nil _ hpk
    obtain ⟨rfl, hd, ha⟩ := honly p hp
    rcases h with h | h | h
    · exact h ha
    · exact hd h.symm
    · exact h ⟨hpk, fun q hq => (honly q hq).1⟩
  · exact hunsorted _ _ (by simp) (by simp)

/-- Rows with one value in the column that stand as an ORDER BY has them: it is on the column. -/
theorem Table.on_of_sorted (hcols : OnColumns orderBy) (hidentifies : ¬t.Identifies c)
    (h : ∀ r r', t.Row e r → t.Row e r' → t.Apart e r r' → r c = r' c → r c ≠ ⊤ →
      t.Sorted e r r' orderBy) :
    ∀ ob ∈ orderBy, ∀ p, t.term ob.expr = some p → p.1 = c := by
  induction orderBy with
  | nil => simp
  | cons ob rest ih =>
    obtain ⟨hcol, hcols⟩ := List.forall_mem_cons.mp hcols
    have hon : ∀ p, t.term ob.expr = some p → p.1 = c := by
      intro p hterm
      by_contra hne
      obtain ⟨r, r', ⟨hr, hr'⟩, hc, -, hapart, hunsorted⟩ :=
        t.exists_unsorted hcol hterm c (e.ofBool false) (e.ofBool false)
      obtain ⟨hrc, hrc'⟩ := hc hne
      exact hunsorted rest (h r r' hr hr' (hapart (.inr (.inr hidentifies))) (hrc.trans hrc'.symm)
        (by simp [hrc]))
    refine List.forall_mem_cons.mpr ⟨hon, ih hcols fun r r' hr hr' hapart heq hnull => ?_⟩
    exact (h r r' hr hr' hapart heq hnull).rest
      (t.cell_eq hcol hr hr' fun p hp => by rw [hon p hp, heq])

theorem Table.follows_of_sorted {nulls : Bool} (hcols : OnColumns orderBy)
    (h : ∀ r r', t.Row e r → t.Row e r' → t.Apart e r r' →
      (nulls = true → r c ≠ ⊤ ∧ r' c ≠ ⊤) → ¬Before asc (r' c) (r c) → t.Sorted e r r' orderBy) :
    t.Follows c asc nulls orderBy := by
  induction orderBy generalizing nulls with
  | nil => trivial
  | cons ob rest ih =>
    obtain ⟨hcol, hcols⟩ := List.forall_mem_cons.mp hcols
    unfold Table.Follows
    cases hterm : t.term ob.expr with
    | none =>
      refine ih hcols fun r r' hr hr' hapart hnulls hbefore => ?_
      exact (h r r' hr hr' hapart hnulls hbefore).rest
        (t.cell_eq hcol hr hr' fun p hp => absurd (hterm.symm.trans hp) nofun)
    | some p =>
      obtain ⟨d, null⟩ := p
      have hon : d = c := by
        by_contra hne
        obtain ⟨r, r', ⟨hr, hr'⟩, hc, -, hapart, hunsorted⟩ :=
          t.exists_unsorted hcol hterm c (e.ofBool !asc) (e.ofBool asc)
        obtain ⟨hrc, hrc'⟩ := hc hne
        have hlt := e.false_lt_true
        refine hunsorted rest (h r r' hr hr' (hapart (.inl ?_)) ?_ ?_)
        · cases asc <;> simp [hlt.ne, hlt.ne']
        · simp [hrc, hrc']
        · rw [hrc, hrc']
          cases asc <;> simp [Before, hlt.le]
      subst hon
      have hasc : null = false ∨ nulls = false → ob.asc = asc := by
        intro hnull
        by_contra hne
        obtain ⟨r, r', ⟨hr, hr'⟩, -, hd, hapart, hunsorted⟩ :=
          t.exists_unsorted hcol hterm d (e.ofBool false) (e.ofBool false)
        obtain ⟨hbefore, hvalues⟩ := hd rfl
        refine hunsorted rest (h r r' hr hr' (hapart (.inr (.inl rfl))) ?_ ?_)
        · intro hnulls
          exact hvalues (hnull.resolve_right (by simp [hnulls]))
        · cases hob : ob.asc <;> cases asc <;> simp_all [Before]
      cases null with
      | false =>
        refine ⟨rfl, hasc (.inl rfl), or_iff_not_imp_left.mpr fun hidentifies => ?_⟩
        refine t.on_of_sorted (e := e) hcols hidentifies fun r r' hr hr' hapart heq hvalue => ?_
        refine (h r r' hr hr' hapart (fun _ => ⟨hvalue, heq ▸ hvalue⟩) ?_).rest
          (t.cell_eq hcol hr hr' (by simp [hterm, heq]))
        cases asc <;> simp [Before, heq]
      | true =>
        refine ⟨rfl, ?_, ih hcols fun r r' hr hr' hapart hvalues hbefore => ?_⟩
        · cases nulls with
          | false => exact .inr (hasc (.inr rfl))
          | true => exact .inl rfl
        · obtain ⟨hvalue, hvalue'⟩ := hvalues rfl
          refine (h r r' hr hr' hapart (fun _ => hvalues rfl) hbefore).rest ?_
          rw [((t.cell_term hcol).2.2 d hterm).2, ((t.cell_term hcol).2.2 d hterm).2]
          simp [hvalue, hvalue']

theorem Table.term_of_sorted (hcols : OnColumns orderBy)
    (h : ∀ r r', t.Row e r → t.Row e r' → t.Apart e r r' → t.Sorted e r r' orderBy) :
    ∀ ob ∈ orderBy, t.term ob.expr = none := by
  induction orderBy with
  | nil => simp
  | cons ob rest ih =>
    obtain ⟨hcol, hcols⟩ := List.forall_mem_cons.mp hcols
    have hnone : t.term ob.expr = none := by
      by_contra hsome
      obtain ⟨⟨d, null⟩, hterm⟩ := Option.ne_none_iff_exists'.mp hsome
      obtain ⟨r, r', ⟨hr, hr'⟩, -, -, hapart, hunsorted⟩ :=
        t.exists_unsorted (e := e) hcol hterm d (e.ofBool false) (e.ofBool false)
      exact hunsorted rest (h r r' hr hr' (hapart (.inr (.inl rfl))))
    refine List.forall_mem_cons.mpr ⟨hnone, ih hcols fun r r' hr hr' hapart => ?_⟩
    exact (h r r' hr hr' hapart).rest
      (t.cell_eq hcol hr hr' fun p hp => absurd (hnone.symm.trans hp) nofun)

theorem Table.inKeyOrder_iff (hcols : OnColumns orderBy) :
    t.InKeyOrder e orderBy ↔ t.FollowsKey orderBy := by
  constructor
  · rintro (h | ⟨c, hc, asc, h⟩)
    · exact .inl (t.term_of_sorted hcols h)
    · refine .inr ⟨c, hc, asc, t.follows_of_sorted (e := e) hcols fun r r' hr hr' hapart _ => ?_⟩
      exact h r r' hr hr' hapart
  · rintro (h | ⟨c, hc, asc, h⟩)
    · left
      intro r r' hr hr' _
      exact t.sorted_of_alike hcols hr hr' fun ob hob p hp =>
        absurd ((h ob hob).symm.trans hp) nofun
    · exact .inr ⟨c, hc, asc, fun r r' hr hr' hapart hbefore =>
        h.sorted hcols hr hr' hapart (by simp) hbefore⟩

end Order

theorem columnOf_no_aggregate {x : Expr D S J} (hx : (columnOf x).isSome = true) (f : String)
    (args : List (Expr D S J)) : ¬ Expr.Within (.aggregate f args) x := by
  induction x using columnOf.induct with
  | case5 x _ _ _ _ => cases x <;> simp_all [columnOf]
  | case3 inner ih | case4 inner ih =>
    intro h
    cases h with
    | part hp h =>
      obtain rfl := List.mem_singleton.mp hp
      exact ih hx h
  | _ =>
    intro h
    cases h with
    | part hp h => exact absurd hp List.not_mem_nil

theorem streams_iff {t : Table D S J} {s : Select S J (Expr D S J)}
    {orderBy : List (OrderByExpr (Expr D S J))} (hcols : OnColumns orderBy) :
    Streams e t s orderBy ↔ Browses t s orderBy := by
  constructor
  · intro h
    exact ⟨fun x hx => h.plain x (List.mem_append_left _ hx), h.ungrouped, h.repeats,
      (t.inKeyOrder_iff hcols).mp h.ordered⟩
  · intro h
    refine ⟨fun x hx => ?_, h.ungrouped, h.repeats, (t.inKeyOrder_iff hcols).mpr h.ordered⟩
    rcases List.mem_append.mp hx with hx | hx
    · exact h.plain x hx
    · obtain ⟨ob, hob, rfl⟩ := List.mem_map.mp hx
      exact columnOf_no_aggregate (hcols ob hob)

theorem onColumns_of_checkOrderBy {name : String} {schema : Schema D S J}
    {orderBy : List (OrderByExpr (Expr D S J))}
    (h : checkOrderBy name schema none orderBy = .ok ()) : OnColumns orderBy := by
  change orderBy.forM _ = _ at h
  induction orderBy with
  | nil => simp [OnColumns]
  | cons ob rest ih =>
    unfold List.forM at h
    by_cases hob : isIndexable ob.expr (indexableColumns schema) = true
    · rw [if_pos hob] at h
      exact List.forall_mem_cons.mpr ⟨by simpa using isIndexable_isNone hob, ih h⟩
    · rw [if_neg hob] at h
      cases h

theorem boundOrReject_reads {schemaMap : SchemaMap D S J} {q : Query S J (Expr D S J)}
    {s : Select S J (Expr D S J)} {t : Table D S J} {stmt : Statement D S J}
    (hreads : Reads schemaMap q s t) (h : boundOrReject e schemaMap (.query q) = .ok stmt) :
    stmt = .query (if s.selection = none then capUnfilteredLimit e q else q) ∧
      (s.selection = none → OnColumns q.orderBy) := by
  obtain ⟨body, orderBy, limit, offset⟩ := q
  obtain ⟨distinct, projection, relation, joins, selection, groupBy, having⟩ := s
  obtain ⟨rfl, rfl, name, aliasName, schema, rfl, hschema, rfl⟩ := hreads
  cases horder : checkOrderBy name schema selection orderBy with
  | error msg => simp [boundOrReject, classify, hschema, horder, bind, Except.bind] at h
  | ok u =>
    cases selection with
    | none =>
      simp only [boundOrReject, classify, hschema, horder, bind, Except.bind, pure, Except.pure,
        Except.ok.injEq] at h
      exact ⟨h.symm, fun _ => onColumns_of_checkOrderBy horder⟩
    | some w =>
      simp only [boundOrReject, classify, hschema, horder, bind, Except.bind] at h
      split at h
      · cases h
      · next hdecision =>
        split_ifs at hdecision
        cases hdecision
        exact ⟨(Except.ok.inj h).symm, nofun⟩

namespace Example

def flags : Engine Unit Unit Unit Unit where
  parseU64 _ := none
  ofU64 _ := ()
  outer _ := []
  Value := Bool
  ofBool := id
  false_lt_true := Bool.false_lt_true
  foreign _ _ := ⊤
  eval _ _ := ⊤
  rows _ _ := []
  count _ := 0

def schemas : SchemaMap Unit Unit Unit
  | "t" => some ⟨some [⟨"id", true⟩, ⟨"name", false⟩], []⟩
  | _ => none

def selects (projection : List (SelectItem (Expr Unit Unit Unit)))
    (selection : Option (Expr Unit Unit Unit)) : Select Unit Unit (Expr Unit Unit Unit) :=
  ⟨false, projection, .table "t" none, [], selection, [], none⟩

def query (projection : List (SelectItem (Expr Unit Unit Unit)))
    (selection : Option (Expr Unit Unit Unit))
    (orderBy : List (OrderByExpr (Expr Unit Unit Unit))) :
    Query Unit Unit (Expr Unit Unit Unit) :=
  ⟨.select (selects projection selection), orderBy, none, none⟩

def table : Table Unit Unit Unit := ⟨"t", ⟨some [⟨"id", true⟩, ⟨"name", false⟩], []⟩⟩

theorem reads (projection : List (SelectItem (Expr Unit Unit Unit)))
    (selection : Option (Expr Unit Unit Unit))
    (orderBy : List (OrderByExpr (Expr Unit Unit Unit))) :
    Reads schemas (query projection selection orderBy) (selects projection selection) table :=
  ⟨rfl, rfl, "t", none, _, rfl, rfl, rfl⟩

/-- Rows in the order of the key, and the rows of a range of keys. -/
def byId : List (OrderByExpr (Expr Unit Unit Unit)) := [⟨.identifier "id", false⟩]

def idRange : Expr Unit Unit Unit := .between (.identifier "id") false (.number ()) (.number ())

theorem not_mentions_number : ¬ table.Mentions flags (.number ()) := by
  rintro ⟨y, hy, r, hr, -⟩
  cases hy with
  | refl => exact absurd hr List.not_mem_nil
  | part hp _ => exact absurd hp List.not_mem_nil

end Example

end BlueDB.Guardrail
