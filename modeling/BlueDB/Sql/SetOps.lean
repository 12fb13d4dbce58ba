import BlueDB.Lib.Relation

/-!
# Set operations

The engine has no set operation. A union becomes a join: a driver of two rows,
of which the first is joined with the left branch and the second with the right,
and a CASE for every column that reads the branch of the driver row. The
rewriting is of syntax trees, before they are printed and parsed again; column
names are those a printed query reads back.
-/

namespace BlueDB.Sql.SetOps

inductive Value (A : Type)
  | null
  | int (n : ℤ)
  | other (a : A)
  deriving DecidableEq

inductive SelectItem
  | identifier (name : String)
  | compoundIdentifier (parts : List String)
  | exprWithAlias (name : String)
  | other
  deriving DecidableEq

def SelectItem.columnName : SelectItem → Option String
  | .identifier name => some name
  | .compoundIdentifier parts => parts.getLast?
  | .exprWithAlias name => some name
  | .other => none

def projectionColumns (projection : List SelectItem) : Option (List String) :=
  if projection = [] then none else projection.mapM SelectItem.columnName

/-- A SELECT with what it returns. -/
structure Select (A : Type) where
  projection : List SelectItem
  result : Relation String (Value A)
  named : ∀ cols ∈ projectionColumns projection, result.columns = cols

inductive SetOperator
  | union
  | except
  | intersect
  deriving DecidableEq

inductive SetQuantifier
  | all
  | distinct
  | byName
  | allByName
  | distinctByName
  | none
  deriving DecidableEq

inductive SetExpr (A : Type)
  | select (select : Select A)
  | values (rows : Relation String (Value A))
  | setOperation (op : SetOperator) (quantifier : SetQuantifier) (left right : SetExpr A)
  | other

/-- A statement; `Tail` is what a query has beside its body. -/
inductive Statement (A Tail : Type)
  | query (body : SetExpr A) (tail : Tail)
  | other

/-- `_l0`, `_r0`, `_d0` and `_u0`, with the number of the operation. -/
inductive Alias
  | left (id : ℕ)
  | right (id : ℕ)
  | driver (id : ℕ)
  | union (id : ℕ)
  deriving DecidableEq

structure Column where
  table : Alias
  name : String
  deriving DecidableEq

inductive Expr
  | column (c : Column)
  /-- `CASE WHEN c = n THEN yes ELSE no END` -/
  | caseWhen (c : Column) (n : ℤ) (yes no : Column)
  deriving DecidableEq

mutual

inductive Query (A : Type)
  | body (rows : Relation String (Value A))
  | select (distinct : Bool) (projection : List (Expr × String)) (source : Source A)
    (selection : Filter A)

inductive Source (A : Type)
  | series (n : ℕ) (tableAlias : Alias)
  | table (query : Query A) (tableAlias : Alias)
  /-- `left LEFT JOIN (query) AS tableAlias ON c = n` -/
  | leftJoin (left : Source A) (query : Query A) (tableAlias : Alias) (c : Column) (n : ℤ)

inductive Filter (A : Type)
  | all
  /-- `WHERE c IN (query)`, or `NOT IN` -/
  | isIn (c : Column) (negated : Bool) (query : Query A)

end

variable {A : Type}

def keepAll (quantifier : SetQuantifier) : Bool :=
  quantifier = .all ∨ quantifier = .allByName

def singleColumn : SetExpr A → Option String
  | .select s =>
    match s.projection with
    | [item] => item.columnName
    | _ => none
  | .setOperation _ _ left _ => singleColumn left
  | _ => none

def columns : SetExpr A → Option (List String)
  | .select s => projectionColumns s.projection
  | .setOperation _ _ left _ => columns left
  | _ => none

def semiJoin (id : ℕ) (keepAll negated : Bool) (lcol : String) (left right : Query A) : Query A :=
  .select (!keepAll) [(.column ⟨.left id, lcol⟩, lcol)] (.table left (.left id))
    (.isIn ⟨.left id, lcol⟩ negated right)

def unionAll (id : ℕ) (lcols rcols : List String) (left right : Query A) : Query A :=
  let driver : Column := ⟨.driver id, "N"⟩
  .select false
    ((lcols.zip rcols).map fun (lc, rc) =>
      (.caseWhen driver 1 ⟨.left id, lc⟩ ⟨.right id, rc⟩, lc))
    (.leftJoin (.leftJoin (.series 2 (.driver id)) left (.left id) driver 1) right (.right id)
      driver 2)
    .all

def unionDistinct (id : ℕ) (lcols : List String) (all : Query A) : Query A :=
  .select true (lcols.map fun c => (.column ⟨.union id, c⟩, c)) (.table all (.union id)) .all

def unionOf (id : ℕ) (quantifier : SetQuantifier) (lcols rcols : List String)
    (left right : Query A) : Query A :=
  if keepAll quantifier then unionAll id lcols rcols left right
  else unionDistinct id lcols (unionAll id lcols rcols left right)

def operationSql (id : ℕ) (op : SetOperator) (quantifier : SetQuantifier) (left right : SetExpr A)
    (lsql rsql : Query A) : Option (Query A) :=
  match op with
  | .intersect => (singleColumn left).map fun lcol =>
    semiJoin id (keepAll quantifier) false lcol lsql rsql
  | .except => (singleColumn left).map fun lcol =>
    semiJoin id (keepAll quantifier) true lcol lsql rsql
  | .union => (columns left).bind fun lcols => (columns right).bind fun rcols =>
    if lcols.length ≠ rcols.length then none
    else some (unionOf id quantifier lcols rcols lsql rsql)

/-- The query that runs a set operation. The counter numbers the aliases. -/
def setexprToSql : SetExpr A → ℕ → Option (Query A × ℕ)
  | .select s, counter => some (.body s.result, counter)
  | .values rows, counter => some (.body rows, counter)
  | .setOperation op quantifier left right, counter =>
    (setexprToSql left (counter + 1)).bind fun l => (setexprToSql right l.2).bind fun r =>
      (operationSql counter op quantifier left right l.1 r.1).map (·, r.2)
  | .other, _ => none

/-- The body in place of that of the query, whose other clauses stay. -/
def rewriteStatement {Tail : Type} : Statement A Tail → Option (Query A × Tail)
  | .query (.setOperation op quantifier left right) tail =>
    (setexprToSql (.setOperation op quantifier left right) 0).map fun q => (q.1, tail)
  | _ => none

section Eval

variable [DecidableEq A]

def Expr.resolves (columns : List Column) : Expr → Bool
  | .column c => Relation.Resolves columns c
  | .caseWhen c _ yes no => Relation.Resolves columns c ∧ Relation.Resolves columns yes ∧
    Relation.Resolves columns no

def Expr.value (columns : List Column) (row : List (Value A)) : Expr → Value A
  | .column c => Relation.value .null columns row c
  | .caseWhen c n yes no =>
    if Relation.value .null columns row c = .int n then Relation.value .null columns row yes
    else Relation.value .null columns row no

/-- What a query with `x IN values` relies on: a value that is found is in, one that is not
is out, and nulls leave the verdict open. SQL gives no verdict then, a two-valued engine
answers that the value is not in. -/
structure Membership (A : Type) [DecidableEq A] where
  isIn : Value A → List (Value A) → Option Bool
  verdict : Option Bool
  verdict_ne : verdict ≠ some true
  empty : ∀ x, isIn x [] = some false
  found : ∀ {x values}, x ≠ .null → x ∈ values → isIn x values = some true
  missed : ∀ {x values}, x ≠ .null → x ∉ values → .null ∉ values → isIn x values = some false
  unknown : ∀ {x values}, values ≠ [] → x = .null ∨ x ∉ values ∧ .null ∈ values →
    isIn x values = verdict

/-- `IN` with the verdict that nulls lead to. -/
def Membership.ofVerdict (A : Type) [DecidableEq A] (verdict : Option Bool)
    (h : verdict ≠ some true) : Membership A where
  isIn x values :=
    if values = [] then some false
    else if x = .null then verdict
    else if x ∈ values then some true
    else if .null ∈ values then verdict
    else some false
  verdict := verdict
  verdict_ne := h
  empty _ := rfl
  found hx hmem := by rw [if_neg (List.ne_nil_of_mem hmem), if_neg hx, if_pos hmem]
  missed hx hmem hnull := by rw [if_neg hx, if_neg hmem, if_neg hnull, ite_self]
  unknown hne := by
    rintro (rfl | ⟨hmem, hnull⟩)
    · rw [if_neg hne, if_pos rfl]
    · rw [if_neg hne, if_neg hmem, if_pos hnull, ite_self]

/-- `IN` as a scan for an equal value. -/
def twoValued (A : Type) [DecidableEq A] : Membership A := .ofVerdict A (some false) (by simp)

/-- `SERIES(n)`: one column of the numbers from 1 on. -/
def series (n : ℕ) : Relation String (Value A) where
  columns := ["N"]
  rows := (List.range n).map fun i => [.int (i + 1)]
  width row hrow := by
    obtain ⟨_, _, rfl⟩ := List.mem_map.mp hrow
    rfl

variable (M : Membership A)

mutual

/-- The result, unless a name is not that of one column. -/
def Query.eval : Query A → Option (Relation String (Value A))
  | .body rows => some rows
  | .select distinct projection source selection =>
    source.eval.bind fun rel => (selection.eval rel).bind fun kept =>
      if projection.all fun e => e.1.resolves kept.columns then
        let rows := kept.project (projection.map fun e => (e.1.value kept.columns, e.2))
        some (if distinct then rows.distinct else rows)
      else none

def Source.eval : Source A → Option (Relation Column (Value A))
  | .series n tableAlias => some ((series n).rename (Column.mk tableAlias))
  | .table query tableAlias => query.eval.map (Relation.rename (Column.mk tableAlias))
  | .leftJoin left query tableAlias c n =>
    left.eval.bind fun l => query.eval.bind fun r =>
      let columns := l.columns ++ (r.rename (Column.mk tableAlias)).columns
      if Relation.Resolves columns c then
        some (l.leftJoin .null (r.rename (Column.mk tableAlias)) fun row =>
          Relation.value .null columns row c = .int n)
      else none

def Filter.eval : Filter A → Relation Column (Value A) → Option (Relation Column (Value A))
  | .all, rel => some rel
  | .isIn c negated query, rel =>
    query.eval.bind fun sub =>
      if sub.columns.length = 1 ∧ Relation.Resolves rel.columns c then
        some (rel.filter fun row =>
          M.isIn (Relation.value .null rel.columns row c) (sub.rows.flatMap id) = some !negated)
      else none

end

end Eval

/-- UNION and UNION ALL of branches. -/
def IsUnion : SetExpr A → Prop
  | .select _ => True
  | .setOperation op quantifier left right =>
    op = .union ∧ quantifier ∈ [SetQuantifier.all, .distinct, .none] ∧ IsUnion left ∧ IsUnion right
  | _ => False

def leaves : SetExpr A → List (Select A)
  | .select s => [s]
  | .setOperation _ _ left right => leaves left ++ leaves right
  | _ => []

def Select.empty (s : Select A) : Prop := s.result.rows = []

/-- The branch returns a row of nulls only. -/
def Select.HasNulls (s : Select A) : Prop := s.result.nulls .null ∈ s.result.rows

/-- Every branch without rows is under a UNION that has a row of nulls anyway. -/
def NullsHidden : SetExpr A → Prop
  | .select s => ¬ s.empty
  | .setOperation _ quantifier left right =>
    if keepAll quantifier then NullsHidden left ∧ NullsHidden right
    else (∀ s ∈ leaves left ++ leaves right, ¬ s.empty) ∨
      ∃ s ∈ leaves left ++ leaves right, s.HasNulls
  | _ => False

section Bags

variable [DecidableEq A]

def unionBag : SetExpr A → Multiset (List (Value A))
  | .select s => s.result.bag
  | .values rows => rows.bag
  | .setOperation _ quantifier left right =>
    if keepAll quantifier then unionBag left + unionBag right
    else (unionBag left + unionBag right).dedup
  | .other => 0

/-- The rows the rewritten query returns: an empty branch has a row of nulls. -/
def joinBag : SetExpr A → Multiset (List (Value A))
  | .select s => s.result.padded .null
  | .values rows => rows.padded .null
  | .setOperation _ quantifier left right =>
    if keepAll quantifier then joinBag left + joinBag right
    else (joinBag left + joinBag right).dedup
  | .other => 0

end Bags

theorem Column.mk_injective (t : Alias) : Function.Injective (Column.mk t) :=
  fun _ _ h => (Column.mk.inj h).2

theorem not_mem_columns {t t' : Alias} (h : t ≠ t') (cols : List String) (c : String) :
    Column.mk t c ∉ cols.map (Column.mk t') := by
  rw [List.mem_map]
  intro ⟨_, _, hc⟩
  exact h (Column.mk.inj hc).1.symm

section Scope

variable (id : ℕ) (lcols rcols : List String)

/-- The columns of the driver and the two branches. -/
def joinColumns : List Column :=
  ⟨.driver id, "N"⟩ :: (lcols.map (Column.mk (.left id)) ++ rcols.map (Column.mk (.right id)))

theorem resolves_driver : Relation.Resolves (joinColumns id lcols rcols) ⟨.driver id, "N"⟩ := by
  apply Relation.resolves_head
  rw [List.mem_append, not_or]
  exact ⟨not_mem_columns (by simp) _ _, not_mem_columns (by simp) _ _⟩

theorem resolves_left (c : String) : Relation.Resolves (joinColumns id lcols rcols) ⟨.left id, c⟩ ↔
    Relation.Resolves lcols c := by
  unfold joinColumns
  rw [Relation.resolves_tail (by simp),
    Relation.resolves_append_left (not_mem_columns (by simp) _ _),
    Relation.resolves_map (Column.mk_injective _)]

theorem resolves_right (c : String) :
    Relation.Resolves (joinColumns id lcols rcols) ⟨.right id, c⟩ ↔
      Relation.Resolves rcols c := by
  unfold joinColumns
  rw [Relation.resolves_tail (by simp),
    Relation.resolves_append_right (not_mem_columns (by simp) _ _),
    Relation.resolves_map (Column.mk_injective _)]

variable {lcols rcols} {x : Value A} {a b : List (Value A)}

theorem value_left (ha : a.length = lcols.length) {c : String} (hc : c ∈ lcols) :
    Relation.value .null (joinColumns id lcols rcols) (x :: (a ++ b)) ⟨.left id, c⟩ =
      Relation.value .null lcols a c := by
  unfold joinColumns
  rw [Relation.value_tail (by simp),
    Relation.value_append_left (by rw [List.length_map, ha]) (List.mem_map_of_mem hc),
    Relation.value_map (Column.mk_injective _)]

theorem value_right (ha : a.length = lcols.length) (c : String) :
    Relation.value .null (joinColumns id lcols rcols) (x :: (a ++ b)) ⟨.right id, c⟩ =
      Relation.value .null rcols b c := by
  unfold joinColumns
  rw [Relation.value_tail (by simp),
    Relation.value_append_right (by rw [List.length_map, ha]) (not_mem_columns (by simp) _ _),
    Relation.value_map (Column.mk_injective _)]

end Scope

section Join

variable {l r : Query A} {L R : Relation String (Value A)} {id : ℕ}

/-- The rows of the driver with the branches: the first has those of the left
branch, the second those of the right. -/
def joinRows (L R : Relation String (Value A)) : List (List (Value A)) :=
  (L.padded .null).map (fun a => .int 1 :: (a ++ R.nulls .null)) ++
    (R.padded .null).map fun b => .int 2 :: (L.nulls .null ++ b)

theorem nulls_rename (L : Relation String (Value A)) (f : String → Column) :
    (L.rename f).nulls .null = L.nulls .null := by
  unfold Relation.nulls Relation.rename
  rw [List.length_map]

theorem padded_rename (L : Relation String (Value A)) (f : String → Column) :
    (L.rename f).padded .null = L.padded .null := by
  unfold Relation.padded
  rw [nulls_rename]
  rfl

/-- The driver with two branches, each joined with one of its rows. -/
def joinSource (id : ℕ) (left right : Query A) : Source A :=
  .leftJoin (.leftJoin (.series 2 (.driver id)) left (.left id) ⟨.driver id, "N"⟩ 1) right
    (.right id) ⟨.driver id, "N"⟩ 2

variable [DecidableEq A] {M : Membership A}

theorem joinSource_none_left (h : l.eval M = none) : (joinSource id l r).eval M = none := by
  simp [joinSource, Source.eval, h]

theorem joinSource_none_right (h : r.eval M = none) : (joinSource id l r).eval M = none := by
  simp [joinSource, Source.eval, h]

/-- The rows of one side, by the number its driver row is joined on. -/
def gated (t : Alias) (c : Column) (n : ℤ) (rel : Relation Column (Value A))
    (R : Relation String (Value A)) : Relation Column (Value A) :=
  rel.leftJoin .null (R.rename (Column.mk t)) fun row =>
    Relation.value .null (rel.columns ++ R.columns.map (Column.mk t)) row c = .int n

theorem leftJoin_eval {source : Source A} {rel : Relation Column (Value A)} {t : Alias}
    {c : Column} {n : ℤ} (hs : source.eval M = some rel) (hr : r.eval M = some R)
    (hc : Relation.Resolves (rel.columns ++ R.columns.map (Column.mk t)) c) :
    (Source.leftJoin source r t c n).eval M = some (gated t c n rel R) := by
  rw [Source.eval, hs, hr]
  exact if_pos hc

theorem outerMatches_gated (R : Relation String (Value A)) (cols : List Column) (c : Column)
    (t : Alias) (n m : ℤ) (row : List (Value A)) :
    Relation.outerMatches .null (R.rename (Column.mk t))
        (fun joined => Relation.value .null (c :: cols) joined c = .int n) (.int m :: row) =
      if m = n then (R.padded .null).map (.int m :: row ++ ·)
      else [.int m :: row ++ R.nulls .null] := by
  have hgate : ∀ other : List (Value A),
      Relation.value .null (c :: cols) (.int m :: row ++ other) c = .int m :=
    fun other => Relation.value_head ..
  split_ifs with hmn
  · rw [Relation.outerMatches_of_true, padded_rename]
    intro other
    rw [hgate other, hmn]
    exact decide_eq_true rfl
  · rw [Relation.outerMatches_of_false, nulls_rename]
    intro other
    rw [hgate other]
    exact decide_eq_false fun h => hmn (Value.int.inj h)

variable (id) in
theorem joinSource_eval (hl : l.eval M = some L) (hr : r.eval M = some R) :
    ∃ rel, (joinSource id l r).eval M = some rel ∧
      rel.columns = joinColumns id L.columns R.columns ∧ rel.rows = joinRows L R := by
  have hseries : (Source.series 2 (.driver id) : Source A).eval M =
      some ((series 2).rename (Column.mk (.driver id))) := rfl
  have hdriver : Column.mk (.driver id) "N" ∉ L.columns.map (Column.mk (.left id)) :=
    not_mem_columns (by simp) _ _
  have hfirst := leftJoin_eval (n := 1) hseries hl (Relation.resolves_head hdriver)
  have hboth := leftJoin_eval (n := 2) hfirst hr (resolves_driver id L.columns R.columns)
  refine ⟨_, hboth, rfl, ?_⟩
  have hleft : (gated (.left id) ⟨.driver id, "N"⟩ 1
      ((series 2).rename (Column.mk (.driver id))) L).rows =
        (L.padded .null).map (.int 1 :: ·) ++ [.int 2 :: L.nulls .null] := by
    have hone := outerMatches_gated L (L.columns.map (Column.mk (.left id)))
      ⟨.driver id, "N"⟩ (.left id) 1 1 []
    have htwo := outerMatches_gated L (L.columns.map (Column.mk (.left id)))
      ⟨.driver id, "N"⟩ (.left id) 1 2 []
    exact congrArg₂ (· ++ ·) hone ((List.append_nil _).trans htwo)
  have hgate := outerMatches_gated R (L.columns.map (Column.mk (.left id)) ++
    R.columns.map (Column.mk (.right id))) ⟨.driver id, "N"⟩ (.right id) 2
  calc (gated (.right id) ⟨.driver id, "N"⟩ 2 _ R).rows
    _ = ((L.padded .null).map (.int 1 :: ·) ++ [.int 2 :: L.nulls .null]).flatMap
        (Relation.outerMatches .null (R.rename (Column.mk (.right id))) fun joined =>
          Relation.value .null (joinColumns id L.columns R.columns) joined ⟨.driver id, "N"⟩ =
            .int 2) := congrArg (List.flatMap _) hleft
    _ = joinRows L R := by
      rw [List.flatMap_append, List.flatMap_map, List.flatMap_singleton]
      apply congrArg₂ (· ++ ·)
      · rw [List.map_eq_flatMap]
        exact List.flatMap_congr fun a _ => hgate 1 a
      · exact hgate 2 _

/-- The projection of the join. -/
def unionProjection (id : ℕ) (lcols rcols : List String) : List (Expr × String) :=
  (lcols.zip rcols).map fun (lc, rc) =>
    (.caseWhen ⟨.driver id, "N"⟩ 1 ⟨.left id, lc⟩ ⟨.right id, rc⟩, lc)

omit [DecidableEq A] in
theorem unionAll_eq (lcols rcols : List String) :
    unionAll id lcols rcols l r =
      .select false (unionProjection id lcols rcols) (joinSource id l r) .all := rfl

variable {lcols rcols : List String}

theorem unionProjection_names (hlen : lcols.length = rcols.length) :
    (unionProjection id lcols rcols).map Prod.snd = lcols := by
  unfold unionProjection
  rw [List.map_map]
  exact List.map_fst_zip hlen.le

variable (id) in
/-- Every name of the projection is read when no branch has a name twice. -/
theorem unionProjection_resolves (hlen : lcols.length = rcols.length) :
    ((unionProjection id lcols rcols).all fun e => e.1.resolves (joinColumns id lcols rcols)) ↔
      lcols.Nodup ∧ rcols.Nodup := by
  have hiff : ((unionProjection id lcols rcols).all fun e =>
      e.1.resolves (joinColumns id lcols rcols)) ↔
        ∀ p ∈ lcols.zip rcols, Relation.Resolves lcols p.1 ∧ Relation.Resolves rcols p.2 := by
    unfold unionProjection
    rw [List.all_map, List.all_eq_true]
    refine forall₂_congr fun p _ => ?_
    simp [Expr.resolves, resolves_driver, resolves_left, resolves_right]
  rw [hiff]
  constructor
  · intro h
    constructor
    · apply Relation.nodup_of_resolves
      intro c hc
      rw [← List.map_fst_zip hlen.le] at hc
      obtain ⟨p, hp, rfl⟩ := List.mem_map.mp hc
      exact (h p hp).1
    · apply Relation.nodup_of_resolves
      intro c hc
      rw [← List.map_snd_zip hlen.ge] at hc
      obtain ⟨p, hp, rfl⟩ := List.mem_map.mp hc
      exact (h p hp).2
  · intro ⟨hl, hr⟩ p hp
    exact ⟨Relation.resolves_of_nodup hl (List.of_mem_zip hp).1,
      Relation.resolves_of_nodup hr (List.of_mem_zip hp).2⟩

theorem unionProjection_value (hlen : lcols.length = rcols.length) (hl : lcols.Nodup)
    (hr : rcols.Nodup) (n : ℤ) {a b : List (Value A)} (ha : a.length = lcols.length)
    (hb : b.length = rcols.length) :
    (unionProjection id lcols rcols).map (fun e =>
      e.1.value (joinColumns id lcols rcols) (.int n :: (a ++ b))) = if n = 1 then a else b := by
  have hdriver : Relation.value .null (joinColumns id lcols rcols) (.int n :: (a ++ b))
      ⟨.driver id, "N"⟩ = .int n := Relation.value_head ..
  unfold unionProjection
  rw [List.map_map]
  split_ifs with hn
  · calc (lcols.zip rcols).map _
      _ = (lcols.zip rcols).map (Relation.value .null lcols a ∘ Prod.fst) := by
        apply List.map_congr_left
        intro p hp
        change (if _ = _ then _ else _) = _
        rw [hdriver, if_pos (congrArg _ hn)]
        exact value_left id ha (List.of_mem_zip hp).1
      _ = lcols.map (Relation.value .null lcols a) := by
        rw [← List.map_map, List.map_fst_zip hlen.le]
      _ = a := Relation.map_value hl .null ha
  · calc (lcols.zip rcols).map _
      _ = (lcols.zip rcols).map (Relation.value .null rcols b ∘ Prod.snd) := by
        apply List.map_congr_left
        intro p hp
        change (if _ = _ then _ else _) = _
        rw [hdriver, if_neg fun h => hn (Value.int.inj h)]
        exact value_right id ha p.2
      _ = rcols.map (Relation.value .null rcols b) := by
        rw [← List.map_map, List.map_snd_zip hlen.ge]
      _ = b := Relation.map_value hr .null hb

/-- The columns a projection computes. -/
def projected (rel : Relation Column (Value A)) (projection : List (Expr × String)) :
    Relation String (Value A) :=
  rel.project (projection.map fun e => (e.1.value rel.columns, e.2))

theorem select_eval {source : Source A} {rel : Relation Column (Value A)}
    (h : source.eval M = some rel) (distinct : Bool) (projection : List (Expr × String)) :
    (Query.select distinct projection source .all).eval M =
      if projection.all fun e => e.1.resolves rel.columns then
        some (if distinct then (projected rel projection).distinct else projected rel projection)
      else none := by
  rw [Query.eval, h]
  rfl

theorem unionAll_none (h : l.eval M = none ∨ r.eval M = none) :
    (unionAll id lcols rcols l r).eval M = none := by
  rw [unionAll_eq, Query.eval]
  rcases h with h | h
  · rw [joinSource_none_left h, Option.bind_none]
  · rw [joinSource_none_right h, Option.bind_none]

variable (id) in
/-- The join of two branches returns the rows of both, or fails on a name that a
branch has twice. -/
theorem unionAll_eval (hl : l.eval M = some L) (hr : r.eval M = some R)
    (hlen : L.columns.length = R.columns.length) :
    if L.columns.Nodup ∧ R.columns.Nodup then
      ∃ rel, (unionAll id L.columns R.columns l r).eval M = some rel ∧ rel.columns = L.columns ∧
        rel.rows = L.padded .null ++ R.padded .null
    else (unionAll id L.columns R.columns l r).eval M = none := by
  obtain ⟨joined, hjoined, hcols, hrows⟩ := joinSource_eval id hl hr
  rw [unionAll_eq, select_eval hjoined, hcols]
  have hres := unionProjection_resolves id hlen
  by_cases hnodup : L.columns.Nodup ∧ R.columns.Nodup
  · rw [if_pos hnodup, if_pos (hres.mpr hnodup)]
    refine ⟨_, rfl, ?_, ?_⟩
    · change ((unionProjection id L.columns R.columns).map _).map Prod.snd = _
      rw [List.map_map]
      exact unionProjection_names hlen
    · change joined.rows.map _ = _
      rw [hrows, hcols, joinRows, List.map_append, List.map_map, List.map_map]
      have hnulls : ∀ S : Relation String (Value A),
          (S.nulls .null).length = S.columns.length := fun S => List.length_replicate
      have hleft : ∀ a ∈ L.padded .null, (unionProjection id L.columns R.columns).map (fun e =>
          e.1.value (joinColumns id L.columns R.columns) (.int 1 :: (a ++ R.nulls .null))) = a :=
        fun a ha => unionProjection_value hlen hnodup.1 hnodup.2 1 (L.padded_width _ a ha)
          (hnulls R)
      have hright : ∀ b ∈ R.padded .null, (unionProjection id L.columns R.columns).map (fun e =>
          e.1.value (joinColumns id L.columns R.columns) (.int 2 :: (L.nulls .null ++ b))) = b :=
        fun b hb => unionProjection_value hlen hnodup.1 hnodup.2 2 (hnulls L)
          (R.padded_width _ b hb)
      apply congrArg₂ (· ++ ·)
      · apply Eq.trans _ (List.map_id _)
        apply List.map_congr_left
        intro a ha
        exact (List.map_map ..).trans (hleft a ha)
      · apply Eq.trans _ (List.map_id _)
        apply List.map_congr_left
        intro b hb
        exact (List.map_map ..).trans (hright b hb)
  · rw [if_neg hnodup, if_neg (hnodup ∘ hres.mp)]

theorem unionDistinct_none {q : Query A} (h : q.eval M = none) :
    (unionDistinct id lcols q).eval M = none := by
  unfold unionDistinct
  rw [Query.eval, Source.eval, h]
  rfl

variable (id) in
theorem unionDistinct_eval {q : Query A} {rel : Relation String (Value A)}
    (h : q.eval M = some rel)
    (hnodup : rel.columns.Nodup) :
    ∃ rel', (unionDistinct id rel.columns q).eval M = some rel' ∧ rel'.columns = rel.columns ∧
      rel'.rows = rel.rows.dedup := by
  have hsource : (Source.table q (.union id)).eval M =
      some (rel.rename (Column.mk (.union id))) := by
    rw [Source.eval, h]
    rfl
  have hall : ∀ e ∈ rel.columns.map fun c => (Expr.column ⟨.union id, c⟩, c),
      e.1.resolves (rel.rename (Column.mk (.union id))).columns = true := by
    intro e he
    obtain ⟨c, hc, rfl⟩ := List.mem_map.mp he
    apply decide_eq_true
    change Relation.Resolves (rel.columns.map (Column.mk (.union id))) _
    rw [Relation.resolves_map (Column.mk_injective _)]
    exact Relation.resolves_of_nodup hnodup hc
  unfold unionDistinct
  rw [select_eval hsource, if_pos (List.all_eq_true.mpr hall)]
  refine ⟨_, rfl, ?_, ?_⟩
  · change ((rel.columns.map fun c => (Expr.column ⟨.union id, c⟩, c)).map _).map Prod.snd = _
    rw [List.map_map, List.map_map]
    exact List.map_id _
  · change (rel.rows.map _).dedup = _
    apply congrArg List.dedup
    apply Eq.trans _ (List.map_id _)
    apply List.map_congr_left
    intro row hrow
    apply Eq.trans _ (Relation.map_value hnodup .null (rel.width row hrow))
    rw [List.map_map, List.map_map]
    apply List.map_congr_left
    intro c _
    exact Relation.value_map (Column.mk_injective _) ..

end Join

/-- No branch has two columns of one name. -/
def Named (e : SetExpr A) : Prop := ∀ s ∈ leaves e, s.result.columns.Nodup

theorem named_setOperation {op : SetOperator} {quantifier : SetQuantifier}
    {left right : SetExpr A} :
    Named (.setOperation op quantifier left right) ↔ Named left ∧ Named right :=
  List.forall_mem_append

theorem columns_leaf {e : SetExpr A} (hunion : IsUnion e) {cols : List String}
    (hcols : cols ∈ columns e) : ∃ s ∈ leaves e, s.result.columns = cols := by
  induction e with
  | select s => exact ⟨s, List.mem_singleton_self s, s.named cols hcols⟩
  | setOperation op quantifier left right ihl ihr =>
    obtain ⟨s, hs, hcols⟩ := ihl hunion.2.2.1 hcols
    exact ⟨s, List.mem_append_left _ hs, hcols⟩
  | values rows => exact hunion.elim
  | other => exact hunion.elim

section Trees

variable [DecidableEq A] {M : Membership A} {e left right : SetExpr A} {l r q : Query A}
    {cols lcols rcols : List String}

/-- What the query of a branch returns; one with a name twice cannot be read. -/
structure BranchEval (M : Membership A) (e : SetExpr A) (cols : List String) (q : Query A) :
    Prop where
  named : Named e → ∃ rel, q.eval M = some rel ∧ rel.columns = cols ∧
    (rel.padded .null : Multiset (List (Value A))) = joinBag e
  unnamed : ¬ Named e → q.eval M = none ∨
    ¬ cols.Nodup ∧ ∃ rel, q.eval M = some rel ∧ rel.columns = cols

theorem unionOf_none {id : ℕ} {quantifier : SetQuantifier}
    (h : l.eval M = none ∨ r.eval M = none) :
    (unionOf id quantifier lcols rcols l r).eval M = none := by
  unfold unionOf
  split_ifs
  · exact unionAll_none h
  · exact unionDistinct_none (unionAll_none h)

/-- The join fails when the columns of a branch cannot be read. -/
theorem unionOf_unnamed {id : ℕ} {quantifier : SetQuantifier} {L R : Relation String (Value A)}
    (hl : l.eval M = some L) (hr : r.eval M = some R) (hlen : L.columns.length = R.columns.length)
    (h : ¬ (L.columns.Nodup ∧ R.columns.Nodup)) :
    (unionOf id quantifier L.columns R.columns l r).eval M = none := by
  have hall := unionAll_eval id hl hr hlen
  rw [if_neg h] at hall
  unfold unionOf
  split_ifs
  · exact hall
  · exact unionDistinct_none hall

theorem unionOf_named {id : ℕ} (op : SetOperator) {quantifier : SetQuantifier}
    (hl : BranchEval M left lcols l) (hr : BranchEval M right rcols r)
    (hlen : lcols.length = rcols.length) (hlcols : lcols.Nodup) (hrcols : rcols.Nodup)
    (hnamed : Named left ∧ Named right) :
    ∃ rel, (unionOf id quantifier lcols rcols l r).eval M = some rel ∧ rel.columns = lcols ∧
      rel.bag = joinBag (.setOperation op quantifier left right) := by
  obtain ⟨L, hL, rfl, hLbag⟩ := hl.named hnamed.1
  obtain ⟨R, hR, rfl, hRbag⟩ := hr.named hnamed.2
  have hall := unionAll_eval id hL hR hlen
  rw [if_pos ⟨hlcols, hrcols⟩] at hall
  obtain ⟨rel, hrel, hcols, hrows⟩ := hall
  have hbag : rel.bag = joinBag left + joinBag right := by
    rw [Relation.bag, hrows, ← Multiset.coe_add, hLbag, hRbag]
  unfold unionOf joinBag
  split_ifs
  · exact ⟨rel, hrel, hcols, hbag⟩
  · have hdistinct := unionDistinct_eval id hrel (hcols ▸ hlcols)
    obtain ⟨rel', hrel', hcols', hrows'⟩ := hdistinct
    refine ⟨rel', hcols ▸ hrel', hcols'.trans hcols, ?_⟩
    rw [← hbag, Relation.bag, hrows', Relation.bag, Multiset.coe_dedup]

theorem BranchEval.cases (h : BranchEval M e cols q) :
    q.eval M = none ∨ ∃ rel, q.eval M = some rel ∧ rel.columns = cols ∧ (cols.Nodup → Named e) := by
  by_cases hnamed : Named e
  · obtain ⟨rel, hrel, hcols, _⟩ := h.named hnamed
    exact Or.inr ⟨rel, hrel, hcols, fun _ => hnamed⟩
  · rcases h.unnamed hnamed with hnone | ⟨hdup, rel, hrel, hcols⟩
    · exact Or.inl hnone
    · exact Or.inr ⟨rel, hrel, hcols, fun hnodup => absurd hnodup hdup⟩

theorem unionOf_failed {id : ℕ} {quantifier : SetQuantifier} (hl : BranchEval M left lcols l)
    (hr : BranchEval M right rcols r) (hlen : lcols.length = rcols.length)
    (hnamed : ¬ (Named left ∧ Named right)) :
    (unionOf id quantifier lcols rcols l r).eval M = none := by
  rcases hl.cases with hnone | ⟨L, hL, rfl, hLnamed⟩
  · exact unionOf_none (Or.inl hnone)
  · rcases hr.cases with hnone | ⟨R, hR, rfl, hRnamed⟩
    · exact unionOf_none (Or.inr hnone)
    · exact unionOf_unnamed hL hR hlen fun hnodup => hnamed (hnodup.imp hLnamed hRnamed)

theorem joinBag_ne_zero (hunion : IsUnion e) : joinBag e ≠ 0 := by
  induction e with
  | select s => exact fun h => Relation.padded_ne_nil _ _ ((Multiset.coe_eq_zero _).mp h)
  | setOperation op quantifier left right ihl ihr =>
    have hadd : joinBag left + joinBag right ≠ 0 :=
      fun h => ihl hunion.2.2.1 (add_eq_zero.mp h).1
    unfold joinBag
    split_ifs
    · exact hadd
    · intro h
      exact hadd (Multiset.dedup_eq_zero.mp h)
  | values rows => exact hunion.elim
  | other => exact hunion.elim

omit [DecidableEq A] in
/-- The query that an operation is rewritten to, from the queries of its branches. -/
theorem setOperation_some {op : SetOperator} {quantifier : SetQuantifier} {n n' : ℕ}
    (hop : op = .union) (h : setexprToSql (.setOperation op quantifier left right) n =
      some (q, n')) :
    ∃ l r m lcols rcols, setexprToSql left (n + 1) = some (l, m) ∧
      setexprToSql right m = some (r, n') ∧ columns left = some lcols ∧
      columns right = some rcols ∧ lcols.length = rcols.length ∧
      q = unionOf n quantifier lcols rcols l r := by
  subst hop
  obtain ⟨⟨l, m⟩, hl, h⟩ := Option.bind_eq_some_iff.mp h
  obtain ⟨⟨r, m'⟩, hr, h⟩ := Option.bind_eq_some_iff.mp h
  obtain ⟨q', hq, hpair⟩ := Option.map_eq_some_iff.mp h
  obtain ⟨rfl, rfl⟩ := Prod.mk.inj hpair
  obtain ⟨lcols, hlcols, hq⟩ := Option.bind_eq_some_iff.mp hq
  obtain ⟨rcols, hrcols, hq⟩ := Option.bind_eq_some_iff.mp hq
  split_ifs at hq with hlen
  exact ⟨l, r, m, lcols, rcols, hl, hr, hlcols, hrcols, not_not.mp hlen, (Option.some.inj hq).symm⟩

omit [DecidableEq A] in
theorem nodup_of_named (hunion : IsUnion e) (hcols : columns e = some cols) (h : Named e) :
    cols.Nodup := by
  obtain ⟨s, hs, rfl⟩ := columns_leaf hunion hcols
  exact h s hs

theorem setexprToSql_eval {n n' : ℕ} (hunion : IsUnion e)
    (h : setexprToSql e n = some (q, n')) (hcols : columns e = some cols) :
    BranchEval M e cols q := by
  induction e generalizing n n' q cols with
  | select s =>
    obtain ⟨rfl, -⟩ := Prod.mk.inj (Option.some.inj h)
    have hresult := s.named cols hcols
    constructor
    · intro _
      exact ⟨s.result, rfl, hresult, rfl⟩
    · intro hdup
      refine Or.inr ⟨fun hnodup => hdup fun s' hs' => ?_, s.result, rfl, hresult⟩
      rw [List.mem_singleton.mp hs', hresult]
      exact hnodup
  | setOperation op quantifier left right ihl ihr =>
    obtain ⟨hop, _, hul, hur⟩ := hunion
    obtain ⟨l, r, m, lcols, rcols, hl, hr, hlcols, hrcols, hlen, rfl⟩ := setOperation_some hop h
    have hleft := ihl hul hl hlcols
    have hright := ihr hur hr hrcols
    obtain rfl : lcols = cols := Option.some.inj (hlcols.symm.trans hcols)
    constructor
    · intro hnamed
      have hnamed' := named_setOperation.mp hnamed
      obtain ⟨rel, hrel, hrelcols, hbag⟩ := unionOf_named op hleft hright hlen
        (nodup_of_named hul hlcols hnamed'.1) (nodup_of_named hur hrcols hnamed'.2) hnamed'
      refine ⟨rel, hrel, hrelcols, ?_⟩
      have hrows : rel.rows ≠ [] := by
        intro hnil
        apply joinBag_ne_zero (e := .setOperation op quantifier left right) ⟨hop, ‹_›, hul, hur⟩
        rw [← hbag, Relation.bag, hnil]
        rfl
      rw [Relation.padded, if_neg hrows]
      exact hbag
    · intro hnamed
      exact Or.inl (unionOf_failed hleft hright hlen (hnamed ∘ named_setOperation.mpr))
  | values rows => exact hunion.elim
  | other => exact hunion.elim

omit [DecidableEq A] in
/-- The branches of a rewritten tree have one number of columns. -/
theorem leaves_width {n n' : ℕ} (hunion : IsUnion e) (h : setexprToSql e n = some (q, n'))
    (hcols : columns e = some cols) : ∀ s ∈ leaves e, s.result.columns.length = cols.length := by
  induction e generalizing n n' q cols with
  | select s =>
    intro s' hs'
    rw [List.mem_singleton.mp hs', s.named cols hcols]
  | setOperation op quantifier left right ihl ihr =>
    obtain ⟨hop, _, hul, hur⟩ := hunion
    obtain ⟨l, r, m, lcols, rcols, hl, hr, hlcols, hrcols, hlen, rfl⟩ := setOperation_some hop h
    obtain rfl : lcols = cols := Option.some.inj (hlcols.symm.trans hcols)
    intro s hs
    rcases List.mem_append.mp hs with hs | hs
    · exact ihl hul hl hlcols s hs
    · exact (ihr hur hr hrcols s hs).trans hlen.symm
  | values rows => exact hunion.elim
  | other => exact hunion.elim

omit [DecidableEq A] in
theorem exists_mem_append {P : Select A → Prop} {l₁ l₂ : List (Select A)} :
    (∃ s ∈ l₁ ++ l₂, P s) ↔ (∃ s ∈ l₁, P s) ∨ ∃ s ∈ l₂, P s := by
  simp only [List.mem_append, or_and_right, exists_or]

section Width

variable {w : ℕ}

theorem mem_unionBag_nulls (hunion : IsUnion e)
    (hw : ∀ s ∈ leaves e, s.result.columns.length = w) :
    List.replicate w .null ∈ unionBag e ↔ ∃ s ∈ leaves e, s.HasNulls := by
  induction e with
  | select s =>
    obtain rfl := hw s (List.mem_singleton_self s)
    simp only [leaves, List.mem_singleton, exists_eq_left]
    exact Multiset.mem_coe
  | setOperation op quantifier left right ihl ihr =>
    have hl := ihl hunion.2.2.1 fun s hs => hw s (List.mem_append_left _ hs)
    have hr := ihr hunion.2.2.2 fun s hs => hw s (List.mem_append_right _ hs)
    have hadd : List.replicate w .null ∈ unionBag left + unionBag right ↔
        ∃ s ∈ leaves left ++ leaves right, s.HasNulls := by
      rw [Multiset.mem_add, hl, hr, exists_mem_append]
    unfold unionBag
    split_ifs
    · exact hadd
    · exact Multiset.mem_dedup.trans hadd
  | values rows => exact hunion.elim
  | other => exact hunion.elim

theorem mem_joinBag (hunion : IsUnion e) (hw : ∀ s ∈ leaves e, s.result.columns.length = w)
    {row : List (Value A)} : row ∈ joinBag e ↔
      row ∈ unionBag e ∨ row = List.replicate w .null ∧ ∃ s ∈ leaves e, s.empty := by
  induction e with
  | select s =>
    obtain rfl := hw s (List.mem_singleton_self s)
    simp only [leaves, List.mem_singleton, exists_eq_left]
    exact Relation.mem_padded
  | setOperation op quantifier left right ihl ihr =>
    have hl := ihl hunion.2.2.1 fun s hs => hw s (List.mem_append_left _ hs)
    have hr := ihr hunion.2.2.2 fun s hs => hw s (List.mem_append_right _ hs)
    have hadd : row ∈ joinBag left + joinBag right ↔ row ∈ unionBag left + unionBag right ∨
        row = List.replicate w .null ∧ ∃ s ∈ leaves left ++ leaves right, s.empty := by
      rw [Multiset.mem_add, Multiset.mem_add, hl, hr, exists_mem_append, and_or_left]
      exact or_or_or_comm
    unfold joinBag unionBag
    split_ifs
    · exact hadd
    · rw [Multiset.mem_dedup, Multiset.mem_dedup]
      exact hadd
  | values rows => exact hunion.elim
  | other => exact hunion.elim

theorem unionBag_le_joinBag (hunion : IsUnion e) : unionBag e ≤ joinBag e := by
  induction e with
  | select s =>
    change (s.result.rows : Multiset (List (Value A))) ≤ s.result.padded .null
    unfold Relation.padded
    split_ifs with hempty
    · rw [hempty]
      exact Multiset.zero_le _
    · exact le_rfl
  | setOperation op quantifier left right ihl ihr =>
    have hadd := add_le_add (ihl hunion.2.2.1) (ihr hunion.2.2.2)
    unfold unionBag joinBag
    split_ifs
    · exact hadd
    · rw [Multiset.le_dedup]
      exact ⟨(Multiset.dedup_le _).trans hadd, Multiset.nodup_dedup _⟩
  | values rows => exact hunion.elim
  | other => exact hunion.elim

theorem joinBag_eq_iff (hunion : IsUnion e) (hw : ∀ s ∈ leaves e, s.result.columns.length = w) :
    joinBag e = unionBag e ↔ NullsHidden e := by
  induction e with
  | select s =>
    change (s.result.padded .null : Multiset (List (Value A))) = s.result.rows ↔ s.result.rows ≠ []
    unfold Relation.padded
    split_ifs with hempty <;> simp [hempty]
  | setOperation op quantifier left right ihl ihr =>
    have hwl : ∀ s ∈ leaves left, s.result.columns.length = w :=
      fun s hs => hw s (List.mem_append_left _ hs)
    have hwr : ∀ s ∈ leaves right, s.result.columns.length = w :=
      fun s hs => hw s (List.mem_append_right _ hs)
    obtain ⟨-, -, hul, hur⟩ := hunion
    unfold joinBag unionBag NullsHidden
    split_ifs
    · rw [eq_comm, add_eq_add_iff_eq_and_eq (unionBag_le_joinBag hul) (unionBag_le_joinBag hur),
        ← ihl hul hwl, ← ihr hur hwr, eq_comm, @eq_comm _ (unionBag right)]
    · have hall : IsUnion (.setOperation .union .all left right) := ⟨rfl, by simp, hul, hur⟩
      have hnulls := mem_unionBag_nulls hall hw
      change List.replicate w .null ∈ unionBag left + unionBag right ↔ _ at hnulls
      rw [Multiset.dedup_ext]
      have hmem : ∀ row, row ∈ joinBag left + joinBag right ↔
          row ∈ unionBag left + unionBag right ∨ row = List.replicate w .null ∧
            ∃ s ∈ leaves left ++ leaves right, s.empty := fun row => mem_joinBag hall hw
      constructor
      · intro h
        by_cases hempty : ∃ s ∈ leaves left ++ leaves right, s.empty
        · exact Or.inr (hnulls.mp ((h _).mp ((hmem _).mpr (Or.inr ⟨rfl, hempty⟩))))
        · exact Or.inl fun s hs hs' => hempty ⟨s, hs, hs'⟩
      · intro h row
        rw [hmem row]
        constructor
        · rintro (hrow | ⟨rfl, s, hs, hempty⟩)
          · exact hrow
          · exact hnulls.mpr (h.resolve_left fun hfull => hfull s hs hempty)
        · exact Or.inl
  | values rows => exact hunion.elim
  | other => exact hunion.elim

end Width

/-- The rewritten query returns the bag of the union exactly when its columns can
be read and no empty branch adds a row of nulls. -/
theorem rewriteStatement_union {Tail : Type} {body : SetExpr A} (tail : Tail)
    (hunion : IsUnion body) (h : rewriteStatement (.query body tail) = some (q, tail)) :
    (∃ rel, q.eval M = some rel ∧ rel.bag = unionBag body) ↔ Named body ∧ NullsHidden body := by
  cases body with
  | setOperation op quantifier left right =>
    obtain ⟨⟨q', n⟩, hq, hpair⟩ := Option.map_eq_some_iff.mp h
    obtain ⟨rfl, -⟩ := Prod.mk.inj hpair
    have hbody : IsUnion (.setOperation op quantifier left right) := hunion
    obtain ⟨hop, _, hul, hur⟩ := hunion
    obtain ⟨l, r, m, lcols, rcols, hl, hr, hlcols, hrcols, hlen, rfl⟩ := setOperation_some hop hq
    have hleft := setexprToSql_eval (M := M) hul hl hlcols
    have hright := setexprToSql_eval (M := M) hur hr hrcols
    have hiff := joinBag_eq_iff hbody (leaves_width hbody hq hlcols)
    rw [named_setOperation]
    by_cases hnamed : Named left ∧ Named right
    · obtain ⟨rel, hrel, -, hbag⟩ := unionOf_named op hleft hright hlen
        (nodup_of_named hul hlcols hnamed.1) (nodup_of_named hur hrcols hnamed.2) hnamed
      rw [and_iff_right hnamed, ← hiff, ← hbag]
      constructor
      · intro ⟨rel', hrel', hbag'⟩
        obtain rfl := Option.some.inj (hrel.symm.trans hrel')
        exact hbag'
      · intro hbag'
        exact ⟨rel, hrel, hbag'⟩
    · have hnone : (unionOf 0 quantifier lcols rcols l r).eval M = none :=
        unionOf_failed hleft hright hlen hnamed
      constructor
      · intro ⟨rel, hrel, _⟩
        cases hnone.symm.trans hrel
      · intro h
        exact absurd h.1 hnamed
  | select s => cases h
  | values rows => cases h
  | other => cases h

end Trees

/-- `SELECT a FROM t` over a table of numbers. -/
def selectA (numbers : List ℤ) : Select Empty where
  projection := [.identifier "a"]
  result := ⟨["a"], numbers.map fun n => [.int n], by simp⟩
  named cols hcols := by
    cases hcols
    rfl

def bothTables (x y : List ℤ) : SetExpr Empty :=
  .setOperation .union .all (.select (selectA x)) (.select (selectA y))

theorem rewriteStatement_union_full : ∃ q, rewriteStatement (.query (bothTables [1] [1, 2]) ()) =
    some (q, ()) ∧ ∃ rel, q.eval (twoValued Empty) = some rel ∧
      rel.bag = {[.int 1], [.int 1], [.int 2]} := by
  have hunion : IsUnion (bothTables [1] [1, 2]) := by simp [bothTables, IsUnion]
  have hnamed : Named (bothTables [1] [1, 2]) := by simp [Named, leaves, bothTables, selectA]
  have hfull : NullsHidden (bothTables [1] [1, 2]) := by
    simp [NullsHidden, bothTables, keepAll, Select.empty, selectA]
  exact ⟨_, rfl, (rewriteStatement_union () hunion rfl).mpr ⟨hnamed, hfull⟩⟩

theorem rewriteStatement_empty : ∃ q rel, rewriteStatement (.query (bothTables [] [7]) ()) =
    some (q, ()) ∧ q.eval (twoValued Empty) = some rel ∧ rel.rows = [[.null], [.int 7]] ∧
    unionBag (bothTables [] [7]) = {[.int 7]} ∧ rel.bag ≠ unionBag (bothTables [] [7]) :=
  ⟨_, _, rfl, rfl, by decide, by decide, by decide⟩

end BlueDB.Sql.SetOps
