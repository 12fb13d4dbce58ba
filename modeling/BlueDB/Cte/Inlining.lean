import BlueDB.Cte.Meaning
import Mathlib.Data.Nat.Notation

/-!
# Inlining keeps the meaning

An inlined query means under the database what the query means where its common table
expressions and views have their tables. The references have to be where the inliner looks,
and a table that is moved to other rows must not depend on them.
-/

namespace BlueDB.Cte

variable {V R X F : Type} (I : Meaning V R X F)

/-- No table of the scope is mentioned. -/
def Scope.Unmentioned (scope : Scope) (mentions : Path → Prop) : Prop :=
  ∀ c, (scope c).isSome → ¬ mentions [c]

def Scope.Reads (scope : Scope) (name : ObjectName) : Prop :=
  (∀ c, (scope c).isSome → name.path = [c] → name.print = c) ∧
    ((scope name.print).isSome → name.path = [name.print])

mutual

/-- What the inliner needs of a query that stands in the row `ρ`, over the tables of `σ`. -/
def Query.Inlinable (scope : Scope) (σ : Env V) (ρ : R) : Query → Prop
  | .mk true _ _ _ => False
  | .mk false ctes body rest =>
    ctes.Inlinable scope σ ρ (fun d p => body.Mentions d p ∨ rest.Mentions p) ∧
      body.Inlinable (inlineCtes scope ctes) (bindCtes I ρ σ ctes) ρ ∧
      (inlineCtes scope ctes).Unmentioned fun p => rest.Mentions p

/-- A definition that is mentioned has a list of columns only if it changes nothing, and one
that is mentioned in other rows has in them the rows that it has where it stands. -/
def Ctes.Inlinable (scope : Scope) (σ : Env V) (ρ : R) (inner : Mentioned) : Ctes → Prop
  | .nil => True
  | .cons name columns q rest => q.Inlinable scope σ ρ ∧
    ((∃ d, rest.Mentions inner d [name]) →
      I.rename columns (evalQuery I σ ρ q) = evalQuery I σ ρ q) ∧
    (rest.Mentions inner true [name] →
      ∀ ρ', q.Inlinable scope σ ρ' ∧ evalQuery I σ ρ' q = evalQuery I σ ρ q) ∧
    rest.Inlinable (scope.insert name (inlineQuery scope q))
      (Function.update σ [name] (I.rename columns (evalQuery I σ ρ q))) ρ inner

def SetExpr.Inlinable (scope : Scope) (σ : Env V) (ρ : R) : SetExpr → Prop
  | .select _ projection tables selection having rest => projection.Inlinable scope σ ∧
    tables.Inlinable scope σ ρ ∧ selection.Inlinable scope σ ∧ having.Inlinable scope σ ∧
    scope.Unmentioned fun p => rest.Mentions p
  | .query q => q.Inlinable scope σ ρ
  | .setOperation _ left right => left.Inlinable scope σ ρ ∧ right.Inlinable scope σ ρ
  | .other _ rest => scope.Unmentioned fun p => rest.Mentions p

def Tables.Inlinable (scope : Scope) (σ : Env V) (ρ : R) : Tables → Prop
  | .nil => True
  | .cons relation joins rest =>
    relation.Inlinable scope σ ρ ∧ joins.Inlinable scope σ ρ ∧ rest.Inlinable scope σ ρ

def Joins.Inlinable (scope : Scope) (σ : Env V) (ρ : R) : Joins → Prop
  | .nil => True
  | .cons relation _ condition rest => relation.Inlinable scope σ ρ ∧
    (scope.Unmentioned fun p => condition.Mentions p) ∧ rest.Inlinable scope σ ρ

def TableFactor.Inlinable (scope : Scope) (σ : Env V) (ρ : R) : TableFactor → Prop
  | .table name _ => scope.Reads name
  | .derived true subquery _ => ∀ ρ', subquery.Inlinable scope σ ρ'
  | .derived false subquery _ => subquery.Inlinable scope σ ρ
  | .other _ tables rest => scope.Unmentioned fun p => tables.Mentions false p ∨ rest.Mentions p

/-- The subqueries of an expression stand in any row. -/
def Expr.Inlinable (scope : Scope) (σ : Env V) : Expr → Prop
  | .leaf _ => True
  | .subquery q => ∀ ρ, q.Inlinable scope σ ρ
  | .inSubquery _ e q => (scope.Unmentioned fun p => e.Mentions p) ∧ ∀ ρ, q.Inlinable scope σ ρ
  | .existsQuery _ q => ∀ ρ, q.Inlinable scope σ ρ
  | .binaryOp _ left right => left.Inlinable scope σ ∧ right.Inlinable scope σ
  | .unaryOp _ e => e.Inlinable scope σ
  | .nested e => e.Inlinable scope σ
  | .inList _ e list => e.Inlinable scope σ ∧ list.Inlinable scope σ
  | .other _ rest => scope.Unmentioned fun p => rest.Mentions p

def Exprs.Inlinable (scope : Scope) (σ : Env V) : Exprs → Prop
  | .nil => True
  | .cons e rest => e.Inlinable scope σ ∧ rest.Inlinable scope σ

end

/-- The mentioned tables of the scope have the rows of their queries, in all rows where they
are mentioned deep inside, and the other tables are those of the database. -/
structure Agrees (db σ : Env V) (scope : Scope) (ρ : R) (mentioned : Mentioned) : Prop where
  inlined : ∀ c body, mentioned false [c] → scope c = some body → evalQuery I db ρ body = σ [c]
  steady : ∀ c body, mentioned true [c] → scope c = some body →
    ∀ ρ', evalQuery I db ρ' body = σ [c]
  base : ∀ p, mentioned false p → (∀ c, p = [c] → scope c = none) → σ p = db p

variable {I} {db σ : Env V} {scope : Scope} {ρ : R} {mentioned mentioned' : Mentioned}

theorem Agrees.mono (h : Agrees I db σ scope ρ mentioned)
    (hsub : ∀ d p, mentioned' d p → mentioned d p) : Agrees I db σ scope ρ mentioned' where
  inlined c body hc := h.inlined c body (hsub false _ hc)
  steady c body hc := h.steady c body (hsub true _ hc)
  base p hp := h.base p (hsub false p hp)

theorem Agrees.deep (h : Agrees I db σ scope ρ mentioned) {mentions : Path → Prop}
    (hsub : ∀ d p, mentions p → mentioned d p) (ρ' : R) :
    Agrees I db σ scope ρ' fun _ p => mentions p where
  inlined c body hc hbody := h.steady c body (hsub true _ hc) hbody ρ'
  steady c body hc := h.steady c body (hsub true _ hc)
  base p hp := h.base p (hsub false p hp)

/-- Where no table of the scope is mentioned, nothing has to be done. -/
theorem Agrees.unmentioned (h : Agrees I db σ scope ρ mentioned) {mentions : Path → Prop}
    (hsub : ∀ p, mentions p → mentioned false p) (hscope : scope.Unmentioned mentions) :
    ∀ p, mentions p → db p = σ p := by
  intro p hp
  refine (h.base p (hsub p hp) ?_).symm
  rintro c rfl
  cases hc : scope c with
  | none => rfl
  | some body =>
    refine absurd hp (hscope c ?_)
    rw [hc]
    rfl

theorem Agrees.cons {name : String} {columns : List String} {q : Query} {rest : Ctes}
    {inner : Mentioned}
    (h : Agrees I db σ scope ρ fun d p => (Ctes.cons name columns q rest).Mentions inner d p)
    (hcolumns : (∃ d, rest.Mentions inner d [name]) →
      I.rename columns (evalQuery I σ ρ q) = evalQuery I σ ρ q)
    (hself : evalQuery I db ρ (inlineQuery scope q) = evalQuery I σ ρ q)
    (hmoves : rest.Mentions inner true [name] → ∀ ρ', Agrees I db σ scope ρ'
      (fun d p => q.Mentions d p) → evalQuery I db ρ' (inlineQuery scope q) = evalQuery I σ ρ q) :
    Agrees I db (Function.update σ [name] (I.rename columns (evalQuery I σ ρ q)))
      (scope.insert name (inlineQuery scope q)) ρ fun d p => rest.Mentions inner d p := by
  refine ⟨?_, ?_, ?_⟩
  · intro c body hc hbody
    by_cases hname : c = name
    · subst hname
      unfold Scope.insert at hbody
      rw [Function.update_self] at hbody
      rw [Function.update_self, hcolumns ⟨false, hc⟩, ← Option.some.inj hbody, hself]
    · unfold Scope.insert at hbody
      rw [Function.update_of_ne hname] at hbody
      have hne : [c] ≠ [name] := fun heq => hname (List.singleton_inj.mp heq)
      rw [Function.update_of_ne hne]
      exact h.inlined c body (Or.inr (Or.inr ⟨hne, hc⟩)) hbody
  · intro c body hc hbody ρ'
    by_cases hname : c = name
    · subst hname
      unfold Scope.insert at hbody
      rw [Function.update_self] at hbody
      -- the definition is moved to other rows, and what it mentions with it
      have hmoved : Agrees I db σ scope ρ' fun d p => q.Mentions d p := by
        refine ⟨?_, ?_, ?_⟩
        · intro c' body' hc' hbody'
          exact h.steady c' body' (Or.inr (Or.inl ⟨hc, hc'⟩)) hbody' ρ'
        · intro c' body' hc'
          exact h.steady c' body' (Or.inl hc')
        · intro p hp
          exact h.base p (Or.inl hp)
      rw [Function.update_self, hcolumns ⟨true, hc⟩, ← Option.some.inj hbody]
      exact hmoves hc ρ' hmoved
    · unfold Scope.insert at hbody
      rw [Function.update_of_ne hname] at hbody
      have hne : [c] ≠ [name] := fun heq => hname (List.singleton_inj.mp heq)
      rw [Function.update_of_ne hne]
      exact h.steady c body (Or.inr (Or.inr ⟨hne, hc⟩)) hbody ρ'
  · intro p hp hscope
    have hne : p ≠ [name] := by
      intro heq
      have hnone := hscope name heq
      unfold Scope.insert at hnone
      rw [Function.update_self] at hnone
      cases hnone
    rw [Function.update_of_ne hne]
    apply h.base p (Or.inr (Or.inr ⟨hne, hp⟩))
    intro c hc
    have hnone := hscope c hc
    unfold Scope.insert at hnone
    rwa [Function.update_of_ne] at hnone
    rintro rfl
    exact hne hc

theorem Agrees.reference {name : ObjectName} {tableAlias : Option TableAlias}
    (h : Agrees I db σ scope ρ fun d p => (TableFactor.table name tableAlias).Mentions d p)
    (hreads : scope.Reads name) :
    evalTableFactor I db ρ (subTableFactor scope (.table name tableAlias)) =
      evalTableFactor I σ ρ (.table name tableAlias) := by
  unfold subTableFactor
  cases hscope : scope name.print with
  | some body =>
    have hpath : name.path = [name.print] := hreads.2 (by rw [hscope]; rfl)
    have hlabel : name.label = ⟨name.print, []⟩ := by
      unfold ObjectName.label
      rw [hpath]
      rfl
    dsimp only
    unfold evalTableFactor
    rw [h.inlined name.print body ⟨rfl, hpath⟩ hscope, hlabel, hpath]
  | none =>
    dsimp only
    unfold evalTableFactor
    rw [h.base name.path ⟨rfl, rfl⟩]
    intro c hc
    cases hbody : scope c with
    | none => rfl
    | some body =>
      have hprint := hreads.1 c (by rw [hbody]; rfl) hc
      rw [hprint, hbody] at hscope
      cases hscope

mutual

theorem inlineQuery_eval : ∀ (q : Query) (scope : Scope) (σ : Env V) (ρ : R),
    q.Inlinable I scope σ ρ → Agrees I db σ scope ρ (fun d p => q.Mentions d p) →
    evalQuery I db ρ (inlineQuery scope q) = evalQuery I σ ρ q
  | .mk true _ _ _, _, _, _, hq, _ => hq.elim
  | .mk false ctes body rest, scope, σ, ρ, hq, h => by
    obtain ⟨hctes, hbody, hrest⟩ := hq
    have hinner := inlineCtes_agrees ctes _ scope σ ρ hctes h
    have hnil : bindCtes I ρ db .nil = db := by
      unfold bindCtes
      rfl
    unfold inlineQuery evalQuery
    dsimp only
    rw [hnil, subSetExpr_eval body _ _ ρ hbody (hinner.mono fun _ _ => Or.inl),
      evalExprs_congr rest db _ (hinner.unmentioned (fun _ => Or.inr) hrest)]

theorem inlineCtes_agrees : ∀ (ctes : Ctes) (inner : Mentioned) (scope : Scope) (σ : Env V) (ρ : R),
    ctes.Inlinable I scope σ ρ inner → Agrees I db σ scope ρ (fun d p => ctes.Mentions inner d p) →
    Agrees I db (bindCtes I ρ σ ctes) (inlineCtes scope ctes) ρ inner
  | .nil, _, _, _, _, _, h => h
  | .cons name columns q rest, inner, scope, σ, ρ, hctes, h => by
    obtain ⟨hq, hcolumns, hmoves, hrest⟩ := hctes
    unfold bindCtes inlineCtes
    apply inlineCtes_agrees rest inner _ _ ρ hrest
    apply h.cons hcolumns (inlineQuery_eval q scope σ ρ hq (h.mono fun _ _ => Or.inl))
    intro hdeep ρ' h'
    obtain ⟨hq', hsame⟩ := hmoves hdeep ρ'
    exact (inlineQuery_eval q scope σ ρ' hq' h').trans hsame

theorem subSetExpr_eval : ∀ (body : SetExpr) (scope : Scope) (σ : Env V) (ρ : R),
    body.Inlinable I scope σ ρ → Agrees I db σ scope ρ (fun d p => body.Mentions d p) →
    evalSetExpr I db ρ (subSetExpr scope body) = evalSetExpr I σ ρ body
  | .select text projection tables selection having rest, scope, σ, ρ, hbody, h => by
    obtain ⟨hprojection, htables, hselection, hhaving, hrest⟩ := hbody
    unfold subSetExpr evalSetExpr
    rw [subExprs_eval projection scope σ hprojection (h.deep fun _ _ => Or.inl),
      subTables_eval tables scope σ ρ htables (h.mono fun _ _ hp => Or.inr (Or.inl hp)),
      subExprs_eval selection scope σ hselection
        (h.deep fun _ _ hp => Or.inr (Or.inr (Or.inl hp))),
      subExprs_eval having scope σ hhaving
        (h.deep fun _ _ hp => Or.inr (Or.inr (Or.inr (Or.inl hp)))),
      evalExprs_congr rest db σ
        (h.unmentioned (fun _ hp => Or.inr (Or.inr (Or.inr (Or.inr hp)))) hrest)]
  | .query q, scope, σ, ρ, hq, h => inlineQuery_eval q scope σ ρ hq h
  | .setOperation op left right, scope, σ, ρ, hbody, h => by
    unfold subSetExpr evalSetExpr
    rw [subSetExpr_eval left scope σ ρ hbody.1 (h.mono fun _ _ => Or.inl),
      subSetExpr_eval right scope σ ρ hbody.2 (h.mono fun _ _ => Or.inr)]
  | .other text rest, scope, σ, ρ, hbody, h => by
    unfold subSetExpr evalSetExpr
    rw [evalExprs_congr rest db σ (h.unmentioned (fun _ hp => hp) hbody)]

theorem subTables_eval : ∀ (tables : Tables) (scope : Scope) (σ : Env V) (ρ : R),
    tables.Inlinable I scope σ ρ → Agrees I db σ scope ρ (fun d p => tables.Mentions d p) →
    evalTables I db ρ (subTables scope tables) = evalTables I σ ρ tables
  | .nil, _, _, _, _, _ => rfl
  | .cons relation joins rest, scope, σ, ρ, htables, h => by
    obtain ⟨hrelation, hjoins, hrest⟩ := htables
    unfold subTables evalTables
    rw [subTableFactor_eval relation scope σ ρ hrelation (h.mono fun _ _ => Or.inl),
      subJoins_eval joins scope σ ρ hjoins (h.mono fun _ _ hp => Or.inr (Or.inl hp)),
      subTables_eval rest scope σ ρ hrest (h.mono fun _ _ hp => Or.inr (Or.inr hp))]

theorem subJoins_eval : ∀ (joins : Joins) (scope : Scope) (σ : Env V) (ρ : R),
    joins.Inlinable I scope σ ρ → Agrees I db σ scope ρ (fun d p => joins.Mentions d p) →
    evalJoins I db ρ (subJoins scope joins) = evalJoins I σ ρ joins
  | .nil, _, _, _, _, _ => rfl
  | .cons relation op condition rest, scope, σ, ρ, hjoins, h => by
    obtain ⟨hrelation, hcondition, hrest⟩ := hjoins
    unfold subJoins evalJoins
    rw [subTableFactor_eval relation scope σ ρ hrelation (h.mono fun _ _ => Or.inl),
      evalExprs_congr condition db σ
        (h.unmentioned (fun _ hp => Or.inr (Or.inl hp)) hcondition),
      subJoins_eval rest scope σ ρ hrest (h.mono fun _ _ hp => Or.inr (Or.inr hp))]

theorem subTableFactor_eval : ∀ (factor : TableFactor) (scope : Scope) (σ : Env V) (ρ : R),
    factor.Inlinable I scope σ ρ → Agrees I db σ scope ρ (fun d p => factor.Mentions d p) →
    evalTableFactor I db ρ (subTableFactor scope factor) = evalTableFactor I σ ρ factor
  | .table name tableAlias, _, _, _, hreads, h => h.reference hreads
  | .derived true subquery tableAlias, scope, σ, ρ, hq, h => by
    unfold subTableFactor evalTableFactor
    congr 1
    funext ρ'
    have hdeep : Agrees I db σ scope ρ' fun _ p => subquery.Mentions false p :=
      h.deep (fun _ _ hp => hp) ρ'
    exact inlineQuery_eval subquery scope σ ρ' (hq ρ') (hdeep.mono fun d _ =>
        subquery.mentions_of_deep d)
  | .derived false subquery (some tableAlias), scope, σ, ρ, hq, h => by
    unfold subTableFactor evalTableFactor
    rw [inlineQuery_eval subquery scope σ ρ hq h]
  | .derived false subquery none, scope, σ, ρ, hq, h => by
    unfold subTableFactor evalTableFactor
    rw [inlineQuery_eval subquery scope σ ρ hq h]
  | .other text tables rest, scope, σ, ρ, hfactor, h => by
    have hagree := @Agrees.unmentioned _ _ _ _ _ _ _ _ _ _ h
      (fun p => tables.Mentions false p ∨ rest.Mentions p) (fun _ hp => hp) hfactor
    unfold subTableFactor evalTableFactor
    rw [evalTables_congr ρ tables db σ fun p hp => hagree p (Or.inl hp),
      evalExprs_congr rest db σ fun p hp => hagree p (Or.inr hp)]

theorem subExpr_eval : ∀ (e : Expr) (scope : Scope) (σ : Env V), e.Inlinable I scope σ →
    (∀ ρ, Agrees I db σ scope ρ fun _ p => e.Mentions p) →
    evalExpr I db (subExpr scope e) = evalExpr I σ e
  | .leaf text, _, _, _, _ => rfl
  | .subquery q, scope, σ, hq, h => by
    unfold subExpr evalExpr
    congr 1
    funext ρ
    exact inlineQuery_eval q scope σ ρ (hq ρ) ((h ρ).mono fun d _ => q.mentions_of_deep d)
  | .inSubquery negated e q, scope, σ, hq, h => by
    have he : evalExpr I db e = evalExpr I σ e :=
      evalExpr_congr e db σ ((h I.top).unmentioned (fun _ => Or.inl) hq.1)
    unfold subExpr evalExpr
    rw [he]
    congr 1
    funext ρ
    exact inlineQuery_eval q scope σ ρ (hq.2 ρ)
      ((h ρ).mono fun d _ hp => Or.inr (q.mentions_of_deep d hp))
  | .existsQuery negated q, scope, σ, hq, h => by
    unfold subExpr evalExpr
    congr 1
    funext ρ
    exact inlineQuery_eval q scope σ ρ (hq ρ) ((h ρ).mono fun d _ => q.mentions_of_deep d)
  | .binaryOp op left right, scope, σ, he, h => by
    unfold subExpr evalExpr
    rw [subExpr_eval left scope σ he.1 fun ρ => (h ρ).mono fun _ _ => Or.inl,
      subExpr_eval right scope σ he.2 fun ρ => (h ρ).mono fun _ _ => Or.inr]
  | .unaryOp op e, scope, σ, he, h => by
    unfold subExpr evalExpr
    rw [subExpr_eval e scope σ he h]
  | .nested e, scope, σ, he, h => by
    unfold subExpr evalExpr
    rw [subExpr_eval e scope σ he h]
  | .inList negated e list, scope, σ, he, h => by
    unfold subExpr evalExpr
    rw [subExpr_eval e scope σ he.1 fun ρ => (h ρ).mono fun _ _ => Or.inl,
      subExprs_eval list scope σ he.2 fun ρ => (h ρ).mono fun _ _ => Or.inr]
  | .other text rest, scope, σ, he, h => by
    unfold subExpr evalExpr
    rw [evalExprs_congr rest db σ ((h I.top).unmentioned (fun _ hp => hp) he)]

theorem subExprs_eval : ∀ (es : Exprs) (scope : Scope) (σ : Env V), es.Inlinable I scope σ →
    (∀ ρ, Agrees I db σ scope ρ fun _ p => es.Mentions p) →
    evalExprs I db (subExprs scope es) = evalExprs I σ es
  | .nil, _, _, _, _ => rfl
  | .cons e rest, scope, σ, hes, h => by
    unfold subExprs evalExprs
    rw [subExpr_eval e scope σ hes.1 fun ρ => (h ρ).mono fun _ _ => Or.inl,
      subExprs_eval rest scope σ hes.2 fun ρ => (h ρ).mono fun _ _ => Or.inr]

end

variable (I) in
def Statement.Inlinable (scope : Scope) (σ : Env V) : Statement → Prop
  | query q => q.Inlinable I scope σ I.top
  | createTable _ q => ∀ q' ∈ q, q'.Inlinable I scope σ I.top
  | insert _ source => ∀ q' ∈ source, q'.Inlinable I scope σ I.top
  | other _ => True

variable (I) in
/-- The views of a database: each has the rows of its query, whatever the other views are. -/
structure Stored (db σ : Env V) (views : Scope) : Prop where
  rows : ∀ v q, views v = some q → ∀ ρ, evalQuery I σ ρ q = σ [v]
  base : ∀ p, (∀ v, p = [v] → views v = none) → σ p = db p

theorem Agrees.start (db : Env V) (ρ : R) (mentioned : Mentioned) :
    Agrees I db db .empty ρ mentioned where
  inlined _ _ _ h := nomatch h
  steady _ _ _ h := nomatch h
  base _ _ _ := rfl

theorem Stored.agrees {views : Scope} (h : Stored I db σ views)
    (hflat : ∀ v q, views v = some q → views.Unmentioned fun p => q.Mentions false p) (ρ : R)
    (mentioned : Mentioned) : Agrees I db σ views ρ mentioned := by
  have hview : ∀ v q, views v = some q → ∀ ρ', evalQuery I db ρ' q = σ [v] := by
    intro v q hv ρ'
    rw [← h.rows v q hv ρ']
    apply evalQuery_congr ρ' q
    intro p hp
    refine (h.base p ?_).symm
    rintro v' rfl
    cases hv' : views v' with
    | none => rfl
    | some q' =>
      refine absurd hp (hflat v q hv v' ?_)
      rw [hv']
      rfl
  exact ⟨fun v q _ hv => hview v q hv ρ, fun v q _ hv => hview v q hv, fun p _ => h.base p⟩

theorem Statement.eval_mapQuery {stmt : Statement} (hstmt : stmt.Inlinable I scope σ)
    (hagrees : ∀ mentioned, Agrees I db σ scope I.top mentioned) :
    evalStatement I db (stmt.mapQuery (inlineQuery scope)) = evalStatement I σ stmt := by
  have hquery : ∀ q : Query, q.Inlinable I scope σ I.top →
      evalQuery I db I.top (inlineQuery scope q) = evalQuery I σ I.top q :=
    fun q hq => inlineQuery_eval q scope σ I.top hq (hagrees _)
  have hoption : ∀ q : Option Query, (∀ q' ∈ q, q'.Inlinable I scope σ I.top) →
      (q.map (inlineQuery scope)).map (evalQuery I db I.top) = q.map (evalQuery I σ I.top) := by
    intro q hq
    cases q with
    | none => rfl
    | some q => exact congrArg some (hquery q (hq q rfl))
  cases stmt with
  | query q => exact congrArg some (hquery q hstmt)
  | createTable text q => exact hoption q hstmt
  | insert text source => exact hoption source hstmt
  | other text => rfl

namespace Example

/-- Tables of one column, and a FROM of one table. -/
def numbers : Meaning (List ℕ) (Option ℕ) ℕ (List ℕ) where
  leaf _ ρ := ρ.getD 0
  subquery q ρ := (q ρ).headD 0
  inSubquery negated e q ρ := (decide (e ρ ∈ q ρ) != negated).toNat
  existsQuery negated q ρ := (!(q ρ).isEmpty != negated).toNat
  binaryOp _ left right ρ := (left ρ == right ρ).toNat
  unaryOp _ e ρ := 1 - e ρ
  nested e := e
  inList negated e list ρ := (list.any (fun x => x ρ == e ρ) != negated).toNat
  -- BETWEEN
  otherExpr _ args ρ := match args with
    | [x, low, high] => (decide (low ρ ≤ x ρ) && decide (x ρ ≤ high ρ)).toNat
    | _ => 0
  named _ v := v
  unnamed v := v
  lateral _ q := q none
  otherFactor _ tables _ := tables.flatMap Prod.fst
  select _ projection tables selection _ _ _ :=
    ((tables.flatMap Prod.fst).filter fun a => selection.all fun e => e (some a) != 0).map fun a =>
      (projection.map fun e => e (some a)).headD 0
  setOperation _ left right := left ++ right
  otherSet _ _ _ := []
  query v _ _ := v
  rename _ v := v
  rename_nil _ := rfl
  fix f := f fun _ => []
  top := none

def tables : Env (List ℕ) := fun p => if p = ["t"] then [5, 9] else []

def a : Exprs := .cons (.leaf "a") .nil

/-- `SELECT a FROM table WHERE …` -/
def selectFrom (table : String) (selection : Exprs) : SetExpr :=
  .select "" a (.cons (.table [⟨table, none⟩] none) .nil .nil) selection .nil .nil

def plain (body : SetExpr) : Query := .mk false .nil body .nil

/-- `WITH c AS (SELECT a FROM t) …` -/
def withC (body : SetExpr) : Statement :=
  .query (.mk false (.cons "c" [] (plain (selectFrom "t" .nil)) .nil) body .nil)

/-- `SELECT a FROM c WHERE EXISTS (SELECT a FROM c)` -/
def visited : Statement :=
  withC (selectFrom "c" (.cons (.existsQuery false (plain (selectFrom "c" .nil))) .nil))

/-- `SELECT a FROM t WHERE a BETWEEN a AND (SELECT a FROM c)` -/
def between : Statement :=
  withC (selectFrom "t" (.cons (.other "BETWEEN" (.cons (.leaf "a") (.cons (.leaf "a")
    (.cons (.subquery (plain (selectFrom "c" .nil))) .nil)))) .nil))

theorem reads (scope : Scope) (table : String) : scope.Reads [⟨table, none⟩] := by
  have hprint : ObjectName.print [⟨table, none⟩] = table := rfl
  constructor
  · intro c _ hpath
    exact hprint.trans (List.singleton_inj.mp hpath)
  · intro _
    exact congrArg (fun s => [s]) hprint.symm

theorem unmentioned_nil (scope : Scope) : scope.Unmentioned fun p => Exprs.nil.Mentions p :=
  fun _ _ h => h

theorem inlinable_selectFrom {scope : Scope} {σ : Env (List ℕ)} {ρ : Option ℕ} (table : String)
    {selection : Exprs} (h : selection.Inlinable numbers scope σ) :
    (selectFrom table selection).Inlinable numbers scope σ ρ :=
  ⟨⟨trivial, trivial⟩, ⟨reads scope table, trivial, trivial⟩, h, trivial, unmentioned_nil scope⟩

theorem inlinable_plain {scope : Scope} {σ : Env (List ℕ)} {ρ : Option ℕ} {body : SetExpr}
    (h : body.Inlinable numbers scope σ ρ) : (plain body).Inlinable numbers scope σ ρ :=
  ⟨trivial, h, unmentioned_nil scope⟩

theorem inlinable_visited : visited.Inlinable numbers .empty tables := by
  have hdefinition : ∀ ρ, (plain (selectFrom "t" .nil)).Inlinable numbers .empty tables ρ :=
    fun _ => inlinable_plain (inlinable_selectFrom "t" trivial)
  refine ⟨⟨hdefinition _, fun _ => numbers.rename_nil _, fun _ ρ => ⟨hdefinition ρ, rfl⟩, trivial⟩,
    ?_, ?_⟩
  · apply inlinable_selectFrom
    exact ⟨fun _ => inlinable_plain (inlinable_selectFrom "c" trivial), trivial⟩
  · exact unmentioned_nil _

/-- The view `v AS SELECT a FROM t`. -/
def views : Scope := Scope.empty.insert "v" (plain (selectFrom "t" .nil))

def viewed : Env (List ℕ) := fun p => if p = ["v"] then [5, 9] else tables p

theorem views_eq {v : String} {q : Query} (h : views v = some q) :
    v = "v" ∧ q = plain (selectFrom "t" .nil) := by
  unfold views Scope.insert at h
  by_cases hv : v = "v"
  · rw [hv, Function.update_self] at h
    exact ⟨hv, (Option.some.inj h).symm⟩
  · rw [Function.update_of_ne hv] at h
    cases h

theorem stored : Stored numbers tables viewed views where
  rows v q h ρ := by
    obtain ⟨rfl, rfl⟩ := views_eq h
    rfl
  base p h := by
    unfold viewed
    rw [if_neg]
    rintro rfl
    have hnone := h "v" rfl
    unfold views Scope.insert at hnone
    rw [Function.update_self] at hnone
    cases hnone

theorem flat : ∀ v q, views v = some q → views.Unmentioned fun p => q.Mentions false p := by
  intro v q h c hc hmention
  obtain ⟨rfl, rfl⟩ := views_eq h
  obtain ⟨q', hq'⟩ := Option.isSome_iff_exists.mp hc
  obtain ⟨rfl, -⟩ := views_eq hq'
  simp [plain, selectFrom, a, Query.Mentions, Ctes.Mentions, SetExpr.Mentions, Exprs.Mentions,
    Expr.Mentions, Tables.Mentions, Joins.Mentions, TableFactor.Mentions, ObjectName.path]
    at hmention

end Example

end BlueDB.Cte
