import BlueDB.Cte.Syntax

/-!
# The scopes of table names

The meaning of a query under lexical scoping: a WITH gives names to tables for the rest of
its query, and every other construct combines what its parts mean. It depends only on the
tables that the query mentions.
-/

namespace BlueDB.Cte

/-- A table of the database is known by the parts of its name, a common table expression by
its one name. -/
abbrev Path := List String

abbrev Env (V : Type) := Path → V

def ObjectName.path (name : ObjectName) : Path := name.map Ident.value

/-- The name that the columns of an unnamed table go by. -/
def ObjectName.label (name : ObjectName) : TableAlias := ⟨(name.path.getLast?).getD "", []⟩

/-- What the constructs make of their parts. A query gives a table in a row of the enclosing
queries. The expressions of a query are taken in many rows, its FROM in the one that it is
in itself. -/
structure Meaning (V R X F : Type) where
  leaf : String → R → X
  subquery : (R → V) → R → X
  inSubquery : Bool → (R → X) → (R → V) → R → X
  existsQuery : Bool → (R → V) → R → X
  binaryOp : String → (R → X) → (R → X) → R → X
  unaryOp : String → (R → X) → R → X
  nested : (R → X) → R → X
  inList : Bool → (R → X) → List (R → X) → R → X
  otherExpr : String → List (R → X) → R → X
  named : TableAlias → V → F
  unnamed : V → F
  /-- A lateral table sees the rows of those before it. -/
  lateral : Option TableAlias → (R → V) → F
  otherFactor : String → List (F × List (F × String × List (R → X))) → List (R → X) → F
  select : String → List (R → X) → List (F × List (F × String × List (R → X))) →
    List (R → X) → List (R → X) → List (R → X) → R → V
  setOperation : String → V → V → V
  otherSet : String → List (R → X) → R → V
  query : V → List (R → X) → R → V
  /-- A list of columns renames them. -/
  rename : List String → V → V
  rename_nil : ∀ v, rename [] v = v
  /-- The tables of recursive definitions. -/
  fix : (Env V → Env V) → Env V
  /-- There is no enclosing row. -/
  top : R

variable {V R X F : Type} (I : Meaning V R X F)

mutual

def evalQuery (σ : Env V) (ρ : R) : Query → V
  | .mk true ctes body rest =>
    let σ' := I.fix fun τ => bindAll τ ρ σ ctes
    I.query (evalSetExpr σ' ρ body) (evalExprs σ' rest) ρ
  | .mk false ctes body rest =>
    let σ' := bindCtes ρ σ ctes
    I.query (evalSetExpr σ' ρ body) (evalExprs σ' rest) ρ

/-- Each definition sees those before it. -/
def bindCtes (ρ : R) (σ : Env V) : Ctes → Env V
  | .nil => σ
  | .cons name columns q rest =>
    bindCtes ρ (Function.update σ [name] (I.rename columns (evalQuery σ ρ q))) rest

/-- Each definition sees all. -/
def bindAll (τ : Env V) (ρ : R) (σ : Env V) : Ctes → Env V
  | .nil => σ
  | .cons name columns q rest =>
    bindAll τ ρ (Function.update σ [name] (I.rename columns (evalQuery τ ρ q))) rest

def evalSetExpr (σ : Env V) (ρ : R) : SetExpr → V
  | .select text projection tables selection having rest =>
    I.select text (evalExprs σ projection) (evalTables σ ρ tables) (evalExprs σ selection)
      (evalExprs σ having) (evalExprs σ rest) ρ
  | .query q => evalQuery σ ρ q
  | .setOperation op left right => I.setOperation op (evalSetExpr σ ρ left) (evalSetExpr σ ρ right)
  | .other text rest => I.otherSet text (evalExprs σ rest) ρ

def evalTables (σ : Env V) (ρ : R) : Tables → List (F × List (F × String × List (R → X)))
  | .nil => []
  | .cons relation joins rest =>
    (evalTableFactor σ ρ relation, evalJoins σ ρ joins) :: evalTables σ ρ rest

def evalJoins (σ : Env V) (ρ : R) : Joins → List (F × String × List (R → X))
  | .nil => []
  | .cons relation op condition rest =>
    (evalTableFactor σ ρ relation, op, evalExprs σ condition) :: evalJoins σ ρ rest

def evalTableFactor (σ : Env V) (ρ : R) : TableFactor → F
  | .table name tableAlias => I.named (tableAlias.getD name.label) (σ name.path)
  | .derived true subquery tableAlias => I.lateral tableAlias fun ρ' => evalQuery σ ρ' subquery
  | .derived false subquery (some tableAlias) => I.named tableAlias (evalQuery σ ρ subquery)
  | .derived false subquery none => I.unnamed (evalQuery σ ρ subquery)
  | .other text tables rest => I.otherFactor text (evalTables σ ρ tables) (evalExprs σ rest)

def evalExpr (σ : Env V) : Expr → R → X
  | .leaf text => I.leaf text
  | .subquery q => I.subquery fun ρ => evalQuery σ ρ q
  | .inSubquery negated e q => I.inSubquery negated (evalExpr σ e) fun ρ => evalQuery σ ρ q
  | .existsQuery negated q => I.existsQuery negated fun ρ => evalQuery σ ρ q
  | .binaryOp op left right => I.binaryOp op (evalExpr σ left) (evalExpr σ right)
  | .unaryOp op e => I.unaryOp op (evalExpr σ e)
  | .nested e => I.nested (evalExpr σ e)
  | .inList negated e list => I.inList negated (evalExpr σ e) (evalExprs σ list)
  | .other text rest => I.otherExpr text (evalExprs σ rest)

def evalExprs (σ : Env V) : Exprs → List (R → X)
  | .nil => []
  | .cons e rest => evalExpr σ e :: evalExprs σ rest

end

/-- The rows of a statement: those of its query, or those that it writes. -/
def evalStatement (σ : Env V) : Statement → Option V
  | .query q => some (evalQuery I σ I.top q)
  | .createTable _ q => q.map (evalQuery I σ I.top)
  | .insert _ source => source.map (evalQuery I σ I.top)
  | .other _ => none

/-- What is mentioned, and what is mentioned deep inside, where rows are not those of the
query itself. -/
abbrev Mentioned := Bool → Path → Prop

mutual

/-- The table is mentioned, and no definition in between has its name. Recursive definitions
count as mentioning every table. -/
def Query.Mentions (deep : Bool) (p : Path) : Query → Prop
  | .mk true _ _ _ => True
  | .mk false ctes body rest =>
      ctes.Mentions (fun d p => body.Mentions d p ∨ rest.Mentions p) deep p

/-- Definitions that are in force where the tables are mentioned. What a definition mentions
is as deep as its name. -/
def Ctes.Mentions (inner : Mentioned) (deep : Bool) (p : Path) : Ctes → Prop
  | .nil => inner deep p
  | .cons name _ q rest => q.Mentions deep p ∨ rest.Mentions inner deep [name] ∧
      q.Mentions false p ∨
    p ≠ [name] ∧ rest.Mentions inner deep p

def SetExpr.Mentions (deep : Bool) (p : Path) : SetExpr → Prop
  | .select _ projection tables selection having rest =>
    projection.Mentions p ∨ tables.Mentions deep p ∨ selection.Mentions p ∨ having.Mentions p ∨
      rest.Mentions p
  | .query q => q.Mentions deep p
  | .setOperation _ left right => left.Mentions deep p ∨ right.Mentions deep p
  | .other _ rest => rest.Mentions p

def Tables.Mentions (deep : Bool) (p : Path) : Tables → Prop
  | .nil => False
  | .cons relation joins rest =>
    relation.Mentions deep p ∨ joins.Mentions deep p ∨ rest.Mentions deep p

def Joins.Mentions (deep : Bool) (p : Path) : Joins → Prop
  | .nil => False
  | .cons relation _ condition rest =>
    relation.Mentions deep p ∨ condition.Mentions p ∨ rest.Mentions deep p

def TableFactor.Mentions (deep : Bool) (p : Path) : TableFactor → Prop
  | .table name _ => deep = false ∧ name.path = p
  | .derived true subquery _ => subquery.Mentions false p
  | .derived false subquery _ => subquery.Mentions deep p
  | .other _ tables rest => tables.Mentions deep p ∨ rest.Mentions p

/-- All that an expression mentions is deep inside of its query. -/
def Expr.Mentions (p : Path) : Expr → Prop
  | .leaf _ => False
  | .subquery q => q.Mentions false p
  | .inSubquery _ e q => e.Mentions p ∨ q.Mentions false p
  | .existsQuery _ q => q.Mentions false p
  | .binaryOp _ left right => left.Mentions p ∨ right.Mentions p
  | .unaryOp _ e => e.Mentions p
  | .nested e => e.Mentions p
  | .inList _ e list => e.Mentions p ∨ list.Mentions p
  | .other _ rest => rest.Mentions p

def Exprs.Mentions (p : Path) : Exprs → Prop
  | .nil => False
  | .cons e rest => e.Mentions p ∨ rest.Mentions p

end

/-! What is mentioned deep inside is mentioned. -/

mutual

theorem Query.mentions_of_deep {p : Path} :
    ∀ (q : Query) (d : Bool), q.Mentions d p → q.Mentions false p
  | .mk true _ _ _, _, _ => trivial
  | .mk false ctes body _, d, h =>
    ctes.mentions_of_deep _ (fun d _ => Or.imp_left (body.mentions_of_deep d)) d h

theorem Ctes.mentions_of_deep {p : Path} : ∀ (ctes : Ctes) (inner : Mentioned),
    (∀ d p, inner d p → inner false p) → ∀ d, ctes.Mentions inner d p → ctes.Mentions inner false p
  | .nil, _, hinner, d, h => hinner d _ h
  | .cons _ _ q rest, inner, hinner, d, h => by
    rcases h with hq | ⟨-, hq⟩ | ⟨hne, hrest⟩
    · exact Or.inl (q.mentions_of_deep d hq)
    · exact Or.inl hq
    · exact Or.inr (Or.inr ⟨hne, rest.mentions_of_deep inner hinner d hrest⟩)

theorem SetExpr.mentions_of_deep {p : Path} :
    ∀ (body : SetExpr) (d : Bool), body.Mentions d p → body.Mentions false p
  | .select _ _ tables _ _ _, d, h => Or.imp_right (Or.imp_left (tables.mentions_of_deep d)) h
  | .query q, d, h => q.mentions_of_deep d h
  | .setOperation _ left right, d, h =>
    Or.imp (left.mentions_of_deep d) (right.mentions_of_deep d) h
  | .other _ _, _, h => h

theorem Tables.mentions_of_deep {p : Path} :
    ∀ (tables : Tables) (d : Bool), tables.Mentions d p → tables.Mentions false p
  | .nil, _, h => h
  | .cons relation joins rest, d, h => Or.imp (relation.mentions_of_deep d)
    (Or.imp (joins.mentions_of_deep d) (rest.mentions_of_deep d)) h

theorem Joins.mentions_of_deep {p : Path} :
    ∀ (joins : Joins) (d : Bool), joins.Mentions d p → joins.Mentions false p
  | .nil, _, h => h
  | .cons relation _ _ rest, d, h => Or.imp (relation.mentions_of_deep d)
    (Or.imp_right (rest.mentions_of_deep d)) h

theorem TableFactor.mentions_of_deep {p : Path} :
    ∀ (factor : TableFactor) (d : Bool), factor.Mentions d p → factor.Mentions false p
  | .table _ _, _, h => ⟨rfl, h.2⟩
  | .derived true _ _, _, h => h
  | .derived false subquery _, d, h => subquery.mentions_of_deep d h
  | .other _ tables _, d, h => Or.imp_left (tables.mentions_of_deep d) h

end

variable {I}

mutual

theorem evalQuery_congr (ρ : R) : ∀ (q : Query) (σ σ' : Env V),
    (∀ p, q.Mentions false p → σ p = σ' p) → evalQuery I σ ρ q = evalQuery I σ' ρ q
  | .mk true ctes body rest, σ, σ', h => by
    obtain rfl : σ = σ' := funext fun p => h p trivial
    rfl
  | .mk false ctes body rest, σ, σ', h => by
    have hbind := bindCtes_congr ρ ctes (fun d p => body.Mentions d p ∨ rest.Mentions p) σ σ' h
    unfold evalQuery
    dsimp only
    rw [evalSetExpr_congr ρ body _ _ fun p hp => hbind p (Or.inl hp),
      evalExprs_congr rest _ _ fun p hp => hbind p (Or.inr hp)]

theorem bindCtes_congr (ρ : R) : ∀ (ctes : Ctes) (inner : Mentioned) (σ σ' : Env V),
    (∀ p, ctes.Mentions inner false p → σ p = σ' p) →
    ∀ p, inner false p → bindCtes I ρ σ ctes p = bindCtes I ρ σ' ctes p
  | .nil, _, _, _, h => h
  | .cons name columns q rest, inner, σ, σ', h => by
    have hq := evalQuery_congr ρ q σ σ' fun p hp => h p (Or.inl hp)
    unfold bindCtes
    apply bindCtes_congr ρ rest
    intro p hp
    rw [hq]
    by_cases hname : p = [name]
    · rw [hname, Function.update_self, Function.update_self]
    · rw [Function.update_of_ne hname, Function.update_of_ne hname]
      exact h p (Or.inr (Or.inr ⟨hname, hp⟩))

theorem evalSetExpr_congr (ρ : R) : ∀ (body : SetExpr) (σ σ' : Env V),
    (∀ p, body.Mentions false p → σ p = σ' p) → evalSetExpr I σ ρ body = evalSetExpr I σ' ρ body
  | .select text projection tables selection having rest, σ, σ', h => by
    unfold evalSetExpr
    rw [evalExprs_congr projection _ _ fun p hp => h p (Or.inl hp),
      evalTables_congr ρ tables _ _ fun p hp => h p (Or.inr (Or.inl hp)),
      evalExprs_congr selection _ _ fun p hp => h p (Or.inr (Or.inr (Or.inl hp))),
      evalExprs_congr having _ _ fun p hp => h p (Or.inr (Or.inr (Or.inr (Or.inl hp)))),
      evalExprs_congr rest _ _ fun p hp => h p (Or.inr (Or.inr (Or.inr (Or.inr hp))))]
  | .query q, σ, σ', h => evalQuery_congr ρ q σ σ' h
  | .setOperation op left right, σ, σ', h => by
    unfold evalSetExpr
    rw [evalSetExpr_congr ρ left _ _ fun p hp => h p (Or.inl hp),
      evalSetExpr_congr ρ right _ _ fun p hp => h p (Or.inr hp)]
  | .other text rest, σ, σ', h => by
    unfold evalSetExpr
    rw [evalExprs_congr rest _ _ h]

theorem evalTables_congr (ρ : R) : ∀ (tables : Tables) (σ σ' : Env V),
    (∀ p, tables.Mentions false p → σ p = σ' p) → evalTables I σ ρ tables = evalTables I σ' ρ tables
  | .nil, _, _, _ => rfl
  | .cons relation joins rest, σ, σ', h => by
    unfold evalTables
    rw [evalTableFactor_congr ρ relation _ _ fun p hp => h p (Or.inl hp),
      evalJoins_congr ρ joins _ _ fun p hp => h p (Or.inr (Or.inl hp)),
      evalTables_congr ρ rest _ _ fun p hp => h p (Or.inr (Or.inr hp))]

theorem evalJoins_congr (ρ : R) : ∀ (joins : Joins) (σ σ' : Env V),
    (∀ p, joins.Mentions false p → σ p = σ' p) → evalJoins I σ ρ joins = evalJoins I σ' ρ joins
  | .nil, _, _, _ => rfl
  | .cons relation op condition rest, σ, σ', h => by
    unfold evalJoins
    rw [evalTableFactor_congr ρ relation _ _ fun p hp => h p (Or.inl hp),
      evalExprs_congr condition _ _ fun p hp => h p (Or.inr (Or.inl hp)),
      evalJoins_congr ρ rest _ _ fun p hp => h p (Or.inr (Or.inr hp))]

theorem evalTableFactor_congr (ρ : R) : ∀ (factor : TableFactor) (σ σ' : Env V),
    (∀ p, factor.Mentions false p → σ p = σ' p) →
    evalTableFactor I σ ρ factor = evalTableFactor I σ' ρ factor
  | .table name tableAlias, σ, σ', h => by
    unfold evalTableFactor
    rw [h name.path ⟨rfl, rfl⟩]
  | .derived true subquery tableAlias, σ, σ', h => by
    unfold evalTableFactor
    congr 1
    funext ρ'
    exact evalQuery_congr ρ' subquery σ σ' h
  | .derived false subquery (some tableAlias), σ, σ', h => by
    unfold evalTableFactor
    rw [evalQuery_congr ρ subquery _ _ h]
  | .derived false subquery none, σ, σ', h => by
    unfold evalTableFactor
    rw [evalQuery_congr ρ subquery _ _ h]
  | .other text tables rest, σ, σ', h => by
    unfold evalTableFactor
    rw [evalTables_congr ρ tables _ _ fun p hp => h p (Or.inl hp),
      evalExprs_congr rest _ _ fun p hp => h p (Or.inr hp)]

theorem evalExpr_congr : ∀ (e : Expr) (σ σ' : Env V), (∀ p, e.Mentions p → σ p = σ' p) →
    evalExpr I σ e = evalExpr I σ' e
  | .leaf text, _, _, _ => rfl
  | .subquery q, σ, σ', h => by
    unfold evalExpr
    congr 1
    funext ρ
    exact evalQuery_congr ρ q σ σ' h
  | .inSubquery negated e q, σ, σ', h => by
    unfold evalExpr
    rw [evalExpr_congr e _ _ fun p hp => h p (Or.inl hp)]
    congr 1
    funext ρ
    exact evalQuery_congr ρ q σ σ' fun p hp => h p (Or.inr hp)
  | .existsQuery negated q, σ, σ', h => by
    unfold evalExpr
    congr 1
    funext ρ
    exact evalQuery_congr ρ q σ σ' h
  | .binaryOp op left right, σ, σ', h => by
    unfold evalExpr
    rw [evalExpr_congr left _ _ fun p hp => h p (Or.inl hp),
      evalExpr_congr right _ _ fun p hp => h p (Or.inr hp)]
  | .unaryOp op e, σ, σ', h => by
    unfold evalExpr
    rw [evalExpr_congr e _ _ h]
  | .nested e, σ, σ', h => by
    unfold evalExpr
    rw [evalExpr_congr e _ _ h]
  | .inList negated e list, σ, σ', h => by
    unfold evalExpr
    rw [evalExpr_congr e _ _ fun p hp => h p (Or.inl hp),
      evalExprs_congr list _ _ fun p hp => h p (Or.inr hp)]
  | .other text rest, σ, σ', h => by
    unfold evalExpr
    rw [evalExprs_congr rest _ _ h]

theorem evalExprs_congr : ∀ (es : Exprs) (σ σ' : Env V), (∀ p, es.Mentions p → σ p = σ' p) →
    evalExprs I σ es = evalExprs I σ' es
  | .nil, _, _, _ => rfl
  | .cons e rest, σ, σ', h => by
    unfold evalExprs
    rw [evalExpr_congr e _ _ fun p hp => h p (Or.inl hp),
      evalExprs_congr rest _ _ fun p hp => h p (Or.inr hp)]

end

end BlueDB.Cte
