import BlueDB.Lib.JoinChain
import BlueDB.Lib.Trivalent
import BlueDB.Sql.Pushdown

/-!
# Rows of joined tables

A statement is evaluated by nested loops, with conditions of three values. Equalities that
are merged into the ON of an INNER join are a condition on the rows of the chain, and an
equality of two columns reads only the tables that are in scope.
-/

namespace BlueDB.Pushdown

open Formula (Truth)
open JoinChain (Link Reads Placed run)

variable {X S D : Type}

inductive Value (D : Type)
  | null
  | bool (b : Bool)
  | data (d : D)

def Value.truth : Value D → Truth
  | .bool b => some b
  | _ => none

def Value.ofTruth : Truth → Value D
  | some b => .bool b
  | none => .null

abbrev Record (D : Type) := String → Value D

structure Relation (D : Type) where
  columns : List String
  records : List (Record D)

/-- The visible names of the tables that are joined so far, with their columns. -/
abbrev Scope := List (String × List String)

/-- A column that is named with its table or without. -/
structure Ref where
  table : Option String
  column : String

/-- What the tables hold, and what is left to the engine: which of several columns of a name
is taken, how data compare, and every expression that the pass leaves alone. -/
structure Engine (X S D : Type) where
  contents : TableFactor S → Relation D
  pick : List (List String) → String → Option ℕ
  pick_sound : ∀ {tables name t}, pick tables name = some t →
    ∃ columns, tables[t]? = some columns ∧ name ∈ columns
  pick_complete : ∀ {tables name columns}, columns ∈ tables → name ∈ columns →
    (pick tables name).isSome = true
  equal : D → D → Bool
  operator : String → Value D → Value D → Value D
  known : X → Scope → Bool
  other : X → Scope → List (Record D) → Value D

def TableFactor.visible : TableFactor S → String
  | .table name aliasName => aliasName.getD name
  | .derived _ aliasName => aliasName
  | .series _ aliasName => aliasName
  | .dictionary _ aliasName => aliasName

def Join.on (j : Join X S) : Option (Expr X) :=
  match j.operator with
  | .inner (.on e) => some e
  | .leftOuter (.on e) => some e
  | _ => none

/-- A null is equal to nothing and different from nothing. -/
def Value.equal (same : D → D → Bool) : Value D → Value D → Value D
  | .null, _ => .null
  | _, .null => .null
  | .bool a, .bool b => .bool (a == b)
  | .data a, .data b => .bool (same a b)
  | _, _ => .bool false

def fieldAt (row : List (Record D)) (t : Option ℕ) (column : String) : Value D :=
  match t.bind fun t => row[t]? with
  | some record => record column
  | none => .null

namespace Engine

variable (e : Engine X S D)

/-- The table that a column is of. -/
def resolve (scope : Scope) (r : Ref) : Option ℕ :=
  match r.table with
  | some table => scope.findIdx? fun s => s.1 == table && s.2.contains r.column
  | none => e.pick (scope.map Prod.snd) r.column

def inScope (scope : Scope) : Expr X → Bool
  | .identifier name => (e.resolve scope ⟨none, name⟩).isSome
  | .compoundIdentifier table ident => (e.resolve scope ⟨some table, ident⟩).isSome
  | .nested inner => inScope scope inner
  | .bool _ => true
  | .binaryOp left _ right => inScope scope left && inScope scope right
  | .other x => e.known x scope

def eval (scope : Scope) (row : List (Record D)) : Expr X → Value D
  | .identifier name => fieldAt row (e.resolve scope ⟨none, name⟩) name
  | .compoundIdentifier table ident => fieldAt row (e.resolve scope ⟨some table, ident⟩) ident
  | .nested inner => eval scope row inner
  | .bool b => .bool b
  | .binaryOp left .and right =>
    Value.ofTruth ((eval scope row left).truth.and (eval scope row right).truth)
  | .binaryOp left .eq right => (eval scope row left).equal e.equal (eval scope row right)
  | .binaryOp left (.other symbol) right =>
    e.operator symbol (eval scope row left) (eval scope row right)
  | .other x => e.other x scope row

def holds (scope : Scope) (row : List (Record D)) (x : Expr X) : Bool :=
  (e.eval scope row x).truth == some true

def entry (factor : TableFactor S) : String × List String :=
  (factor.visible, (e.contents factor).columns)

def link (scope : Scope) (j : Join X S) : Link (Record D) where
  outer := !j.isInner
  records := (e.contents j.relation).records
  blank := fun _ => .null
  on := fun row => j.on.all (e.holds scope row)

def links (scope : Scope) : List (Join X S) → List (Link (Record D))
  | [] => []
  | j :: js =>
    let scope' := scope ++ [e.entry j.relation]
    e.link scope' j :: links scope' js

/-- Every ON names columns of the tables up to its own. -/
def onsInScope (scope : Scope) : List (Join X S) → Bool
  | [] => true
  | j :: js =>
    let scope' := scope ++ [e.entry j.relation]
    j.on.all (e.inScope scope') && onsInScope scope' js

def scope (s : Select X S) : Scope := s.factors.map e.entry

/-- The joined rows that the WHERE keeps; a statement that names a column that is not in
scope is refused. -/
def rows (s : Select X S) : Option (List (List (Record D))) :=
  if e.onsInScope [e.entry s.relation] s.joins && s.selection.all (e.inScope (e.scope s)) then
    some ((run (e.links [e.entry s.relation] s.joins)
      ((e.contents s.relation).records.map fun r => [r])).filter fun row =>
        s.selection.all (e.holds (e.scope s) row))
  else none

end Engine

/-- A property of expressions that a conjunction has when both its sides have it. -/
def Conjunctive (p : Expr X → Bool) : Prop :=
  ∀ left right, p (.binaryOp left .and right) = (p left && p right)

variable {e : Engine X S D}

theorem conjunctive_inScope (scope : Scope) : Conjunctive (e.inScope scope) := fun _ _ => rfl

theorem conjunctive_holds (scope : Scope) (row : List (Record D)) :
    Conjunctive (e.holds scope row) := by
  intro left right
  unfold Engine.holds
  rw [Engine.eval]
  have htruth : ∀ t : Truth, (Value.ofTruth (D := D) t).truth = t := by
    intro t
    cases t <;> rfl
  rw [htruth, Bool.eq_iff_iff, beq_iff_eq, Formula.Truth.and_eq_true_iff, Bool.and_eq_true,
    beq_iff_eq, beq_iff_eq]

section

variable {p : Expr X → Bool}

theorem all_splitAnd (hp : Conjunctive p) (x : Expr X) : (splitAnd x).all p = p x := by
  induction x with
  | binaryOp left op right ihl ihr =>
    cases op with
    | and => rw [splitAnd, List.all_append, ihl, ihr, hp]
    | eq => simp [splitAnd]
    | other symbol => simp [splitAnd]
  | _ => simp [splitAnd]

theorem all_combineAnd (hp : Conjunctive p) (xs : List (Expr X)) :
    (combineAnd xs).all p = xs.all p := by
  cases xs with
  | nil => rfl
  | cons first rest =>
    change p (rest.foldl (fun acc e => .binaryOp acc .and e) first) = _
    rw [List.all_cons]
    induction rest generalizing first with
    | nil => rw [List.foldl_nil, List.all_nil, Bool.and_true]
    | cons x rest ih => rw [List.foldl_cons, ih, hp, List.all_cons, Bool.and_assoc]

/-- A join with further equalities in its ON. -/
def mergeAll (added : List (Expr X)) (j : Join X S) : Join X S :=
  match combineAnd added with
  | some x => mergeIntoOn j x
  | none => j

theorem mergeIntoOn_relation (j : Join X S) (x : Expr X) :
    (mergeIntoOn j x).relation = j.relation := by
  unfold mergeIntoOn
  split <;> rfl

theorem mergeIntoOn_isInner (j : Join X S) (x : Expr X) :
    (mergeIntoOn j x).isInner = j.isInner := by
  obtain ⟨relation, operator⟩ := j
  cases operator with
  | inner c => cases c <;> rfl
  | leftOuter c => rfl

theorem all_on_mergeIntoOn (hp : Conjunctive p) {j : Join X S} (h : j.isInner = true)
    (x : Expr X) : (mergeIntoOn j x).on.all p = (j.on.all p && p x) := by
  obtain ⟨relation, operator⟩ := j
  cases operator with
  | inner c =>
    cases c with
    | on e => exact hp e x
    | none => exact (Bool.true_and _).symm
  | leftOuter c => exact absurd h nofun

theorem mergeAll_relation (added : List (Expr X)) (j : Join X S) :
    (mergeAll added j).relation = j.relation := by
  unfold mergeAll
  split
  · exact mergeIntoOn_relation j _
  · rfl

theorem mergeAll_isInner (added : List (Expr X)) (j : Join X S) :
    (mergeAll added j).isInner = j.isInner := by
  unfold mergeAll
  split
  · exact mergeIntoOn_isInner j _
  · rfl

theorem all_on_mergeAll (hp : Conjunctive p) {added : List (Expr X)} {j : Join X S}
    (h : added = [] ∨ j.isInner = true) :
    (mergeAll added j).on.all p = (j.on.all p && added.all p) := by
  rw [← all_combineAnd hp added]
  unfold mergeAll
  rcases h with rfl | h
  · exact (Bool.and_true _).symm
  · cases combineAnd added with
    | none => exact (Bool.and_true _).symm
    | some x => exact all_on_mergeIntoOn hp h x

end

namespace Engine

variable (e)

/-- The joins of a statement, each with the equalities that are moved to it as a condition
of its own. -/
def steps (scope : Scope) (moved : ℕ → List (Expr X)) :
    List (Join X S) → List (Link (Record D) × (List (Record D) → Bool))
  | [] => []
  | j :: js =>
    let scope' := scope ++ [e.entry j.relation]
    (e.link scope' j, fun row => (moved 0).all (e.holds scope' row)) ::
      steps scope' (fun i => moved (i + 1)) js

end Engine

def ToInner (moved : ℕ → List (Expr X)) (joins : List (Join X S)) : Prop :=
  ∀ i j, joins[i]? = some j → moved i = [] ∨ j.isInner = true

theorem ToInner.tail {moved : ℕ → List (Expr X)} {j : Join X S} {js : List (Join X S)}
    (h : ToInner moved (j :: js)) : ToInner (fun i => moved (i + 1)) js :=
  fun i j' hj => h (i + 1) j' hj

theorem link_mergeAll (scope : Scope) {added : List (Expr X)} {j : Join X S}
    (h : added = [] ∨ j.isInner = true) :
    e.link scope (mergeAll added j) =
      (e.link scope j).restrict fun row => added.all (e.holds scope row) := by
  unfold Engine.link Link.restrict
  simp only [mergeAll_relation, mergeAll_isInner, all_on_mergeAll (conjunctive_holds _ _) h]

theorem links_mergeAll (scope : Scope) {moved : ℕ → List (Expr X)} {joins : List (Join X S)}
    (h : ToInner moved joins) :
    e.links scope (joins.mapIdx fun i j => mergeAll (moved i) j) =
      (e.steps scope moved joins).map fun p => p.1.restrict p.2 := by
  induction joins generalizing scope moved with
  | nil => rfl
  | cons j js ih =>
    rw [List.mapIdx_cons]
    simp only [Engine.links, Engine.steps, List.map_cons, mergeAll_relation]
    rw [link_mergeAll _ (h 0 j rfl), ih _ h.tail]

theorem map_fst_steps (scope : Scope) (moved : ℕ → List (Expr X)) (joins : List (Join X S)) :
    (e.steps scope moved joins).map Prod.fst = e.links scope joins := by
  induction joins generalizing scope moved with
  | nil => rfl
  | cons j js ih =>
    simp only [Engine.links, Engine.steps, List.map_cons]
    rw [ih]

theorem onsInScope_mergeAll (scope : Scope) {moved : ℕ → List (Expr X)} {joins : List (Join X S)}
    (h : ToInner moved joins) :
    e.onsInScope scope (joins.mapIdx fun i j => mergeAll (moved i) j) = true ↔
      e.onsInScope scope joins = true ∧ ∀ i < joins.length, ∀ x ∈ moved i,
        e.inScope (scope ++ (joins.take (i + 1)).map fun j => e.entry j.relation) x = true := by
  induction joins generalizing scope moved with
  | nil => exact ⟨fun hs => ⟨hs, fun i hi => absurd hi (Nat.not_lt_zero i)⟩, fun hs => hs.1⟩
  | cons j js ih =>
    rw [List.mapIdx_cons]
    simp only [Engine.onsInScope, mergeAll_relation,
      all_on_mergeAll (conjunctive_inScope _) (h 0 j rfl), Bool.and_eq_true, ih _ h.tail]
    constructor
    · rintro ⟨⟨hon, hadded⟩, hons, hrest⟩
      refine ⟨⟨hon, hons⟩, ?_⟩
      intro i hi x hx
      cases i with
      | zero => exact List.all_eq_true.mp hadded x hx
      | succ i =>
        have hstep := hrest i (Nat.lt_of_succ_lt_succ hi) x hx
        rw [List.append_assoc] at hstep
        exact hstep
    · rintro ⟨⟨hon, hons⟩, hmoved⟩
      refine ⟨⟨hon, List.all_eq_true.mpr fun x hx => hmoved 0 (Nat.succ_pos _) x hx⟩, hons, ?_⟩
      intro i hi x hx
      have hstep := hmoved (i + 1) (Nat.succ_lt_succ hi) x hx
      rw [List.append_assoc]
      exact hstep

theorem all_steps (scope : Scope) (moved : ℕ → List (Expr X)) (joins : List (Join X S))
    (row : List (Record D)) :
    ((e.steps scope moved joins).all fun p => p.2 row) = true ↔
      ∀ i < joins.length, ∀ x ∈ moved i,
        e.holds (scope ++ (joins.take (i + 1)).map fun j => e.entry j.relation) row x = true := by
  induction joins generalizing scope moved with
  | nil => exact iff_of_true rfl fun i hi => absurd hi (Nat.not_lt_zero i)
  | cons j js ih =>
    simp only [Engine.steps, List.all_cons, Bool.and_eq_true, ih]
    constructor
    · rintro ⟨hadded, hrest⟩ i hi x hx
      cases i with
      | zero => exact List.all_eq_true.mp hadded x hx
      | succ i =>
        have hstep := hrest i (Nat.lt_of_succ_lt_succ hi) x hx
        rw [List.append_assoc] at hstep
        exact hstep
    · intro hmoved
      refine ⟨List.all_eq_true.mpr fun x hx => hmoved 0 (Nat.succ_pos _) x hx, ?_⟩
      intro i hi x hx
      have hstep := hmoved (i + 1) (Nat.succ_lt_succ hi) x hx
      rw [List.append_assoc]
      exact hstep

def columnOf : Expr X → Option Ref
  | .identifier name => some ⟨none, name⟩
  | .compoundIdentifier table ident => some ⟨some table, ident⟩
  | .nested inner => columnOf inner
  | _ => none

/-- An equality of two columns. -/
def Equates (x : Expr X) (r r' : Ref) : Prop :=
  ∃ left right, x = .binaryOp left .eq right ∧ columnOf left = some r ∧ columnOf right = some r'

theorem inScope_column {x : Expr X} {r : Ref} (h : columnOf x = some r) (scope : Scope) :
    e.inScope scope x = (e.resolve scope r).isSome := by
  induction x with
  | identifier name | compoundIdentifier table ident =>
    obtain rfl := Option.some.inj h
    rfl
  | nested inner ih => exact ih h
  | _ => exact absurd h nofun

theorem eval_column {x : Expr X} {r : Ref} (h : columnOf x = some r) (scope : Scope)
    (row : List (Record D)) : e.eval scope row x = fieldAt row (e.resolve scope r) r.column := by
  induction x with
  | identifier name | compoundIdentifier table ident =>
    obtain rfl := Option.some.inj h
    rfl
  | nested inner ih =>
    rw [Engine.eval]
    exact ih h
  | _ => exact absurd h nofun

theorem Equates.inScope_iff {x : Expr X} {r r' : Ref} (h : Equates x r r') (scope : Scope) :
    e.inScope scope x = true ↔
      (e.resolve scope r).isSome = true ∧ (e.resolve scope r').isSome = true := by
  obtain ⟨left, right, rfl, hleft, hright⟩ := h
  rw [Engine.inScope, Bool.and_eq_true, inScope_column hleft, inScope_column hright]

theorem Equates.holds_eq {x : Expr X} {r r' : Ref} (h : Equates x r r') (scope : Scope)
    (row : List (Record D)) : e.holds scope row x =
      (((fieldAt row (e.resolve scope r) r.column).equal e.equal
        (fieldAt row (e.resolve scope r') r'.column)).truth == some true) := by
  obtain ⟨left, right, rfl, hleft, hright⟩ := h
  unfold Engine.holds
  rw [Engine.eval, eval_column hleft, eval_column hright]

theorem resolve_spec {scope : Scope} {r : Ref} {t : ℕ} (h : e.resolve scope r = some t) :
    ∃ entry, scope[t]? = some entry ∧ r.column ∈ entry.2 ∧ ∀ table ∈ r.table, entry.1 = table := by
  unfold Engine.resolve at h
  split at h
  · next table htable =>
    obtain ⟨hlt, hentry, -⟩ := List.findIdx?_eq_some_iff_getElem.mp h
    rw [Bool.and_eq_true, beq_iff_eq, List.contains_iff_mem] at hentry
    refine ⟨scope[t], List.getElem?_eq_getElem hlt, hentry.2, ?_⟩
    intro table' htable'
    rw [htable] at htable'
    rw [hentry.1]
    exact Option.some.inj htable'
  · next htable =>
    obtain ⟨columns, hcolumns, hmem⟩ := e.pick_sound h
    rw [List.getElem?_map] at hcolumns
    obtain ⟨entry, hentry, rfl⟩ := Option.map_eq_some_iff.mp hcolumns
    refine ⟨entry, hentry, hmem, ?_⟩
    intro table' htable'
    rw [htable] at htable'
    exact absurd htable' nofun

theorem resolve_lt {scope : Scope} {r : Ref} {t : ℕ} (h : e.resolve scope r = some t) :
    t < scope.length := by
  obtain ⟨entry, hentry, -⟩ := resolve_spec h
  exact (List.getElem?_eq_some_iff.mp hentry).1

/-- A column that is named without its table is of one table only. -/
def Unambiguous (scope : Scope) (r : Ref) : Prop :=
  r.table = none → ∀ (t t' : ℕ) (entry entry' : String × List String), scope[t]? = some entry →
    r.column ∈ entry.2 → scope[t']? = some entry' → r.column ∈ entry'.2 → t = t'

/-- Among the first tables a column is what it is among all of them. -/
theorem resolve_of_append {scope rest : Scope} {r : Ref} (h : Unambiguous (scope ++ rest) r) :
    e.resolve scope r = (e.resolve (scope ++ rest) r).filter (· < scope.length) := by
  cases htable : r.table with
  | some table =>
    unfold Engine.resolve
    rw [htable]
    dsimp only
    rw [List.findIdx?_append]
    cases hfind : scope.findIdx? fun s => s.1 == table && s.2.contains r.column with
    | some t =>
      obtain ⟨hlt, -⟩ := List.findIdx?_eq_some_iff_getElem.mp hfind
      rw [Option.some_or, Option.filter_some, if_pos (decide_eq_true hlt)]
    | none =>
      cases rest.findIdx? fun s => s.1 == table && s.2.contains r.column with
      | none => rfl
      | some t =>
        have hlater : ¬t + scope.length < scope.length := Nat.not_lt.mpr (Nat.le_add_left _ _)
        rw [Option.map_some, Option.none_or, Option.filter_some, decide_eq_false hlater]
        rfl
  | none =>
    have hone := h htable
    cases hfull : e.resolve (scope ++ rest) r with
    | none =>
      cases hpart : e.resolve scope r with
      | none => rfl
      | some t =>
        obtain ⟨entry, hentry, hmem, -⟩ := resolve_spec hpart
        have hin : entry.2 ∈ (scope ++ rest).map Prod.snd :=
          List.mem_map_of_mem (List.mem_append_left _ (List.mem_of_getElem? hentry))
        have hsome := e.pick_complete hin hmem
        unfold Engine.resolve at hfull
        rw [htable] at hfull
        dsimp only at hfull
        rw [hfull] at hsome
        exact absurd hsome nofun
    | some t =>
      obtain ⟨entry, hentry, hmem, -⟩ := resolve_spec hfull
      have hsame : ∀ t', e.resolve scope r = some t' → t' = t := by
        intro t' ht'
        obtain ⟨entry', hentry', hmem', -⟩ := resolve_spec ht'
        have hlong : (scope ++ rest)[t']? = some entry' := by
          rw [List.getElem?_append_left (resolve_lt ht'), hentry']
        exact hone t' t entry' entry hlong hmem' hentry hmem
      by_cases hlt : t < scope.length
      · rw [List.getElem?_append_left hlt] at hentry
        have hin : entry.2 ∈ scope.map Prod.snd :=
          List.mem_map_of_mem (List.mem_of_getElem? hentry)
        have hsome := e.pick_complete hin hmem
        obtain ⟨t', ht'⟩ := Option.isSome_iff_exists.mp hsome
        have hpart : e.resolve scope r = some t' := by
          unfold Engine.resolve
          rw [htable]
          exact ht'
        rw [hpart, hsame t' hpart, Option.filter_some, if_pos (decide_eq_true hlt)]
      · rw [Option.filter_some, decide_eq_false hlt]
        cases hpart : e.resolve scope r with
        | none => rfl
        | some t' =>
          have hlt' := resolve_lt hpart
          rw [hsame t' hpart] at hlt'
          exact absurd hlt' hlt

theorem fieldAt_append {row rest : List (Record D)} {o : Option ℕ}
    (h : ∀ t ∈ o, t < row.length) (column : String) :
    fieldAt (row ++ rest) o column = fieldAt row o column := by
  unfold fieldAt
  cases o with
  | none => rfl
  | some t =>
    rw [Option.bind_some, Option.bind_some, List.getElem?_append_left (h t rfl)]

theorem Equates.reads {x : Expr X} {r r' : Ref} (h : Equates x r r') (scope : Scope) :
    Reads scope.length fun row : List (Record D) => e.holds scope row x := by
  intro row rest hlength
  dsimp only
  rw [h.holds_eq, h.holds_eq, fieldAt_append fun t ht => (resolve_lt ht).trans_le hlength,
    fieldAt_append fun t ht => (resolve_lt ht).trans_le hlength]

end BlueDB.Pushdown
