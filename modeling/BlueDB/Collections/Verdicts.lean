import BlueDB.Collections.Filter

/-!
# The verdicts of operators

The SQL of a comparison says of an operand what its operator says of the operand's value, once
the literals can be compared with it.
-/

namespace BlueDB.Collections

open Formula (Truth)

variable {F : Type} [Doubles F] {e : Engine F} {indexes : List Index} {r : Row F}

def literals (op : Cmp) (value : Json F) : List (Scalar F) :=
  match op with
  | .isIn | .nin => (value.asArray.getD []).map jsonToScalar
  | .exists_ => []
  | _ => [jsonToScalar value]

namespace Engine

/-- What an operator says of a value. A pattern is left out. -/
def passes (e : Engine F) (op : Cmp) (value : Json F) (x : Scalar F) : Truth :=
  match op with
  | .eq => e.relate x .eq (jsonToScalar value)
  | .ne => (e.relate x .ne (jsonToScalar value)).or (some (x.kind == .null))
  | .gt => e.relate x .gt (jsonToScalar value)
  | .gte => e.relate x .gte (jsonToScalar value)
  | .lt => e.relate x .lt (jsonToScalar value)
  | .lte => e.relate x .lte (jsonToScalar value)
  | .isIn => e.isIn x (literals op value)
  | .nin => (e.isIn x (literals op value)).not.or (some (x.kind == .null))
  | .exists_ => some ((x.kind == .null) != value.asBool.getD true)
  | .regex => none

/-- An operator of an operand, once all literals can be compared with it. -/
def judge (e : Engine F) (k : Kind) (op : Cmp) (value : Json F) (x : Except Failure (Scalar F)) :
    Except Failure Truth :=
  if (literals op value).all fun y => e.comparable k y.kind then x.map (e.passes op value)
  else throw .types

end Engine

/-- A list of values is not empty. -/
def Listed (op : Cmp) (value : Json F) : Prop :=
  op = .isIn ∨ op = .nin → literals op value ≠ []

theorem items_ne_nil {op : Cmp} {value : Json F} (hop : op = .isIn ∨ op = .nin)
    (h : Listed op value) : (value.asArray.getD []).isEmpty = false := by
  have hne := h hop
  rw [List.isEmpty_eq_false_iff]
  intro hnil
  apply hne
  rcases hop with rfl | rfl
  · simp [literals, hnil]
  · simp [literals, hnil]

theorem Truth.or_false (t : Truth) : t.or (some false) = t := by
  rcases t with _ | _ | _ <;> rfl

theorem eval_relationSql (o : Operand) (rel : Relation) (value : Json F) :
    Formula.eval (e.evalAtom indexes r) (relationSql o rel value) =
      if e.comparable (Engine.kind indexes o) (jsonToScalar value).kind then
        (e.value indexes r o).map fun x => e.relate x rel (jsonToScalar value)
      else throw .types := rfl

theorem eval_or_isNull {p : Predicate F} (o : Operand) {k : Bool} {err : Failure}
    {g : Scalar F → Truth} (h : Formula.eval (e.evalAtom indexes r) p =
      if k then (e.value indexes r o).map g else throw err) :
    Formula.eval (e.evalAtom indexes r) (.any [p, .atom (.isNull o false)]) =
      if k then (e.value indexes r o).map fun x => (g x).or (some (x.kind == .null))
      else throw err := by
  simp only [Formula.eval, Formula.evalAny]
  rw [h]
  cases k with
  | false => rfl
  | true =>
    cases hx : e.value indexes r o with
    | error _ => rfl
    | ok x =>
      simp only [Engine.evalAtom, hx]
      change Except.ok ((g x).or (Formula.Truth.or (some ((x.kind == .null) != false))
          (some false))) = _
      rw [Truth.or_false, Bool.bne_false]
      rfl

theorem eval_inSql (o : Operand) {op : Cmp} {value : Json F} (hop : op = .isIn ∨ op = .nin)
    (h : Listed op value) (negated : Bool) :
    Formula.eval (e.evalAtom indexes r) (inSql o value negated) =
      if (literals op value).all fun y => e.comparable (Engine.kind indexes o) y.kind then
        (e.value indexes r o).map fun x =>
          if negated then (e.isIn x (literals op value)).not else e.isIn x (literals op value)
      else throw .types := by
  have hitems := items_ne_nil hop h
  have hliterals : literals op value = (value.asArray.getD []).map jsonToScalar := by
    rcases hop with rfl | rfl <;> rfl
  unfold inSql
  rw [hliterals]
  dsimp only
  rw [hitems]
  rfl

/-- A comparison other than with a pattern, over any operand. -/
theorem eval_cmpSqlCol (o : Operand) {op : Cmp} {value : Json F} (hregex : op ≠ .regex)
    (h : Listed op value) :
    Formula.eval (e.evalAtom indexes r) (cmpSqlCol o op value) =
      e.judge (Engine.kind indexes o) op value (e.value indexes r o) := by
  unfold Engine.judge
  cases op with
  | eq | gt | gte | lt | lte =>
    simp only [cmpSqlCol, eval_relationSql, literals, List.all_cons, List.all_nil, Bool.and_true]
    rfl
  | ne =>
    simp only [cmpSqlCol, literals, List.all_cons, List.all_nil, Bool.and_true]
    exact eval_or_isNull o (eval_relationSql o .ne value)
  | isIn => exact eval_inSql o (Or.inl rfl) h false
  | nin => exact eval_or_isNull o (eval_inSql o (Or.inr rfl) h true)
  | exists_ => rfl
  | regex => exact absurd rfl hregex

variable {op : Cmp} {value : Json F}

def Lenient (op : Cmp) : Prop := op = .ne ∨ op = .nin

theorem relate_null (rel : Relation) (y : Scalar F) : e.relate .null rel y = none := by
  cases y <;> rfl

theorem isIn_null {ys : List (Scalar F)} (h : ys ≠ []) : e.isIn .null ys = none := by
  induction ys with
  | nil => exact absurd rfl h
  | cons y ys ih =>
    change (e.relate .null .eq y).or (e.isIn .null ys) = none
    rw [relate_null]
    cases ys with
    | nil => rfl
    | cons z zs => rw [ih (List.cons_ne_nil z zs)]; rfl

theorem Truth.or_true (t : Truth) : t.or (some true) = some true := by
  rcases t with _ | _ | _ <;> rfl

theorem passes_null_of_lenient (h : Lenient op) : e.passes op value .null = some true := by
  rcases h with rfl | rfl
  · exact Truth.or_true (e.relate .null .ne (jsonToScalar value))
  · exact Truth.or_true (e.isIn .null (literals .nin value)).not

theorem relate_some {x y : Scalar F} (hx : x.kind ≠ .null) (hy : y.kind ≠ .null)
    (rel : Relation) : ∃ b, e.relate x rel y = some b := by
  cases x with
  | null => exact absurd rfl hx
  | _ =>
    cases y with
    | null => exact absurd rfl hy
    | _ => exact ⟨_, rfl⟩

theorem isIn_some {x : Scalar F} {ys : List (Scalar F)} (hx : x.kind ≠ .null)
    (hys : ∀ y ∈ ys, y.kind ≠ .null) : ∃ b, e.isIn x ys = some b := by
  induction ys with
  | nil => exact ⟨false, rfl⟩
  | cons y ys ih =>
    obtain ⟨hy, hrest⟩ := List.forall_mem_cons.mp hys
    obtain ⟨b, hb⟩ := relate_some (e := e) hx hy .eq
    obtain ⟨b', hb'⟩ := ih hrest
    refine ⟨b || b', ?_⟩
    change (e.relate x .eq y).or (e.isIn x ys) = _
    rw [hb, hb']
    cases b <;> cases b' <;> rfl

namespace Example

/-- Floats that have no fraction. -/
instance integers : Doubles ℤ where
  ofInt i := i
  whole := some
  text := toString

def engine : Engine ℤ where
  castDouble := String.toInt?
  accepts _ _ := false
  mixed _ _ := .eq
  acceptsEmptyList := false
  isMatch s p := .ok (s == p)

/-- The quantity of one order is not a number. -/
def order : Row ℤ := ⟨"a", .object [("_id", .string "a"), ("qty", .string "many")]⟩

end Example

end BlueDB.Collections
