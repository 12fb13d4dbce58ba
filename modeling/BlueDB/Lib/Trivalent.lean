import Mathlib.Tactic

/-!
# Conditions with three values

A condition over a row is true, false or unknown, and its evaluation may fail. A row
is selected when the condition is true, so that a condition and its negation together
tell the four cases apart. Two ways to lower the leaves of a condition select the same
rows, whatever is built from its parts, exactly when they agree on every leaf.
-/

namespace BlueDB

universe u

/-- A condition over leaves. -/
inductive Formula (A : Type u)
  | truth
  | atom (a : A)
  | all (fs : List (Formula A))
  | any (fs : List (Formula A))
  | neg (f : Formula A)

namespace Formula

variable {A B C ε : Type u}

/-- No value is unknown. -/
abbrev Truth := Option Bool

def Truth.and : Truth → Truth → Truth
  | some false, _ => some false
  | _, some false => some false
  | some true, some true => some true
  | _, _ => none

def Truth.or : Truth → Truth → Truth
  | some true, _ => some true
  | _, some true => some true
  | some false, some false => some false
  | _, _ => none

def Truth.not (t : Truth) : Truth := t.map fun b => !b

/-- Whether a row with this value is selected. -/
def selected (x : Except ε Truth) : Except ε Bool := x.map fun t => t == some true

/-- A value is told by what is selected under it and under its negation. -/
theorem eq_of_selected {x y : Except ε Truth} (h : selected x = selected y)
    (hnot : selected (x.map Truth.not) = selected (y.map Truth.not)) : x = y := by
  cases x with
  | error e =>
    cases y with
    | error e' => cases h; rfl
    | ok t' => exact absurd h nofun
  | ok t =>
    cases y with
    | error e' => exact absurd h nofun
    | ok t' =>
      have hval : (t == some true) = (t' == some true) := Except.ok.inj h
      have hneg : (t.not == some true) = (t'.not == some true) := Except.ok.inj hnot
      rcases t with _ | _ | _ <;> rcases t' with _ | _ | _ <;> simp_all [Truth.not]

mutual

/-- The value of a condition; it fails when a part of it fails. -/
def eval (v : A → Except ε Truth) : Formula A → Except ε Truth
  | .truth => .ok (some true)
  | .atom a => v a
  | .all fs => evalAll v fs
  | .any fs => evalAny v fs
  | .neg f => (eval v f).map Truth.not

def evalAll (v : A → Except ε Truth) : List (Formula A) → Except ε Truth
  | [] => .ok (some true)
  | f :: fs => do
    let t ← eval v f
    let t' ← evalAll v fs
    return t.and t'

def evalAny (v : A → Except ε Truth) : List (Formula A) → Except ε Truth
  | [] => .ok (some false)
  | f :: fs => do
    let t ← eval v f
    let t' ← evalAny v fs
    return t.or t'

end

mutual

/-- Every leaf is lowered by itself, and an empty list in a way of its own. -/
def lower (empty : Formula B) (leaf : A → Formula B) : Formula A → Formula B
  | .truth => .truth
  | .atom a => leaf a
  | .all fs => if fs.isEmpty then empty else .all (lowerList empty leaf fs)
  | .any fs => if fs.isEmpty then empty else .any (lowerList empty leaf fs)
  | .neg f => .neg (lower empty leaf f)

def lowerList (empty : Formula B) (leaf : A → Formula B) : List (Formula A) → List (Formula B)
  | [] => []
  | f :: fs => lower empty leaf f :: lowerList empty leaf fs

end

/-- `Part g f`: `g` stands somewhere in `f`. -/
inductive Part : Formula A → Formula A → Prop
  | refl (f : Formula A) : Part f f
  | all {g f : Formula A} {fs : List (Formula A)} : f ∈ fs → Part g f → Part g (.all fs)
  | any {g f : Formula A} {fs : List (Formula A)} : f ∈ fs → Part g f → Part g (.any fs)
  | neg {g f : Formula A} : Part g f → Part g (.neg f)

/-- Induction over a condition, with the hypothesis for every member of a list. -/
@[elab_as_elim]
theorem induct {motive : Formula A → Prop} (truth : motive .truth) (atom : ∀ a, motive (.atom a))
    (all : ∀ fs, (∀ f ∈ fs, motive f) → motive (.all fs))
    (any : ∀ fs, (∀ f ∈ fs, motive f) → motive (.any fs))
    (neg : ∀ f, motive f → motive (.neg f)) (f : Formula A) : motive f :=
  Formula.rec (motive_1 := motive) (motive_2 := fun fs => ∀ f ∈ fs, motive f) truth atom all any neg
    (by simp) (fun _ _ hf hfs => List.forall_mem_cons.mpr ⟨hf, hfs⟩) f

section

variable {v : B → Except ε Truth} {v' : C → Except ε Truth} {empty : Formula B} {empty' : Formula C}
  {leaf : A → Formula B} {leaf' : A → Formula C}

theorem evalAll_congr {fs : List (Formula A)}
    (h : ∀ f ∈ fs, eval v (lower empty leaf f) = eval v' (lower empty' leaf' f)) :
    evalAll v (lowerList empty leaf fs) = evalAll v' (lowerList empty' leaf' fs) := by
  induction fs with
  | nil => rfl
  | cons f fs ih =>
    obtain ⟨hf, hfs⟩ := List.forall_mem_cons.mp h
    simp only [lowerList, evalAll]
    rw [hf, ih hfs]

theorem evalAny_congr {fs : List (Formula A)}
    (h : ∀ f ∈ fs, eval v (lower empty leaf f) = eval v' (lower empty' leaf' f)) :
    evalAny v (lowerList empty leaf fs) = evalAny v' (lowerList empty' leaf' fs) := by
  induction fs with
  | nil => rfl
  | cons f fs ih =>
    obtain ⟨hf, hfs⟩ := List.forall_mem_cons.mp h
    simp only [lowerList, evalAny]
    rw [hf, ih hfs]

/-- What two lowerings have to agree on: every leaf, and the empty list if there is one. -/
structure Agree (v : B → Except ε Truth) (v' : C → Except ε Truth) (empty : Formula B)
    (empty' : Formula C) (leaf : A → Formula B) (leaf' : A → Formula C) (f : Formula A) : Prop where
  leaves : ∀ a, Part (.atom a) f → eval v (leaf a) = eval v' (leaf' a)
  empties : Part (.all []) f ∨ Part (.any []) f → eval v empty = eval v' empty'

theorem Agree.eval_lower {f : Formula A} (h : Agree v v' empty empty' leaf leaf' f) :
    eval v (lower empty leaf f) = eval v' (lower empty' leaf' f) := by
  induction f using induct with
  | truth => rfl
  | atom a => exact h.leaves a (Part.refl _)
  | all fs ih =>
    simp only [lower]
    split_ifs with hnil
    · rw [List.isEmpty_iff.mp hnil] at h
      exact h.empties (Or.inl (Part.refl _))
    · simp only [eval]
      exact evalAll_congr fun f hf => ih f hf
        ⟨fun a ha => h.leaves a (Part.all hf ha),
          fun he => h.empties (he.imp (Part.all hf) (Part.all hf))⟩
  | any fs ih =>
    simp only [lower]
    split_ifs with hnil
    · rw [List.isEmpty_iff.mp hnil] at h
      exact h.empties (Or.inr (Part.refl _))
    · simp only [eval]
      exact evalAny_congr fun f hf => ih f hf
        ⟨fun a ha => h.leaves a (Part.any hf ha),
          fun he => h.empties (he.imp (Part.any hf) (Part.any hf))⟩
  | neg f ih =>
    simp only [lower, eval]
    rw [ih ⟨fun a ha => h.leaves a (Part.neg ha), fun he => h.empties (he.imp Part.neg Part.neg)⟩]

theorem Part.trans {f g h : Formula A} (hfg : Part f g) (hgh : Part g h) : Part f h := by
  induction hgh with
  | refl => exact hfg
  | all hmem _ ih => exact Part.all hmem ih
  | any hmem _ ih => exact Part.any hmem ih
  | neg _ ih => exact Part.neg ih

theorem Agree.part {f g : Formula A} (h : Agree v v' empty empty' leaf leaf' f) (hg : Part g f) :
    Agree v v' empty empty' leaf leaf' g :=
  ⟨fun a ha => h.leaves a (ha.trans hg),
    fun he => h.empties (he.imp (fun hp => hp.trans hg) fun hp => hp.trans hg)⟩

/-- Two lowerings select alike under every part of a condition and under its negation,
exactly when they agree on its leaves and empty lists. -/
theorem selected_parts_iff (f : Formula A) :
    (∀ g, Part g f →
      selected (eval v (lower empty leaf g)) = selected (eval v' (lower empty' leaf' g)) ∧
      selected (eval v (lower empty leaf (.neg g))) =
        selected (eval v' (lower empty' leaf' (.neg g)))) ↔
      Agree v v' empty empty' leaf leaf' f := by
  constructor
  · intro h
    have hvalue : ∀ g, Part g f →
        eval v (lower empty leaf g) = eval v' (lower empty' leaf' g) := by
      intro g hg
      obtain ⟨hsel, hneg⟩ := h g hg
      simp only [lower, eval] at hneg
      exact eq_of_selected hsel hneg
    refine ⟨fun a ha => hvalue _ ha, ?_⟩
    rintro (hall | hany)
    · exact hvalue _ hall
    · exact hvalue _ hany
  · intro h g hg
    have hvalue := (h.part hg).eval_lower
    refine ⟨congrArg selected hvalue, ?_⟩
    simp only [lower, eval]
    rw [hvalue]

end

theorem Truth.and_eq_true_iff {t t' : Truth} :
    t.and t' = some true ↔ t = some true ∧ t' = some true := by
  rcases t with _ | _ | _ <;> rcases t' with _ | _ | _ <;> simp [Truth.and]

/-- A list of conditions has a value when each of them has one. -/
theorem exists_evalAll_iff {v : A → Except ε Truth} {fs : List (Formula A)} :
    (∃ t, evalAll v fs = .ok t) ↔ ∀ f ∈ fs, ∃ t, eval v f = .ok t := by
  induction fs with
  | nil => exact iff_of_true ⟨_, rfl⟩ nofun
  | cons f fs ih =>
    rw [List.forall_mem_cons, ← ih]
    simp only [evalAll]
    cases eval v f with
    | error _ => exact iff_of_false nofun nofun
    | ok t =>
      cases evalAll v fs with
      | error _ => exact iff_of_false nofun nofun
      | ok t' => exact iff_of_true ⟨_, rfl⟩ ⟨⟨_, rfl⟩, ⟨_, rfl⟩⟩

theorem evalAll_eq_true_iff {v : A → Except ε Truth} {fs : List (Formula A)} :
    evalAll v fs = .ok (some true) ↔ ∀ f ∈ fs, eval v f = .ok (some true) := by
  induction fs with
  | nil => exact iff_of_true rfl nofun
  | cons f fs ih =>
    rw [List.forall_mem_cons, ← ih]
    simp only [evalAll]
    cases eval v f with
    | error _ => exact iff_of_false nofun nofun
    | ok t =>
      cases evalAll v fs with
      | error _ => exact iff_of_false nofun nofun
      | ok t' =>
        change Except.ok (t.and t') = Except.ok (some true) ↔ _
        rw [Except.ok.injEq, Except.ok.injEq, Except.ok.injEq]
        exact Truth.and_eq_true_iff

end Formula

end BlueDB
