import Mathlib.Tactic

/-!
# Generations of immutable parts

Documents are written in immutable parts with rising generations. Deleting an id hides
its copies in the parts of the generations written so far, so that a copy in a newer part
is live again. Merging keeps the live copies.
-/

namespace BlueDB.Generations

variable {ι δ : Type*}

/-- The documents that were written together. -/
structure Part (δ : Type*) where
  generation : ℕ
  docs : List δ

def hidden (deleted : ι → Option ℕ) (generation : ℕ) (id : ι) : Bool :=
  match deleted id with
  | some g => decide (generation ≤ g)
  | none => false

def Part.live (key : δ → ι) (deleted : ι → Option ℕ) (p : Part δ) : List δ :=
  p.docs.filter fun d => !hidden deleted p.generation (key d)

/-- The copies that no deletion hides. -/
def liveCopies (key : δ → ι) (deleted : ι → Option ℕ) (parts : List (Part δ)) : List δ :=
  parts.flatMap (Part.live key deleted)

def maxOf (generations : List ℕ) : ℕ := generations.foldr max 0

theorem le_maxOf {generations : List ℕ} {g : ℕ} (h : g ∈ generations) : g ≤ maxOf generations := by
  induction generations with
  | nil => exact absurd h List.not_mem_nil
  | cons g' rest ih =>
    rcases List.mem_cons.mp h with rfl | hrest
    · exact le_max_left _ _
    · exact (ih hrest).trans (le_max_right _ _)

def newest (parts : List (Part δ)) : ℕ := maxOf (parts.map Part.generation)

theorem le_newest {parts : List (Part δ)} {p : Part δ} (h : p ∈ parts) :
    p.generation ≤ newest parts := le_maxOf (List.mem_map_of_mem h)

/-- No deletion is newer than the parts. -/
def Bounded (deleted : ι → Option ℕ) (g : ℕ) : Prop := ∀ id d, deleted id = some d → d ≤ g

def hide [DecidableEq ι] (deleted : ι → Option ℕ) (ids : List ι) (g : ℕ) (id : ι) : Option ℕ :=
  if id ∈ ids then some (match deleted id with
    | some cur => max cur g
    | none => g)
  else deleted id

variable {key : δ → ι} {deleted deleted' : ι → Option ℕ} {parts : List (Part δ)}

theorem Bounded.mono {g g' : ℕ} (h : Bounded deleted g) (hg : g ≤ g') : Bounded deleted g' :=
  fun id d hd => (h id d hd).trans hg

theorem Bounded.sub {g : ℕ} (h : Bounded deleted g)
    (hsub : ∀ id d, deleted' id = some d → deleted id = some d) : Bounded deleted' g :=
  fun id d hd => h id d (hsub id d hd)

theorem not_hidden {g generation : ℕ} (h : Bounded deleted g) (hlt : g < generation) (id : ι) :
    hidden deleted generation id = false := by
  unfold hidden
  cases hd : deleted id with
  | none => rfl
  | some d => exact decide_eq_false (not_le.mpr ((h id d hd).trans_lt hlt))

theorem live_new {g generation : ℕ} (h : Bounded deleted g) (hlt : g < generation)
    (docs : List δ) : Part.live key deleted ⟨generation, docs⟩ = docs := by
  unfold Part.live
  apply List.filter_eq_self.mpr
  intro d _
  rw [not_hidden h hlt]
  rfl

theorem live_append (parts parts' : List (Part δ)) :
    liveCopies key deleted (parts ++ parts') =
      liveCopies key deleted parts ++ liveCopies key deleted parts' := List.flatMap_append

theorem live_singleton (p : Part δ) : liveCopies key deleted [p] = p.live key deleted :=
  List.append_nil _

theorem mem_live {d : δ} : d ∈ liveCopies key deleted parts ↔
    ∃ p ∈ parts, d ∈ p.docs ∧ hidden deleted p.generation (key d) = false := by
  unfold liveCopies Part.live
  simp only [List.mem_flatMap, List.mem_filter, Bool.not_eq_true']

theorem live_add (h : Bounded deleted (newest parts)) (docs : List δ) :
    liveCopies key deleted (parts ++ [⟨newest parts + 1, docs⟩]) =
      liveCopies key deleted parts ++ docs := by
  rw [live_append]
  congr 1
  exact (live_singleton _).trans (live_new h (Nat.lt_succ_self _) docs)

section Hiding

variable [DecidableEq ι]

theorem Bounded.hide {g : ℕ} (h : Bounded deleted g) (ids : List ι) :
    Bounded (hide deleted ids g) g := by
  intro id d hd
  unfold Generations.hide at hd
  split_ifs at hd with hid
  · obtain rfl := Option.some.inj hd
    cases hcur : deleted id with
    | none => exact le_rfl
    | some cur => exact max_le (h id cur hcur) le_rfl
  · exact h id d hd

theorem hidden_hide {g generation : ℕ} (hle : generation ≤ g) (ids : List ι) (id : ι) :
    hidden (hide deleted ids g) generation id =
      (hidden deleted generation id || decide (id ∈ ids)) := by
  unfold hidden hide
  split_ifs with hid
  · cases deleted id with
    | none => simp [hid, hle]
    | some cur => simp [hid, hle]
  · simp [hid]

theorem live_hide (ids : List ι) :
    liveCopies key (hide deleted ids (newest parts)) parts =
      (liveCopies key deleted parts).filter fun d => !decide (key d ∈ ids) := by
  unfold liveCopies
  rw [List.filter_flatMap]
  apply List.flatMap_congr
  intro p hp
  unfold Part.live
  rw [List.filter_filter]
  apply List.filter_congr
  intro d _
  rw [hidden_hide (le_newest hp), Bool.not_or, Bool.and_comm]

end Hiding

theorem live_merge (h : Bounded deleted (newest parts))
    (hsub : ∀ id d, deleted' id = some d → deleted id = some d) :
    liveCopies key deleted' [⟨newest parts + 1, liveCopies key deleted parts⟩] =
      liveCopies key deleted parts :=
  (live_singleton _).trans (live_new (h.sub hsub) (Nat.lt_succ_self _) _)

end BlueDB.Generations
