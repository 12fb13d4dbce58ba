import Mathlib.Tactic

/-!
# Change logs

A change carries a key and its new image, none when the key is deleted. A log
lists changes under ascending numbers. Over a state the last change of a key
decides, and without one the state does, so that it makes no difference whether a
part of the log has been applied to the state before.
-/

namespace BlueDB.Changelog

structure Change (κ ν : Type*) where
  key : κ
  image : Option ν

variable {κ ν : Type*} [DecidableEq κ]

def apply (s : κ → Option ν) (c : Change κ ν) : κ → Option ν := Function.update s c.key c.image

/-- The state after the changes, one after the other. -/
def replay (s : κ → Option ν) (cs : List (Change κ ν)) : κ → Option ν := cs.foldl apply s

@[simp] theorem replay_nil (s : κ → Option ν) : replay s [] = s := rfl

theorem replay_cons (s : κ → Option ν) (c : Change κ ν) (cs : List (Change κ ν)) :
    replay s (c :: cs) = replay (apply s c) cs := rfl

theorem replay_append (s : κ → Option ν) (cs cs' : List (Change κ ν)) :
    replay s (cs ++ cs') = replay (replay s cs) cs' := List.foldl_append ..

/-- The image of the last change of a key. -/
def last (cs : List (Change κ ν)) (k : κ) : Option (Option ν) :=
  (cs.filter fun c => c.key = k).getLast?.map Change.image

@[simp] theorem last_nil (k : κ) : last ([] : List (Change κ ν)) k = none := rfl

theorem last_append (cs cs' : List (Change κ ν)) (k : κ) :
    last (cs ++ cs') k = (last cs' k).or (last cs k) := by
  unfold last
  rw [List.filter_append, List.getLast?_append]
  cases (cs'.filter fun c => c.key = k).getLast? <;> rfl

theorem last_singleton (c : Change κ ν) (k : κ) :
    last [c] k = if c.key = k then some c.image else none := by
  unfold last
  by_cases h : c.key = k <;> simp [h]

theorem last_eq_none {cs : List (Change κ ν)} {k : κ} :
    last cs k = none ↔ ∀ c ∈ cs, c.key ≠ k := by
  unfold last
  rw [Option.map_eq_none_iff, List.getLast?_eq_none_iff, List.filter_eq_nil_iff]
  simp

theorem replay_apply (s : κ → Option ν) (cs : List (Change κ ν)) (k : κ) :
    replay s cs k = (last cs k).getD (s k) := by
  induction cs generalizing s with
  | nil => rfl
  | cons c cs ih =>
    rw [replay_cons, ih]
    have hlast : last (c :: cs) k = (last cs k).or (last [c] k) := last_append [c] cs k
    rw [hlast, last_singleton]
    cases last cs k with
    | some v => rfl
    | none =>
      by_cases hk : c.key = k
      · subst hk
        simp [apply]
      · simp [apply, hk, Function.update_of_ne (Ne.symm hk)]

section Numbered

variable {l l' : List (ℕ × Change κ ν)} {k : κ}

/-- The change of `k` with the highest number has the image `v`. -/
def Newest (l : List (ℕ × Change κ ν)) (k : κ) (v : Option ν) : Prop :=
  ∃ p ∈ l, p.2.key = k ∧ p.2.image = v ∧ ∀ q ∈ l, q.2.key = k → q.1 ≤ p.1

theorem last_eq_some_iff (hl : l.Pairwise fun p q => p.1 < q.1) {v : Option ν} :
    last (l.map Prod.snd) k = some v ↔ Newest l k v := by
  induction l using List.reverseRecOn with
  | nil => simp [Newest]
  | append_singleton l p ih =>
    obtain ⟨hinit, -, hlt⟩ := List.pairwise_append.mp hl
    have hlt : ∀ q ∈ l, q.1 < p.1 := fun q hq => hlt q hq p (by simp)
    rw [List.map_append, last_append]
    change (last [p.2] k).or _ = _ ↔ _
    rw [last_singleton]
    by_cases hp : p.2.key = k
    · rw [if_pos hp, Option.some_or, Option.some.injEq]
      constructor
      · intro himage
        refine ⟨p, by simp, hp, himage, fun q hq _ => ?_⟩
        rcases List.mem_append.mp hq with hq | hq
        · exact (hlt q hq).le
        · exact (congrArg Prod.fst (List.mem_singleton.mp hq)).le
      · rintro ⟨q, hq, -, himage, hmax⟩
        rcases List.mem_append.mp hq with hq | hq
        · exact absurd (hmax p (by simp) hp) (not_le.mpr (hlt q hq))
        · rw [← List.mem_singleton.mp hq]
          exact himage
    · rw [if_neg hp, Option.none_or, ih hinit]
      constructor
      · intro ⟨q, hq, hkey, himage, hmax⟩
        refine ⟨q, List.mem_append_left _ hq, hkey, himage, fun q' hq' hkey' => ?_⟩
        rcases List.mem_append.mp hq' with hq' | hq'
        · exact hmax q' hq' hkey'
        · rw [List.mem_singleton.mp hq'] at hkey'
          exact absurd hkey' hp
      · intro ⟨q, hq, hkey, himage, hmax⟩
        rcases List.mem_append.mp hq with hq | hq
        · exact ⟨q, hq, hkey, himage, fun q' hq' => hmax q' (List.mem_append_left _ hq')⟩
        · rw [List.mem_singleton.mp hq] at hkey
          exact absurd hkey hp

theorem last_map_eq_none : last (l.map Prod.snd) k = none ↔ ∀ p ∈ l, p.2.key ≠ k := by
  rw [last_eq_none]
  exact List.forall_mem_map

/-- The log splits in two, and of the changes of one key the ones in `l₂` have the
higher numbers: these decide. -/
theorem last_merge {l₁ l₂ : List (ℕ × Change κ ν)} (hl : l.Pairwise fun p q => p.1 < q.1)
    (hl₁ : l₁.Pairwise fun p q => p.1 < q.1) (hl₂ : l₂.Pairwise fun p q => p.1 < q.1)
    (hmem : ∀ p, p ∈ l ↔ p ∈ l₁ ∨ p ∈ l₂)
    (hlt : ∀ p ∈ l₁, ∀ q ∈ l₂, p.2.key = q.2.key → p.1 < q.1) (k : κ) :
    last (l.map Prod.snd) k = (last (l₂.map Prod.snd) k).or (last (l₁.map Prod.snd) k) := by
  cases h₂ : last (l₂.map Prod.snd) k with
  | some v =>
    obtain ⟨p, hp, hkey, himage, hmax⟩ := (last_eq_some_iff hl₂).mp h₂
    refine (last_eq_some_iff hl).mpr ⟨p, (hmem p).mpr (Or.inr hp), hkey, himage, ?_⟩
    intro q hq hqkey
    rcases (hmem q).mp hq with hq | hq
    · exact (hlt q hq p hp (hqkey.trans hkey.symm)).le
    · exact hmax q hq hqkey
  | none =>
    have hnone := last_map_eq_none.mp h₂
    rw [Option.none_or]
    cases h₁ : last (l₁.map Prod.snd) k with
    | some v =>
      obtain ⟨p, hp, hkey, himage, hmax⟩ := (last_eq_some_iff hl₁).mp h₁
      refine (last_eq_some_iff hl).mpr ⟨p, (hmem p).mpr (Or.inl hp), hkey, himage, ?_⟩
      intro q hq hqkey
      rcases (hmem q).mp hq with hq | hq
      · exact hmax q hq hqkey
      · exact absurd hqkey (hnone q hq)
    | none =>
      have hnone₁ := last_map_eq_none.mp h₁
      apply last_map_eq_none.mpr
      intro q hq
      rcases (hmem q).mp hq with hq | hq
      · exact hnone₁ q hq
      · exact hnone q hq

end Numbered

end BlueDB.Changelog
