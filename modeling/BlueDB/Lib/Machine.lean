import Mathlib.Tactic

/-!
# Bounded arithmetic, bit sets and ordered checks

Unsigned machine arithmetic is done on `ℕ` with the largest representable value
as an explicit argument. Flag words are bit vectors that are only ever tested,
joined and cleared against one-bit masks. Input validation is a list of guarded
codes of which the first failing one decides.
-/

namespace BlueDB

/-- Addition that fails when the sum leaves the type. -/
def checkedAdd (limit a b : ℕ) : Option ℕ := if a + b ≤ limit then some (a + b) else none

/-- Multiplication that fails when the product leaves the type. -/
def checkedMul (limit a b : ℕ) : Option ℕ := if a * b ≤ limit then some (a * b) else none

/-- Subtraction that fails below zero. -/
def checkedSub (a b : ℕ) : Option ℕ := if b ≤ a then some (a - b) else none

def saturatingAdd (limit a b : ℕ) : ℕ := min (a + b) limit

def saturatingMul (limit a b : ℕ) : ℕ := min (a * b) limit

/-- Subtraction of unsigned numbers that stops at zero. -/
def saturatingSub (a b : ℕ) : ℕ := a - b

/-- Addition of a build without overflow checks: reduced modulo the type's size. -/
def wrappingAdd (limit a b : ℕ) : ℕ := (a + b) % (limit + 1)

@[simp] theorem checkedAdd_eq_some {limit a b c : ℕ} :
    checkedAdd limit a b = some c ↔ a + b ≤ limit ∧ c = a + b := by
  unfold checkedAdd
  split_ifs with h <;> simp [h, eq_comm]

@[simp] theorem checkedMul_eq_some {limit a b c : ℕ} :
    checkedMul limit a b = some c ↔ a * b ≤ limit ∧ c = a * b := by
  unfold checkedMul
  split_ifs with h <;> simp [h, eq_comm]

theorem wrappingAdd_of_le {limit a b : ℕ} (h : a + b ≤ limit) :
    wrappingAdd limit a b = a + b :=
  Nat.mod_eq_of_lt (by omega)

theorem saturatingAdd_of_le {limit a b : ℕ} (h : a + b ≤ limit) :
    saturatingAdd limit a b = a + b := by
  unfold saturatingAdd
  omega

theorem saturatingMul_of_le {limit a b : ℕ} (h : a * b ≤ limit) :
    saturatingMul limit a b = a * b := by
  unfold saturatingMul
  omega

section BitSet

variable {w : ℕ}

/-- The mask with the single bit `i`. -/
def bit (w i : ℕ) : BitVec w := 1#w <<< i

/-- Every bit of `mask` is set. -/
def bitsContain (bits mask : BitVec w) : Bool := bits &&& mask == mask

/-- The bits of `mask` cleared. -/
def bitsWithout (bits mask : BitVec w) : BitVec w := bits &&& ~~~mask

theorem bitsContain_bit (bits : BitVec w) {i : ℕ} (hi : i < w) :
    bitsContain bits (bit w i) = bits.getLsbD i := by
  have hbit : bit w i = BitVec.twoPow w i := by
    rw [bit, BitVec.twoPow_eq]
  have hne : (0#w == BitVec.twoPow w i) = false := by
    rw [beq_eq_false_iff_ne]
    intro h
    have := congrArg (fun x => x.getLsbD i) h
    simp [hi] at this
  rw [bitsContain, hbit, BitVec.and_twoPow]
  cases bits.getLsbD i <;> simp [hne]

theorem bitsContain_or_bit (bits : BitVec w) {i j : ℕ} (hi : i < w) (hj : j < w) :
    bitsContain (bits ||| bit w j) (bit w i) = (bitsContain bits (bit w i) || decide (i = j)) := by
  rw [bitsContain_bit _ hi, bitsContain_bit _ hi, BitVec.getLsbD_or, bit, ← BitVec.twoPow_eq,
    BitVec.getLsbD_twoPow]
  simp [hj, eq_comm]

theorem bitsContain_without_bit (bits : BitVec w) {i j : ℕ} (hi : i < w) :
    bitsContain (bitsWithout bits (bit w j)) (bit w i) =
      (bitsContain bits (bit w i) && decide (i ≠ j)) := by
  rw [bitsContain_bit _ hi, bitsContain_bit _ hi, bitsWithout, BitVec.getLsbD_and,
    BitVec.getLsbD_not, bit, ← BitVec.twoPow_eq, BitVec.getLsbD_twoPow]
  by_cases h : i = j
  · subst j
    simp [hi]
  · simp [hi, h, Ne.symm h]

end BitSet

/-- The code of the first check whose condition holds. -/
def firstFailing {ρ : Type*} : List (Bool × ρ) → Option ρ
  | [] => none
  | (failed, code) :: checks => if failed then some code else firstFailing checks

@[simp] theorem firstFailing_nil {ρ : Type*} : firstFailing ([] : List (Bool × ρ)) = none := rfl

theorem firstFailing_cons {ρ : Type*} (failed : Bool) (code : ρ) (checks : List (Bool × ρ)) :
    firstFailing ((failed, code) :: checks) =
      if failed then some code else firstFailing checks := rfl

theorem firstFailing_eq_none {ρ : Type*} {checks : List (Bool × ρ)} :
    firstFailing checks = none ↔ ∀ c ∈ checks, c.1 = false := by
  induction checks with
  | nil => simp
  | cons c checks ih =>
    obtain ⟨failed, code⟩ := c
    cases failed <;> simp [firstFailing_cons, ih]

theorem mem_of_firstFailing_eq_some {ρ : Type*} {checks : List (Bool × ρ)} {code : ρ}
    (h : firstFailing checks = some code) : code ∈ checks.map Prod.snd := by
  induction checks with
  | nil => simp at h
  | cons c checks ih =>
    obtain ⟨failed, code'⟩ := c
    cases failed with
    | true =>
      have : code' = code := by simpa [firstFailing_cons] using h
      simp [this]
    | false =>
      have := ih (by simpa [firstFailing_cons] using h)
      simpa using Or.inr this

end BlueDB
