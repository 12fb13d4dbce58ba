import Mathlib.Data.Nat.Size
import Mathlib.Tactic

/-!
# Binary expansions around one power of two

Every size of at least two is `2 ^ t + r` with `0 < r ≤ 2 ^ t`. The lemmas here
say how the leading bit `t` enters bit tests, exclusive or, bit length, bit
count and trailing zeros, so that an algorithm that walks bits can be followed
along that splitting.
-/

namespace BlueDB

/-- Number of one bits. -/
def countOnes (n : ℕ) : ℕ := if n = 0 then 0 else n % 2 + countOnes (n / 2)

/-- Number of zero bits below the lowest one bit, of a 64-bit word. -/
def trailingZeros (n : ℕ) : ℕ :=
  if n = 0 then 64 else if n % 2 = 1 then 0 else trailingZeros (n / 2) + 1

theorem exists_two_pow_add {n : ℕ} (h : 2 ≤ n) : ∃ t r, n = 2 ^ t + r ∧ 0 < r ∧ r ≤ 2 ^ t := by
  have hlow : 2 ^ Nat.log 2 (n - 1) ≤ n - 1 := Nat.pow_log_le_self 2 (by omega)
  have hhigh : n - 1 < 2 ^ (Nat.log 2 (n - 1) + 1) := Nat.lt_pow_succ_log_self (by omega) _
  rw [pow_succ] at hhigh
  exact ⟨Nat.log 2 (n - 1), n - 2 ^ Nat.log 2 (n - 1), by omega, by omega, by omega⟩

section Words

variable {t a b : ℕ}

theorem testBit_two_pow_add (ha : a < 2 ^ t) (j : ℕ) :
    (2 ^ t + a).testBit j = (decide (j = t) || a.testBit j) := by
  have hor := Nat.two_pow_add_eq_or_of_lt ha 1
  rw [mul_one] at hor
  rw [hor, Nat.testBit_or, Nat.testBit_two_pow]
  simp [eq_comm]

theorem testBit_eq_false_of_le (ha : a < 2 ^ t) {j : ℕ} (hj : t ≤ j) : a.testBit j = false :=
  Nat.testBit_lt_two_pow (ha.trans_le (Nat.pow_le_pow_right (by omega) hj))

theorem two_pow_add_xor (ha : a < 2 ^ t) (hb : b < 2 ^ t) :
    (2 ^ t + a) ^^^ (2 ^ t + b) = a ^^^ b := by
  apply Nat.eq_of_testBit_eq
  intro j
  rw [Nat.testBit_xor, Nat.testBit_xor, testBit_two_pow_add ha, testBit_two_pow_add hb]
  by_cases hj : j = t
  · subst j
    rw [testBit_eq_false_of_le ha le_rfl, testBit_eq_false_of_le hb le_rfl]
    simp
  · simp [hj]

theorem size_xor_two_pow_add (ha : a < 2 ^ t) (hb : b < 2 ^ t) :
    Nat.size (a ^^^ (2 ^ t + b)) = t + 1 := by
  have hxor : a ^^^ (2 ^ t + b) = 2 ^ t + (a ^^^ b) := by
    apply Nat.eq_of_testBit_eq
    intro j
    rw [testBit_two_pow_add (Nat.xor_lt_two_pow ha hb), Nat.testBit_xor, Nat.testBit_xor,
      testBit_two_pow_add hb]
    by_cases hj : j = t
    · subst j
      rw [testBit_eq_false_of_le ha le_rfl]
      simp
    · simp [hj]
  have hlt := Nat.xor_lt_two_pow ha hb
  apply le_antisymm
  · rw [Nat.size_le, hxor, pow_succ]
    omega
  · rw [Nat.succ_le_iff, Nat.lt_size, hxor]
    omega

theorem size_xor_le (ha : a < 2 ^ t) (hb : b < 2 ^ t) : Nat.size (a ^^^ b) ≤ t :=
  Nat.size_le.mpr (Nat.xor_lt_two_pow ha hb)

theorem countOnes_zero : countOnes 0 = 0 := by
  rw [countOnes, if_pos rfl]

theorem countOnes_two_pow_add : ∀ {t a : ℕ}, a < 2 ^ t → countOnes (2 ^ t + a) = countOnes a + 1
  | 0, a, ha => by
    have : a = 0 := by simpa using ha
    subst a
    simp [countOnes]
  | t + 1, a, ha => by
    have hpow : 2 ^ (t + 1) = 2 * 2 ^ t := by rw [pow_succ]; omega
    have hhalf := countOnes_two_pow_add (t := t) (a := a / 2) (by omega)
    have hdiv : (2 ^ (t + 1) + a) / 2 = 2 ^ t + a / 2 := by omega
    have hmod : (2 ^ (t + 1) + a) % 2 = a % 2 := by omega
    have hpos : 0 < 2 ^ (t + 1) := by positivity
    rw [countOnes, if_neg (by omega), hdiv, hmod, hhalf]
    by_cases ha0 : a = 0
    · subst a
      simp [countOnes_zero]
    · rw [countOnes.eq_def a, if_neg ha0]
      omega

theorem countOnes_two_pow_add_shiftRight (ha : a < 2 ^ t) {s : ℕ} (hs : s ≤ t) :
    countOnes ((2 ^ t + a) >>> s) = countOnes (a >>> s) + 1 := by
  have hpow : 2 ^ t = 2 ^ s * 2 ^ (t - s) := by rw [← pow_add]; congr 1; omega
  have hshift : (2 ^ t + a) / 2 ^ s = 2 ^ (t - s) + a / 2 ^ s := by
    rw [hpow, Nat.mul_add_div (by positivity)]
  have hlt : a / 2 ^ s < 2 ^ (t - s) := by
    rw [Nat.div_lt_iff_lt_mul (by positivity), mul_comm, ← hpow]
    exact ha
  rw [Nat.shiftRight_eq_div_pow, Nat.shiftRight_eq_div_pow, hshift, countOnes_two_pow_add hlt]

end Words

theorem trailingZeros_odd {n : ℕ} (h : n % 2 = 1) : trailingZeros n = 0 := by
  rw [trailingZeros, if_neg (by omega), if_pos h]

theorem trailingZeros_two_mul {n : ℕ} (h : 0 < n) : trailingZeros (2 * n) =
    trailingZeros n + 1 := by
  rw [trailingZeros, if_neg (by omega), if_neg (by omega)]
  congr 2
  omega

theorem trailingZeros_two_pow (t : ℕ) : trailingZeros (2 ^ t) = t := by
  induction t with
  | zero => exact trailingZeros_odd rfl
  | succ t ih =>
    rw [pow_succ, mul_comm, trailingZeros_two_mul (by positivity), ih]

/-- The lowest one bit is no higher than any bound on the number. -/
theorem trailingZeros_le : ∀ {t n : ℕ}, 0 < n → n ≤ 2 ^ t → trailingZeros n ≤ t
  | 0, n, hpos, hle => by
    have : n = 1 := by
      rw [pow_zero] at hle
      omega
    subst n
    exact (trailingZeros_odd rfl).le
  | t + 1, n, hpos, hle => by
    rcases Nat.mod_two_eq_zero_or_one n with heven | hodd
    · obtain ⟨m, rfl⟩ : ∃ m, n = 2 * m := ⟨n / 2, by omega⟩
      rw [pow_succ] at hle
      have := trailingZeros_le (t := t) (n := m) (by omega) (by omega)
      rw [trailingZeros_two_mul (by omega)]
      omega
    · rw [trailingZeros_odd hodd]
      omega

theorem trailingZeros_two_pow_add : ∀ {t r : ℕ}, 0 < r → r < 2 ^ t →
    trailingZeros (2 ^ t + r) = trailingZeros r
  | 0, r, hpos, hlt => by
    rw [pow_zero] at hlt
    omega
  | t + 1, r, hpos, hlt => by
    rw [pow_succ] at hlt ⊢
    rcases Nat.mod_two_eq_zero_or_one r with heven | hodd
    · obtain ⟨m, rfl⟩ : ∃ m, r = 2 * m := ⟨r / 2, by omega⟩
      have hsum : 2 ^ t * 2 + 2 * m = 2 * (2 ^ t + m) := by omega
      rw [hsum, trailingZeros_two_mul (by omega), trailingZeros_two_mul (by omega),
        trailingZeros_two_pow_add (by omega) (by omega)]
    · rw [trailingZeros_odd hodd, trailingZeros_odd (by omega)]

end BlueDB
