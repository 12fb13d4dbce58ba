import Mathlib.Tactic

/-!
# Rounding of integers

An integer is rounded to the nearest of those whose significand has at most `p` bits, ties
to an even significand. A number is rounded to `s` if and only if it is no farther from
`s` than half the gap on its side.
-/

namespace BlueDB.Rounding

variable {p m y a d : ℕ}

/-- The gap between the numbers with `p` bits above `m`. -/
def ulp (p m : ℕ) : ℕ := 2 ^ (m.log2 + 1 - p)

/-- The gap below `m`, which is half as large at a power of two. -/
def gapBelow (p m : ℕ) : ℕ := if m = 2 ^ m.log2 ∧ p ≤ m.log2 then ulp p m / 2 else ulp p m

def roundNat (p y : ℕ) : ℕ :=
  if 2 * (y % ulp p y) < ulp p y ∨ (2 * (y % ulp p y) = ulp p y ∧ y / ulp p y % 2 = 0) then
    y / ulp p y * ulp p y
  else (y / ulp p y + 1) * ulp p y

def Representable (p m : ℕ) : Prop := ulp p m ∣ m

theorem ulp_pos (p m : ℕ) : 0 < ulp p m := Nat.two_pow_pos _

theorem log2_eq {l : ℕ} (h : 2 ^ l ≤ y) (h' : y < 2 ^ (l + 1)) : y.log2 = l :=
  (Nat.log2_eq_iff (Nat.ne_of_gt (Nat.lt_of_lt_of_le (Nat.two_pow_pos l) h))).mpr ⟨h, h'⟩

theorem ulp_eq {l : ℕ} (h : 2 ^ l ≤ y) (h' : y < 2 ^ (l + 1)) : ulp p y = 2 ^ (l + 1 - p) := by
  rw [ulp, log2_eq h h']

theorem roundNat_eq (h : y = a * ulp p y + d) (hd : d < ulp p y) :
    roundNat p y = if 2 * d < ulp p y ∨ (2 * d = ulp p y ∧ a % 2 = 0) then a * ulp p y
      else (a + 1) * ulp p y := by
  have hdiv : y / ulp p y = a ∧ y % ulp p y = d := by
    rw [Nat.div_mod_unique (ulp_pos p y)]
    exact ⟨by rw [Nat.mul_comm, Nat.add_comm]; exact h.symm, hd⟩
  rw [roundNat, hdiv.1, hdiv.2]

/-- Multiples of the gap below a power of two leave room for one more. -/
theorem add_gap_le {u e : ℕ} {l : ℕ} (hu : u = 2 ^ e) (he : e ≤ l) (ha : a * u < 2 ^ l) :
    a * u + u ≤ 2 ^ l := by
  subst hu
  have hpow : 2 ^ l = 2 ^ (l - e) * 2 ^ e := by rw [← pow_add, Nat.sub_add_cancel he]
  rw [hpow] at ha ⊢
  have hlt : a < 2 ^ (l - e) := Nat.lt_of_mul_lt_mul_right ha
  calc a * 2 ^ e + 2 ^ e = (a + 1) * 2 ^ e := by ring
    _ ≤ 2 ^ (l - e) * 2 ^ e := Nat.mul_le_mul_right _ hlt

theorem pow_le_mul {u e : ℕ} {l : ℕ} (hu : u = 2 ^ e) (he : e ≤ l) (hd : d < u)
    (ha : 2 ^ l ≤ a * u + d) : 2 ^ l ≤ a * u := by
  by_contra hlt
  have hroom := add_gap_le hu he (Nat.lt_of_not_le hlt)
  omega

/-- A distance on a side with the gap `g` that does not reach the next number. -/
def Near (p m g d : ℕ) : Prop := 2 * d < g ∨ (2 * d = g ∧ m / ulp p m % 2 = 0)

theorem near_of_roundNat (hp : 2 ≤ p) (h : roundNat p y = m) : Representable p m ∧
    (m ≤ y → Near p m (ulp p m) (y - m)) ∧ (y < m → Near p m (gapBelow p m) (m - y)) := by
  rcases Nat.eq_zero_or_pos y with rfl | hy
  · have hgap : ulp p 0 = 1 := by simp [ulp, show 1 - p = 0 by omega]
    have hzero : m = 0 := by simpa [roundNat, hgap] using h.symm
    subst hzero
    exact ⟨dvd_zero _, fun _ => .inl (by simp [hgap]), fun hlt => absurd hlt (by simp)⟩
  have hlow := Nat.log2_self_le hy.ne'
  have hhigh := Nat.lt_log2_self (n := y)
  have hu : ulp p y = 2 ^ (y.log2 + 1 - p) := rfl
  have hdiv := Nat.div_add_mod' y (ulp p y)
  have hd := Nat.mod_lt y (ulp_pos p y)
  generalize y / ulp p y = a at hdiv
  generalize y % ulp p y = d at hdiv hd
  have hfloor : 2 ^ y.log2 ≤ a * ulp p y := pow_le_mul hu (by omega) hd (by omega)
  have hbelow : a * ulp p y < 2 ^ (y.log2 + 1) := by omega
  rw [roundNat_eq hdiv.symm hd] at h
  split at h
  · next hdown =>
    have hgap : ulp p m = ulp p y := by rw [hu, ← h, ulp_eq hfloor hbelow]
    have hsig : m / ulp p m = a := by rw [hgap, ← h, Nat.mul_div_cancel _ (ulp_pos p y)]
    refine ⟨?_, fun _ => ?_, fun hlt => ?_⟩
    · rw [Representable, hgap, ← h]
      exact Nat.dvd_mul_left _ _
    · rw [Near, hsig, hgap, show y - m = d by omega]
      exact hdown
    · omega
  · next hup =>
    have hmul : (a + 1) * ulp p y = a * ulp p y + ulp p y := by ring
    have hroom := add_gap_le (l := y.log2 + 1) hu (by omega) hbelow
    rcases Nat.lt_or_ge m (2 ^ (y.log2 + 1)) with hlt | hge
    · have hgap : ulp p m = ulp p y := by rw [hu, ulp_eq (by omega) hlt]
      have hsig : m / ulp p m = a + 1 := by rw [hgap, ← h, Nat.mul_div_cancel _ (ulp_pos p y)]
      have hpower : gapBelow p m = ulp p m := by
        rw [gapBelow, log2_eq (by omega) hlt, if_neg]
        rintro ⟨heq, -⟩
        omega
      refine ⟨?_, fun hle => by omega, fun _ => ?_⟩
      · rw [Representable, hgap, ← h]
        exact Nat.dvd_mul_left _ _
      · rw [hpower, Near, hsig, hgap, show m - y = ulp p y - d by omega]
        omega
    · -- the next power of two, where the gap doubles
      have hm : m = 2 ^ (y.log2 + 1) := by omega
      have hlog : m.log2 = y.log2 + 1 := by rw [hm, Nat.log2_two_pow]
      have hbits : p ≤ y.log2 + 1 := by
        by_contra hfew
        rw [show y.log2 + 1 - p = 0 by omega] at hu
        omega
      have hgap : ulp p m = 2 * ulp p y := by
        rw [hu, ulp, hlog, ← pow_succ', show y.log2 + 1 + 1 - p = y.log2 + 1 - p + 1 by omega]
      have hpower : gapBelow p m = ulp p y := by
        rw [gapBelow, hlog, if_pos ⟨hm, hbits⟩, hgap]
        omega
      have hsig : m = 2 ^ (p - 1) * ulp p m := by
        rw [ulp, hlog, ← pow_add, hm]
        congr 1
        omega
      have heven : m / ulp p m % 2 = 0 := by
        rw [Nat.div_eq_of_eq_mul_left (ulp_pos p m) hsig, show p - 1 = p - 2 + 1 by omega, pow_succ]
        omega
      refine ⟨⟨2 ^ (p - 1), by rw [Nat.mul_comm]; exact hsig⟩, fun hle => by omega, fun _ => ?_⟩
      rw [hpower, Near, show m - y = ulp p y - d by omega]
      omega

theorem roundNat_of_near (hp : 2 ≤ p) (hm : Representable p m)
    (habove : m ≤ y → Near p m (ulp p m) (y - m))
    (hbelow : y < m → Near p m (gapBelow p m) (m - y)) : roundNat p y = m := by
  obtain ⟨a, ha⟩ := hm
  rw [Nat.mul_comm] at ha
  have hpos := ulp_pos p m
  have hsig : m / ulp p m = a := Nat.div_eq_of_eq_mul_left hpos ha
  rcases Nat.eq_zero_or_pos m with rfl | hmpos
  · have hgap : ulp p 0 = 1 := by simp [ulp, show 1 - p = 0 by omega]
    have hnear := habove (Nat.zero_le y)
    rw [Near, hgap] at hnear
    have hzero : y = 0 := by omega
    subst hzero
    simp [roundNat, hgap]
  have hlow := Nat.log2_self_le hmpos.ne'
  have hhigh := Nat.lt_log2_self (n := m)
  have hu : ulp p m = 2 ^ (m.log2 + 1 - p) := rfl
  have hroom : m + ulp p m ≤ 2 ^ (m.log2 + 1) := by
    have hle := add_gap_le (a := a) (l := m.log2 + 1) hu (by omega) (by omega)
    omega
  rcases Nat.lt_or_ge y m with hlt | hle
  · have hnear := hbelow hlt
    by_cases hpower : m = 2 ^ m.log2 ∧ p ≤ m.log2
    · -- half the gap below a power of two
      rw [gapBelow, if_pos hpower, Near, hsig] at hnear
      have hhalf : ulp p m = 2 * 2 ^ (m.log2 - p) := by
        rw [hu, ← pow_succ', show m.log2 - p + 1 = m.log2 + 1 - p by omega]
      have hprev : 2 ^ m.log2 = 2 * 2 ^ (m.log2 - 1) := by
        rw [← pow_succ', show m.log2 - 1 + 1 = m.log2 by omega]
      have hsmall : 2 ^ (m.log2 - p) ≤ 2 ^ (m.log2 - 1) :=
          Nat.pow_le_pow_right (by omega) (by omega)
      have hgap : ulp p y = 2 ^ (m.log2 - p) := by
        rw [ulp_eq (l := m.log2 - 1) (by omega)
          (by rw [show m.log2 - 1 + 1 = m.log2 by omega]; omega)]
        congr 1
        omega
      have hcount : 2 ^ m.log2 = 2 ^ p * 2 ^ (m.log2 - p) := by
        rw [← pow_add, show p + (m.log2 - p) = m.log2 by omega]
      have hodd : (2 ^ p - 1) % 2 = 1 := by
        have htwo : 2 ^ p = 2 * 2 ^ (p - 1) := by
          rw [← pow_succ', show p - 1 + 1 = p by omega]
        have hone := Nat.two_pow_pos (p - 1)
        omega
      have hmul : (2 ^ p - 1) * 2 ^ (m.log2 - p) = m - 2 ^ (m.log2 - p) := by
        rw [Nat.sub_mul, one_mul, ← hcount, ← hpower.1]
      have hmul' : (2 ^ p - 1 + 1) * 2 ^ (m.log2 - p) = m := by
        rw [Nat.sub_add_cancel (Nat.two_pow_pos p), ← hcount, ← hpower.1]
      rw [roundNat_eq (a := 2 ^ p - 1) (d := 2 ^ (m.log2 - p) - (m - y)) (by rw [hgap]; omega)
        (by rw [hgap]; omega), hgap, if_neg (by omega)]
      exact hmul'
    · rw [gapBelow, if_neg hpower, Near, hsig] at hnear
      have hbits : p ≤ m.log2 := by
        by_contra hfew
        rw [show m.log2 + 1 - p = 0 by omega] at hu
        omega
      have hfloor : 2 ^ m.log2 + ulp p m ≤ m := by
        have hne : 2 ^ m.log2 ≠ m := fun heq => hpower ⟨heq.symm, hbits⟩
        have hmultiple : 2 ^ m.log2 = 2 ^ (p - 1) * ulp p m := by
          rw [hu, ← pow_add]
          congr 1
          omega
        have hfewer : 2 ^ (p - 1) < a := by
          apply Nat.lt_of_mul_lt_mul_right (a := ulp p m)
          omega
        have hmul := Nat.mul_le_mul_right (ulp p m) (Nat.succ_le_of_lt hfewer)
        rw [Nat.succ_mul] at hmul
        omega
      have hgap : ulp p y = ulp p m := by rw [hu, ulp_eq (l := m.log2) (by omega) (by omega)]
      have hprev : (a - 1) * ulp p m = m - ulp p m := by rw [Nat.sub_mul, one_mul, ← ha]
      have hapos : 0 < a := by
        rcases Nat.eq_zero_or_pos a with rfl | hapos
        · omega
        · exact hapos
      rw [roundNat_eq (a := a - 1) (d := ulp p m - (m - y)) (by rw [hgap]; omega)
        (by rw [hgap]; omega), hgap, if_neg (by omega), Nat.sub_add_cancel hapos]
      exact ha.symm
  · have hnear := habove hle
    rw [Near, hsig] at hnear
    have hgap : ulp p y = ulp p m := by rw [hu, ulp_eq (l := m.log2) (by omega) (by omega)]
    rw [roundNat_eq (a := a) (d := y - m) (by rw [hgap]; omega) (by rw [hgap]; omega), hgap,
      if_pos hnear]
    exact ha.symm

theorem roundNat_eq_iff (hp : 2 ≤ p) : roundNat p y = m ↔ Representable p m ∧
    (m ≤ y → Near p m (ulp p m) (y - m)) ∧ (y < m → Near p m (gapBelow p m) (m - y)) :=
  ⟨near_of_roundNat hp, fun h => roundNat_of_near hp h.1 h.2.1 h.2.2⟩

theorem roundNat_zero (p : ℕ) : roundNat p 0 = 0 := by
  simp [roundNat, ulp_pos]

/-- A rounded number stays between the powers of two around it. -/
theorem roundNat_bounds (hp : 1 ≤ p) (hy : 0 < y) :
    2 ^ y.log2 ≤ roundNat p y ∧ roundNat p y ≤ 2 ^ (y.log2 + 1) := by
  have hdiv := Nat.div_add_mod' y (ulp p y)
  have hd := Nat.mod_lt y (ulp_pos p y)
  have hlow := Nat.log2_self_le hy.ne'
  have hhigh := Nat.lt_log2_self (n := y)
  have hu : ulp p y = 2 ^ (y.log2 + 1 - p) := rfl
  generalize y / ulp p y = a at hdiv
  generalize y % ulp p y = d at hdiv hd
  have hfloor := pow_le_mul (a := a) (l := y.log2) hu (by omega) hd (by omega)
  have hroom := add_gap_le (a := a) (l := y.log2 + 1) hu (by omega) (by omega)
  have hmul : (a + 1) * ulp p y = a * ulp p y + ulp p y := by ring
  rw [roundNat_eq hdiv.symm hd]
  split
  · omega
  · omega

theorem roundNat_mono (hp : 1 ≤ p) {y z : ℕ} (h : y ≤ z) : roundNat p y ≤ roundNat p z := by
  rcases Nat.eq_zero_or_pos y with rfl | hy
  · simp [roundNat_zero]
  have hz : 0 < z := Nat.lt_of_lt_of_le hy h
  have hlog : y.log2 ≤ z.log2 := (Nat.le_log2 hz.ne').mpr ((Nat.log2_self_le hy.ne').trans h)
  rcases Nat.lt_or_ge y.log2 z.log2 with hlt | hge
  · calc roundNat p y ≤ 2 ^ (y.log2 + 1) := (roundNat_bounds hp hy).2
      _ ≤ 2 ^ z.log2 := Nat.pow_le_pow_right (by omega) hlt
      _ ≤ roundNat p z := (roundNat_bounds hp hz).1
  · have hgap : ulp p y = ulp p z := by rw [ulp, ulp, Nat.le_antisymm hlog hge]
    have hydiv := Nat.div_add_mod' y (ulp p z)
    have hzdiv := Nat.div_add_mod' z (ulp p z)
    have hyrest := Nat.mod_lt y (ulp_pos p z)
    have hzrest := Nat.mod_lt z (ulp_pos p z)
    have hquot : y / ulp p z ≤ z / ulp p z := Nat.div_le_div_right h
    rw [roundNat_eq (y := y) (a := y / ulp p z) (d := y % ulp p z) (by rw [hgap, hydiv])
      (by rw [hgap]; exact hyrest), roundNat_eq hzdiv.symm hzrest, hgap]
    rcases Nat.lt_or_ge (y / ulp p z) (z / ulp p z) with hfewer | hsame
    · have hmul := Nat.mul_le_mul_right (ulp p z) (Nat.succ_le_of_lt hfewer)
      have hsucc : ∀ q, (q + 1) * ulp p z = q * ulp p z + ulp p z := fun q => by ring
      rw [Nat.succ_mul] at hmul
      rw [hsucc, hsucc]
      split <;> split <;> omega
    · have heq : y / ulp p z = z / ulp p z := Nat.le_antisymm hquot hsame
      rw [heq] at hydiv ⊢
      have hsucc : (z / ulp p z + 1) * ulp p z = z / ulp p z * ulp p z + ulp p z := by ring
      rw [hsucc]
      split <;> split <;> omega

def nearest (p : ℕ) (x : ℤ) : ℤ := x.sign * roundNat p x.natAbs

@[simp] theorem nearest_natCast (y : ℕ) : nearest p y = roundNat p y := by
  rcases Nat.eq_zero_or_pos y with rfl | hy
  · simp [nearest, roundNat_zero]
  · simp [nearest, Int.sign_natCast_of_ne_zero hy.ne']

theorem nearest_neg (x : ℤ) : nearest p (-x) = -nearest p x := by
  simp [nearest, Int.sign_neg]

theorem nearest_nonneg {x : ℤ} (h : 0 ≤ x) : 0 ≤ nearest p x := by
  obtain ⟨y, rfl⟩ := Int.eq_ofNat_of_zero_le h
  simp

theorem nearest_mono (hp : 1 ≤ p) {x x' : ℤ} (h : x ≤ x') : nearest p x ≤ nearest p x' := by
  have hnonneg : ∀ {a b : ℤ}, 0 ≤ a → a ≤ b → nearest p a ≤ nearest p b := by
    intro a b ha hab
    obtain ⟨y, rfl⟩ := Int.eq_ofNat_of_zero_le ha
    obtain ⟨z, rfl⟩ := Int.eq_ofNat_of_zero_le (ha.trans hab)
    rw [nearest_natCast, nearest_natCast]
    exact_mod_cast roundNat_mono hp (by exact_mod_cast hab)
  rcases le_or_gt 0 x with hx | hx
  · exact hnonneg hx h
  · rcases le_or_gt 0 x' with hx' | hx'
    · have hneg := nearest_nonneg (p := p) (x := -x) (by omega)
      rw [nearest_neg] at hneg
      have hpos := nearest_nonneg (p := p) hx'
      omega
    · have hneg := hnonneg (a := -x') (b := -x) (by omega) (by omega)
      rw [nearest_neg, nearest_neg] at hneg
      omega

/-- The distance `e` from `s` is at most half the gap on its side of `s`. -/
def Absorbs (p : ℕ) (s e : ℤ) : Prop :=
  Representable p s.natAbs ∧
    Near p s.natAbs (if 0 ≤ s * e then ulp p s.natAbs else gapBelow p s.natAbs) e.natAbs

theorem absorbs_neg {s e : ℤ} : Absorbs p (-s) (-e) ↔ Absorbs p s e := by
  simp [Absorbs]

theorem gapBelow_le (hp : 1 ≤ p) (hm : 0 < m) : gapBelow p m ≤ m := by
  have hlow := Nat.log2_self_le hm.ne'
  have hle : ulp p m ≤ 2 ^ m.log2 := Nat.pow_le_pow_right (by omega) (by omega)
  unfold gapBelow
  split
  · omega
  · omega

theorem nearest_eq_natCast_iff (hp : 2 ≤ p) {x : ℤ} :
    nearest p x = m ↔ Absorbs p m (x - m) := by
  rcases le_or_gt 0 x with hx | hx
  · obtain ⟨y, rfl⟩ := Int.eq_ofNat_of_zero_le hx
    rw [nearest_natCast, Nat.cast_inj, roundNat_eq_iff hp, Absorbs, Int.natAbs_natCast]
    rcases Nat.lt_or_ge y m with hlt | hle
    · have hside : ¬ 0 ≤ (m : ℤ) * (y - m) := by
        rw [not_le]
        exact mul_neg_of_pos_of_neg (by omega) (by omega)
      rw [if_neg hside, show ((y : ℤ) - m).natAbs = m - y by omega]
      simp [hlt, not_le.mpr hlt]
    · have hside : 0 ≤ (m : ℤ) * (y - m) := mul_nonneg (by omega) (by omega)
      rw [if_pos hside, show ((y : ℤ) - m).natAbs = y - m by omega]
      simp [hle, not_lt.mpr hle]
  · have hneg : nearest p x < 0 := by
      have hbounds := roundNat_bounds (p := p) (y := x.natAbs) (by omega) (by omega)
      have hpos := Nat.two_pow_pos x.natAbs.log2
      rw [nearest, Int.sign_eq_neg_one_of_neg hx]
      omega
    constructor
    · intro h
      omega
    · rintro ⟨-, hnear⟩
      rw [Int.natAbs_natCast] at hnear
      rcases Nat.eq_zero_or_pos m with rfl | hm
      · have hgap : ulp p 0 = 1 := by simp [ulp, show 1 - p = 0 by omega]
        simp only [Nat.cast_zero, zero_mul, le_refl, if_true, hgap, Near] at hnear
        omega
      · have hside : ¬ 0 ≤ (m : ℤ) * (x - m) := by
          rw [not_le]
          exact mul_neg_of_pos_of_neg (by omega) (by omega)
        have hle := gapBelow_le (p := p) (by omega) hm
        rw [if_neg hside, Near] at hnear
        omega

/-- A number is rounded to `s` if and only if `s` absorbs the difference. -/
theorem nearest_eq_iff (hp : 2 ≤ p) {x s : ℤ} : nearest p x = s ↔ Absorbs p s (x - s) := by
  rcases le_total 0 s with hs | hs
  · obtain ⟨m, rfl⟩ := Int.eq_ofNat_of_zero_le hs
    exact nearest_eq_natCast_iff hp
  · obtain ⟨m, hm⟩ := Int.eq_ofNat_of_zero_le (Int.neg_nonneg_of_nonpos hs)
    have hneg := nearest_eq_natCast_iff (p := p) (x := -x) (m := m) hp
    rw [← hm, nearest_neg, neg_inj, show -x - -s = -(x - s) by ring, absorbs_neg] at hneg
    exact hneg

theorem nearest_nearest (hp : 2 ≤ p) (x : ℤ) : nearest p (nearest p x) = nearest p x := by
  have hx := (nearest_eq_iff hp).mp (rfl : nearest p x = nearest p x)
  rw [nearest_eq_iff hp, sub_self, Absorbs, mul_zero, if_pos le_rfl]
  exact ⟨hx.1, .inl (by simp [ulp_pos])⟩

end BlueDB.Rounding
