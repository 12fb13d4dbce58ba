import BlueDB.Lakehouse.Iceberg

/-!
# Exact cells

The column of an integer or a decimal type holds the number of each value, except for an
unsigned number over the signed 128-bit ones and a decimal that 18 digits do not hold. The
cell of a key in a delete file is that of the row with the key.
-/

namespace BlueDB.Lakehouse

open Sql (DataType)

def buildArrowColumn (rescale : Decimal → ℕ → Decimal) (arrowDt : ArrowType) (cells : List Value) :
    Except LakehouseError (List (Option Cell)) :=
  if arrowDt.supported then .ok (cells.map (arrowCell rescale arrowDt))
  else .error (.columnNotSupported arrowDt)

/-- The integer types and the decimal one. -/
def IsNumeric : DataType → Bool
  | .int8 | .int16 | .int32 | .int | .int128 => true
  | .uint8 | .uint16 | .uint32 | .uint64 | .uint128 => true
  | .decimal => true
  | _ => false

/-- The decimals of the engine: a mantissa of 96 bits and a scale of at most 28. -/
def Decimal.Valid (d : Decimal) : Prop := d.mantissa.natAbs < 2 ^ 96 ∧ d.scale ≤ 28

/-- How a decimal is brought to a scale: digits are appended as long as the mantissa has 96
bits, and cut off by rounding to the nearest number. -/
structure Rescales (rescale : Decimal → ℕ → Decimal) : Prop where
  append : ∀ d scale, d.Valid → d.scale ≤ scale → scale ≤ 28 →
    ∃ n, d.scale + n ≤ scale ∧ rescale d scale = ⟨d.mantissa * 10 ^ n, d.scale + n⟩ ∧
      d.mantissa.natAbs * 10 ^ n < 2 ^ 96 ∧
      (d.scale + n = scale ∨ 2 ^ 96 ≤ d.mantissa.natAbs * 10 ^ (n + 1))
  cut : ∀ d scale, d.Valid → scale < d.scale →
    ∃ mantissa, rescale d scale = ⟨mantissa, scale⟩ ∧
      2 * |d.mantissa - mantissa * 10 ^ (d.scale - scale)| ≤ 10 ^ (d.scale - scale)

/-- The value is one that its column holds: an unsigned number below the signed ones that are
negative, a decimal whose mantissa has 96 bits with 18 digits, or has none beyond these. -/
def FitsCell : Value → Prop
  | .u128 n => n < 2 ^ 127
  | .decimal d =>
    if d.scale ≤ 18 then d.mantissa.natAbs * 10 ^ (18 - d.scale) < 2 ^ 96
    else (10 : ℤ) ^ (d.scale - 18) ∣ d.mantissa
  | _ => True

instance (v : Value) : Decidable (FitsCell v) :=
  match v with
  | .u128 n => Nat.decLt n (2 ^ 127)
  | .decimal d => inferInstanceAs (Decidable (if d.scale ≤ 18 then _ < 2 ^ 96 else _ ∣ _))
  | .bool _ | .i8 _ | .i16 _ | .i32 _ | .i64 _ | .i128 _ | .u8 _ | .u16 _ | .u32 _ | .u64 _ | .f32 _
  | .f64 _ | .str _ | .bytea _ | .inet _ | .date _ | .timestamp _ _ | .time _ | .interval _
  | .uuid _
  | .map | .list | .point _ | .null => isTrue trivial

/-- The decimals among the values are those of the engine. -/
def Value.Valid : Value → Prop
  | .decimal d => d.Valid
  | _ => True

instance (v : Value) : Decidable v.Valid :=
  match v with
  | .decimal d => inferInstanceAs (Decidable (d.mantissa.natAbs < 2 ^ 96 ∧ d.scale ≤ 28))
  | .bool _ | .i8 _ | .i16 _ | .i32 _ | .i64 _ | .i128 _ | .u8 _ | .u16 _ | .u32 _ | .u64 _
  | .u128 _
  | .f32 _ | .f64 _ | .str _ | .bytea _ | .inet _ | .date _ | .timestamp _ _ | .time _ | .interval _
  | .uuid _ | .map | .list | .point _ | .null => isTrue trivial

variable {rescale : Decimal → ℕ → Decimal} {dt : DataType} {v : Value}

/-- A decimal keeps its number when it is one that the column holds. -/
theorem rescale_exact_iff (hrescale : Rescales rescale) {d : Decimal} (hd : d.Valid) :
    (rescale d 18).mantissa * 10 ^ d.scale = d.mantissa * 10 ^ 18 ↔ FitsCell (.decimal d) := by
  unfold FitsCell
  dsimp only
  split_ifs with hscale
  · obtain ⟨n, hn, heq, hbound, hfull⟩ := hrescale.append d 18 hd hscale (by decide)
    rw [heq]
    dsimp only
    constructor
    · intro hexact
      by_cases hzero : d.mantissa = 0
      · rw [hzero]
        simp
      · -- the digits appended are all there are to 18
        have hpow : (10 : ℤ) ^ (n + d.scale) = 10 ^ 18 := by
          rw [mul_assoc, ← pow_add] at hexact
          exact mul_left_cancel₀ hzero hexact
        have hexp : n + d.scale = 18 := Int.pow_right_injective (by decide) hpow
        rw [show 18 - d.scale = n by omega]
        exact hbound
    · intro hfits
      have hexp : d.scale + n = 18 := by
        rcases hfull with hfull | hfull
        · exact hfull
        · by_contra hne
          have hle : n + 1 ≤ 18 - d.scale := by omega
          have hmono : d.mantissa.natAbs * 10 ^ (n + 1) ≤ d.mantissa.natAbs * 10 ^ (18 - d.scale) :=
            Nat.mul_le_mul_left _ (Nat.pow_le_pow_right (by decide) hle)
          omega
      rw [mul_assoc, ← pow_add, Nat.add_comm n, hexp]
  · obtain ⟨mantissa, heq, hnear⟩ := hrescale.cut d 18 hd (by omega)
    rw [heq]
    dsimp only
    have hsplit : (10 : ℤ) ^ d.scale = 10 ^ (d.scale - 18) * 10 ^ 18 := by
      rw [← pow_add]
      congr 1
      omega
    have hcancel : mantissa * 10 ^ d.scale = d.mantissa * 10 ^ 18 ↔
        mantissa * 10 ^ (d.scale - 18) = d.mantissa := by
      rw [hsplit, ← mul_assoc]
      exact mul_left_inj' (by positivity)
    rw [hcancel]
    constructor
    · intro hexact
      exact Dvd.intro_left _ hexact
    · rintro ⟨q, hq⟩
      -- the nearest multiple of the unit to a multiple of it is that one
      have hunit : (0 : ℤ) < 10 ^ (d.scale - 18) := by positivity
      generalize (10 : ℤ) ^ (d.scale - 18) = unit at hq hnear hunit ⊢
      have hfactor : d.mantissa - mantissa * unit = (q - mantissa) * unit := by
        rw [hq]
        ring
      rw [hfactor, abs_mul, abs_of_pos hunit, ← mul_assoc] at hnear
      have hsmall : 2 * |q - mantissa| < 2 := by
        by_contra hge
        have := mul_le_mul_of_nonneg_right (not_lt.mp hge) hunit.le
        linarith
      have hzero : q - mantissa = 0 := by
        rw [← Int.abs_lt_one_iff]
        linarith
      rw [hq, mul_comm, sub_eq_zero.mp hzero]

/-- The cell of a number stands for it when the column holds the number. -/
theorem represents_iff (hrescale : Rescales rescale) (hdt : IsNumeric dt = true)
    (h : HasType dt v = true) (hv : v.Valid) :
    Represents v (arrowCell rescale (arrowType (icebergType dt)) v) ↔ FitsCell v := by
  rw [represents_arrowCell h]
  cases v with
  | decimal d => exact rescale_exact_iff hrescale hv
  | _ =>
    cases dt <;> first
      | exact absurd hdt Bool.false_ne_true
      | exact absurd h Bool.false_ne_true
      | exact Iff.rfl

/-- The kinds of keys that a value of their kind is made of. -/
def namedKey : Value → Option Key
  | .bool b => some (.bool b)
  | .date days => some (.date days)
  | .timestamp seconds nanosecond => some (.timestamp seconds nanosecond)
  | .time t => some (.time t)
  | .uuid n => some (.uuid n)
  | .decimal d => some (.decimal d)
  | v => keyOfValue v

/-- How the engine makes a key of a value: one of its kind, or one of a kind that the writer
knows by its debug text only. -/
structure KeysOfValues (keyOf : Value → Key) : Prop where
  named : ∀ v k, namedKey v = some k → keyOf v = k
  other : ∀ v, namedKey v = none → ∃ debug, keyOf v = .other debug

/-- The types whose values have cells that a row can be told by. -/
def IsMirrorKey : DataType → Bool
  | .float32 | .float | .inet | .interval | .point | .map | .list => false
  | _ => true

/-- The key column of a delete file has the cell of the row with the key; where it has not, one
of the two is null, which a key column does not take. -/
structure KeysAgree (rescale : Decimal → ℕ → Decimal) (keyOf : Value → Key) : Prop where
  same : ∀ dt v, IsMirrorKey dt = true → HasType dt v = true → v ≠ .null →
    arrowCell rescale (arrowType (icebergType dt)) (keyToValue (keyOf v)) =
      arrowCell rescale (arrowType (icebergType dt)) v
  rejected : ∀ dt v, IsMirrorKey dt = false → HasType dt v = true → v ≠ .null →
    arrowCell rescale (arrowType (icebergType dt)) (keyToValue (keyOf v)) = none ∨
      arrowCell rescale (arrowType (icebergType dt)) v = none

theorem keyToValue_of_namedKey {k : Key} (h : namedKey v = some k) : keyToValue k = v := by
  cases v <;> cases h <;> rfl

theorem keysAgree {keyOf : Value → Key} (hkeys : KeysOfValues keyOf) :
    KeysAgree rescale keyOf := by
  constructor
  · intro dt v hdt h hnull
    obtain ⟨k, hk⟩ : ∃ k, namedKey v = some k := by
      cases v <;> first
        | exact ⟨_, rfl⟩
        | exact absurd rfl hnull
        | (cases dt <;> first
            | exact absurd h Bool.false_ne_true
            | exact absurd hdt Bool.false_ne_true)
    rw [hkeys.named v k hk, keyToValue_of_namedKey hk]
  · intro dt v hdt h hnull
    cases dt <;> first
      | exact absurd hdt (by decide)
      | (cases v <;> first
          | exact absurd h Bool.false_ne_true
          | exact absurd rfl hnull
          | exact .inr rfl
          | skip)
    case float32.f32 bits =>
      obtain ⟨debug, heq⟩ := hkeys.other (.f32 bits) rfl
      rw [heq]
      exact .inl rfl
    case float.f64 bits =>
      obtain ⟨debug, heq⟩ := hkeys.other (.f64 bits) rfl
      rw [heq]
      exact .inl rfl

def ColumnExact (rescale : Decimal → ℕ → Decimal) (dt : DataType) (cells : List Value) : Prop :=
  ∀ array, buildArrowColumn rescale (arrowType (icebergType dt)) cells = .ok array →
    List.Forall₂ Represents cells array

theorem columnExact_iff (hdt : IsNumeric dt = true) (cells : List Value) :
    ColumnExact rescale dt cells ↔
      ∀ v ∈ cells, Represents v (arrowCell rescale (arrowType (icebergType dt)) v) := by
  have hbuilt : buildArrowColumn rescale (arrowType (icebergType dt)) cells =
      .ok (cells.map (arrowCell rescale (arrowType (icebergType dt)))) := by
    unfold buildArrowColumn
    rw [if_pos]
    cases dt <;> first | rfl | exact absurd hdt Bool.false_ne_true
  unfold ColumnExact
  rw [hbuilt]
  simp only [Except.ok.injEq, forall_eq', List.forall₂_map_right_iff, List.forall₂_same]

/-- The cells of a column of numbers are exact, or the write is refused, when the column holds
the numbers. The cell of a key in a delete file is always that of its row. -/
theorem cells_exact_iff (hrescale : Rescales rescale) {keyOf : Value → Key}
    (hkeys : KeysOfValues keyOf) (hdt : IsNumeric dt = true) {cells : List Value}
    (h : ∀ v ∈ cells, HasType dt v = true ∧ v.Valid) :
    (ColumnExact rescale dt cells ∧ KeysAgree rescale keyOf) ↔ ∀ v ∈ cells, FitsCell v := by
  rw [columnExact_iff hdt]
  constructor
  · rintro ⟨hexact, -⟩ v hv
    exact (represents_iff hrescale hdt (h v hv).1 (h v hv).2).mp (hexact v hv)
  · intro hfits
    refine ⟨fun v hv => ?_, keysAgree hkeys⟩
    exact (represents_iff hrescale hdt (h v hv).1 (h v hv).2).mpr (hfits v hv)

namespace ExactCells

theorem appendDigits_spec (n : ℕ) (d : Decimal) (hd : d.mantissa.natAbs < 2 ^ 96) :
    ∃ k, k ≤ n ∧ Ints.appendDigits n d = ⟨d.mantissa * 10 ^ k, d.scale + k⟩ ∧
      d.mantissa.natAbs * 10 ^ k < 2 ^ 96 ∧
        (k = n ∨ 2 ^ 96 ≤ d.mantissa.natAbs * 10 ^ (k + 1)) := by
  induction n generalizing d with
  | zero => exact ⟨0, le_rfl, by simp [Ints.appendDigits], by simpa using hd, .inl rfl⟩
  | succ n ih =>
    unfold Ints.appendDigits
    split_ifs with hfits
    · obtain ⟨k, hk, heq, hbound, hfull⟩ := ih ⟨d.mantissa * 10, d.scale + 1⟩ (by
        rw [Int.natAbs_mul]
        exact hfits)
      have hshift : ∀ e, (d.mantissa * 10).natAbs * 10 ^ e = d.mantissa.natAbs * 10 ^ (e + 1) := by
        intro e
        rw [Int.natAbs_mul, pow_succ']
        exact mul_assoc ..
      refine ⟨k + 1, by omega, ?_, ?_, ?_⟩
      · rw [heq, Decimal.mk.injEq]
        constructor
        · rw [pow_succ', ← mul_assoc]
        · rw [add_assoc, Nat.add_comm 1]
      · rw [← hshift]
        exact hbound
      · rcases hfull with rfl | hfull
        · exact .inl rfl
        · rw [hshift] at hfull
          exact .inr hfull
    · exact ⟨0, Nat.zero_le _, by simp, by simpa using hd, .inr (by simpa using hfits)⟩

theorem nearest (m : ℤ) {unit : ℕ} (hunit : 0 < unit) :
    2 * |m - m.sign * ((2 * m.natAbs + unit) / (2 * unit) : ℕ) * unit| ≤ unit := by
  have hdiv := Nat.div_add_mod (2 * m.natAbs + unit) (2 * unit)
  have hmod := Nat.mod_lt (2 * m.natAbs + unit) (show 0 < 2 * unit by omega)
  generalize (2 * m.natAbs + unit) / (2 * unit) = q at hdiv ⊢
  generalize (2 * m.natAbs + unit) % (2 * unit) = r at hdiv hmod
  have hdiv' : 2 * (q * unit) + r = 2 * m.natAbs + unit := by
    rw [← hdiv]
    ring
  generalize hp : q * unit = p at hdiv'
  have hcast : (q : ℤ) * unit = p := by exact_mod_cast hp
  rcases Int.sign_trichotomy m with hsign | hsign | hsign
  · have hpos : 0 < m := Int.sign_eq_one_iff_pos.mp hsign
    rw [hsign, one_mul, hcast, ← abs_two, ← abs_mul, abs_le]
    omega
  · have hzero : m = 0 := Int.sign_eq_zero_iff_zero.mp hsign
    subst hzero
    simp
  · have hneg : m < 0 := Int.sign_eq_neg_one_iff_neg.mp hsign
    rw [hsign, neg_one_mul, neg_mul, hcast, ← abs_two, ← abs_mul, abs_le]
    omega

theorem rescales : Rescales Ints.rescale := by
  constructor
  · intro d scale hd hle _
    obtain ⟨k, hk, heq, hbound, hfull⟩ := appendDigits_spec (scale - d.scale) d hd.1
    refine ⟨k, by omega, ?_, hbound, hfull.imp_left fun h => by omega⟩
    unfold Ints.rescale
    rw [if_pos hle, heq]
  · intro d scale hd hlt
    refine ⟨_, by unfold Ints.rescale; rw [if_neg (by omega)], ?_⟩
    have hnear := @ExactCells.nearest d.mantissa (10 ^ (d.scale - scale)) (by positivity)
    exact_mod_cast hnear

def keyOf (v : Value) : Key := (namedKey v).getD (.other [])

theorem keysOfValues : KeysOfValues keyOf := by
  constructor
  · intro v k h
    unfold keyOf
    rw [h, Option.getD_some]
  · intro v h
    unfold keyOf
    rw [h, Option.getD_none]
    exact ⟨[], rfl⟩

def amounts : List Value := [.u128 5, .null, .u128 (2 ^ 127 - 1)]

theorem cells_exact_amounts :
    ColumnExact Ints.rescale .uint128 amounts ∧ KeysAgree Ints.rescale keyOf :=
  (cells_exact_iff rescales keysOfValues rfl (by decide)).mpr (by decide)

/-- The least number over the signed ones is written as a negative one. -/
theorem cell_wraps :
    HasType .uint128 (.u128 (2 ^ 127)) = true ∧
      buildArrowColumn Ints.rescale (arrowType (icebergType .uint128)) [.u128 (2 ^ 127)] =
        .ok [some (.decimal (-2 ^ 127) 0)] ∧
      ¬ColumnExact Ints.rescale .uint128 [.u128 (2 ^ 127)] := by
  have hbuilt : buildArrowColumn Ints.rescale (arrowType (icebergType .uint128)) [.u128 (2 ^ 127)] =
      .ok [some (.decimal (-2 ^ 127) 0)] := by decide +kernel
  refine ⟨by decide, hbuilt, fun hexact => ?_⟩
  have hcell := (List.forall₂_cons.mp (hexact _ hbuilt)).1
  change (-2 ^ 127 : ℤ) = ((2 ^ 127 : ℕ) : ℤ) * 10 ^ 0 at hcell
  norm_num at hcell

end ExactCells

end BlueDB.Lakehouse
