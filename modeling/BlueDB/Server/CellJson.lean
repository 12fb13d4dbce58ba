import BlueDB.Lakehouse.ExactCells
import BlueDB.Lib.Separated
import Mathlib.Data.List.DropRight

/-!
# Stored values and mirrored cells as JSON

A stored value and the cell of its column in the mirror are rendered by two functions. A
decimal is written without the zeros at its end, so that the scale of the column does not show.
-/

namespace BlueDB.Server

open Lakehouse
open Sql (DataType IsI64)

/-- The last `scale` digits. -/
def fracDigits : ℕ → ℕ → List Char
  | 0, _ => []
  | scale + 1, n => fracDigits scale (n / 10) ++ [Nat.digitChar (n % 10)]

def fracTrimmed (scale n : ℕ) : List Char := (fracDigits scale n).rdropWhile (· = '0')

def dotted : List Char → List Char
  | [] => []
  | frac => '.' :: frac

def decimal128ToString (raw : ℤ) (scale : ℕ) : List Char :=
  (if raw < 0 then ['-'] else []) ++ (Nat.toDigits 10 (raw.natAbs / 10 ^ scale) ++
    dotted (fracTrimmed scale raw.natAbs))

theorem fracTrimmed_zero (scale n : ℕ) :
    fracTrimmed (scale + 1) (n * 10) = fracTrimmed scale n := by
  unfold fracTrimmed
  rw [fracDigits, Nat.mul_div_cancel _ (by decide), Nat.mul_mod_left]
  exact List.rdropWhile_concat_pos _ _ _ (by decide)

theorem decimal128ToString_zero (raw : ℤ) (scale : ℕ) :
    decimal128ToString (raw * 10) (scale + 1) = decimal128ToString raw scale := by
  unfold decimal128ToString
  rw [Int.natAbs_mul, show (10 : ℤ).natAbs = 10 from rfl, fracTrimmed_zero, pow_succ,
    Nat.mul_div_mul_right _ _ (by decide)]
  simp only [show raw * 10 < 0 ↔ raw < 0 by omega]

theorem decimal128ToString_zeros (raw : ℤ) (scale k : ℕ) :
    decimal128ToString (raw * 10 ^ k) (scale + k) = decimal128ToString raw scale := by
  induction k with
  | zero => simp
  | succ k ih => rw [pow_succ, ← mul_assoc, ← add_assoc, decimal128ToString_zero, ih]

def digitsValue (digits : List Char) : ℕ := digits.foldl (fun n c => 10 * n + (c.toNat - 48)) 0

theorem digitsValue_append (digits : List Char) {d : ℕ} (hd : d < 10) :
    digitsValue (digits ++ [Nat.digitChar d]) = 10 * digitsValue digits + d := by
  simp [digitsValue, Nat.toNat_digitChar_of_lt_ten hd]

theorem digitsValue_fracDigits (scale n : ℕ) :
    digitsValue (fracDigits scale n) = n % 10 ^ scale := by
  induction scale generalizing n with
  | zero => simp [fracDigits, digitsValue, Nat.mod_one]
  | succ scale ih =>
    rw [fracDigits, digitsValue_append _ (Nat.mod_lt _ (by decide)), ih, pow_succ', Nat.mod_mul]
    omega

theorem length_fracDigits (scale n : ℕ) : (fracDigits scale n).length = scale := by
  induction scale generalizing n with
  | zero => rfl
  | succ scale ih => simp [fracDigits, ih]

/-- What the digits say when the zeros at their end are left out. -/
theorem fracTrimmed_spec (scale n : ℕ) : ∃ k, scale = (fracTrimmed scale n).length + k ∧
    n % 10 ^ scale = digitsValue (fracTrimmed scale n) * 10 ^ k := by
  induction scale generalizing n with
  | zero => exact ⟨0, rfl, by simp [fracTrimmed, fracDigits, digitsValue, Nat.mod_one]⟩
  | succ scale ih =>
    by_cases hzero : n % 10 = 0
    · obtain ⟨k, hlength, hvalue⟩ := ih (n / 10)
      have hn : n = n / 10 * 10 := by omega
      rw [hn, fracTrimmed_zero]
      refine ⟨k + 1, by omega, ?_⟩
      rw [pow_succ, Nat.mul_mod_mul_right, hvalue, pow_succ]
      ring
    · have hkept : fracTrimmed (scale + 1) n = fracDigits (scale + 1) n := by
        have hlast : Nat.digitChar (n % 10) ≠ '0' := by
          intro heq
          have hvalue := Nat.toNat_digitChar_of_lt_ten (Nat.mod_lt n (by decide : 0 < 10))
          rw [heq] at hvalue
          exact hzero (by simpa using hvalue)
        exact List.rdropWhile_concat_neg _ _ _ (by simpa using hlast)
      rw [hkept, length_fracDigits, digitsValue_fracDigits]
      exact ⟨0, rfl, (mul_one _).symm⟩

theorem append_inj_of_stop {p : Char → Bool} {w w' t t' : List Char} (hw : ∀ c ∈ w, p c = true)
    (hw' : ∀ c ∈ w', p c = true) (ht : t.takeWhile p = []) (ht' : t'.takeWhile p = [])
    (h : w ++ t = w' ++ t') : w = w' ∧ t = t' := by
  have hcut := congrArg (List.takeWhile p) h
  rw [List.takeWhile_append_of_pos hw, List.takeWhile_append_of_pos hw', ht, ht', List.append_nil,
    List.append_nil] at hcut
  subst hcut
  exact ⟨rfl, List.append_cancel_left h⟩

theorem takeWhile_dotted (f : List Char) : (dotted f).takeWhile Char.isDigit = [] := by
  cases f with
  | nil => rfl
  | cons c f => rfl

theorem dotted_inj {f f' : List Char} (h : dotted f = dotted f') : f = f' := by
  cases f with
  | nil =>
    cases f' with
    | nil => rfl
    | cons c f' => cases h
  | cons c f =>
    cases f' with
    | nil => cases h
    | cons c' f' => exact (List.cons.inj h).2

/-- Two decimals are written alike if and only if they are the same number. -/
theorem decimal128ToString_eq_iff {raw raw' : ℤ} {scale scale' : ℕ} :
    decimal128ToString raw scale = decimal128ToString raw' scale' ↔
      raw * 10 ^ scale' = raw' * 10 ^ scale := by
  constructor
  · intro h
    have hdigits : ∀ n, ∀ c ∈ Nat.toDigits 10 n, c.isDigit = true := fun n c hc =>
      Nat.isDigit_of_mem_toDigits (by decide) (by decide) hc
    have hhead : ∀ n rest tail, Nat.toDigits 10 n ++ rest ≠ '-' :: tail := by
      intro n rest tail heq
      obtain ⟨c, cs, hcs⟩ := List.exists_cons_of_ne_nil (Nat.toDigits_ne_nil (n := n) (b := 10))
      rw [hcs] at heq
      have hc := hdigits n c (by simp [hcs])
      rw [(List.cons.inj heq).1] at hc
      exact absurd hc (by decide)
    have hsign : (raw < 0 ↔ raw' < 0) ∧ Nat.toDigits 10 (raw.natAbs / 10 ^ scale) ++
        dotted (fracTrimmed scale raw.natAbs) = Nat.toDigits 10 (raw'.natAbs / 10 ^ scale') ++
          dotted (fracTrimmed scale' raw'.natAbs) := by
      unfold decimal128ToString at h
      split_ifs at h with hneg hneg' hneg'
      · exact ⟨iff_of_true hneg hneg', (List.cons.inj h).2⟩
      · exact absurd h.symm (hhead _ _ _)
      · exact absurd h (hhead _ _ _)
      · exact ⟨iff_of_false hneg hneg', h⟩
    obtain ⟨hwhole, hdotted⟩ := append_inj_of_stop (hdigits _) (hdigits _) (takeWhile_dotted _)
      (takeWhile_dotted _) hsign.2
    have hfrac := dotted_inj hdotted
    have hwhole' : raw.natAbs / 10 ^ scale = raw'.natAbs / 10 ^ scale' :=
      Nat.repr_injective (congrArg String.ofList hwhole)
    obtain ⟨k, hscale, hvalue⟩ := fracTrimmed_spec scale raw.natAbs
    obtain ⟨k', hscale', hvalue'⟩ := fracTrimmed_spec scale' raw'.natAbs
    rw [← hfrac] at hscale' hvalue'
    have hnat : raw.natAbs * 10 ^ scale' = raw'.natAbs * 10 ^ scale := by
      rw [← Nat.div_add_mod raw.natAbs (10 ^ scale), ← Nat.div_add_mod raw'.natAbs (10 ^ scale'),
        hvalue, hvalue', hwhole', hscale, hscale']
      ring
    have hint : (raw.natAbs : ℤ) * 10 ^ scale' = raw'.natAbs * 10 ^ scale := by exact_mod_cast hnat
    rcases lt_or_ge raw 0 with hneg | hpos
    · have hneg' := hsign.1.mp hneg
      rw [Int.ofNat_natAbs_of_nonpos hneg.le, Int.ofNat_natAbs_of_nonpos hneg'.le] at hint
      linarith
    · have hpos' := not_lt.mp (hsign.1.not.mp (not_lt.mpr hpos))
      rwa [Int.natAbs_of_nonneg hpos, Int.natAbs_of_nonneg hpos'] at hint
  · intro h
    calc decimal128ToString raw scale
        = decimal128ToString (raw * 10 ^ scale') (scale + scale') :=
          (decimal128ToString_zeros _ _ _).symm
      _ = decimal128ToString (raw' * 10 ^ scale) (scale' + scale) := by rw [h, add_comm]
      _ = decimal128ToString raw' scale' := decimal128ToString_zeros _ _ _

inductive Json
  | null
  | bool (b : Bool)
  | number (n : ℤ)
  | string (s : List Char)

/-- What is left to the libraries. A date has a text if it is one of the calendar; the debug
text of a cell is that of an array of one element. -/
structure Rendering where
  utf8 : List UInt8 → List Char
  date : ℤ → Option (List Char)
  fromF64 : UInt64 → Json
  base64 : List UInt8 → List Char
  debugValue : Value → List Char
  debugCell : Cell → List Char

/-- The calendar ends before the year 263000, a date is written with digits and signs, the
alphabet of base64 has no line ends, and the debug text of an array has lines. -/
structure Rendering.Documented (r : Rendering) : Prop where
  date : ∀ {days text}, r.date days = some text → 'T' ∉ text ∧ |days| ≤ 100000000
  base64 : ∀ b, '\n' ∉ r.base64 b
  debugCell : ∀ c, '\n' ∈ r.debugCell c

variable (r : Rendering)

def twoDigits (n : ℕ) : List Char := [Nat.digitChar (n / 10), Nat.digitChar (n % 10)]

/-- `HH:MM:SS`, with six more digits when there are microseconds. -/
def clockText (hour minute second micros : ℕ) : List Char :=
  twoDigits hour ++ ':' :: twoDigits minute ++ ':' :: twoDigits second ++
    if micros = 0 then [] else '.' :: fracDigits 6 micros

/-- A leap second has over 10⁹ nanoseconds. -/
def naiveTimeText (t : Time) : List Char :=
  clockText t.hour t.minute (t.second + t.nanosecond / 10 ^ 9) (t.nanosecond / 1000)

def formatNaiveTimeMicros (micros : ℕ) : List Char :=
  clockText (micros / 3600000000) (micros % 3600000000 / 60000000)
    (micros % 3600000000 % 60000000 / 1000000) (micros % 3600000000 % 60000000 % 1000000)

def formatNaiveDatetime (seconds : ℤ) (nanosecond : ℕ) : Option (List Char) :=
  let clock := (seconds % 86400).toNat
  (r.date (seconds / 86400)).map (· ++ 'T' :: naiveTimeText
    ⟨clock / 3600, clock % 3600 / 60, clock % 60, nanosecond⟩)

def stringOrNull : Option (List Char) → Json
  | some text => .string text
  | none => .null

def uuidText (n : ℕ) : List Char :=
  let hex := (List.range 32).map fun i => Nat.digitChar (n / 16 ^ (31 - i) % 16)
  let cut := fun start stop => (hex.take stop).drop start
  cut 0 8 ++ '-' :: cut 8 12 ++ '-' :: cut 12 16 ++ '-' :: cut 16 20 ++ '-' :: cut 20 32

def sqlValueToJson : Value → Json
  | .null => .null
  | .bool b => .bool b
  | .i8 n | .i16 n | .i32 n | .i64 n => .number n
  | .u8 n | .u16 n | .u32 n => .number n
  | .u64 n | .u128 n => .string (decimal128ToString n 0)
  | .i128 n => .string (decimal128ToString n 0)
  | .f32 bits => r.fromF64 (f32AsF64 bits)
  | .f64 bits => r.fromF64 bits
  | .str s => .string (r.utf8 s)
  | .decimal d => .string (decimal128ToString d.mantissa d.scale)
  | .date days => stringOrNull (r.date days)
  | .timestamp seconds nanosecond => stringOrNull (formatNaiveDatetime r seconds nanosecond)
  | .time t => .string (naiveTimeText t)
  | .uuid n => .string (uuidText n)
  | .bytea b => .string (r.base64 b)
  | v => .string (r.debugValue v)

/-- The cells of the binary arrays are not looked for. -/
def arrowValueToJson : Option Cell → Json
  | none => .null
  | some (.bool b) => .bool b
  | some (.int n) => .number n
  | some (.float32 bits) => r.fromF64 (f32AsF64 bits)
  | some (.float64 bits) => r.fromF64 bits
  | some (.text s) => .string (r.utf8 s)
  | some (.decimal raw scale) => .string (decimal128ToString raw scale)
  | some (.date days) => stringOrNull (r.date days)
  | some (.timestamp micros) => stringOrNull
    (formatNaiveDatetime r (micros / 1000000) ((micros % 1000000).toNat * 1000))
  | some (.time micros) => .string (formatNaiveTimeMicros micros)
  | some (.bytes b) => .string (r.debugCell (.bytes b))
  | some (.uuid b) => .string (r.debugCell (.uuid b))

def mirroredJson (rescale : Lakehouse.Decimal → ℕ → Lakehouse.Decimal) (dt : DataType) (v : Value) :
    Option Json :=
  match buildArrowColumn rescale (arrowType (icebergType dt)) [v] with
  | .ok [cell] => some (arrowValueToJson r cell)
  | _ => none

/-- The nanoseconds of a stored time: a leap second is the last one of its minute. -/
def Clocked (second nanosecond : ℕ) : Prop :=
  nanosecond < 10 ^ 9 ∨ second = 59 ∧ nanosecond < 2 * 10 ^ 9

def Stored : Value → Prop
  | .decimal d => d.Valid
  | .date days => (r.date days).isSome = true
  | .timestamp seconds nanosecond => (r.date (seconds / 86400)).isSome = true ∧
    Clocked (seconds % 60).toNat nanosecond
  | .time t => t.hour < 24 ∧ t.minute < 60 ∧ t.second < 60 ∧ Clocked t.second t.nanosecond
  | _ => True

/-- Lists and maps have no array, addresses, intervals and points no cell, and byte strings
and UUIDs no rendering; a leap second moves, and a number must fit its cell. -/
def Alike (dt : DataType) : Value → Prop
  | .null => dt ≠ .list ∧ dt ≠ .map
  | .map | .list | .inet _ | .interval _ | .point _ | .bytea _ | .uuid _ => False
  | .timestamp _ nanosecond => nanosecond < 10 ^ 9
  | .time t => t.nanosecond < 10 ^ 9
  | v => FitsCell v

variable {r} {rescale : Lakehouse.Decimal → ℕ → Lakehouse.Decimal} {dt : DataType} {v : Value}

theorem clockText_minute_ne {hour minute hour' minute' micros micros' : ℕ} :
    clockText hour minute 60 micros ≠ clockText hour' minute' 0 micros' := by
  intro h
  have hsecond := congrArg (fun text => text[6]?) h
  have hdigit : Nat.digitChar 6 = Nat.digitChar 0 := by simpa [clockText, twoDigits] using hsecond
  exact absurd hdigit (by decide)

theorem mirroredJson_eq (h : (arrowType (icebergType dt)).supported = true) :
    mirroredJson r rescale dt v =
      some (arrowValueToJson r (arrowCell rescale (arrowType (icebergType dt)) v)) := by
  simp [mirroredJson, buildArrowColumn, h]

theorem formatNaiveTimeMicros_eq_iff {t : Time} (h : Stored r (.time t)) :
    formatNaiveTimeMicros (timeMicros t) = naiveTimeText t ↔ t.nanosecond < 10 ^ 9 := by
  obtain ⟨hhour, hminute, hsecond, hclocked⟩ := h
  unfold formatNaiveTimeMicros naiveTimeText timeMicros
  rcases hclocked with hns | ⟨h59, hns⟩
  · refine iff_of_true ?_ hns
    congr 1 <;> omega
  · by_cases hleap : t.nanosecond < 10 ^ 9
    · refine iff_of_true ?_ hleap
      congr 1 <;> omega
    · refine iff_of_false ?_ hleap
      intro heq
      generalize hmicros : t.hour * 3600000000 + t.minute * 60000000 + t.second * 1000000 +
        t.nanosecond / 1000 = micros at heq
      rw [show t.second + t.nanosecond / 10 ^ 9 = 60 by omega,
        show micros % 3600000000 % 60000000 / 1000000 = 0 by omega] at heq
      exact clockText_minute_ne heq.symm

theorem datetime_eq_iff (hr : r.Documented) {seconds : ℤ} {nanosecond : ℕ}
    (h : Stored r (.timestamp seconds nanosecond)) :
    arrowValueToJson r (arrowCell rescale .timestampMicrosecond (.timestamp seconds nanosecond)) =
      sqlValueToJson r (.timestamp seconds nanosecond) ↔ nanosecond < 10 ^ 9 := by
  obtain ⟨hdate, hclocked⟩ := h
  obtain ⟨date, hdate⟩ := Option.isSome_iff_exists.mp hdate
  obtain ⟨hnoT, hbound⟩ := hr.date hdate
  have hbound := abs_le.mp hbound
  have hns : nanosecond < 2 * 10 ^ 9 := by
    rcases hclocked with hns | ⟨-, hns⟩ <;> omega
  have hcell : arrowCell rescale .timestampMicrosecond (.timestamp seconds nanosecond) =
      some (.timestamp (seconds * 1000000 + nanosecond / 1000)) := by
    have hrange : IsI64 (seconds * 1000000) ∧ IsI64 (seconds * 1000000 + nanosecond / 1000) := by
      unfold IsI64
      omega
    simp only [arrowCell, timestampMicros_eq, if_pos hrange, Option.map_some]
  rw [hcell]
  simp only [arrowValueToJson, sqlValueToJson]
  by_cases hleap : nanosecond < 10 ^ 9
  · refine iff_of_true ?_ hleap
    have hseconds : (seconds * 1000000 + (nanosecond : ℤ) / 1000) / 1000000 = seconds := by omega
    have hmicros : ((seconds * 1000000 + (nanosecond : ℤ) / 1000) % 1000000).toNat * 1000 / 10 ^ 9 =
        nanosecond / 10 ^ 9 := by omega
    have hmicros' : ((seconds * 1000000 + (nanosecond : ℤ) / 1000) % 1000000).toNat * 1000 / 1000 =
        nanosecond / 1000 := by omega
    simp only [formatNaiveDatetime, naiveTimeText, hseconds, hmicros, hmicros']
  · refine iff_of_false ?_ hleap
    have h59 : (seconds % 60).toNat = 59 := by
      rcases hclocked with hns | ⟨h59, -⟩
      · exact absurd hns hleap
      · exact h59
    have hseconds : (seconds * 1000000 + (nanosecond : ℤ) / 1000) / 1000000 = seconds + 1 := by
      omega
    intro heq
    simp only [formatNaiveDatetime, naiveTimeText, hseconds, hdate, Option.map_some] at heq
    cases hdate' : r.date ((seconds + 1) / 86400) with
    | none => simp [hdate', stringOrNull] at heq
    | some date' =>
      simp only [hdate', Option.map_some, stringOrNull, Json.string.injEq] at heq
      obtain ⟨-, hclock⟩ := append_separator_inj (hr.date hdate').1 hnoT heq
      rw [show (seconds % 86400).toNat % 60 + nanosecond / 10 ^ 9 = 60 by omega] at hclock
      rw [show ((seconds + 1) % 86400).toNat % 60 + ((seconds * 1000000 + (nanosecond : ℤ) / 1000) %
        1000000).toNat * 1000 / 10 ^ 9 = 0 by omega] at hclock
      exact clockText_minute_ne hclock.symm

theorem not_mem_uuidText (n : ℕ) : '\n' ∉ uuidText n := by
  have hdigit : ∀ d < 16, Nat.digitChar d ≠ '\n' := by decide
  have hhex : '\n' ∉ (List.range 32).map fun i => Nat.digitChar (n / 16 ^ (31 - i) % 16) := by
    intro h
    obtain ⟨i, -, hi⟩ := List.mem_map.mp h
    exact hdigit _ (Nat.mod_lt _ (by decide)) hi
  unfold uuidText
  generalize (List.range 32).map (fun i => Nat.digitChar (n / 16 ^ (31 - i) % 16)) = hex at hhex ⊢
  have hcut : ∀ start stop, '\n' ∉ (hex.take stop).drop start := fun start stop h =>
    hhex (List.mem_of_mem_take (List.mem_of_mem_drop h))
  simpa [hcut] using hcut 0 8

/-- The mirror shows a stored value as the table does if and only if its type has an array and
a rendering, it is no leap second and its number fits its cell. -/
theorem mirroredJson_eq_iff (hrescale : Rescales rescale) (hr : r.Documented)
    (h : HasType dt v = true) (hv : Stored r v) :
    mirroredJson r rescale dt v = some (sqlValueToJson r v) ↔ Alike dt v := by
  cases hsupported : (arrowType (icebergType dt)).supported with
  | false =>
    have hnone : mirroredJson r rescale dt v = none := by
      simp [mirroredJson, buildArrowColumn, hsupported]
    rw [hnone]
    refine iff_of_false nofun ?_
    cases dt <;> first
      | exact absurd hsupported.symm Bool.false_ne_true
      | cases v <;> first
        | exact absurd h Bool.false_ne_true
        | simp [Alike]
  | true =>
    rw [mirroredJson_eq hsupported, Option.some.injEq]
    cases v with
    | timestamp seconds nanosecond =>
      obtain rfl : dt = .timestamp := by
        cases dt <;> first | rfl | exact absurd h Bool.false_ne_true
      exact datetime_eq_iff hr hv
    | time t =>
      obtain rfl : dt = .time := by cases dt <;> first | rfl | exact absurd h Bool.false_ne_true
      exact (iff_of_eq (Json.string.injEq _ _)).trans (formatNaiveTimeMicros_eq_iff hv)
    | decimal d =>
      obtain rfl : dt = .decimal := by cases dt <;> first | rfl | exact absurd h Bool.false_ne_true
      exact ((iff_of_eq (Json.string.injEq _ _)).trans decimal128ToString_eq_iff).trans
        (rescale_exact_iff hrescale hv)
    | u128 n =>
      obtain rfl : dt = .uint128 := by cases dt <;> first | rfl | exact absurd h Bool.false_ne_true
      refine ((iff_of_eq (Json.string.injEq _ _)).trans decimal128ToString_eq_iff).trans ?_
      change asI128 n * 10 ^ 0 * 10 ^ 0 = (n : ℤ) * 10 ^ 0 ↔ n < 2 ^ 127
      unfold asI128
      split_ifs with hn
      · exact iff_of_true (by ring) hn
      · simp only [hn, iff_false]
        omega
    | bytea b =>
      obtain rfl : dt = .bytea := by cases dt <;> first | rfl | exact absurd h Bool.false_ne_true
      refine iff_of_false (fun heq => ?_) id
      exact hr.base64 b (Json.string.inj heq ▸ hr.debugCell _)
    | uuid n =>
      obtain rfl : dt = .uuid := by cases dt <;> first | rfl | exact absurd h Bool.false_ne_true
      refine iff_of_false (fun heq => ?_) id
      exact not_mem_uuidText n (Json.string.inj heq ▸ hr.debugCell _)
    | _ =>
      cases dt <;> first
        | exact absurd h Bool.false_ne_true
        | exact absurd hsupported Bool.false_ne_true
        | simp [icebergType, icebergPrimitive, arrowType, arrowCell, toI32, toI64, decimalMantissa,
            arrowValueToJson, sqlValueToJson, Alike, FitsCell]

namespace CellExample

def plain : Rendering where
  utf8 s := s.map fun b => Char.ofNat b.toNat
  date _ := none
  fromF64 _ := .null
  base64 b := b.map fun _ => 'A'
  debugValue _ := []
  debugCell _ := ['\n']

theorem plain_documented : plain.Documented where
  date h := nomatch h
  base64 b h := by simp [plain] at h
  debugCell _ := List.mem_singleton_self _

/-- An interval has no cell. -/
theorem interval_lost : HasType .interval (.interval []) = true ∧
    mirroredJson plain Ints.rescale .interval (.interval []) ≠
      some (sqlValueToJson plain (.interval [])) :=
  ⟨rfl, nofun⟩

theorem number_alike : mirroredJson plain Ints.rescale .decimal (.decimal ⟨1234, 2⟩) =
    some (sqlValueToJson plain (.decimal ⟨1234, 2⟩)) := by
  have hstored : Stored plain (.decimal ⟨1234, 2⟩) := ⟨by decide, by decide⟩
  have hfits : FitsCell (.decimal ⟨1234, 2⟩) := by decide
  exact (mirroredJson_eq_iff ExactCells.rescales plain_documented rfl hstored).mpr hfits

end CellExample

end BlueDB.Server
