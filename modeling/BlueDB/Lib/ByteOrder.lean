import Mathlib.Data.List.TakeWhile
import BlueDB.Lib.Framing

/-!
# Byte strings in lexicographic order

Keys of an ordered store are compared byte by byte. A string of bytes can be
written so that the order is kept and the end of the word can be told from the
word itself: every zero byte is escaped and two zero bytes end the word. The
strings that start with a given one form a half-open interval.
-/

namespace BlueDB

instance linearOrderUInt8 : LinearOrder UInt8 where
  le_refl _ := UInt8.le_refl _
  le_trans _ _ _ := UInt8.le_trans
  le_antisymm _ _ := UInt8.le_antisymm
  le_total := UInt8.le_total
  lt_iff_le_not_ge _ _ := Std.LawfulOrderLT.lt_iff ..
  toDecidableLE := inferInstance

theorem append_lt_append_left {p x y : List UInt8} : p ++ x < p ++ y ↔ x < y := by
  induction p with
  | nil => rfl
  | cons b p ih => simp [ih]

/-- How two strings compare, byte by byte. -/
def compareBytes (a b : List UInt8) : Ordering := compareOfLessAndEq a b

section CompareBytes

variable {a b : List UInt8}

theorem compareBytes_eq_lt : compareBytes a b = .lt ↔ a < b := by
  unfold compareBytes compareOfLessAndEq
  split_ifs <;> simp_all

theorem compareBytes_eq_eq : compareBytes a b = .eq ↔ a = b := by
  unfold compareBytes compareOfLessAndEq
  split_ifs with hlt heq
  · simp [hlt.ne]
  · simp [heq]
  · simp [heq]

theorem compareBytes_eq_gt : compareBytes a b = .gt ↔ b < a := by
  unfold compareBytes compareOfLessAndEq
  split_ifs with hlt heq
  · simp [hlt.not_gt]
  · simp [heq]
  · simp [lt_of_le_of_ne (not_lt.mp hlt) (Ne.symm heq)]

end CompareBytes

theorem beBytes_lt {width m n : ℕ} (h : m % 256 ^ width < n % 256 ^ width) :
    beBytes width m < beBytes width n := by
  induction width with
  | zero => simp [Nat.mod_one] at h
  | succ width ih =>
    rw [pow_succ, Nat.mod_mul, Nat.mod_mul] at h
    have hhead : ∀ k, (UInt8.ofNat (k / 256 ^ width)).toNat = k / 256 ^ width % 256 :=
      fun k => UInt8.toNat_ofNat'
    have hm : m % 256 ^ width < 256 ^ width := Nat.mod_lt _ (by positivity)
    have hn : n % 256 ^ width < 256 ^ width := Nat.mod_lt _ (by positivity)
    rw [beBytes, beBytes, List.cons_lt_cons_iff]
    rcases lt_trichotomy (m / 256 ^ width % 256) (n / 256 ^ width % 256) with hlt | heq | hgt
    · left
      rw [UInt8.lt_iff_toNat_lt, hhead, hhead]
      exact hlt
    · right
      constructor
      · rw [← UInt8.toNat_inj, hhead, hhead]
        exact heq
      · apply ih
        rw [heq] at h
        omega
    · have := Nat.mul_le_mul_left (256 ^ width) hgt
      rw [Nat.mul_succ] at this
      omega

/-- Zero bytes become `00 FF` and the word ends with `00 00`. -/
def orderPreserving : List UInt8 → List UInt8
  | [] => [0x00, 0x00]
  | b :: rest =>
    if b = 0x00 then 0x00 :: 0xFF :: orderPreserving rest else b :: orderPreserving rest

theorem orderPreserving_append_lt : ∀ {a b x y : List UInt8},
    orderPreserving a ++ x < orderPreserving b ++ y ↔ a < b ∨ a = b ∧ x < y
  | [], [], x, y => by simp [orderPreserving]
  | [], b :: rest, x, y => by
    by_cases hb : b = 0
    · simp [orderPreserving, hb, List.cons_lt_cons_iff]
    · have hpos : (0 : UInt8) < b := UInt8.pos_iff_ne_zero.mpr hb
      simp [orderPreserving, hb, hpos, List.cons_lt_cons_iff]
  | a :: rest, [], x, y => by
    by_cases ha : a = 0
    · simp [orderPreserving, ha, List.cons_lt_cons_iff]
    · simp [orderPreserving, ha, List.cons_lt_cons_iff]
  | a :: l, b :: r, x, y => by
    have ih := @orderPreserving_append_lt l r x y
    by_cases ha : a = 0 <;> by_cases hb : b = 0
    · simp [orderPreserving, ha, hb, ih]
    · have hpos : (0 : UInt8) < b := UInt8.pos_iff_ne_zero.mpr hb
      simp [orderPreserving, ha, hb, hpos, List.cons_lt_cons_iff]
    · simp [orderPreserving, ha, hb, List.cons_lt_cons_iff]
    · simp only [orderPreserving, ha, hb, if_false, List.cons_append, List.cons_lt_cons_iff, ih,
        List.cons.injEq]
      tauto

theorem selfDelimiting_orderPreserving : SelfDelimiting orderPreserving := by
  intro a b x y h
  have hab : a = b := by
    rcases lt_trichotomy a b with hlt | heq | hgt
    · have := orderPreserving_append_lt.mpr (Or.inl hlt : a < b ∨ a = b ∧ x < y)
      exact absurd (h ▸ this) (lt_irrefl _)
    · exact heq
    · have := orderPreserving_append_lt.mpr (Or.inl hgt : b < a ∨ b = a ∧ y < x)
      exact absurd (h ▸ this) (lt_irrefl _)
  subst b
  exact ⟨rfl, List.append_cancel_left h⟩

/-- The least string above everything that starts with `p`: the last byte below
`FF` goes up by one and what follows it is cut off. -/
def prefixUpperBound (p : List UInt8) : Option (List UInt8) :=
  match p.reverse.dropWhile (· == 0xFF) with
  | [] => none
  | last :: rest => some ((last + 1) :: rest).reverse

@[simp] theorem prefixUpperBound_nil : prefixUpperBound [] = none := rfl

theorem prefixUpperBound_cons (b : UInt8) (p : List UInt8) :
    prefixUpperBound (b :: p) =
      match prefixUpperBound p with
      | some e => some (b :: e)
      | none => if b = 0xFF then none else some [b + 1] := by
  unfold prefixUpperBound
  rw [List.reverse_cons, List.dropWhile_append]
  cases hp : p.reverse.dropWhile (· == 0xFF) with
  | nil =>
    by_cases hb : b = 0xFF
    · simp [hb]
    · simp [hb]
  | cons last rest => simp

theorem lt_prefixUpperBound_iff {p k : List UInt8} :
    (∀ e ∈ prefixUpperBound p, k < e) ↔ k < p ∨ p <+: k := by
  induction p generalizing k with
  | nil => simp
  | cons b p ih =>
    rw [prefixUpperBound_cons]
    cases k with
    | nil =>
      cases prefixUpperBound p with
      | some e => simp
      | none => by_cases hb : b = 0xFF <;> simp [hb]
    | cons a k =>
      have hih := @ih k
      simp only [List.cons_lt_cons_iff, List.cons_prefix_cons]
      cases hup : prefixUpperBound p with
      | some e =>
        simp only [hup, Option.mem_def, Option.some.injEq, forall_eq'] at hih ⊢
        rw [List.cons_lt_cons_iff, hih]
        tauto
      | none =>
        simp only [hup, Option.mem_def, reduceCtorEq, IsEmpty.forall_iff, implies_true,
          true_iff] at hih
        by_cases hb : b = 0xFF
        · have hle : a ≤ b := by
            rw [hb, UInt8.le_iff_toNat_le]
            exact Nat.le_of_lt_succ a.toNat_lt
          have htri := hle.lt_or_eq
          simp only [hb, if_true, Option.mem_def, reduceCtorEq, IsEmpty.forall_iff, implies_true,
            true_iff]
          rw [hb] at htri
          tauto
        · have hle : a < b + 1 ↔ a < b ∨ a = b := by
            have hlt := b.toNat_lt
            have hne : b.toNat ≠ 255 := fun h => hb (UInt8.toNat_inj.mp h)
            rw [UInt8.lt_iff_toNat_lt, UInt8.lt_iff_toNat_lt, ← UInt8.toNat_inj, UInt8.toNat_add,
              UInt8.toNat_one, Nat.mod_eq_of_lt (by omega)]
            omega
          simp only [hb, if_false, Option.mem_def, Option.some.injEq, forall_eq',
            List.cons_lt_cons_iff, List.not_lt_nil, and_false, or_false, hle]
          tauto

/-- Half-open byte ranges, without an end when there is no upper bound. -/
def InRange (start : List UInt8) (stop : Option (List UInt8)) (k : List UInt8) : Prop :=
  start ≤ k ∧ ∀ e ∈ stop, k < e

theorem inRange_prefixUpperBound_iff {p k : List UInt8} :
    InRange p (prefixUpperBound p) k ↔ p <+: k := by
  rw [InRange, lt_prefixUpperBound_iff, ← not_lt]
  constructor
  · intro ⟨hge, hor⟩
    exact hor.resolve_left hge
  · intro h
    obtain ⟨r, rfl⟩ := h
    refine ⟨?_, Or.inr (List.prefix_append ..)⟩
    have hnil := @append_lt_append_left p r []
    rw [List.append_nil] at hnil
    simp [hnil]

end BlueDB
