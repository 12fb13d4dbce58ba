import BlueDB.Collections.Identity
import BlueDB.Lib.Rounding

/-!
# Increments

An increment adds floats. The integer it stores is the exact sum if and only if that sum
absorbs the rounding errors of the two operands.
-/

namespace BlueDB.Collections

open Rounding

variable {F : Type} [Sums F]

/-- Arithmetic of 64-bit floats on integers. -/
structure Binary64 (F : Type) [Sums F] : Prop where
  whole_ofInt : ∀ i : ℤ, |i| ≤ 2 ^ 63 → Doubles.whole (Doubles.ofInt i : F) = some (nearest 53 i)
  whole_nearest : ∀ (f : F) a, Doubles.whole f = some a → nearest 53 a = a
  whole_add : ∀ (f g : F) a b, Doubles.whole f = some a → Doubles.whole g = some b →
    |a| ≤ 2 ^ 63 → |b| ≤ 2 ^ 63 →
    ∃ h, Sums.add f g = some h ∧ Doubles.whole h = some (nearest 53 (a + b))

/-- The integer that a number is. -/
def JsonNumber.integer : JsonNumber F → Option ℤ
  | .int i _ => some i
  | .float f => Doubles.whole f

/-- The value is the integer. -/
def IsInteger (v : Option (Json F)) (n : ℤ) : Prop :=
  ∃ x : JsonNumber F, v = some (.number x) ∧ x.integer = some n

/-- The field holds the integer, or is absent, which counts as zero. -/
def Counts (fields : Fields F) (f : String) (n : ℤ) : Prop :=
  IsInteger (fields.lookup f) n ∨ fields.lookup f = none ∧ n = 0

/-- `{"$inc": {f: v}}` -/
def incUpdate (f : String) (v : Json F) : Json F := .object [("$inc", .object [(f, v)])]

def applyAll (fields : Fields F) (updates : List (Json F)) : Except MqlError (Fields F) :=
  updates.foldlM (fun fields update => applyUpdate (.object fields) update) fields

def clampI64 (i : ℤ) : ℤ := max i64Min (min i64Max i)

def storedSum (n k : ℤ) : ℤ := clampI64 (nearest 53 (nearest 53 n + nearest 53 k))

theorem nearest_abs {i : ℤ} (h : |i| ≤ 2 ^ 63) : |(nearest 53 i)| ≤ 2 ^ 63 := by
  have htop : nearest 53 (2 ^ 63) = 2 ^ 63 := by decide
  have hbottom : nearest 53 (-2 ^ 63) = -2 ^ 63 := by decide
  rw [abs_le] at h ⊢
  have hlow := nearest_mono (p := 53) (by decide) h.1
  have hhigh := nearest_mono (p := 53) (by decide) h.2
  omega

theorem whole_asF64 (hF : Binary64 F) {x : JsonNumber F} {n : ℤ} (hx : x.integer = some n)
    (hn : |n| ≤ 2 ^ 63) : Doubles.whole x.asF64 = some (nearest 53 n) := by
  cases x with
  | int i range =>
    cases hx
    exact hF.whole_ofInt _ hn
  | float f =>
    have hwhole : Doubles.whole f = some n := hx
    rw [hF.whole_nearest f n hwhole]
    exact hwhole

theorem counts_asF64 (hF : Binary64 F) {fields : Fields F} {f : String} {n : ℤ}
    (h : Counts fields f n) (hn : |n| ≤ 2 ^ 63) :
    Doubles.whole (((fields.lookup f).bind Json.asF64).getD (Doubles.ofInt 0)) =
      some (nearest 53 n) := by
  rcases h with ⟨x, hlookup, hx⟩ | ⟨hlookup, rfl⟩
  · rw [hlookup]
    exact whole_asF64 hF hx hn
  · rw [hlookup]
    exact hF.whole_ofInt 0 hn

theorem applyUpdate_inc (fields : Fields F) (f : String) (v : Json F) :
    applyUpdate (.object fields) (incUpdate f v) = incField fields (f, v) := by
  have hop : ([("$inc", Json.object [(f, v)])] : Fields F).any
      (fun op => op.1.toList.head? == some '$') = true := by simp
  unfold incUpdate applyUpdate
  dsimp only
  rw [if_pos hop]
  simp only [List.foldlM_cons, List.foldlM_nil, applyOp, bind_pure]

theorem inc_stores (hF : Binary64 F) {fields : Fields F} {f : String} {n k : ℤ} {v : Json F}
    (hn : Counts fields f n) (hk : IsInteger (some v) k) (hn' : |n| ≤ 2 ^ 63) (hk' : |k| ≤ 2 ^ 63) :
    ∃ fields' range, applyUpdate (.object fields) (incUpdate f v) = .ok fields' ∧
      fields'.lookup f = some (.number (.int (storedSum n k) range)) := by
  obtain ⟨x, hx, hxk⟩ := hk
  cases hx
  obtain ⟨h, hadd, hwhole⟩ := hF.whole_add _ _ _ _ (counts_asF64 hF hn hn')
    (whole_asF64 hF hxk hk') (nearest_abs hn') (nearest_abs hk')
  refine ⟨setField fields (f, num (some h)), clamp_range _, ?_, ?_⟩
  · rw [applyUpdate_inc, incField, ← hadd]
    rfl
  · rw [lookup_setField, if_pos rfl, num, hwhole]
    rfl

/-- The sum absorbs the errors of the conversions; at the ends of the range the cast helps. -/
def Exact (n k : ℤ) : Prop :=
  if n + k = i64Max then -511 ≤ (nearest 53 n - n) + (nearest 53 k - k)
  else if n + k = i64Min then (nearest 53 n - n) + (nearest 53 k - k) ≤ 512
  else Absorbs 53 (n + k) ((nearest 53 n - n) + (nearest 53 k - k))

theorem clampI64_eq_iff {i s : ℤ} (hs : i64Min ≤ s) (hs' : s ≤ i64Max) : clampI64 i = s ↔
    if s = i64Max then i64Max ≤ i else if s = i64Min then i ≤ i64Min else i = s := by
  unfold clampI64
  unfold i64Min i64Max at *
  split
  · omega
  · split <;> omega

/-- The top of the range is not representable, and the numbers that are rounded past it. -/
theorem top_le_nearest_iff (x : ℤ) : i64Max ≤ nearest 53 x ↔ i64Max - 511 ≤ x := by
  have hreached : nearest 53 (i64Max - 511) = 2 ^ 63 := by decide
  have hmissed : nearest 53 (i64Max - 512) = 2 ^ 63 - 1024 := by decide
  constructor
  · intro h
    by_contra hlt
    have hmono := nearest_mono (p := 53) (by decide) (show x ≤ i64Max - 512 by omega)
    rw [hmissed] at hmono
    unfold i64Max at h
    omega
  · intro h
    have hmono := nearest_mono (p := 53) (by decide) h
    rw [hreached] at hmono
    unfold i64Max
    omega

theorem nearest_le_bottom_iff (x : ℤ) : nearest 53 x ≤ i64Min ↔ x ≤ i64Min + 512 := by
  have hreached : nearest 53 (i64Min + 512) = i64Min := by decide
  have hmissed : nearest 53 (i64Min + 513) = i64Min + 1024 := by decide
  constructor
  · intro h
    by_contra hlt
    have hmono := nearest_mono (p := 53) (by decide) (show i64Min + 513 ≤ x by omega)
    omega
  · intro h
    have hmono := nearest_mono (p := 53) (by decide) h
    omega

theorem stored_eq_iff {n k : ℤ} (hs : i64Min ≤ n + k) (hs' : n + k ≤ i64Max) :
    storedSum n k = n + k ↔ Exact n k := by
  rw [storedSum, clampI64_eq_iff hs hs', Exact]
  split
  · rw [top_le_nearest_iff]
    omega
  · split
    · rw [nearest_le_bottom_iff]
      omega
    · rw [nearest_eq_iff (by decide)]
      congr! 1
      ring

/-- Every sum along the way is in the range, and every increment. -/
def SumsInRange (n : ℤ) : List ℤ → Prop
  | [] => i64Min ≤ n ∧ n ≤ i64Max
  | k :: ks => (i64Min ≤ n ∧ n ≤ i64Max) ∧ (i64Min ≤ k ∧ k ≤ i64Max) ∧ SumsInRange (n + k) ks

theorem SumsInRange.head {n : ℤ} {ks : List ℤ} (h : SumsInRange n ks) : i64Min ≤ n ∧
    n ≤ i64Max := by
  cases ks with
  | nil => exact h
  | cons k ks => exact h.1

/-- A property of the elements and of those before them. -/
def AtEach {α : Type*} (P : List α → α → Prop) (l : List α) : Prop :=
  ∀ done x rest, l = done ++ x :: rest → P done x

theorem atEach_nil {α : Type*} (P : List α → α → Prop) : AtEach P [] := by
  intro done x rest h
  simp at h

theorem atEach_cons {α : Type*} {P : List α → α → Prop} {x : α} {l : List α} :
    AtEach P (x :: l) ↔ P [] x ∧ AtEach (fun done => P (x :: done)) l := by
  constructor
  · intro h
    refine ⟨h [] x l rfl, ?_⟩
    rintro done y rest rfl
    exact h (x :: done) y rest rfl
  · rintro ⟨hx, hl⟩ done y rest heq
    cases done with
    | nil =>
      obtain ⟨rfl, -⟩ := List.cons.inj heq
      exact hx
    | cons z done =>
      obtain ⟨rfl, htail⟩ := List.cons.inj heq
      exact hl done y rest htail

theorem applyAll_cons {fields fields' : Fields F} {update : Json F} {updates : List (Json F)}
    (h : applyUpdate (.object fields) update = .ok fields') :
    applyAll fields (update :: updates) = applyAll fields' updates := by
  rw [applyAll, List.foldlM_cons, h]
  rfl

/-- The field holds the exact sum after the increments, however many there are and in
whatever order they come, if and only if every one of them is exact where it is applied. -/
theorem increments_exact (hF : Binary64 F) {fields : Fields F} {f : String} {n : ℤ}
    (hn : Counts fields f n) {increments : List (Json F × ℤ)}
    (hints : ∀ p ∈ increments, IsInteger (some p.1) p.2)
    (hrange : SumsInRange n (increments.map Prod.snd)) :
    AtEach (fun done p => ∃ fields',
        applyAll fields ((done ++ [p]).map fun q => incUpdate f q.1) = .ok fields' ∧
        IsInteger (fields'.lookup f) (n + ((done ++ [p]).map Prod.snd).sum)) increments ↔
      AtEach (fun done p => Exact (n + (done.map Prod.snd).sum) p.2) increments := by
  induction increments generalizing fields n with
  | nil => exact ⟨fun _ => atEach_nil _, fun _ => atEach_nil _⟩
  | cons p rest ih =>
    obtain ⟨v, k⟩ := p
    obtain ⟨hnrange, hkrange, hrest⟩ := hrange
    have hn' : |n| ≤ 2 ^ 63 := by
      unfold i64Min i64Max at hnrange
      rw [abs_le]
      omega
    have hk' : |k| ≤ 2 ^ 63 := by
      unfold i64Min i64Max at hkrange
      rw [abs_le]
      omega
    obtain ⟨fields', range, happly, hstored⟩ :=
      inc_stores hF hn (hints (v, k) (by simp)) hn' hk'
    have hfirst : IsInteger (fields'.lookup f) (n + k) ↔ Exact n k := by
      rw [hstored, ← stored_eq_iff hrest.head.1 hrest.head.2]
      simp [IsInteger, JsonNumber.integer]
    have htail := fun hexact : Exact n k => ih (n := n + k) (.inl (hfirst.mpr hexact))
      (fun q hq => hints q (by simp [hq])) hrest
    have hhead : (∃ fields'', applyAll fields' [] = .ok fields'' ∧
        IsInteger (fields''.lookup f) (n + k)) ↔ Exact n k := by
      rw [← hfirst]
      constructor
      · rintro ⟨fields'', heq, hinteger⟩
        cases heq
        exact hinteger
      · intro hinteger
        exact ⟨fields', rfl, hinteger⟩
    have hshift : ∀ l : List (Json F × ℤ),
        n + (((v, k) :: l).map Prod.snd).sum = n + k + (l.map Prod.snd).sum := by
      intro l
      rw [List.map_cons, List.sum_cons]
      ring
    have hrun : ∀ l : List (Json F × ℤ), applyAll fields (((v, k) :: l).map fun q =>
        incUpdate f q.1) =
        applyAll fields' (l.map fun q => incUpdate f q.1) := fun l => applyAll_cons happly
    simp only [atEach_cons, List.nil_append, List.cons_append, hshift, hrun, List.map_nil,
      List.sum_nil, add_zero, hhead]
    constructor
    · rintro ⟨hexact, hrestExact⟩
      exact ⟨hexact, (htail hexact).mp hrestExact⟩
    · rintro ⟨hexact, hrestExact⟩
      exact ⟨hexact, (htail hexact).mpr hrestExact⟩

namespace Example

/-- The floats without fraction, as far as the range of the exponents goes. -/
def Integral : Type := {i : ℤ // nearest 53 i = i}

instance : LinearOrder Integral := inferInstanceAs (LinearOrder {i : ℤ // nearest 53 i = i})

instance : Sums Integral where
  ofInt i := ⟨nearest 53 i, nearest_nearest (by decide) i⟩
  whole f := some f.val
  text f := toString f.val
  add f g := some ⟨nearest 53 (f.val + g.val), nearest_nearest (by decide) _⟩

theorem integral_binary64 : Binary64 Integral where
  whole_ofInt _ _ := rfl
  whole_nearest f a h := by
    cases h
    exact f.property
  whole_add f g a b hf hg _ _ := by
    cases hf
    cases hg
    exact ⟨_, rfl, rfl⟩

def integer (i : ℤ) (range : i64Min ≤ i ∧ i < 2 ^ 64) : Json Integral := .number (.int i range)

theorem isInteger_integer (i : ℤ) (range : i64Min ≤ i ∧ i < 2 ^ 64) :
    IsInteger (some (integer i range)) i := ⟨_, rfl, rfl⟩

end Example

open Example in
/-- One more than `2 ^ 53 + 1` becomes one less. -/
theorem counter_stuck : ∃ fields' : Fields Integral,
    applyUpdate (.object [("n", integer 9007199254740993 (by decide))])
      (incUpdate "n" (integer 1 (by decide))) = .ok fields' ∧
    ¬ IsInteger (fields'.lookup "n") (9007199254740993 + 1) := by
  have hn : Counts [("n", integer 9007199254740993 (by decide))] "n" 9007199254740993 :=
    .inl ⟨_, rfl, rfl⟩
  obtain ⟨fields', range, happly, hstored⟩ := inc_stores integral_binary64 hn
    (isInteger_integer 1 (by decide)) (by norm_num) (by norm_num)
  refine ⟨fields', happly, ?_⟩
  rintro ⟨x, hx, hvalue⟩
  rw [hstored] at hx
  cases hx
  have hwrong : storedSum 9007199254740993 1 ≠ 9007199254740993 + 1 := by decide
  exact hwrong (Option.some.inj hvalue)

open Example in
theorem increments_exact_small : AtEach (fun done p => ∃ fields' : Fields Integral,
      applyAll [] ((done ++ [p]).map fun q => incUpdate "n" q.1) = .ok fields' ∧
      IsInteger (fields'.lookup "n") (0 + ((done ++ [p]).map Prod.snd).sum))
    [(integer 2 (by decide), 2), (integer (-5) (by decide), -5)] := by
  have hexact : ∀ n k, i64Min ≤ n + k → n + k ≤ i64Max → storedSum n k = n + k → Exact n k :=
    fun n k hs hs' h => (stored_eq_iff hs hs').mp h
  apply (increments_exact integral_binary64 (.inr ⟨rfl, rfl⟩) _ _).mpr
  · rw [atEach_cons, atEach_cons]
    refine ⟨?_, ?_, atEach_nil _⟩
    · exact hexact 0 2 (by decide) (by decide) (by decide)
    · exact hexact 2 (-5) (by decide) (by decide) (by decide)
  · intro p hp
    rcases List.mem_cons.mp hp with rfl | hp
    · exact isInteger_integer 2 (by decide)
    · obtain rfl := List.mem_singleton.mp hp
      exact isInteger_integer (-5) (by decide)
  · simp [SumsInRange, i64Min, i64Max]

end BlueDB.Collections
