import Mathlib.Tactic

/-!
# Distinct-count sketches

A sketch is the least upper bound of the marks of the texts it was fed. It therefore does
not depend on how the texts were batched, spread over partial accumulators, stored, merged
and repeated.
-/

namespace BlueDB.Query

abbrev Bytes := List UInt8

def hllVersion : UInt8 := 1

def hllP : ℕ := 14

def hllM : ℕ := 2 ^ hllP

@[ext]
structure Hll where
  regs : Vector UInt8 hllM

def Hll.new : Hll := ⟨Vector.replicate hllM 0⟩

@[simp] theorem Hll.new_reg {i : ℕ} (h : i < hllM) : Hll.new.regs[i] = 0 :=
  Vector.getElem_replicate h

/-- FNV-1a, then the finalizer of splitmix64. -/
def hash64 (bytes : Bytes) : UInt64 :=
  let h := bytes.foldl (fun h b => (h ^^^ b.toUInt64) * 0x100000001b3) 0xcbf29ce484222325
  let h := (h ^^^ (h >>> 30)) * 0xbf58476d1ce4e5b9
  let h := (h ^^^ (h >>> 27)) * 0x94d049bb133111eb
  h ^^^ (h >>> 31)

def leadingZeros (h : UInt64) : ℕ := 64 - Nat.size h.toNat

/-- The top bits of the hash. -/
def register (h : UInt64) : ℕ := (h >>> (64 - UInt64.ofNat hllP)).toNat

/-- The cast to `u8` is exact, since there are at most 64 leading zeros. -/
def rank (h : UInt64) : UInt8 :=
  UInt8.ofNat (min (min (leadingZeros (h <<< UInt64.ofNat hllP) + 1) 255) (64 - hllP + 1))

theorem register_lt (h : UInt64) : register h < hllM := by
  have hlt := h.toNat_lt
  have hshift : (64 - UInt64.ofNat hllP).toNat % 64 = 50 := by decide
  rw [register, UInt64.toNat_shiftRight, hshift, Nat.shiftRight_eq_div_pow, hllM, hllP]
  omega

theorem rank_le (h : UInt64) : rank h ≤ 51 := by
  rw [UInt8.le_iff_toNat_le, rank]
  have hmin := Nat.min_le_right (min (leadingZeros (h <<< UInt64.ofNat hllP) + 1) 255)
    (64 - hllP + 1)
  have hsize : 64 - hllP + 1 = 51 := by decide
  rw [UInt8.toNat_ofNat', Nat.mod_eq_of_lt (by omega)]
  exact hmin.trans hsize.le

def Hll.raise (hll : Hll) (idx : ℕ) (h : idx < hllM) (rank : UInt8) : Hll :=
  if hll.regs[idx] < rank then ⟨hll.regs.set idx rank h⟩ else hll

def Hll.addStr (hll : Hll) (s : Bytes) : Hll :=
  hll.raise (register (hash64 s)) (register_lt (hash64 s)) (rank (hash64 s))

def Hll.merge (hll other : Hll) : Hll :=
  ⟨hll.regs.zipWith (fun a b => if a < b then b else a) other.regs⟩

def Hll.toBytes (hll : Hll) : Bytes := hllVersion :: UInt8.ofNat hllP :: hll.regs.toList

def Hll.fromBytes (b : Bytes) : Option Hll :=
  match b with
  | version :: p :: regs =>
    if h : regs.length = hllM then
      if version = hllVersion ∧ p = UInt8.ofNat hllP then some ⟨⟨regs.toArray, by simpa⟩⟩
      else none
    else none
  | _ => none

@[simp] theorem Hll.fromBytes_toBytes (hll : Hll) : Hll.fromBytes hll.toBytes = some hll := by
  have hlength : hll.regs.toList.length = hllM := by simp
  simp only [Hll.toBytes, Hll.fromBytes, hlength, dite_true, and_self, if_true, Option.some.injEq]
  exact Hll.ext (Vector.toArray_inj.mp (Array.toArray_toList))

theorem Hll.toBytes_of_fromBytes {b : Bytes} {hll : Hll} (h : Hll.fromBytes b = some hll) :
    hll.toBytes = b := by
  unfold Hll.fromBytes at h
  split at h
  · split_ifs at h with hlength hhead
    rcases hhead with ⟨rfl, rfl⟩
    rw [← Option.some.inj h]
    simp [Hll.toBytes]
  · cases h

instance : PartialOrder Hll where
  le a b := ∀ i (h : i < hllM), a.regs[i].toNat ≤ b.regs[i].toNat
  le_refl _ _ _ := le_rfl
  le_trans _ _ _ hab hbc i h := (hab i h).trans (hbc i h)
  le_antisymm a b hab hba := by
    apply Hll.ext
    ext i h
    exact le_antisymm (hab i h) (hba i h)

theorem Hll.merge_reg (a b : Hll) {i : ℕ} (h : i < hllM) :
    (a.merge b).regs[i].toNat = max a.regs[i].toNat b.regs[i].toNat := by
  simp only [Hll.merge, Vector.getElem_zipWith]
  split_ifs with hlt
  · exact (max_eq_right (UInt8.lt_iff_toNat_lt.mp hlt).le).symm
  · have hle : ¬ a.regs[i].toNat < b.regs[i].toNat := fun h => hlt (UInt8.lt_iff_toNat_lt.mpr h)
    omega

instance : SemilatticeSup Hll where
  sup := Hll.merge
  le_sup_left a b i h := by
    rw [Hll.merge_reg]
    exact le_max_left _ _
  le_sup_right a b i h := by
    rw [Hll.merge_reg]
    exact le_max_right _ _
  sup_le a b c hac hbc i h := by
    rw [Hll.merge_reg]
    exact max_le (hac i h) (hbc i h)

instance : OrderBot Hll where
  bot := Hll.new
  bot_le a i h := by simp [Hll.new]

theorem Hll.merge_eq_sup (a b : Hll) : a.merge b = a ⊔ b := rfl

theorem Hll.new_eq_bot : Hll.new = ⊥ := rfl

/-- The sketch of one text. -/
def mark (s : Bytes) : Hll := Hll.new.addStr s

theorem Hll.raise_reg (a : Hll) {idx i : ℕ} (hidx : idx < hllM) (h : i < hllM) (r : UInt8) :
    (a.raise idx hidx r).regs[i].toNat = max a.regs[i].toNat (if idx = i then r.toNat else 0) := by
  unfold Hll.raise
  split
  · next hlt =>
    have hlt := UInt8.lt_iff_toNat_lt.mp hlt
    rw [Vector.getElem_set]
    split
    · next heq =>
      subst heq
      exact (max_eq_right hlt.le).symm
    · simp
  · next hge =>
    have hge := mt UInt8.lt_iff_toNat_lt.mpr hge
    split
    · next heq =>
      subst heq
      exact (max_eq_left (not_lt.mp hge)).symm
    · simp

theorem Hll.addStr_reg (a : Hll) (s : Bytes) {i : ℕ} (h : i < hllM) :
    (a.addStr s).regs[i].toNat =
      max a.regs[i].toNat (if register (hash64 s) = i then (rank (hash64 s)).toNat else 0) :=
  a.raise_reg _ h _

theorem mark_reg (s : Bytes) {i : ℕ} (h : i < hllM) :
    (mark s).regs[i].toNat =
      if register (hash64 s) = i then (rank (hash64 s)).toNat else 0 := by
  rw [mark, Hll.addStr_reg, Hll.new_reg]
  exact max_eq_right (Nat.zero_le _)

theorem Hll.addStr_eq_sup (a : Hll) (s : Bytes) : a.addStr s = a ⊔ mark s := by
  have hreg : ∀ i (h : i < hllM), (a.addStr s).regs[i].toNat =
      (a.merge (mark s)).regs[i].toNat := by
    intro i h
    rw [Hll.merge_reg, mark_reg, Hll.addStr_reg]
  exact le_antisymm (fun i h => (hreg i h).le) (fun i h => (hreg i h).ge)

/-- No text has a rank over 51, the number of bits that are left with one more. -/
def Hll.full : Hll := ⟨Vector.replicate hllM 51⟩

theorem mark_le_full (s : Bytes) : mark s ≤ Hll.full := by
  intro i h
  rw [mark_reg, Hll.full, Vector.getElem_replicate]
  split
  · exact UInt8.le_iff_toNat_le.mp (rank_le (hash64 s))
  · exact Nat.zero_le _

/-- The casts of arrow: an array whose type has a cast is cast cell by cell, to nothing
where the cell is null or has no such value. -/
structure Arrow (V : Type*) where
  castsUtf8 : List V → Bool
  utf8 : V → Option Bytes
  castsBinary : List V → Bool
  binary : V → Option Bytes
  ofBinary : Bytes → V
  binary_ofBinary (b : Bytes) : binary (ofBinary b) = some b
  castsBinary_ofBinary (bs : List Bytes) : castsBinary (bs.map ofBinary) = true

variable {V : Type*}

def Arrow.castUtf8 (A : Arrow V) (arr : List V) : Option (List (Option Bytes)) :=
  if A.castsUtf8 arr then some (arr.map A.utf8) else none

def Arrow.castBinary (A : Arrow V) (arr : List V) : Option (List (Option Bytes)) :=
  if A.castsBinary arr then some (arr.map A.binary) else none

structure HllAccumulator where
  hll : Hll
  mergesSketches : Bool

/-- Of `hll_merge` or of `hll_build`. -/
def HllAccumulator.accumulator (mergesSketches : Bool) : HllAccumulator := ⟨Hll.new, mergesSketches⟩

def Hll.absorb (hll : Hll) (cell : Option Bytes) : Hll :=
  match cell.bind Hll.fromBytes with
  | some other => hll.merge other
  | none => hll

def Hll.addCell (hll : Hll) (cell : Option Bytes) : Hll :=
  match cell with
  | some s => hll.addStr s
  | none => hll

namespace HllAccumulator

def absorbSketches (A : Arrow V) (acc : HllAccumulator) (arr : List V) : Option HllAccumulator := do
  let b ← A.castBinary arr
  return { acc with hll := b.foldl Hll.absorb acc.hll }

def updateBatch (A : Arrow V) (acc : HllAccumulator) (values : List V) :
    Option HllAccumulator :=
  if acc.mergesSketches then acc.absorbSketches A values
  else do
    let s ← A.castUtf8 values
    return { acc with hll := s.foldl Hll.addCell acc.hll }

def mergeBatch (A : Arrow V) (acc : HllAccumulator) (states : List V) : Option HllAccumulator :=
  acc.absorbSketches A states

def state (acc : HllAccumulator) : Bytes := acc.hll.toBytes

def evaluate (acc : HllAccumulator) : Bytes := acc.hll.toBytes

end HllAccumulator

open HllAccumulator

/-- The column consists of the sketches, each at least once, and of cells that are none. -/
def Column (A : Arrow V) (values : List V) (sketches : List Bytes) : Prop :=
  (∀ v ∈ values, (A.binary v).bind Hll.fromBytes = none ∨ ∃ b ∈ sketches, A.binary v = some b) ∧
    ∀ b ∈ sketches, ∃ v ∈ values, A.binary v = some b

/-- The accumulator has seen the values, itself or through accumulators whose states and
stored sketches it was given. -/
inductive Fed (A : Arrow V) : HllAccumulator → List V → Prop
  | accumulator (mergesSketches : Bool) : Fed A (accumulator mergesSketches) []
  | update_values {acc acc' : HllAccumulator} {seen : List V} (h : Fed A acc seen)
      (hbuild : acc.mergesSketches = false) (values : List V)
      (hupdate : acc.updateBatch A values = some acc') : Fed A acc' (seen ++ values)
  | update_sketches {acc acc' : HllAccumulator} {seen : List V} (h : Fed A acc seen)
      (hmerge : acc.mergesSketches = true) {n : ℕ} (others : Fin n → HllAccumulator)
      (fed : Fin n → List V) (hfed : ∀ i, Fed A (others i) (fed i)) (values : List V)
      (hvalues : Column A values (List.ofFn fun i => (others i).evaluate))
      (hupdate : acc.updateBatch A values = some acc') :
      Fed A acc' (seen ++ (List.ofFn fed).flatten)
  | merge_states {acc acc' : HllAccumulator} {seen : List V} (h : Fed A acc seen)
      {n : ℕ} (others : Fin n → HllAccumulator) (fed : Fin n → List V)
      (hfed : ∀ i, Fed A (others i) (fed i)) (states : List V)
      (hstates : Column A states (List.ofFn fun i => (others i).state))
      (hupdate : acc.mergeBatch A states = some acc') :
      Fed A acc' (seen ++ (List.ofFn fed).flatten)

/-- The least upper bound of the marks of the texts of the values. -/
def Holds (A : Arrow V) (hll : Hll) (values : List V) : Prop :=
  ∀ h, hll ≤ h ↔ ∀ v ∈ values, ∀ s, A.utf8 v = some s → mark s ≤ h

variable {A : Arrow V}

theorem Holds.unique {a b : Hll} {l l' : List V} (ha : Holds A a l) (hb : Holds A b l')
    (hmem : ∀ v, v ∈ l ↔ v ∈ l') : a = b := by
  apply eq_of_forall_ge_iff
  intro h
  rw [ha h, hb h]
  simp [hmem]

theorem Holds.new : Holds A Hll.new [] := by
  intro h
  simp [Hll.new_eq_bot]

theorem Holds.le_full {a : Hll} {l : List V} (ha : Holds A a l) : a ≤ Hll.full :=
  (ha Hll.full).mpr fun _ _ s _ => mark_le_full s

theorem addCells_le (l : List (Option Bytes)) (a h : Hll) :
    l.foldl Hll.addCell a ≤ h ↔ a ≤ h ∧ ∀ s, some s ∈ l → mark s ≤ h := by
  induction l generalizing a with
  | nil => simp
  | cons cell l ih =>
    rw [List.foldl_cons, ih]
    cases cell with
    | none => simp [Hll.addCell]
    | some s => simp [Hll.addCell, Hll.addStr_eq_sup, and_assoc]

theorem absorb_le (l : List (Option Bytes)) (a h : Hll) :
    l.foldl Hll.absorb a ≤ h ↔
      a ≤ h ∧ ∀ cell ∈ l, ∀ other, cell.bind Hll.fromBytes = some other → other ≤ h := by
  induction l generalizing a with
  | nil => simp
  | cons cell l ih =>
    rw [List.foldl_cons, ih, List.forall_mem_cons, ← and_assoc]
    cases hcell : cell.bind Hll.fromBytes with
    | none => simp [Hll.absorb, hcell]
    | some other => simp [Hll.absorb, hcell, Hll.merge_eq_sup]

theorem Holds.addCells {a : Hll} {seen : List V} (ha : Holds A a seen) (values : List V) :
    Holds A ((values.map A.utf8).foldl Hll.addCell a) (seen ++ values) := by
  intro h
  rw [addCells_le, ha h, List.forall_mem_append]
  simp only [List.mem_map, forall_exists_index, and_imp]
  constructor
  · rintro ⟨hseen, hvalues⟩
    exact ⟨hseen, fun v hv s hs => hvalues s v hv hs⟩
  · rintro ⟨hseen, hvalues⟩
    exact ⟨hseen, fun s v hv hs => hvalues v hv s hs⟩

theorem Holds.absorb {a : Hll} {seen : List V} (ha : Holds A a seen) {n : ℕ} (others : Fin n → Hll)
    (fed : Fin n → List V) (hfed : ∀ i, Holds A (others i) (fed i)) {values : List V}
    (hvalues : Column A values (List.ofFn fun i => (others i).toBytes)) :
    Holds A ((values.map A.binary).foldl Hll.absorb a) (seen ++ (List.ofFn fed).flatten) := by
  intro h
  have hcolumn : (∀ cell ∈ values.map A.binary, ∀ other, cell.bind Hll.fromBytes = some other →
      other ≤ h) ↔ ∀ i, others i ≤ h := by
    constructor
    · intro hcells i
      obtain ⟨v, hv, hbytes⟩ := hvalues.2 (others i).toBytes (by simp)
      exact hcells _ (List.mem_map_of_mem hv) _ (by simp [hbytes])
    · rintro hothers cell hcell other hother
      obtain ⟨v, hv, rfl⟩ := List.mem_map.mp hcell
      rcases hvalues.1 v hv with hnone | ⟨b, hb, hbytes⟩
      · rw [hnone] at hother
        cases hother
      · obtain ⟨i, rfl⟩ := List.mem_ofFn.mp hb
        rw [hbytes, Option.bind_some, Hll.fromBytes_toBytes] at hother
        cases hother
        exact hothers i
  rw [absorb_le, ha h, hcolumn, List.forall_mem_append]
  simp only [hfed _ h, List.mem_flatten, List.mem_ofFn, exists_exists_eq_and]
  constructor
  · rintro ⟨hseen, hothers⟩
    refine ⟨hseen, ?_⟩
    rintro v ⟨i, hv⟩ s hs
    exact hothers i v hv s hs
  · rintro ⟨hseen, hflat⟩
    exact ⟨hseen, fun i v hv s hs => hflat v ⟨i, hv⟩ s hs⟩

theorem HllAccumulator.updateBatch_values {acc acc' : HllAccumulator} {values : List V}
    (hbuild : acc.mergesSketches = false) (h : acc.updateBatch A values = some acc') :
    acc'.hll = (values.map A.utf8).foldl Hll.addCell acc.hll := by
  rw [updateBatch, if_neg (by simp [hbuild]), Arrow.castUtf8] at h
  split at h
  · cases h
    rfl
  · cases h

theorem HllAccumulator.absorbSketches_eq {acc acc' : HllAccumulator} {values : List V}
    (h : acc.absorbSketches A values = some acc') :
    acc'.hll = (values.map A.binary).foldl Hll.absorb acc.hll := by
  rw [absorbSketches, Arrow.castBinary] at h
  split at h
  · cases h
    rfl
  · cases h

theorem Fed.holds {acc : HllAccumulator} {values : List V} (h : Fed A acc values) :
    Holds A acc.hll values := by
  induction h with
  | accumulator => exact Holds.new
  | update_values h hbuild values hupdate ih =>
    rw [updateBatch_values hbuild hupdate]
    exact ih.addCells values
  | update_sketches h hmerge others fed hfed values hvalues hupdate ih ihfed =>
    rw [updateBatch, if_pos hmerge] at hupdate
    rw [absorbSketches_eq hupdate]
    exact ih.absorb (fun i => (others i).hll) fed ihfed hvalues
  | merge_states h others fed hfed states hstates hupdate ih ihfed =>
    rw [absorbSketches_eq hupdate]
    exact ih.absorb (fun i => (others i).hll) fed ihfed hstates

/-- `hll_merge` over a column of the sketches. -/
def hllMerge (A : Arrow V) (sketches : List Bytes) : Option Bytes :=
  ((accumulator true).updateBatch A (sketches.map A.ofBinary)).map evaluate

theorem hllMerge_pair {a b : Hll} :
    hllMerge A [a.toBytes, b.toBytes] = some (a ⊔ b).toBytes := by
  have hbinary : A.castsBinary [A.ofBinary a.toBytes, A.ofBinary b.toBytes] = true :=
    A.castsBinary_ofBinary [a.toBytes, b.toBytes]
  simp [hllMerge, updateBatch, accumulator, absorbSketches, Arrow.castBinary, hbinary,
    A.binary_ofBinary, Hll.absorb, evaluate, Hll.merge_eq_sup, Hll.new_eq_bot]

/-- A sketch is the set of the texts it was fed: neither batches and partial accumulators
nor stored sketches, their order and repetition show in its bytes. Merging sketches is
associative, commutative and idempotent. -/
theorem sketch_of_values (A : Arrow V) :
    (∀ acc values, Fed A acc values →
      (∀ distinct one, (∀ v, v ∈ distinct ↔ v ∈ values) →
        (accumulator false).updateBatch A distinct = some one →
          acc.evaluate = one.evaluate ∧ acc.state = one.state) ∧
      Hll.fromBytes acc.evaluate = some acc.hll ∧ ∀ r ∈ acc.hll.regs.toList, r ≤ 51) ∧
    (∀ hll : Hll, Hll.fromBytes hll.toBytes = some hll) ∧
    ∀ a b c, (Hll.fromBytes a).isSome → (Hll.fromBytes b).isSome → (Hll.fromBytes c).isSome →
      ((hllMerge A [a, b]).bind fun ab => hllMerge A [ab, c]) =
        ((hllMerge A [b, c]).bind fun bc => hllMerge A [a, bc]) ∧
      hllMerge A [a, b] = hllMerge A [b, a] ∧ hllMerge A [a, a] = some a ∧
      ∃ ab, hllMerge A [a, b] = some ab ∧ (Hll.fromBytes ab).isSome := by
  refine ⟨fun acc values h => ⟨fun distinct one hmem hone => ?_, acc.hll.fromBytes_toBytes, ?_⟩,
    Hll.fromBytes_toBytes, ?_⟩
  · have hdistinct : Fed A one ([] ++ distinct) := (Fed.accumulator false).update_values rfl _ hone
    have heq : acc.hll = one.hll := h.holds.unique hdistinct.holds fun v => (hmem v).symm
    exact ⟨congrArg Hll.toBytes heq, congrArg Hll.toBytes heq⟩
  · intro r hr
    obtain ⟨i, hi, rfl⟩ := List.getElem_of_mem hr
    have hlt : i < hllM := by simpa using hi
    have hle := h.holds.le_full i hlt
    rw [Hll.full, Vector.getElem_replicate] at hle
    exact UInt8.le_iff_toNat_le.mpr hle
  · intro a b c ha hb hc
    obtain ⟨x, hx⟩ := Option.isSome_iff_exists.mp ha
    obtain ⟨y, hy⟩ := Option.isSome_iff_exists.mp hb
    obtain ⟨z, hz⟩ := Option.isSome_iff_exists.mp hc
    rw [← Hll.toBytes_of_fromBytes hx, ← Hll.toBytes_of_fromBytes hy,
      ← Hll.toBytes_of_fromBytes hz]
    refine ⟨?_, ?_, ?_, _, hllMerge_pair, by simp⟩
    · simp [hllMerge_pair, sup_assoc]
    · rw [hllMerge_pair, hllMerge_pair, sup_comm]
    · rw [hllMerge_pair, sup_idem]

/-- Cells that are null or bytes, which are both a text and a sketch. -/
def bytesArrow : Arrow (Option Bytes) where
  castsUtf8 _ := true
  utf8 := id
  castsBinary _ := true
  binary := id
  ofBinary := some
  binary_ofBinary _ := rfl
  castsBinary_ofBinary _ := rfl

def built (values : List (Option Bytes)) : HllAccumulator :=
  ⟨(values.map id).foldl Hll.addCell Hll.new, false⟩

theorem built_fed (values : List (Option Bytes)) : Fed bytesArrow (built values) values :=
  (Fed.accumulator false).update_values rfl values rfl

theorem sketch_of_values_rollup :
    (HllAccumulator.mk ([some (built [some [97], some [98]]).evaluate, none,
      some (built [some [98]]).evaluate, some (built [some [98]]).evaluate].foldl
        Hll.absorb Hll.new) true).evaluate = (built [some [98], some [97]]).evaluate := by
  have hfed : Fed bytesArrow _ _ := (Fed.accumulator true).update_sketches rfl
    ![built [some [97], some [98]], built [some [98]]] ![[some [97], some [98]], [some [98]]]
    (by
      intro i
      fin_cases i
      · exact built_fed _
      · exact built_fed _)
    [some (built [some [97], some [98]]).evaluate, none, some (built [some [98]]).evaluate,
      some (built [some [98]]).evaluate]
    (by
      constructor
      · simp [bytesArrow]
      · simp [bytesArrow]) rfl
  exact (((sketch_of_values bytesArrow).1 _ _ hfed).1 [some [98], some [97]] _
    (by
      intro v
      simp [or_comm]) rfl).1

end BlueDB.Query
