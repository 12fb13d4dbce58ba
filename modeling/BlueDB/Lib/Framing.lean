import Mathlib.Tactic

/-!
# Self-delimiting byte encodings

An encoding is self-delimiting when the end of a code word can be told from the
word itself, whatever follows it. Fixed-width numbers are, so are lists behind
a count that fits its field, and the property passes to concatenations.
-/

namespace BlueDB

/-- Big-endian bytes of the low `8 * width` bits. -/
def beBytes : ℕ → ℕ → List UInt8
  | 0, _ => []
  | width + 1, n => UInt8.ofNat (n / 256 ^ width) :: beBytes width n

@[simp] theorem length_beBytes (width n : ℕ) : (beBytes width n).length = width := by
  induction width with
  | zero => rfl
  | succ width ih => simp [beBytes, ih]

theorem mod_eq_of_beBytes_eq {width m n : ℕ} (h : beBytes width m = beBytes width n) :
    m % 256 ^ width = n % 256 ^ width := by
  induction width with
  | zero => simp [Nat.mod_one]
  | succ width ih =>
    obtain ⟨hhead, htail⟩ := List.cons.inj h
    have hdigit : m / 256 ^ width % 256 = n / 256 ^ width % 256 := by
      simpa using congrArg UInt8.toNat hhead
    rw [pow_succ, Nat.mod_mul, Nat.mod_mul, ih htail, hdigit]

theorem beBytes_inj {width m n : ℕ} (hm : m < 256 ^ width) (hn : n < 256 ^ width)
    (h : beBytes width m = beBytes width n) : m = n := by
  have := mod_eq_of_beBytes_eq h
  rwa [Nat.mod_eq_of_lt hm, Nat.mod_eq_of_lt hn] at this

/-- A list whose length fits the field it is written into. -/
abbrev Sized (α : Type) (limit : ℕ) := { l : List α // l.length < limit }

/-- A code word followed by anything determines both. -/
def SelfDelimiting {α : Type*} (enc : α → List UInt8) : Prop :=
  ∀ a b x y, enc a ++ x = enc b ++ y → a = b ∧ x = y

namespace SelfDelimiting

variable {α β γ : Type*} {enc : α → List UInt8} {enc' : β → List UInt8}

theorem injective (h : SelfDelimiting enc) : Function.Injective enc := by
  intro a b hab
  have happ : enc a ++ [] = enc b ++ [] := by rw [hab]
  exact (h a b [] [] happ).1

theorem of_length {w : ℕ} (hlen : ∀ a, (enc a).length = w)
    (hinj : Function.Injective enc) : SelfDelimiting enc := by
  intro a b x y h
  obtain ⟨hab, hxy⟩ := List.append_inj h (by rw [hlen, hlen])
  exact ⟨hinj hab, hxy⟩

theorem comp (h : SelfDelimiting enc) {f : γ → α} (hf : Function.Injective f) :
    SelfDelimiting fun c => enc (f c) := by
  intro a b x y heq
  obtain ⟨hab, hxy⟩ := h _ _ _ _ heq
  exact ⟨hf hab, hxy⟩

theorem prod (h : SelfDelimiting enc) (h' : SelfDelimiting enc') :
    SelfDelimiting fun p : α × β => enc p.1 ++ enc' p.2 := by
  intro ⟨a, a'⟩ ⟨b, b'⟩ x y heq
  simp only [List.append_assoc] at heq
  obtain ⟨rfl, hrest⟩ := h _ _ _ _ heq
  obtain ⟨rfl, hxy⟩ := h' _ _ _ _ hrest
  exact ⟨rfl, hxy⟩

/-- Two lists of one length are told apart by their concatenated code words. -/
theorem flatMap (h : SelfDelimiting enc) : ∀ {l l' : List α} {x y : List UInt8},
    l.length = l'.length → l.flatMap enc ++ x = l'.flatMap enc ++ y → l = l' ∧ x = y
  | [], [], x, y, _, heq => ⟨rfl, heq⟩
  | [], _ :: _, _, _, hlen, _ => by simp at hlen
  | _ :: _, [], _, _, hlen, _ => by simp at hlen
  | a :: l, b :: l', x, y, hlen, heq => by
    simp only [List.flatMap_cons, List.append_assoc] at heq
    obtain ⟨rfl, hrest⟩ := h _ _ _ _ heq
    obtain ⟨rfl, hxy⟩ := flatMap h (by simpa using hlen) hrest
    exact ⟨rfl, hxy⟩

theorem counted {α : Type} {enc : α → List UInt8} (h : SelfDelimiting enc) (width : ℕ) :
    SelfDelimiting fun l : Sized α (256 ^ width) =>
      beBytes width l.1.length ++ l.1.flatMap enc := by
  intro l l' x y heq
  simp only [List.append_assoc] at heq
  obtain ⟨hcount, hrest⟩ := List.append_inj heq (by simp)
  have hlen : l.1.length = l'.1.length := beBytes_inj l.2 l'.2 hcount
  obtain ⟨hl, hxy⟩ := flatMap h hlen hrest
  exact ⟨Subtype.ext hl, hxy⟩

end SelfDelimiting

/-- Bytes behind their length. -/
def lengthPrefixed (width : ℕ) (b : List UInt8) : List UInt8 := beBytes width b.length ++ b

theorem selfDelimiting_lengthPrefixed (width : ℕ) :
    SelfDelimiting fun b : Sized UInt8 (256 ^ width) => lengthPrefixed width b.1 := by
  have hbyte : SelfDelimiting fun b : UInt8 => [b] :=
    SelfDelimiting.of_length (fun _ => rfl) (fun _ _ h => List.head_eq_of_cons_eq h)
  have hcounted := hbyte.counted width
  simpa [lengthPrefixed, List.flatMap_singleton'] using hcounted

end BlueDB
