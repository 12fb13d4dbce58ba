import BlueDB.Lib.ByteTuples
import BlueDB.Sql.Effects
import BlueDB.Sql.Laws

/-!
# Composite primary keys

The components of a composite key are written as escaped words, one after the other, into
the bytes of one hidden column. Byte order is the order of the tuples of components, and a
condition on the leading components is a range of bytes.
-/

namespace BlueDB.Sql

variable {G : Engine}

/-- The order of the keys of one variant, as their comparable bytes keep it. -/
structure KeyVariants (G : Engine) where
  Same : G.Key → G.Key → Prop
  lt : G.Key → G.Key → Prop
  symm : ∀ {a b : G.Key}, Same a b → Same b a
  bytes_lt : ∀ {a b : G.Key} {x y : List UInt8}, Same a b → G.toCmpBeBytes a = .ok x →
    G.toCmpBeBytes b = .ok y → (x < y ↔ lt a b)
  bytes_inj : ∀ {a b : G.Key} {x : List UInt8}, Same a b → G.toCmpBeBytes a = .ok x →
    G.toCmpBeBytes b = .ok x → a = b

/-- A component is escaped and ended, the last one too. -/
def pushComponent (out : List UInt8) (component : G.Key) : Except (Error G) (List UInt8) := do
  let bytes ← keyBytes component
  return out ++ orderPreserving bytes

def encodeCompositeKey (components : List G.Key) : Except (Error G) (List UInt8) :=
  components.foldlM pushComponent []

/-- The comparable bytes of the components. -/
def Words (components : List G.Key) (words : List (List UInt8)) : Prop :=
  List.Forall₂ (fun component word => G.toCmpBeBytes component = .ok word) components words

theorem foldlM_pushComponent {components : List G.Key} {out bytes : List UInt8} :
    components.foldlM pushComponent out = .ok bytes ↔
      ∃ words, Words components words ∧ bytes = out ++ tuple words := by
  induction components generalizing out with
  | nil =>
    constructor
    · intro h
      obtain rfl := Except.ok.inj h
      exact ⟨[], List.Forall₂.nil, (List.append_nil _).symm⟩
    · rintro ⟨words, hwords, rfl⟩
      obtain rfl := List.forall₂_nil_left_iff.mp hwords
      exact congrArg Except.ok (List.append_nil _).symm
  | cons component rest ih =>
    rw [List.foldlM_cons]
    unfold pushComponent
    cases hbytes : (keyBytes component : Except (Error G) (List UInt8)) with
    | error e =>
      constructor
      · intro h
        cases h
      · rintro ⟨words, hwords, -⟩
        obtain ⟨word, words, hword, -, rfl⟩ := List.forall₂_cons_left_iff.mp hwords
        rw [keyBytes_eq_ok.mpr hword] at hbytes
        cases hbytes
    | ok word =>
      have hword := keyBytes_eq_ok.mp hbytes
      change rest.foldlM pushComponent (out ++ orderPreserving word) = .ok bytes ↔ _
      rw [ih]
      constructor
      · rintro ⟨words, hwords, rfl⟩
        exact ⟨word :: words, List.Forall₂.cons hword hwords, List.append_assoc ..⟩
      · rintro ⟨words, hwords, rfl⟩
        obtain ⟨word', words', hword', htail, rfl⟩ := List.forall₂_cons_left_iff.mp hwords
        obtain rfl := Except.ok.inj (hword.symm.trans hword')
        exact ⟨words', htail, (List.append_assoc ..).symm⟩

theorem encodeCompositeKey_eq_ok {components : List G.Key} {bytes : List UInt8} :
    encodeCompositeKey components = .ok bytes ↔
      ∃ words, Words components words ∧ bytes = tuple words :=
  foldlM_pushComponent

namespace KeyVariants

variable (V : KeyVariants G)

/-- Components in the same place are of one variant. -/
def SameEach (x y : List G.Key) : Prop := ∀ p ∈ x.zip y, V.Same p.1 p.2

variable {V} {x y : List G.Key} {v w : List (List UInt8)}

theorem SameEach.head {a b : G.Key} (h : V.SameEach (a :: x) (b :: y)) : V.Same a b :=
  h (a, b) List.mem_cons_self

theorem SameEach.tail {a b : G.Key} (h : V.SameEach (a :: x) (b :: y)) : V.SameEach x y :=
  fun p hp => h p (List.mem_cons_of_mem _ hp)

theorem words_lt_iff (h : V.SameEach x y) (hx : Words x v) (hy : Words y w) :
    v < w ↔ List.Lex V.lt x y := by
  induction hx generalizing y w with
  | nil =>
    cases hy with
    | nil => exact iff_of_false (lt_irrefl _) List.not_lex_nil
    | cons hb hy => exact iff_of_true (List.nil_lt_cons _ _) List.Lex.nil
  | @cons a va x v ha hx ih =>
    cases hy with
    | nil => exact iff_of_false (List.not_lt_nil _) List.not_lex_nil
    | @cons b vb y w hb hy =>
      rw [List.cons_lt_cons_iff, V.bytes_lt h.head ha hb, ih h.tail hy]
      constructor
      · rintro (hlt | ⟨rfl, hlex⟩)
        · exact List.Lex.rel hlt
        · obtain rfl := V.bytes_inj h.head ha hb
          exact List.Lex.cons hlex
      · intro hlex
        cases hlex with
        | rel hlt => exact Or.inl hlt
        | cons hlex => exact Or.inr ⟨Except.ok.inj (ha.symm.trans hb), hlex⟩

theorem words_isPrefix_iff (h : V.SameEach x y) (hx : Words x v) (hy : Words y w) :
    v <+: w ↔ x <+: y := by
  induction hx generalizing y w with
  | nil => exact iff_of_true List.nil_prefix List.nil_prefix
  | @cons a va x v ha hx ih =>
    cases hy with
    | nil =>
      refine iff_of_false ?_ ?_
      · intro hpre
        exact List.cons_ne_nil _ _ (List.prefix_nil.mp hpre)
      · intro hpre
        exact List.cons_ne_nil _ _ (List.prefix_nil.mp hpre)
    | @cons b vb y w hb hy =>
      rw [List.cons_prefix_cons, List.cons_prefix_cons, ih h.tail hy]
      constructor
      · rintro ⟨rfl, hpre⟩
        exact ⟨V.bytes_inj h.head ha hb, hpre⟩
      · rintro ⟨rfl, hpre⟩
        exact ⟨Except.ok.inj (ha.symm.trans hb), hpre⟩

theorem words_inj (h : V.SameEach x y) (hx : Words x v) (hy : Words y v) : x = y := by
  have hpre := (words_isPrefix_iff h hx hy).mp (List.prefix_refl v)
  apply hpre.eq_of_length
  rw [hx.length_eq, hy.length_eq]

end KeyVariants

/-- The encoding keeps the order of the tuples of components, a proper prefix first, and
tells them apart. A prefix and its upper bound give the keys that start with it. -/
theorem encodeCompositeKey_embeds (V : KeyVariants G) (x y : List G.Key) (h : V.SameEach x y)
    (encX encY : List UInt8) (hx : encodeCompositeKey x = .ok encX)
    (hy : encodeCompositeKey y = .ok encY) :
    (encX < encY ↔ List.Lex V.lt x y) ∧ (encX = encY → x = y) ∧
      (InRange encX (prefixUpperBound encX) encY ↔ x <+: y) ∧
      (x ≠ [] → ∃ bound, prefixUpperBound encX = some bound) := by
  obtain ⟨v, hv, rfl⟩ := encodeCompositeKey_eq_ok.mp hx
  obtain ⟨w, hw, rfl⟩ := encodeCompositeKey_eq_ok.mp hy
  refine ⟨?_, ?_, ?_, ?_⟩
  · rw [tuple_lt_iff, KeyVariants.words_lt_iff h hv hw]
  · intro heq
    obtain rfl := tuple_injective heq
    exact KeyVariants.words_inj h hv hw
  · rw [inRange_tuple_iff, KeyVariants.words_isPrefix_iff h hv hw]
  · intro hne
    apply exists_tuple_upperBound
    rintro rfl
    exact hne (List.forall₂_nil_right_iff.mp hv)

namespace Ints

/-- The 64-bit integers. -/
def variants : KeyVariants engine where
  Same a b := (compare a b).isSome = true
  lt a b := compare a b = some .lt
  symm := fun h => compare_isSome.mpr (compare_isSome.mp h).symm
  bytes_lt := by
    intro a b x y hsame hx hy
    obtain ⟨o, ho⟩ := Option.isSome_iff_exists.mp hsame
    rw [ho, ← compareBytes_eq_lt, keyOrder.compare_bytes ho hx hy, Option.some.injEq]
  bytes_inj := by
    intro a b x hsame hx hy
    obtain ⟨o, ho⟩ := Option.isSome_iff_exists.mp hsame
    have heq := keyOrder.compare_bytes ho hx hy
    rw [compareBytes_eq_eq.mpr rfl] at heq
    subst o
    exact keyOrder.eq_of_compare ho

/-- The keys `(1)` and `(1, 256)`. -/
theorem encodeCompositeKey_embeds_one :
    variants.SameEach [.i64 1] [.i64 1, .i64 256] ∧
      ∃ encX encY : List UInt8, encodeCompositeKey (G := engine) [.i64 1] = .ok encX ∧
        encodeCompositeKey (G := engine) [.i64 1, .i64 256] = .ok encY ∧
        (encX < encY ↔ List.Lex variants.lt [.i64 1] [.i64 1, .i64 256]) := by
  have hsame : variants.SameEach [.i64 1] [.i64 1, .i64 256] := by
    intro p hp
    obtain rfl := List.mem_singleton.mp hp
    change (compare (.i64 1) (.i64 1)).isSome = true
    decide
  exact ⟨hsame, _, _, rfl, rfl, (encodeCompositeKey_embeds variants _ _ hsame _ _ rfl rfl).1⟩

end Ints

end BlueDB.Sql
