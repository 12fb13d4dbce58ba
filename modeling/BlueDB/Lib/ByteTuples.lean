import BlueDB.Lib.ByteOrder

/-!
# Tuples of byte strings

The escaped words of a tuple, one after the other, are ordered as the tuples are, and the
tuples that start with a given one are those of a byte range. Inside the interval of a
prefix, a range is given by its other end alone.
-/

namespace BlueDB

section Ranges

variable {p q k : List UInt8}

theorem prefixUpperBound_append {e : List UInt8} (h : prefixUpperBound q = some e) :
    prefixUpperBound (p ++ q) = some (p ++ e) := by
  induction p with
  | nil => exact h
  | cons b p ih => rw [List.cons_append, prefixUpperBound_cons, ih, List.cons_append]

theorem exists_prefixUpperBound {b : UInt8} (hmem : b ∈ p) (hb : b ≠ 0xFF) :
    ∃ e, prefixUpperBound p = some e := by
  induction p with
  | nil => exact absurd hmem List.not_mem_nil
  | cons a p ih =>
    rw [prefixUpperBound_cons]
    cases hp : prefixUpperBound p with
    | some e => exact ⟨_, rfl⟩
    | none =>
      rcases List.mem_cons.mp hmem with rfl | hmem
      · exact ⟨_, if_neg hb⟩
      · obtain ⟨e, he⟩ := ih hmem
        rw [hp] at he
        cases he

theorem le_of_isPrefix (h : p <+: q) : p ≤ q := (inRange_prefixUpperBound_iff.mpr h).1

theorem inRange_from_iff (h : p <+: q) : InRange q (prefixUpperBound p) k ↔ p <+: k ∧ q ≤ k := by
  constructor
  · intro ⟨hge, hlt⟩
    exact ⟨inRange_prefixUpperBound_iff.mp ⟨(le_of_isPrefix h).trans hge, hlt⟩, hge⟩
  · intro ⟨hp, hge⟩
    exact ⟨hge, (inRange_prefixUpperBound_iff.mpr hp).2⟩

theorem inRange_below_iff (h : p <+: q) : InRange p (some q) k ↔ p <+: k ∧ k < q := by
  constructor
  · intro ⟨hge, hlt⟩
    have hq := hlt q rfl
    refine ⟨inRange_prefixUpperBound_iff.mp ⟨hge, fun e he => ?_⟩, hq⟩
    exact hq.trans ((inRange_prefixUpperBound_iff.mpr h).2 e he)
  · rintro ⟨hp, hlt⟩
    refine ⟨le_of_isPrefix hp, ?_⟩
    rintro e ⟨⟩
    exact hlt

theorem append_lt_append_of_length {x y : List UInt8} (hlen : p.length = q.length) (h : p < q) :
    p ++ x < q ++ y := by
  induction p generalizing q with
  | nil =>
    obtain rfl := List.length_eq_zero_iff.mp hlen.symm
    exact absurd h (lt_irrefl _)
  | cons a p ih =>
    cases q with
    | nil => cases hlen
    | cons b q =>
      rw [List.cons_append, List.cons_append, List.cons_lt_cons_iff]
      rcases List.cons_lt_cons_iff.mp h with hab | ⟨hab, htail⟩
      · exact Or.inl hab
      · exact Or.inr ⟨hab, ih (Nat.succ.inj hlen) htail⟩

theorem lt_append_zero_iff : k < p ++ [0] ↔ ¬ p < k := by
  induction p generalizing k with
  | nil =>
    cases k with
    | nil => simp
    | cons a k => simp [List.cons_lt_cons_iff]
  | cons b p ih =>
    cases k with
    | nil => simp
    | cons a k =>
      rw [List.cons_append, List.cons_lt_cons_iff, List.cons_lt_cons_iff, ih]
      rcases lt_trichotomy a b with hlt | rfl | hgt
      · simp [hlt, hlt.not_gt, hlt.ne']
      · simp
      · simp [hgt, hgt.not_gt, hgt.ne']

end Ranges

/-- The words of a tuple, escaped and ended. -/
def tuple (words : List (List UInt8)) : List UInt8 := words.flatMap orderPreserving

theorem tuple_cons (word : List UInt8) (words : List (List UInt8)) :
    tuple (word :: words) = orderPreserving word ++ tuple words := rfl

theorem orderPreserving_ne_nil (word : List UInt8) : orderPreserving word ≠ [] := by
  cases word with
  | nil => exact List.cons_ne_nil _ _
  | cons b rest =>
    unfold orderPreserving
    split_ifs
    · exact List.cons_ne_nil _ _
    · exact List.cons_ne_nil _ _

theorem tuple_cons_ne_nil (word : List UInt8) (words : List (List UInt8)) :
    tuple (word :: words) ≠ [] := by
  rw [tuple_cons]
  exact List.append_ne_nil_of_left_ne_nil (orderPreserving_ne_nil word) _

theorem nil_lt_of_ne_nil {x : List UInt8} (h : x ≠ []) : [] < x := by
  cases x with
  | nil => exact absurd rfl h
  | cons b x => exact List.nil_lt_cons b x

variable {x y : List (List UInt8)}

theorem tuple_lt_iff : tuple x < tuple y ↔ x < y := by
  induction x generalizing y with
  | nil =>
    cases y with
    | nil => exact iff_of_false (lt_irrefl _) (lt_irrefl _)
    | cons w y =>
      exact iff_of_true (nil_lt_of_ne_nil (tuple_cons_ne_nil w y)) (List.nil_lt_cons w y)
  | cons v x ih =>
    cases y with
    | nil => exact iff_of_false (List.not_lt_nil _) (List.not_lt_nil _)
    | cons w y => rw [tuple_cons, tuple_cons, orderPreserving_append_lt, List.cons_lt_cons_iff, ih]

theorem tuple_injective : Function.Injective tuple := by
  intro x y h
  rcases lt_trichotomy x y with hlt | heq | hgt
  · exact absurd h (tuple_lt_iff.mpr hlt).ne
  · exact heq
  · exact absurd h (tuple_lt_iff.mpr hgt).ne'

theorem tuple_isPrefix_iff : tuple x <+: tuple y ↔ x <+: y := by
  induction x generalizing y with
  | nil => exact iff_of_true List.nil_prefix List.nil_prefix
  | cons v x ih =>
    cases y with
    | nil =>
      refine iff_of_false ?_ ?_
      · intro h
        exact tuple_cons_ne_nil v x (List.prefix_nil.mp h)
      · intro h
        exact List.cons_ne_nil v x (List.prefix_nil.mp h)
    | cons w y =>
      rw [tuple_cons, tuple_cons, List.cons_prefix_cons, ← ih]
      constructor
      · rintro ⟨rest, h⟩
        rw [List.append_assoc] at h
        obtain ⟨rfl, htail⟩ := selfDelimiting_orderPreserving _ _ _ _ h
        exact ⟨rfl, rest, htail⟩
      · rintro ⟨rfl, h⟩
        exact (List.prefix_append_right_inj _).mpr h

theorem zero_mem_orderPreserving (word : List UInt8) : (0 : UInt8) ∈ orderPreserving word := by
  induction word with
  | nil => exact List.mem_cons_self
  | cons b rest ih =>
    unfold orderPreserving
    split_ifs
    · exact List.mem_cons_self
    · exact List.mem_cons_of_mem _ ih

theorem exists_orderPreserving_upperBound (word : List UInt8) :
    ∃ e, prefixUpperBound (orderPreserving word) = some e :=
  exists_prefixUpperBound (zero_mem_orderPreserving word) (by decide)

theorem inRange_tuple_iff :
    InRange (tuple x) (prefixUpperBound (tuple x)) (tuple y) ↔ x <+: y := by
  rw [inRange_prefixUpperBound_iff, tuple_isPrefix_iff]

theorem exists_tuple_upperBound (h : x ≠ []) : ∃ e, prefixUpperBound (tuple x) = some e := by
  cases x with
  | nil => exact absurd rfl h
  | cons w x =>
    refine exists_prefixUpperBound ?_ (by decide : (0 : UInt8) ≠ 0xFF)
    rw [tuple_cons]
    exact List.mem_append_left _ (zero_mem_orderPreserving w)

end BlueDB
