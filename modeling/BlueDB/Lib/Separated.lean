import Mathlib.Tactic
import Std.Data.String.ToNat

/-!
# Texts with separators

Two parts with a separator between them are told apart by the first separator when
it does not occur in the first part, and by the last one when it does not occur in
the second. A numeral has no separator in it.
-/

namespace BlueDB

variable {α : Type*} {a : α} {l l' r r' : List α}

theorem append_separator_inj (hl : a ∉ l) (hl' : a ∉ l') (h : l ++ a :: r = l' ++ a :: r') :
    l = l' ∧ r = r' := by
  induction l generalizing l' with
  | nil =>
    cases l' with
    | nil => exact ⟨rfl, (List.cons.inj h).2⟩
    | cons b l' =>
      obtain ⟨rfl, -⟩ := List.cons.inj h
      exact absurd List.mem_cons_self hl'
  | cons b l ih =>
    cases l' with
    | nil =>
      obtain ⟨rfl, -⟩ := List.cons.inj h
      exact absurd List.mem_cons_self hl
    | cons b' l' =>
      obtain ⟨rfl, hrest⟩ := List.cons.inj h
      obtain ⟨rfl, rfl⟩ := ih (fun hmem => hl (List.mem_cons_of_mem b hmem))
        (fun hmem => hl' (List.mem_cons_of_mem b hmem)) hrest
      exact ⟨rfl, rfl⟩

theorem append_last_separator_inj (hr : a ∉ r) (hr' : a ∉ r') (h : l ++ a :: r = l' ++ a :: r') :
    l = l' ∧ r = r' := by
  have hreverse := congrArg List.reverse h
  simp only [List.reverse_append, List.reverse_cons, List.append_assoc, List.singleton_append]
    at hreverse
  obtain ⟨hright, hleft⟩ := append_separator_inj (by simpa using hr) (by simpa using hr') hreverse
  exact ⟨List.reverse_injective hleft, List.reverse_injective hright⟩

theorem not_mem_repr {c : Char} (hc : c.isDigit = false) (n : ℕ) : c ∉ (Nat.repr n).toList := by
  intro hmem
  rw [Nat.toList_repr] at hmem
  have hdigit := Nat.isDigit_of_mem_toDigits (by decide) (by decide) hmem
  rw [hc] at hdigit
  exact absurd hdigit (by decide)

end BlueDB
