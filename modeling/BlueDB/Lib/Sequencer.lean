import BlueDB.Lib.OrderedMap
import Mathlib.Data.List.Fold

/-!
# Numbered logs with several writers

A writer takes a number for each entry, one after the other, and appends its
entries to the log later and all at once; other writers take numbers in between.
The counter is in memory: after a restart it starts again from the highest number
of the log, and what had been taken but not appended is gone. Entries of the log
can be trimmed.
-/

namespace BlueDB

namespace OrderedMap

variable {κ ν : Type*} [LinearOrder κ]

def insertAll (m : OrderedMap κ ν) (l : List (κ × ν)) : OrderedMap κ ν :=
  l.foldl (fun m p => m.insert p.1 p.2) m

def eraseAll (m : OrderedMap κ ν) (keys : List κ) : OrderedMap κ ν := keys.foldl erase m

theorem mem_insert {m : OrderedMap κ ν} {k : κ} {v : ν} {p : κ × ν} :
    p ∈ (m.insert k v).entries ↔ p = (k, v) ∨ p.1 ≠ k ∧ p ∈ m.entries := by
  change (p.1, p.2) ∈ _ ↔ _ ∨ _ ∧ (p.1, p.2) ∈ _
  rw [mem_entries, mem_entries, get_insert]
  by_cases hk : p.1 = k
  · simp [hk, Prod.ext_iff, eq_comm]
  · simp [hk, Prod.ext_iff]

theorem mem_insertAll {m : OrderedMap κ ν} {l : List (κ × ν)} {p : κ × ν}
    (hl : l.Pairwise fun p q => p.1 < q.1)
    (hnew : ∀ p ∈ l, ∀ q ∈ m.entries, q.1 ≠ p.1) :
    p ∈ (m.insertAll l).entries ↔ p ∈ m.entries ∨ p ∈ l := by
  induction l generalizing m with
  | nil => simp [insertAll]
  | cons a l ih =>
    obtain ⟨ha, hl⟩ := List.pairwise_cons.mp hl
    have hrest : ∀ p ∈ l, ∀ q ∈ (m.insert a.1 a.2).entries, q.1 ≠ p.1 := by
      intro p hp q hq
      rcases mem_insert.mp hq with rfl | ⟨-, hq⟩
      · exact (ha p hp).ne
      · exact hnew p (List.mem_cons_of_mem _ hp) q hq
    change p ∈ ((m.insert a.1 a.2).insertAll l).entries ↔ _
    rw [ih hl hrest, mem_insert, List.mem_cons]
    constructor
    · rintro ((rfl | ⟨-, hp⟩) | hp)
      · exact Or.inr (Or.inl rfl)
      · exact Or.inl hp
      · exact Or.inr (Or.inr hp)
    · rintro (hp | rfl | hp)
      · exact Or.inl (Or.inr ⟨hnew a (by simp) p hp, hp⟩)
      · exact Or.inl (Or.inl rfl)
      · exact Or.inr hp

theorem mem_erase {m : OrderedMap κ ν} {k : κ} {p : κ × ν} :
    p ∈ (m.erase k).entries ↔ p ∈ m.entries ∧ p.1 ≠ k := by
  change (p.1, p.2) ∈ _ ↔ (p.1, p.2) ∈ _ ∧ _
  rw [mem_entries, mem_entries, get_erase]
  by_cases hk : p.1 = k <;> simp [hk]

theorem mem_eraseAll {m : OrderedMap κ ν} {keys : List κ} {p : κ × ν} :
    p ∈ (m.eraseAll keys).entries ↔ p ∈ m.entries ∧ p.1 ∉ keys := by
  induction keys generalizing m with
  | nil => simp [eraseAll]
  | cons k keys ih =>
    change p ∈ ((m.erase k).eraseAll keys).entries ↔ _
    rw [ih, mem_erase, List.mem_cons, not_or, and_assoc]

end OrderedMap

/-- `held` is what writer `i` has taken a number for and not appended yet. -/
structure Sequencer (ι α : Type*) where
  log : OrderedMap ℕ α
  counter : Option ℕ
  held : ι → List (ℕ × α)

namespace Sequencer

variable {ι α : Type*}

/-- The highest number of a log, zero for an empty one. -/
def highest (log : OrderedMap ℕ α) : ℕ := (log.entries.map Prod.fst).foldl max 0

theorem le_foldl_max {l : List ℕ} {n : ℕ} (hn : n ∈ l) : n ≤ l.foldl max 0 := by
  rw [List.foldl_eq_foldr]
  exact List.le_max_of_le' 0 hn le_rfl

theorem le_highest {log : OrderedMap ℕ α} {p : ℕ × α} (hp : p ∈ log.entries) :
    p.1 ≤ highest log :=
  le_foldl_max (List.mem_map_of_mem hp)

/-- The last number taken. -/
def current (s : Sequencer ι α) : ℕ := s.counter.getD (highest s.log)

def trim (s : Sequencer ι α) (numbers : List ℕ) : Sequencer ι α :=
  { s with log := s.log.eraseAll numbers }

def restart (s : Sequencer ι α) : Sequencer ι α := ⟨s.log, none, fun _ => []⟩

variable [DecidableEq ι]

def take (s : Sequencer ι α) (i : ι) (a : α) : Sequencer ι α where
  log := s.log
  counter := some (s.current + 1)
  held := Function.update s.held i (s.held i ++ [(s.current + 1, a)])

def append (s : Sequencer ι α) (i : ι) : Sequencer ι α where
  log := s.log.insertAll (s.held i)
  counter := s.counter
  held := Function.update s.held i []

omit [DecidableEq ι] in
/-- No number is used twice, in the memory of the writers and in the log. -/
structure Numbered (s : Sequencer ι α) : Prop where
  log_le : ∀ p ∈ s.log.entries, p.1 ≤ s.current
  held_le : ∀ i, ∀ p ∈ s.held i, p.1 ≤ s.current
  ascending : ∀ i, (s.held i).Pairwise fun p q => p.1 < q.1
  fresh : ∀ i, ∀ p ∈ s.held i, ∀ q ∈ s.log.entries, q.1 ≠ p.1
  apart : ∀ i j, i ≠ j → ∀ p ∈ s.held i, ∀ q ∈ s.held j, p.1 ≠ q.1
  unseeded : s.counter = none → ∀ i, s.held i = []
  log_pos : ∀ p ∈ s.log.entries, 0 < p.1
  held_pos : ∀ i, ∀ p ∈ s.held i, 0 < p.1

namespace Numbered

variable {s : Sequencer ι α}

omit [DecidableEq ι] in
theorem of_held_nil (hheld : ∀ i, s.held i = []) (hlog : ∀ p ∈ s.log.entries, p.1 ≤ s.current)
    (hpos : ∀ p ∈ s.log.entries, 0 < p.1) : s.Numbered := by
  have hnone : ∀ i, ∀ p ∈ s.held i, False := by
    intro i p hp
    rw [hheld i] at hp
    exact List.not_mem_nil hp
  exact
    { log_le := hlog
      held_le := fun i p hp => (hnone i p hp).elim
      ascending := fun i => by rw [hheld i]; exact List.Pairwise.nil
      fresh := fun i p hp => (hnone i p hp).elim
      apart := fun i _ _ p hp => (hnone i p hp).elim
      unseeded := fun _ => hheld
      log_pos := hpos
      held_pos := fun i p hp => (hnone i p hp).elim }

omit [DecidableEq ι] in
theorem restart (h : s.Numbered) : s.restart.Numbered :=
  of_held_nil (fun _ => rfl) (fun _ hp => le_highest hp) h.log_pos

theorem mem_held_take {i j : ι} {a : α} {p : ℕ × α} :
    p ∈ (s.take i a).held j ↔ p ∈ s.held j ∨ j = i ∧ p = (s.current + 1, a) := by
  change p ∈ Function.update s.held i _ j ↔ _
  by_cases hj : j = i
  · subst j
    simp
  · simp [hj]

theorem take (h : s.Numbered) (i : ι) (a : α) : (s.take i a).Numbered := by
  have hcurrent : (s.take i a).current = s.current + 1 := rfl
  constructor
  case log_le =>
    intro p hp
    exact (h.log_le p hp).trans (by omega)
  case held_le =>
    intro j p hp
    rcases mem_held_take.mp hp with hp | ⟨-, rfl⟩
    · exact (h.held_le j p hp).trans (by omega)
    · exact le_rfl
  case ascending =>
    intro j
    change (Function.update s.held i _ j).Pairwise _
    by_cases hj : j = i
    · subst j
      rw [Function.update_self]
      apply List.pairwise_append.mpr ⟨h.ascending i, List.pairwise_singleton _ _, ?_⟩
      intro p hp q hq
      rw [List.mem_singleton.mp hq]
      exact Nat.lt_succ_of_le (h.held_le i p hp)
    · rw [Function.update_of_ne hj]
      exact h.ascending j
  case fresh =>
    intro j p hp q hq
    rcases mem_held_take.mp hp with hp | ⟨-, rfl⟩
    · exact h.fresh j p hp q hq
    · exact (Nat.lt_succ_of_le (h.log_le q hq)).ne
  case apart =>
    intro j j' hne p hp q hq
    rcases mem_held_take.mp hp with hp | ⟨hj, rfl⟩
    · rcases mem_held_take.mp hq with hq | ⟨-, rfl⟩
      · exact h.apart j j' hne p hp q hq
      · exact (Nat.lt_succ_of_le (h.held_le j p hp)).ne
    · rcases mem_held_take.mp hq with hq | ⟨hj', -⟩
      · exact (Nat.lt_succ_of_le (h.held_le j' q hq)).ne'
      · exact absurd (hj.trans hj'.symm) hne
  case unseeded => simp [Sequencer.take]
  case log_pos => exact h.log_pos
  case held_pos =>
    intro j p hp
    rcases mem_held_take.mp hp with hp | ⟨-, rfl⟩
    · exact h.held_pos j p hp
    · exact Nat.succ_pos _

theorem mem_log_append (h : s.Numbered) {i : ι} {p : ℕ × α} :
    p ∈ (s.append i).log.entries ↔ p ∈ s.log.entries ∨ p ∈ s.held i :=
  OrderedMap.mem_insertAll (h.ascending i) (h.fresh i)

theorem mem_held_append {i j : ι} {p : ℕ × α} :
    p ∈ (s.append i).held j ↔ j ≠ i ∧ p ∈ s.held j := by
  change p ∈ Function.update s.held i _ j ↔ _
  by_cases hj : j = i
  · subst j
    simp
  · simp [hj]

theorem append (h : s.Numbered) (i : ι) : (s.append i).Numbered := by
  -- without a counter there is nothing to append
  have hcurrent : (s.append i).current = s.current := by
    unfold current
    cases hcounter : s.counter with
    | some n => simp [Sequencer.append, hcounter]
    | none => simp [Sequencer.append, hcounter, h.unseeded hcounter i, OrderedMap.insertAll]
  constructor
  case log_le =>
    intro p hp
    rw [hcurrent]
    rcases (mem_log_append h).mp hp with hp | hp
    · exact h.log_le p hp
    · exact h.held_le i p hp
  case held_le =>
    intro j p hp
    rw [hcurrent]
    exact h.held_le j p (mem_held_append.mp hp).2
  case ascending =>
    intro j
    change (Function.update s.held i _ j).Pairwise _
    by_cases hj : j = i
    · subst j
      rw [Function.update_self]
      exact List.Pairwise.nil
    · rw [Function.update_of_ne hj]
      exact h.ascending j
  case fresh =>
    intro j p hp q hq
    obtain ⟨hj, hp⟩ := mem_held_append.mp hp
    rcases (mem_log_append h).mp hq with hq | hq
    · exact h.fresh j p hp q hq
    · exact h.apart i j (Ne.symm hj) q hq p hp
  case apart =>
    intro j j' hne p hp q hq
    exact h.apart j j' hne p (mem_held_append.mp hp).2 q (mem_held_append.mp hq).2
  case unseeded =>
    intro hcounter j
    change Function.update s.held i _ j = []
    by_cases hj : j = i
    · subst j
      exact Function.update_self ..
    · rw [Function.update_of_ne hj]
      exact h.unseeded hcounter j
  case log_pos =>
    intro p hp
    rcases (mem_log_append h).mp hp with hp | hp
    · exact h.log_pos p hp
    · exact h.held_pos i p hp
  case held_pos =>
    intro j p hp
    exact h.held_pos j p (mem_held_append.mp hp).2

omit [DecidableEq ι] in
theorem trim (h : s.Numbered) (numbers : List ℕ) : (s.trim numbers).Numbered := by
  have hmem : ∀ p ∈ (s.trim numbers).log.entries, p ∈ s.log.entries := fun p hp =>
    (OrderedMap.mem_eraseAll.mp hp).1
  cases hcounter : s.counter with
  | none =>
    have hheld : ∀ i, (s.trim numbers).held i = [] := h.unseeded hcounter
    have hcurrent : (s.trim numbers).current = highest (s.trim numbers).log := by
      unfold current
      rw [show (s.trim numbers).counter = none from hcounter]
      rfl
    apply of_held_nil hheld _ fun p hp => h.log_pos p (hmem p hp)
    intro p hp
    rw [hcurrent]
    exact le_highest hp
  | some n =>
    have hcurrent : (s.trim numbers).current = s.current := by
      unfold current
      rw [show (s.trim numbers).counter = some n from hcounter, hcounter]
      rfl
    exact
      { log_le := fun p hp => hcurrent ▸ h.log_le p (hmem p hp)
        held_le := fun i p hp => hcurrent ▸ h.held_le i p hp
        ascending := h.ascending
        fresh := fun i p hp q hq => h.fresh i p hp q (hmem q hq)
        apart := h.apart
        unseeded := h.unseeded
        log_pos := fun p hp => h.log_pos p (hmem p hp)
        held_pos := h.held_pos }

end Numbered

end Sequencer

end BlueDB
