import Mathlib.Tactic

/-!
# A register of one lease

The register keeps at most one grant: who holds it, the epoch it was handed out
under and when it ends. An acquisition hands the lease over only when no other
holder's grant is live, and every hand-over gets an epoch no grant had before. A
renewal moves the end of the live grant, a release ends it at once.
-/

namespace BlueDB

universe u

variable {α : Type u}

structure Grant (α : Type u) where
  holder : α
  epoch : ℕ
  expires : ℤ
deriving DecidableEq, Repr

namespace Grant

def Live (g : Grant α) (now : ℤ) : Prop := now < g.expires

instance (g : Grant α) (now : ℤ) : Decidable (g.Live now) := inferInstanceAs (Decidable (_ < _))

/-- Two grants of one hand-over: they may differ in when they end. -/
def Same (g h : Grant α) : Prop := g.holder = h.holder ∧ g.epoch = h.epoch

instance [DecidableEq α] (g h : Grant α) : Decidable (g.Same h) :=
  inferInstanceAs (Decidable (_ ∧ _))

theorem Same.refl (g : Grant α) : g.Same g := ⟨rfl, rfl⟩

end Grant

structure LeaseRegister (α : Type u) where
  lease : Option (Grant α)
  last : ℕ
deriving DecidableEq, Repr

namespace LeaseRegister

def fresh : LeaseRegister α := ⟨none, 0⟩

def current (r : LeaseRegister α) (now : ℤ) : Option (Grant α) :=
  r.lease.filter fun g => g.Live now

section Transitions

variable [DecidableEq α]

/-- The epoch an acquisition is granted under, if it is. -/
def offer (r : LeaseRegister α) (who : α) (now : ℤ) : Option ℕ :=
  match r.current now with
  | some g => if g.holder = who then some g.epoch else none
  | none => some (r.last + 1)

def acquire (r : LeaseRegister α) (who : α) (expires now : ℤ) :
    Option (Grant α) × LeaseRegister α :=
  match r.offer who now with
  | some epoch => (some ⟨who, epoch, expires⟩, ⟨some ⟨who, epoch, expires⟩, max r.last epoch⟩)
  | none => (none, r)

def holds (r : LeaseRegister α) (who : α) (epoch : ℕ) (now : ℤ) : Prop :=
  ∃ g ∈ r.lease, g.holder = who ∧ g.epoch = epoch ∧ g.Live now

instance (r : LeaseRegister α) (who : α) (epoch : ℕ) (now : ℤ) :
    Decidable (r.holds who epoch now) :=
  inferInstanceAs (Decidable (∃ g ∈ r.lease, _))

def renew (r : LeaseRegister α) (who : α) (epoch : ℕ) (expires now : ℤ) :
    Option (Grant α) × LeaseRegister α :=
  if r.holds who epoch now then (some ⟨who, epoch, expires⟩, ⟨some ⟨who, epoch, expires⟩, r.last⟩)
  else (none, r)

def release (r : LeaseRegister α) (who : α) (epoch : ℕ) : LeaseRegister α :=
  if ∃ g ∈ r.lease, g.holder = who ∧ g.epoch = epoch then ⟨none, r.last⟩ else r

end Transitions

theorem mem_current {r : LeaseRegister α} {now : ℤ} {g : Grant α} :
    g ∈ r.current now ↔ g ∈ r.lease ∧ g.Live now := by
  unfold current
  simp [Option.mem_def, Option.filter_eq_some_iff]

theorem current_eq_none {r : LeaseRegister α} {now : ℤ} :
    r.current now = none ↔ ∀ g ∈ r.lease, ¬ g.Live now := by
  unfold current
  simp [Option.filter_eq_none_iff]

theorem current_mk (g : Grant α) (last : ℕ) (now : ℤ) :
    (⟨some g, last⟩ : LeaseRegister α).current now = if now < g.expires then some g else none := by
  unfold current
  split_ifs with h
  · exact Option.filter_eq_some_iff.mpr ⟨rfl, decide_eq_true h⟩
  · exact Option.filter_eq_none_iff.mpr fun k hk hlive => by
      cases hk
      exact h (of_decide_eq_true hlive)

/-- The lease belongs to the last epoch handed out. -/
def Numbered (r : LeaseRegister α) : Prop := ∀ g ∈ r.lease, g.epoch = r.last

theorem numbered_fresh : (fresh : LeaseRegister α).Numbered := by
  intro g hg
  cases hg

variable [DecidableEq α] {r : LeaseRegister α} {who : α} {epoch : ℕ} {expires now : ℤ}

/-- An acquisition is denied, moves the end of the caller's own live grant, or hands the
lease over under an epoch above all before when no grant is live. -/
theorem acquire_cases (r : LeaseRegister α) (who : α) (expires now : ℤ) :
    (∃ g ∈ r.lease, g.Live now ∧ g.holder ≠ who ∧ r.acquire who expires now = (none, r)) ∨
    (∃ g ∈ r.lease, g.Live now ∧ g.holder = who ∧ r.acquire who expires now =
      (some ⟨who, g.epoch, expires⟩, ⟨some ⟨who, g.epoch, expires⟩, max r.last g.epoch⟩)) ∨
    ((∀ g ∈ r.lease, ¬ g.Live now) ∧ r.acquire who expires now =
      (some ⟨who, r.last + 1, expires⟩, ⟨some ⟨who, r.last + 1, expires⟩, r.last + 1⟩)) := by
  cases hcur : r.current now with
  | none =>
    apply Or.inr
    apply Or.inr
    constructor
    · exact current_eq_none.mp hcur
    · simp [acquire, offer, hcur]
  | some g =>
    obtain ⟨hg, hlive⟩ := mem_current.mp (Option.mem_def.mpr hcur)
    by_cases hwho : g.holder = who
    · exact .inr (.inl ⟨g, hg, hlive, hwho, by simp [acquire, offer, hcur, hwho]⟩)
    · exact .inl ⟨g, hg, hlive, hwho, by simp [acquire, offer, hcur, hwho]⟩

theorem renew_cases (r : LeaseRegister α) (who : α) (epoch : ℕ) (expires now : ℤ) :
    (¬ r.holds who epoch now ∧ r.renew who epoch expires now = (none, r)) ∨
    (r.holds who epoch now ∧ r.renew who epoch expires now =
      (some ⟨who, epoch, expires⟩, ⟨some ⟨who, epoch, expires⟩, r.last⟩)) := by
  by_cases h : r.holds who epoch now
  · exact .inr ⟨h, if_pos h⟩
  · exact .inl ⟨h, if_neg h⟩

theorem release_lease {g : Grant α} (hg : g ∈ (r.release who epoch).lease) :
    g ∈ r.lease ∧ ¬ (g.holder = who ∧ g.epoch = epoch) := by
  unfold release at hg
  split_ifs at hg with h
  · cases hg
  · exact ⟨hg, fun hmatch => h ⟨g, hg, hmatch⟩⟩

@[simp] theorem release_last : (r.release who epoch).last = r.last := by
  unfold release
  split_ifs <;> rfl

theorem Numbered.acquire (h : r.Numbered) : (r.acquire who expires now).2.Numbered := by
  rcases acquire_cases r who expires now with ⟨_, _, _, _, heq⟩ | ⟨g, hg, _, _, heq⟩ | ⟨_, heq⟩
  · rw [heq]
    exact h
  · rw [heq]
    rintro k ⟨⟩
    exact (max_eq_right (h g hg).ge).symm
  · rw [heq]
    rintro k ⟨⟩
    rfl

theorem Numbered.renew (h : r.Numbered) : (r.renew who epoch expires now).2.Numbered := by
  rcases renew_cases r who epoch expires now with ⟨_, heq⟩ | ⟨⟨g, hg, _, hepoch, _⟩, heq⟩
  · rw [heq]
    exact h
  · rw [heq]
    rintro k ⟨⟩
    rw [← hepoch]
    exact h g hg

theorem Numbered.release (h : r.Numbered) : (r.release who epoch).Numbered := by
  intro g hg
  rw [release_last]
  exact h g (release_lease hg).1

/-- What a caller is granted is what the register shows until it ends. -/
theorem current_acquire {g : Grant α} (hg : (r.acquire who expires now).1 = some g) (later : ℤ) :
    (r.acquire who expires now).2.current later = if later < g.expires then some g else none := by
  rcases acquire_cases r who expires now with ⟨_, _, _, _, heq⟩ | ⟨_, _, _, _, heq⟩ | ⟨_, heq⟩
  · rw [heq] at hg
    cases hg
  all_goals
    rw [heq] at hg ⊢
    cases hg
    exact current_mk _ _ later

theorem current_renew {g : Grant α} (hg : (r.renew who epoch expires now).1 = some g)
    (later : ℤ) :
    (r.renew who epoch expires now).2.current later =
      if later < g.expires then some g else none := by
  rcases renew_cases r who epoch expires now with ⟨_, heq⟩ | ⟨_, heq⟩
  · rw [heq] at hg
    cases hg
  · rw [heq] at hg ⊢
    cases hg
    exact current_mk _ _ later

/-- The register without a grant that no time finds live. -/
def settled (r : LeaseRegister α) : LeaseRegister α :=
    ⟨r.lease.filter fun g => 0 < g.expires, r.last⟩

omit [DecidableEq α] in
@[simp] theorem settled_last : r.settled.last = r.last := rfl

omit [DecidableEq α] in
theorem mem_settled {g : Grant α} : g ∈ r.settled.lease ↔ g ∈ r.lease ∧ 0 < g.expires := by
  unfold settled
  simp [Option.mem_def, Option.filter_eq_some_iff]

omit [DecidableEq α] in
theorem settled_ext {r s : LeaseRegister α} (hlast : r.last = s.last)
    (hlease : ∀ g : Grant α, 0 < g.expires → (g ∈ r.lease ↔ g ∈ s.lease)) :
    r.settled = s.settled := by
  have hsame : r.settled.lease = s.settled.lease := by
    apply Option.ext
    intro g
    have := mem_settled (r := r) (g := g)
    have := mem_settled (r := s) (g := g)
    have := hlease g
    simp only [Option.mem_def] at *
    tauto
  unfold settled at hsame ⊢
  rw [hlast]
  simp only at hsame
  rw [hsame]

omit [DecidableEq α] in
theorem settled_settled : r.settled.settled = r.settled :=
  settled_ext rfl fun _ hg => by rw [mem_settled, and_iff_left hg]

omit [DecidableEq α] in
theorem settled_current (hnow : 0 ≤ now) : r.settled.current now = r.current now := by
  apply Option.ext
  intro g
  change g ∈ r.settled.current now ↔ g ∈ r.current now
  rw [mem_current, mem_current, mem_settled]
  constructor
  · rintro ⟨⟨hg, _⟩, hlive⟩
    exact ⟨hg, hlive⟩
  · rintro ⟨hg, hlive⟩
    exact ⟨⟨hg, lt_of_le_of_lt hnow hlive⟩, hlive⟩

omit [DecidableEq α] in
theorem settled_holds (hnow : 0 ≤ now) : r.settled.holds who epoch now ↔ r.holds who epoch now := by
  constructor
  · rintro ⟨g, hg, hmatch⟩
    exact ⟨g, (mem_settled.mp hg).1, hmatch⟩
  · rintro ⟨g, hg, hwho, hepoch, hlive⟩
    exact ⟨g, mem_settled.mpr ⟨hg, lt_of_le_of_lt hnow hlive⟩, hwho, hepoch, hlive⟩

theorem settled_acquire (hnow : 0 ≤ now) :
    (r.settled.acquire who expires now).1 = (r.acquire who expires now).1 ∧
    (r.settled.acquire who expires now).2.settled = (r.acquire who expires now).2.settled := by
  have hoffer : r.settled.offer who now = r.offer who now := by
    unfold offer
    rw [settled_current hnow, settled_last]
  unfold acquire
  rw [hoffer]
  cases r.offer who now with
  | none => exact ⟨rfl, settled_settled⟩
  | some e => exact ⟨rfl, rfl⟩

theorem settled_renew (hnow : 0 ≤ now) :
    (r.settled.renew who epoch expires now).1 = (r.renew who epoch expires now).1 ∧
    (r.settled.renew who epoch expires now).2.settled =
      (r.renew who epoch expires now).2.settled := by
  unfold renew
  by_cases h : r.holds who epoch now
  · rw [if_pos h, if_pos ((settled_holds hnow).mpr h)]
    exact ⟨rfl, rfl⟩
  · rw [if_neg h, if_neg fun hs => h ((settled_holds hnow).mp hs)]
    exact ⟨rfl, settled_settled⟩

theorem mem_release {g : Grant α} :
    g ∈ (r.release who epoch).lease ↔ g ∈ r.lease ∧ ¬ (g.holder = who ∧ g.epoch = epoch) := by
  constructor
  · exact release_lease
  · rintro ⟨hg, hmatch⟩
    unfold release
    rw [if_neg]
    · exact hg
    · rintro ⟨k, hk, hk'⟩
      cases Option.mem_unique hg hk
      exact hmatch hk'

theorem settled_release :
    (r.settled.release who epoch).settled = (r.release who epoch).settled := by
  apply settled_ext
  · simp
  · intro g hg
    rw [mem_release, mem_release, mem_settled, and_iff_left hg]

end LeaseRegister

end BlueDB
