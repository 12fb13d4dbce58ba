import BlueDB.Ha.Controller

/-!
# What a step of a controller does

A step moves one node's clock, begins or gives up a part of an operation, has the
store answer a call, or ends an operation with the local update. Everything later
about runs is read off these four kinds of steps.
-/

namespace BlueDB.Ha

open LeaseRegister

/-- What the register behind a store answers to a call of `n`, with the register after it. -/
inductive Answered (r : LeaseRegister String) (n : String) (millis : ℤ) :
    Request → Option Lease → Bool → LeaseRegister String → Prop
  | denied {q : Request}
      (hother : ∀ e, q = .release e → ∀ k ∈ r.lease, ¬ (k.holder = n ∧ k.epoch = e)) :
      Answered r n millis q none false r
  | kept {q : Request} {now : ℤ} {k : Lease} (hq : q.now? = some now) (hk : k ∈ r.lease)
      (hlive : k.Live now) (hholder : k.holder = n) (hepoch : ∀ e ∈ q.epoch?, e = k.epoch) :
      Answered r n millis q (some ⟨n, k.epoch, now + millis⟩) true
        (settled ⟨some ⟨n, k.epoch, now + millis⟩, r.last⟩)
  | handed {now : ℤ} (hfree : ∀ k ∈ r.lease, ¬ k.Live now) :
      Answered r n millis (.acquire now) (some ⟨n, r.last + 1, now + millis⟩) true
        (settled ⟨some ⟨n, r.last + 1, now + millis⟩, r.last + 1⟩)
  | ended {e : ℕ} (hall : ∀ k ∈ r.lease, k.holder = n ∧ k.epoch = e) (hlast : e = r.last) :
      Answered r n millis (.release e) none true ⟨none, r.last⟩

namespace Backend

variable {σ : Type} (B : Backend σ)

/-- The register a store shows, without a grant that ended before time began. -/
def shown (s : σ) : LeaseRegister String := (B.raw s).settled

variable {B} {s : σ} {n : String} {ttl : Duration}

theorem shown_numbered (hok : B.Ok s) : (B.shown s).Numbered := by
  intro g hg
  exact (B.ok_last hok).1 g (mem_settled.mp hg).1

theorem acquire_answered {now : ℤ} {o : Outcome σ} (hok : B.Ok s) (hn : B.Holder n)
    (hnow : 0 ≤ now) (h : B.ask s n ttl (.acquire now) = some o) :
    B.Ok o.store ∧ Answered (B.shown s) n (B.millis ttl) (.acquire now) o.grant o.wrote
      (B.shown (if o.wrote then o.store else s)) := by
  obtain ⟨x, hx, rfl⟩ := Option.map_eq_some_iff.mp h
  obtain ⟨hok', ⟨hreply, hraw⟩ | ⟨rfl, _⟩⟩ := B.acquire_law hok hn hx
  · refine ⟨hok', ?_⟩
    obtain ⟨hsame, hsettled⟩ := @LeaseRegister.settled_acquire _ _ (B.raw s) n
      (now + B.millis ttl) _ hnow
    have hafter : B.shown x.2 = ((B.shown s).acquire n (now + B.millis ttl) now).2.settled := by
      unfold shown
      rw [hsettled, hraw]
    change x.1 = _ at hreply
    rw [← hsame] at hreply
    rcases acquire_cases (B.shown s) n (now + B.millis ttl) now with
      ⟨g, hg, hlive, hne, heq⟩ | ⟨g, hg, hlive, hwho, heq⟩ | ⟨hfree, heq⟩
    · have hnone : x.1 = none := hreply.trans (congrArg Prod.fst heq)
      simp only [hnone, Option.isSome_none, Bool.false_eq_true, if_false]
      exact .denied fun e he => by cases he
    · have hsome : x.1 = some ⟨n, g.epoch, now + B.millis ttl⟩ :=
        hreply.trans (congrArg Prod.fst heq)
      rw [heq] at hafter
      simp only [hsome, Option.isSome_some, if_true]
      rw [hafter, max_eq_left (shown_numbered hok g hg).le]
      exact .kept rfl hg hlive hwho (fun e he => by cases he)
    · have hsome : x.1 = some ⟨n, (B.shown s).last + 1, now + B.millis ttl⟩ :=
        hreply.trans (congrArg Prod.fst heq)
      rw [heq] at hafter
      simp only [hsome, Option.isSome_some, if_true]
      rw [hafter]
      exact .handed hfree
  · exact ⟨hok, .denied fun e he => by cases he⟩

theorem renew_answered {epoch : ℕ} {now : ℤ} {o : Outcome σ} (hok : B.Ok s) (hn : B.Holder n)
    (hepoch : epoch ≤ u64Max) (hnow : 0 ≤ now) (h : B.ask s n ttl (.renew epoch now) = some o) :
    B.Ok o.store ∧ Answered (B.shown s) n (B.millis ttl) (.renew epoch now) o.grant o.wrote
      (B.shown (if o.wrote then o.store else s)) := by
  obtain ⟨x, hx, rfl⟩ := Option.map_eq_some_iff.mp h
  obtain ⟨hok', hreply, hraw⟩ := B.renew_law hok hn hepoch hx
  refine ⟨hok', ?_⟩
  obtain ⟨hsame, hsettled⟩ := @LeaseRegister.settled_renew _ _ (B.raw s) n epoch
    (now + B.millis ttl) _ hnow
  have hafter : B.shown x.2 = ((B.shown s).renew n epoch (now + B.millis ttl) now).2.settled := by
    unfold shown
    rw [hsettled, hraw]
  rw [← hsame] at hreply
  rcases renew_cases (B.shown s) n epoch (now + B.millis ttl) now with
    ⟨_, heq⟩ | ⟨⟨k, hk, hwho, rfl, hlive⟩, heq⟩
  · have hnone : x.1 = none := hreply.trans (congrArg Prod.fst heq)
    simp only [hnone, Option.isSome_none, Bool.false_eq_true, if_false]
    exact .denied fun e he => by cases he
  · have hsome : x.1 = some ⟨n, k.epoch, now + B.millis ttl⟩ :=
      hreply.trans (congrArg Prod.fst heq)
    rw [heq] at hafter
    simp only [hsome, Option.isSome_some, if_true]
    rw [hafter]
    exact .kept rfl hk hlive hwho (fun e he => (Option.some.inj he).symm)

theorem release_answered {epoch : ℕ} {o : Outcome σ} (hok : B.Ok s) (hepoch : epoch ≤ u64Max)
    (h : B.ask s n ttl (.release epoch) = some o) :
    B.Ok o.store ∧ Answered (B.shown s) n (B.millis ttl) (.release epoch) o.grant o.wrote
      (B.shown (if o.wrote then o.store else s)) := by
  obtain ⟨x, hx, rfl⟩ := Option.map_eq_some_iff.mp h
  obtain ⟨hok', hsettled, hwrote⟩ := B.release_law hok hepoch hx
  refine ⟨hok', ?_⟩
  cases hx1 : x.1 with
  | false =>
    simp only [Bool.false_eq_true, if_false]
    apply Answered.denied
    rintro e ⟨⟩ k hk hmatch
    have htrue := hwrote.mpr ⟨k, (mem_settled.mp hk).1, hmatch⟩
    rw [hx1] at htrue
    cases htrue
  | true =>
    obtain ⟨g, hg, hmatch⟩ := hwrote.mp hx1
    have hafter : B.shown x.2 = ⟨none, (B.shown s).last⟩ := by
      unfold shown
      rw [hsettled, LeaseRegister.release, if_pos ⟨g, hg, hmatch⟩]
      rfl
    simp only [if_true]
    rw [hafter]
    apply Answered.ended
    · intro k hk
      cases Option.mem_unique hg (mem_settled.mp hk).1
      exact hmatch
    · exact hmatch.2.symm.trans ((B.ok_last hok).1 g hg)

/-- The store stays sound under a call, which it answers as a register would. -/
theorem ask_answered {q : Request} {o : Outcome σ} (hok : B.Ok s) (hn : B.Holder n)
    (hepoch : ∀ e ∈ q.epoch?, e ≤ u64Max) (hnow : ∀ now ∈ q.now?, 0 ≤ now)
    (h : B.ask s n ttl q = some o) :
    B.Ok o.store ∧ Answered (B.shown s) n (B.millis ttl) q o.grant o.wrote
      (B.shown (if o.wrote then o.store else s)) := by
  cases q with
  | acquire now => exact acquire_answered hok hn (hnow now rfl) h
  | renew epoch now => exact renew_answered hok hn (hepoch epoch rfl) (hnow now rfl) h
  | release epoch => exact release_answered hok (hepoch epoch rfl) h

end Backend

namespace Answered

variable {r r' : LeaseRegister String} {n : String} {millis : ℤ} {q : Request} {g : Option Lease}
  {wrote : Bool}

theorem last_le (h : Answered r n millis q g wrote r') : r.last ≤ r'.last := by
  cases h with
  | denied => exact le_rfl
  | kept => exact le_rfl
  | handed => exact Nat.le_succ _
  | ended => exact le_rfl

end Answered

section Kinds

variable {σ : Type}

namespace Stage

/-- The call an operation is about to make. -/
def Asks (s : Stage σ) (q : Request) : Prop := s = .asking q ∨ ∃ v o, s = .fetched q v o

/-- An epoch an operation goes on with. -/
def Holds (s : Stage σ) (e : ℕ) : Prop :=
  s = .renewing e ∨ (∃ q, s.Asks q ∧ q.epoch? = some e) ∨ ∃ g, s = .granted g ∧ g.epoch = e

@[simp] theorem asks_idle (q : Request) : ¬ (Stage.idle : Stage σ).Asks q := by
  simp [Asks]

@[simp] theorem asks_renewing (e : ℕ) (q : Request) : ¬ (Stage.renewing e : Stage σ).Asks q := by
  simp [Asks]

@[simp] theorem asks_asking (p q : Request) : (Stage.asking p : Stage σ).Asks q ↔ p = q := by
  simp [Asks]

@[simp] theorem asks_fetched (p q : Request) (v : ℕ) (o : Outcome σ) :
    (Stage.fetched p v o).Asks q ↔ p = q := by
  simp [Asks]

@[simp] theorem asks_granted (g : Lease) (q : Request) : ¬ (Stage.granted g : Stage σ).Asks q := by
  simp [Asks]

@[simp] theorem asks_lost (q : Request) : ¬ (Stage.lost : Stage σ).Asks q := by
  simp [Asks]

@[simp] theorem asks_leaving (q : Request) : ¬ (Stage.leaving : Stage σ).Asks q := by
  simp [Asks]

@[simp] theorem holds_idle (e : ℕ) : ¬ (Stage.idle : Stage σ).Holds e := by
  simp [Holds]

@[simp] theorem holds_renewing (d e : ℕ) : (Stage.renewing d : Stage σ).Holds e ↔ d = e := by
  simp [Holds]

@[simp] theorem holds_asking (q : Request) (e : ℕ) :
    (Stage.asking q : Stage σ).Holds e ↔ q.epoch? = some e := by
  simp [Holds]

@[simp] theorem holds_fetched (q : Request) (v : ℕ) (o : Outcome σ) (e : ℕ) :
    (Stage.fetched q v o).Holds e ↔ q.epoch? = some e := by
  simp [Holds]

@[simp] theorem holds_granted (g : Lease) (e : ℕ) :
    (Stage.granted g : Stage σ).Holds e ↔ g.epoch = e := by
  simp [Holds]

@[simp] theorem holds_lost (e : ℕ) : ¬ (Stage.lost : Stage σ).Holds e := by
  simp [Holds]

@[simp] theorem holds_leaving (e : ℕ) : ¬ (Stage.leaving : Stage σ).Holds e := by
  simp [Holds]

end Stage

/-- A part of an operation that involves neither the store's answer nor the local update. -/
inductive Begins (n : String) (x : Node σ) : Event → Task → Stage σ → Prop
  | promote (h : x.stage .control = .idle) :
    Begins n x (.promote n) .control (.asking (.acquire x.clock))
  | demote {d : ℕ} (h : x.stage .control = .idle) (hd : x.state.storedActiveEpoch = some d) :
    Begins n x (.demote n) .control (.asking (.release d))
  | leave (h : x.stage .control = .idle) (hd : x.state.storedActiveEpoch = none) :
    Begins n x (.demote n) .control .leaving
  | renewal {d : ℕ} (h : x.stage .renewal = .idle) (hd : x.state.storedActiveEpoch = some d) :
    Begins n x (.renewal n) .renewal (.renewing d)
  | readClock {d : ℕ} (h : x.stage .renewal = .renewing d) :
    Begins n x (.readClock n) .renewal (.asking (.renew d x.clock))
  | fetch {e : Event} {t : Task} {q : Request} (v : ℕ) (o : Outcome σ) (h : x.stage t = .asking q) :
    Begins n x e t (.fetched q v o)
  | conflict {e : Event} {t : Task} {q : Request} (h : (x.stage t).Asks q) :
    Begins n x e t (.asking q)
  | drop {e : Event} (t : Task) : Begins n x e t .idle

variable (P : LeaseProvider σ) (c : Config)

namespace World

/-- Prepared replacements are what the store would answer now, unless it was written since. -/
def Fresh (w : World σ) : Prop := ∀ n t q v o, (w.nodes n).stage t = .fetched q v o →
  v ≤ w.version ∧ (v = w.version → P.ask w.store n (c.ttl n) q = some o)

/-- The kinds of steps. -/
inductive Stepped (w : World σ) : Event → World σ → Prop
  | tick (n : String) {t : ℕ} (h : (w.nodes n).clock ≤ t) :
    Stepped w (.tick n t) (w.setNode n { w.nodes n with clock := t })
  | begins {e : Event} (n : String) {t : Task} {s : Stage σ} (h : Begins n (w.nodes n) e t s)
      (hfetched : ∀ q v o, s = .fetched q v o →
        v = w.version ∧ P.ask w.store n (c.ttl n) q = some o) :
    Stepped w e (w.setStage n t s)
  | answered {e : Event} (n : String) {t : Task} {q : Request} {o : Outcome σ}
      (hnode : e.node = n) (hwrote : o.wrote = true → e = .store n t ∨ e = .replace n t)
      (h : ((w.nodes n).stage t).Asks q) (hask : P.ask w.store n (c.ttl n) q = some o) :
    Stepped w e (w.answered P n t q o)
  | finish (n : String) {t : Task} {x : Node σ} (h : (w.nodes n).finish t = some x) :
    Stepped w (.finish n t) (w.setNode n x)

variable {P c} {w w' : World σ} {e : Event}

theorem stepped (hfresh : w.Fresh P c) (h : w.step P c e = some w') : w.Stepped P c e w' := by
  cases e with
  | tick n t =>
    simp only [step] at h
    split_ifs at h with hle
    cases h
    exact .tick n hle
  | promote n =>
    simp only [step] at h
    split at h
    · cases h
      exact .begins n (.promote ‹_›) (fun _ _ _ hs => by cases hs)
    · cases h
  | demote n =>
    simp only [step] at h
    split at h
    · split at h
      · cases h
        exact .begins n (.demote ‹_› ‹_›) (fun _ _ _ hs => by cases hs)
      · cases h
        exact .begins n (.leave ‹_› ‹_›) (fun _ _ _ hs => by cases hs)
    · cases h
  | renewal n =>
    simp only [step] at h
    split at h
    · cases h
      exact .begins n (.renewal ‹_› ‹_›) (fun _ _ _ hs => by cases hs)
    · cases h
  | readClock n =>
    simp only [step] at h
    split at h
    · cases h
      exact .begins n (.readClock ‹_›) (fun _ _ _ hs => by cases hs)
    · cases h
  | store n t =>
    simp only [step] at h
    split at h
    · split at h
      · cases h
        exact .answered n rfl (fun _ => .inl rfl) (.inl ‹_›) ‹_›
      · cases h
        exact .begins n (.drop t) (fun _ _ _ hs => by cases hs)
    · cases h
  | fetch n t =>
    simp only [step] at h
    split at h
    · split at h
      · split_ifs at h with hwrote
        · cases h
          refine .begins n (.fetch _ _ ‹_›) ?_
          intro q v o hs
          cases hs
          exact ⟨rfl, ‹_›⟩
        · cases h
          exact .answered n rfl (fun hw => absurd hw hwrote) (.inl ‹_›) ‹_›
      · cases h
        exact .begins n (.drop t) (fun _ _ _ hs => by cases hs)
    · cases h
  | replace n t =>
    simp only [step] at h
    split at h
    · rename_i q v o hstage
      split_ifs at h with hv
      · cases h
        exact .answered n rfl (fun _ => .inr rfl) (.inr ⟨v, o, hstage⟩)
            ((hfresh n t q v o hstage).2 hv)
      · cases h
        exact .begins n (.conflict (.inr ⟨v, o, hstage⟩)) (fun _ _ _ hs => by cases hs)
    · cases h
  | finish n t =>
    obtain ⟨x, hx, rfl⟩ := Option.map_eq_some_iff.mp h
    exact .finish n hx
  | fail n t =>
    simp only [step] at h
    split at h
    · cases h
    · cases h
      exact .begins n (.drop t) (fun _ _ _ hs => by cases hs)

end World

end Kinds

end BlueDB.Ha
