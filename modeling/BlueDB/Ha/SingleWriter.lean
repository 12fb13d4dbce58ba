import BlueDB.Ha.Epochs

/-!
# One active node

While the clocks differ by no more than the safety margins and each node runs one
operation at a time, a node's cached lease is the one in the store, or has run
into its safety margin, or was ended in the store by a demotion that has not made
the node passive yet. Only the last kind can overlap with another active node.
-/

namespace BlueDB.Ha

open LeaseRegister

variable {σ : Type}

/-- The lease of the register is the grant, and ends no earlier. -/
def Backs (r : LeaseRegister String) (g : Lease) : Prop :=
  ∃ k ∈ r.lease, k.Same g ∧ g.expires ≤ k.expires

theorem Backs.holder_eq {r : LeaseRegister String} {g h : Lease} (hg : Backs r g) (hh : Backs r h) :
    g.holder = h.holder := by
  obtain ⟨k, hk, hsame, _⟩ := hg
  obtain ⟨l, hl, hsame', _⟩ := hh
  cases Option.mem_unique hk hl
  exact hsame.1.symm.trans hsame'.1

theorem Answered.holder_of_release {r r' : LeaseRegister String} {n : String} {millis : ℤ}
    {q : Request} {grant : Option Lease} {wrote : Bool} (h : Answered r n millis q grant wrote r')
    (hq : q.isRelease = true) (hwrote : wrote = true) : ∀ k ∈ r.lease, k.holder = n := by
  cases h with
  | denied => cases hwrote
  | kept hnow hk hlive hholder hepoch =>
    cases q with
    | acquire now => cases hq
    | renew epoch now => cases hq
    | release epoch => cases hnow
  | handed hfree => cases hq
  | ended hall hlast => exact fun k hk => (hall k hk).1

theorem backs_settled {g h : Lease} {last : ℕ} {now : ℤ} (hsame : h.Same g)
    (hle : g.expires ≤ h.expires) (hnow : 0 ≤ now) :
    Backs (settled ⟨some h, last⟩) g ∨ g.expires ≤ now := by
  by_cases hpos : 0 < h.expires
  · exact .inl ⟨h, mem_settled.mpr ⟨rfl, hpos⟩, hsame, hle⟩
  · apply Or.inr
    omega

namespace Node

variable {x y : Node σ} {n : String} {t : Task} {s : Stage σ}

theorem mem_cached {g : Lease} : g ∈ x.cached n ↔
    x.state.storedActiveEpoch = some g.epoch ∧ g.holder = n ∧ g.expires = x.state.expires := by
  unfold cached
  constructor
  · intro h
    obtain ⟨e, he, rfl⟩ := Option.map_eq_some_iff.mp h
    exact ⟨he, rfl, rfl⟩
  · rintro ⟨he, rfl, hexp⟩
    apply Option.map_eq_some_iff.mpr
    exact ⟨g.epoch, he, by rw [← hexp]⟩

/-- An active node has a cached lease with more time left than the margin. -/
theorem cached_of_isActive {c : Config} {last : ℕ} (h : x.Sound last n) (hact : x.isActive c n) :
    ∃ g ∈ x.cached n, (x.clock : ℤ) + c.margin n < g.expires := by
  obtain ⟨e, he⟩ := h.filled hact.1
  refine ⟨⟨n, e, x.state.expires⟩, mem_cached.mpr ⟨?_, rfl, rfl⟩, ?_⟩
  · unfold State.storedActiveEpoch
    rw [hact.1]
    exact he
  · have := hact.2
    simp only
    omega

/-- The kinds of local updates: a grant becomes the cached lease, or the node has none. -/
theorem finish_cases (h : x.finish t = some y) :
    (∃ g, x.stage t = .granted g ∧ y.stage = (x.setStage t .idle).stage ∧ y.clock = x.clock ∧
      y.state = .setActive g) ∨
    y.stage = (x.setStage t .idle).stage ∧ y.clock = x.clock ∧ y.state = .passive := by
  unfold finish at h
  split at h
  · split at h <;>
    · cases h
      exact .inl ⟨_, ‹_›, rfl, rfl, rfl⟩
  · cases h
    exact .inr ⟨rfl, rfl, rfl⟩
  · cases h
    exact .inr ⟨rfl, rfl, rfl⟩
  · cases h

/-- What the leases a node has or is about to have are worth. -/
structure Covered (r : LeaseRegister String) (n : String) (millis margin : ℤ) (x : Node σ) :
    Prop where
  oneIdle : x.stage .control = .idle ∨ x.stage .renewal = .idle
  cached : ∀ g ∈ x.cached n,
    x.released ≠ none ∨ Backs r g ∨ g.expires ≤ x.clock + margin
  granted : ∀ t g, x.stage t = .granted g → Backs r g ∨ g.expires ≤ x.clock + margin
  cached_short : ∀ g ∈ x.cached n, g.expires ≤ x.clock + millis
  asked_short : ∀ g ∈ x.cached n, ∀ t q, (x.stage t).Asks q → ∀ now ∈ q.now?,
    g.expires ≤ now + millis
  granted_short : ∀ t g, x.stage t = .granted g → g.expires ≤ x.clock + millis

theorem covered_start (r : LeaseRegister String) (n : String) (millis margin : ℤ) (clock : ℕ) :
    (start clock : Node σ).Covered r n millis margin where
  oneIdle := .inl rfl
  cached := fun _ h => by cases h
  granted := fun _ _ h => by cases h
  cached_short := fun _ h => by cases h
  asked_short := fun _ h => by cases h
  granted_short := fun _ _ h => by cases h

theorem Covered.other_idle {r : LeaseRegister String} {millis margin : ℤ}
    (h : x.Covered r n millis margin) (hs : x.stage t ≠ .idle) : ∀ u ≠ t, x.stage u = .idle := by
  intro u hu
  rcases h.oneIdle with hidle | hidle <;> cases t <;> cases u <;> first
    | exact absurd rfl hu
    | exact absurd hidle hs
    | exact hidle

namespace Covered

variable {r r' : LeaseRegister String} {millis margin : ℤ}

theorem tick (h : x.Covered r n millis margin) {now : ℕ} (hle : x.clock ≤ now) :
    ({ x with clock := now } : Node σ).Covered r n millis margin where
  __ := h
  cached := by
    intro g hg
    rcases h.cached g hg with hrel | hback | hdead
    · exact .inl hrel
    · exact .inr (.inl hback)
    · apply Or.inr
      apply Or.inr
      simp only
      omega
  granted := by
    intro t g hg
    rcases h.granted t g hg with hback | hdead
    · exact .inl hback
    · apply Or.inr
      simp only
      omega
  cached_short := by
    intro g hg
    have := h.cached_short g hg
    simp only
    omega
  granted_short := by
    intro t g hg
    have := h.granted_short t g hg
    simp only
    omega

/-- A stage of the only operation of the node is replaced by one without a grant. -/
theorem setStage (h : x.Covered r n millis margin) (hother : ∀ u ≠ t, x.stage u = .idle)
    (hgranted : ∀ g, s ≠ .granted g)
    (hshort : ∀ g ∈ x.cached n, ∀ q, s.Asks q → ∀ now ∈ q.now?, g.expires ≤ now + millis) :
    (x.setStage t s).Covered r n millis margin where
  __ := h
  oneIdle := by
    cases t with
    | control => exact .inr ((setStage_of_ne (by decide)).trans (hother .renewal (by decide)))
    | renewal => exact .inl ((setStage_of_ne (by decide)).trans (hother .control (by decide)))
  granted := by
    intro u g hg
    by_cases hu : u = t
    · subst hu
      rw [setStage_self] at hg
      exact absurd hg (hgranted g)
    · rw [setStage_of_ne hu, hother u hu] at hg
      cases hg
  asked_short := by
    intro g hg u q hq
    by_cases hu : u = t
    · subst hu
      rw [setStage_self] at hq
      exact hshort g hg q hq
    · rw [setStage_of_ne hu, hother u hu] at hq
      exact absurd hq (Stage.asks_idle q)
  granted_short := by
    intro u g hg
    by_cases hu : u = t
    · subst hu
      rw [setStage_self] at hg
      exact absurd hg (hgranted g)
    · rw [setStage_of_ne hu, hother u hu] at hg
      cases hg

theorem idle (h : x.Covered r n millis margin) (t : Task) :
    (x.setStage t .idle).Covered r n millis margin := by
  have hstage : ∀ u, (x.setStage t .idle).stage u = .idle ∨
      (x.setStage t .idle).stage u = x.stage u := by
    intro u
    by_cases hu : u = t
    · subst hu
      exact .inl setStage_self
    · exact .inr (setStage_of_ne hu)
  refine ⟨?_, h.cached, ?_, h.cached_short, ?_, ?_⟩
  · rcases hstage .control with hi | hi
    · exact .inl hi
    rcases hstage .renewal with hj | hj
    · exact .inr hj
    rw [hi, hj]
    exact h.oneIdle
  · intro u g hg
    rcases hstage u with hi | hi
    · rw [hi] at hg
      cases hg
    · exact h.granted u g (hi ▸ hg)
  · intro g hg u q hq
    rcases hstage u with hi | hi
    · rw [hi] at hq
      exact absurd hq (Stage.asks_idle q)
    · exact h.asked_short g hg u q (hi ▸ hq)
  · intro u g hg
    rcases hstage u with hi | hi
    · rw [hi] at hg
      cases hg
    · exact h.granted_short u g (hi ▸ hg)

theorem begins (h : x.Covered r n millis margin) {e : Event} (hb : Begins n x e t s)
    (hcontrol : e = .promote n ∨ e = .demote n → x.stage .renewal = .idle)
    (hrenewal : e = .renewal n → x.stage .control = .idle) :
    (x.setStage t s).Covered r n millis margin := by
  have honly_control : x.stage .renewal = .idle → ∀ u ≠ Task.control, x.stage u = .idle := by
    intro hi u hu
    cases u with
    | control => exact absurd rfl hu
    | renewal => exact hi
  have honly_renewal : x.stage .control = .idle → ∀ u ≠ Task.renewal, x.stage u = .idle := by
    intro hi u hu
    cases u with
    | control => exact hi
    | renewal => exact absurd rfl hu
  cases hb with
  | promote hidle =>
    apply h.setStage (honly_control (hcontrol (.inl rfl))) (by simp)
    intro g hg q hq now hnow
    cases (Stage.asks_asking _ _).mp hq
    cases hnow
    exact h.cached_short g hg
  | demote hidle hd =>
    apply h.setStage (honly_control (hcontrol (.inr rfl))) (by simp)
    intro g hg q hq now hnow
    cases (Stage.asks_asking _ _).mp hq
    cases hnow
  | leave hidle hd =>
    apply h.setStage (honly_control (hcontrol (.inr rfl))) (by simp)
    intro g hg q hq
    exact absurd hq (Stage.asks_leaving q)
  | renewal hidle hd =>
    apply h.setStage (honly_renewal (hrenewal rfl)) (by simp)
    intro g hg q hq
    exact absurd hq (Stage.asks_renewing _ q)
  | readClock hstage =>
    apply h.setStage (h.other_idle (by rw [hstage]; simp)) (by simp)
    intro g hg q hq now hnow
    cases (Stage.asks_asking _ _).mp hq
    cases hnow
    exact h.cached_short g hg
  | fetch v o hstage =>
    apply h.setStage (h.other_idle (by rw [hstage]; simp)) (by simp)
    intro g hg q hq
    cases (Stage.asks_fetched _ _ _ _).mp hq
    exact h.asked_short g hg t _ (by rw [hstage, Stage.asks_asking])
  | conflict hasks =>
    apply h.setStage (h.other_idle (by intro hi; rw [hi] at hasks; exact Stage.asks_idle _ hasks))
      (by simp)
    intro g hg q hq
    cases (Stage.asks_asking _ _).mp hq
    exact h.asked_short g hg t _ hasks
  | drop t => exact h.idle t

/-- The node's own call leaves its cached lease covered, and its grant too. -/
theorem answered_self {q : Request} {grant : Option Lease} {wrote : Bool}
    (h : x.Covered r n millis margin) (hs : x.Sound r.last n) (hmargin : 0 ≤ margin)
    (hasks : (x.stage t).Asks q) (ha : Answered r n millis q grant wrote r') :
    ({ x.setStage t (q.next grant) with
      released := if q.isRelease && wrote then q.epoch? else x.released }
      : Node σ).Covered r' n millis margin := by
  have hother := h.other_idle (t := t) (by
    intro hi
    rw [hi] at hasks
    exact Stage.asks_idle _ hasks)
  have hnow : ∀ now ∈ q.now?, 0 ≤ now ∧ now ≤ x.clock := by
    intro now hq
    obtain ⟨m, rfl, hm⟩ := hs.times t q hasks now hq
    omega
  have hcached : ∀ g ∈ x.cached n, (if q.isRelease && wrote then q.epoch? else x.released) ≠ none ∨
      Backs r' g ∨ g.expires ≤ x.clock + margin := by
    intro g hg
    rcases h.cached g hg with hrel | ⟨k, hk, hsame, hle⟩ | hdead
    · apply Or.inl
      split_ifs with hended
      · cases q with
        | acquire now => cases hended
        | renew epoch now => cases hended
        | release epoch => exact Option.some_ne_none epoch
      · exact hrel
    · cases ha with
      | denied => exact .inr (.inl ⟨k, hk, hsame, hle⟩)
      | kept hq hk' hlive hholder hepoch =>
        cases Option.mem_unique hk hk'
        have hshort := h.asked_short g hg t q hasks _ hq
        have hnew : g.expires ≤ _ + millis := hshort
        rcases @backs_settled _ ⟨n, k.epoch, _⟩ r.last _
          ⟨hholder.symm.trans hsame.1, hsame.2⟩ hnew (Int.natCast_nonneg x.clock) with hb | hd
        · exact .inr (.inl hb)
        · exact .inr (.inr (by omega))
      | handed hfree =>
        have hdead := hfree k hk
        have := (hnow _ rfl).2
        unfold Grant.Live at hdead
        exact .inr (.inr (by omega))
      | ended hall hlast =>
        rename_i d
        exact .inl (Option.some_ne_none d)
    · exact .inr (.inr hdead)
  have hnewgrant : ∀ g, grant = some g →
      (Backs r' g ∨ g.expires ≤ x.clock + margin) ∧ g.expires ≤ x.clock + millis := by
    rintro g rfl
    cases ha with
    | kept hq hk hlive hholder hepoch =>
      have := (hnow _ hq).2
      constructor
      · rcases @backs_settled _ _ r.last _ (Grant.Same.refl _) le_rfl
          (Int.natCast_nonneg x.clock) with hb | hd
        · exact .inl hb
        · exact .inr (by omega)
      · simp only
        omega
    | handed hfree =>
      have := (hnow _ rfl).2
      constructor
      · rcases @backs_settled _ _ (r.last + 1) _ (Grant.Same.refl _) le_rfl
          (Int.natCast_nonneg x.clock) with hb | hd
        · exact .inl hb
        · exact .inr (by omega)
      · simp only
        omega
  refine ⟨?_, hcached, ?_, h.cached_short, ?_, ?_⟩
  · have hne : Task.renewal ≠ Task.control := by decide
    cases t with
    | control =>
      have hkept : (x.setStage .control (q.next grant)).stage .renewal = .idle :=
        (setStage_of_ne hne).trans (hother .renewal hne)
      exact .inr hkept
    | renewal =>
      have hkept : (x.setStage .renewal (q.next grant)).stage .control = .idle :=
        (setStage_of_ne hne.symm).trans (hother .control hne.symm)
      exact .inl hkept
  · intro u g hg
    by_cases hu : u = t
    · subst hu
      rw [show Node.stage _ u = q.next grant from setStage_self] at hg
      exact (hnewgrant g (Request.next_granted hg).1).1
    · rw [show Node.stage _ u = x.stage u from setStage_of_ne hu, hother u hu] at hg
      cases hg
  · intro g hg u p hp
    by_cases hu : u = t
    · subst hu
      rw [show Node.stage _ u = q.next grant from setStage_self] at hp
      exact absurd hp Request.next_asks
    · rw [show Node.stage _ u = x.stage u from setStage_of_ne hu, hother u hu] at hp
      exact absurd hp (Stage.asks_idle p)
  · intro u g hg
    by_cases hu : u = t
    · subst hu
      rw [show Node.stage _ u = q.next grant from setStage_self] at hg
      exact (hnewgrant g (Request.next_granted hg).1).2
    · rw [show Node.stage _ u = x.stage u from setStage_of_ne hu, hother u hu] at hg
      cases hg

/-- The call of a node whose clock is not far ahead takes the store from no live lease of
another node. -/
theorem backs_answered {m : String} {millis' : ℤ} {q : Request} {grant : Option Lease}
    {wrote : Bool} {now : ℤ} (hm : n ≠ m) (ha : Answered r m millis' q grant wrote r')
    (hnow : ∀ now' ∈ q.now?, now' ≤ now) {g : Lease} (hholder : g.holder = n)
    (hback : Backs r g) : Backs r' g ∨ g.expires ≤ now := by
  obtain ⟨k, hk, hsame, hle⟩ := hback
  have hother : k.holder ≠ m := by
    rw [hsame.1, hholder]
    exact hm
  cases ha with
  | denied => exact .inl ⟨k, hk, hsame, hle⟩
  | kept hq hk' hlive hholder' hepoch =>
    cases Option.mem_unique hk hk'
    exact absurd hholder' hother
  | handed hfree =>
    have hdead := hfree k hk
    have := hnow _ rfl
    unfold Grant.Live at hdead
    exact .inr (by omega)
  | ended hall hlast => exact absurd (hall k hk).1 hother

theorem answered_other {m : String} {millis' : ℤ} {q : Request} {grant : Option Lease}
    {wrote : Bool} (h : x.Covered r n millis margin) (hs : x.Sound r.last n) (hm : n ≠ m)
    (ha : Answered r m millis' q grant wrote r')
    (hnow : ∀ now ∈ q.now?, now ≤ x.clock + margin) : x.Covered r' n millis margin where
  __ := h
  cached := by
    intro g hg
    rcases h.cached g hg with hrel | hback | hdead
    · exact .inl hrel
    · exact .inr (backs_answered hm ha hnow (mem_cached.mp hg).2.1 hback)
    · exact .inr (.inr hdead)
  granted := by
    intro t g hg
    rcases h.granted t g hg with hback | hdead
    · exact backs_answered hm ha hnow (hs.holder t g hg) hback
    · exact .inr hdead

theorem finish (h : x.Covered r n millis margin) (hs : x.Sound r.last n)
    (hy : x.finish t = some y) : y.Covered r n millis margin := by
  have hidle := h.idle t
  rcases finish_cases hy with ⟨g, hg, hstage, hclock, hstate⟩ | ⟨hstage, hclock, hstate⟩
  · have hother := h.other_idle (t := t) (by rw [hg]; simp)
    have hcached : ∀ k ∈ y.cached n, k = g := by
      intro k hk
      obtain ⟨hepoch, hholder, hexp⟩ := mem_cached.mp hk
      rw [hstate] at hepoch hexp
      have hgholder := hs.holder t g hg
      cases k
      cases g
      cases hepoch
      cases hexp
      cases hholder
      cases hgholder
      rfl
    have hall : ∀ u, y.stage u = .idle := by
      intro u
      rw [hstage]
      by_cases hu : u = t
      · subst hu
        exact setStage_self
      · exact (setStage_of_ne hu).trans (hother u hu)
    refine ⟨.inl (hall _), ?_, ?_, ?_, ?_, ?_⟩
    · intro k hk
      cases hcached k hk
      rw [hclock]
      exact .inr (h.granted t g hg)
    · intro u k hk
      rw [hall u] at hk
      cases hk
    · intro k hk
      cases hcached k hk
      rw [hclock]
      exact h.granted_short t g hg
    · intro k _ u q hq
      rw [hall u] at hq
      exact absurd hq (Stage.asks_idle q)
    · intro u k hk
      rw [hall u] at hk
      cases hk
  · have hnone : ∀ k, k ∉ y.cached n := by
      intro k hk
      obtain ⟨hepoch, _⟩ := mem_cached.mp hk
      rw [hstate] at hepoch
      cases hepoch
    refine ⟨?_, fun k hk => absurd hk (hnone k), ?_, fun k hk => absurd hk (hnone k),
      fun k hk => absurd hk (hnone k), ?_⟩
    · rw [hstage]
      exact hidle.oneIdle
    · rw [hstage, hclock]
      exact hidle.granted
    · rw [hstage, hclock]
      exact hidle.granted_short

end Covered

end Node

variable (B : Backend σ) (c : Config)

namespace World

/-- No clock is ahead of another by more than that node's safety margin. -/
def Synced (w : World σ) : Prop :=
  ∀ m n, ((w.nodes m).clock : ℤ) ≤ (w.nodes n).clock + c.margin n

/-- A node begins no operation while it has another one under way. -/
def OneAtATime (w : World σ) : Event → Prop
  | .promote n | .demote n => (w.nodes n).stage .renewal = .idle
  | .renewal n => (w.nodes n).stage .control = .idle
  | _ => True

/-- A node that is active though a demotion has ended its lease in the store. -/
def Lingers (w : World σ) (n : String) : Prop :=
  (w.nodes n).released ≠ none ∧ (w.nodes n).isActive c n

/-- A node becomes active only when no other node lingers. -/
def Alone (w : World σ) : Event → Prop
  | .finish n t => ∀ g, (w.nodes n).stage t = .granted g →
    ((w.nodes n).clock : ℤ) < g.expires - c.margin n → ∀ m ≠ n, ¬ w.Lingers c m
  | _ => True

/-- Every lease of a node is covered, and a node that lingers is the only active one. -/
structure Fenced (w : World σ) : Prop where
  covered : ∀ n, (w.nodes n).Covered (B.shown w.store) n (B.millis (c.ttl n)) (c.margin n)
  alone : ∀ m, w.Lingers c m → ∀ n ≠ m, ¬ (w.nodes n).isActive c n

variable {B c} {w w' : World σ} {e : Event}

theorem fenced_start (clocks : String → ℕ) : (start B.toLeaseProvider clocks).Fenced B c where
  covered := fun n => Node.covered_start _ n _ _ (clocks n)
  alone := fun _ h => absurd rfl h.1

theorem Fenced.backs (h : w.Fenced B c) (hs : w.Sound B c) {n : String}
    (hact : (w.nodes n).isActive c n) (hlinger : ¬ w.Lingers c n) :
    ∃ g, g.holder = n ∧ Backs (B.shown w.store) g := by
  obtain ⟨g, hg, htime⟩ := Node.cached_of_isActive (hs.node n) hact
  refine ⟨g, (Node.mem_cached.mp hg).2.1, ?_⟩
  rcases (h.covered n).cached g hg with hrel | hback | hdead
  · exact absurd ⟨hrel, hact⟩ hlinger
  · exact hback
  · omega

theorem Fenced.single (h : w.Fenced B c) (hs : w.Sound B c) {m n : String}
    (hm : (w.nodes m).isActive c m) (hn : (w.nodes n).isActive c n) : m = n := by
  by_contra hne
  by_cases hlm : w.Lingers c m
  · exact h.alone m hlm n (Ne.symm hne) hn
  by_cases hln : w.Lingers c n
  · exact h.alone n hln m hne hm
  obtain ⟨g, hg, hback⟩ := h.backs hs hm hlm
  obtain ⟨k, hk, hback'⟩ := h.backs hs hn hln
  exact hne (hg ▸ hk ▸ hback.holder_eq hback')

theorem alone_setNode {n : String} {x : Node σ}
    (h : ∀ m, w.Lingers c m → ∀ k ≠ m, ¬ (w.nodes k).isActive c k)
    (hact : x.isActive c n → (w.nodes n).isActive c n)
    (hrel : x.isActive c n → x.released ≠ none → (w.nodes n).released ≠ none) :
    ∀ m, (w.setNode n x).Lingers c m → ∀ k ≠ m, ¬ ((w.setNode n x).nodes k).isActive c k := by
  have hback : ∀ m, ((w.setNode n x).nodes m).isActive c m → (w.nodes m).isActive c m ∧
      (((w.setNode n x).nodes m).released ≠ none → (w.nodes m).released ≠ none) := by
    intro m hm
    by_cases hmn : m = n
    · subst hmn
      rw [nodes_setNode] at hm ⊢
      exact ⟨hact hm, hrel hm⟩
    · rw [nodes_setNode_of_ne hmn] at hm ⊢
      exact ⟨hm, id⟩
  rintro m ⟨hrelm, hactm⟩ k hk hactk
  obtain ⟨hm, hr⟩ := hback m hactm
  exact h m ⟨hr hrelm, hm⟩ k hk (hback k hactk).1

theorem Fenced.stepped (hf : w.Fenced B c) (hs : w.Sound B c) (hsync : w.Synced c)
    (hn : B.Holder e.node) (hone : w.OneAtATime e) (halone : w.Alone c e)
    (h : w.Stepped B.toLeaseProvider c e w') : w'.Fenced B c := by
  have hmargin : ∀ n, 0 ≤ c.margin n := fun n => by
    have := hsync n n
    omega
  cases h with
  | tick n hle =>
    refine ⟨forall_setNode (Q := fun m x => x.Covered _ m _ _) hf.covered
      ((hf.covered n).tick hle), ?_⟩
    apply alone_setNode hf.alone
    · rintro ⟨hrole, htime⟩
      refine ⟨hrole, ?_⟩
      simp only at htime
      omega
    · exact fun _ h => h
  | begins n hb hfetched =>
    refine ⟨forall_setNode (Q := fun m x => x.Covered _ m _ _) hf.covered
      ((hf.covered n).begins hb ?_ ?_), ?_⟩
    · rintro (rfl | rfl)
      · exact hone
      · exact hone
    · rintro rfl
      exact hone
    · exact alone_setNode hf.alone (fun h => h) (fun _ h => h)
  | answered n hnode hwrote hasks hask =>
    subst hnode
    obtain ⟨hok, hans⟩ := hs.ask_answered hn hasks hask
    rename_i t q o
    have hactive : ∀ m, ((w.answered B.toLeaseProvider e.node t q o).nodes m).isActive c m →
        (w.nodes m).isActive c m := by
      intro m hm
      by_cases hmn : m = e.node
      · subst hmn
        rw [nodes_answered] at hm
        exact hm
      · rwa [nodes_answered_of_ne hmn] at hm
    constructor
    · intro m
      by_cases hm : m = e.node
      · subst hm
        rw [nodes_answered]
        exact (hf.covered _).answered_self (hs.node _) (hmargin _) hasks hans
      · rw [nodes_answered_of_ne hm]
        apply (hf.covered m).answered_other (hs.node m) hm hans
        intro now hnow
        obtain ⟨d, rfl, hd⟩ := (hs.node _).times _ _ hasks now hnow
        have := hsync e.node m
        omega
    · rintro m ⟨hrelm, hactm⟩ k hk hactk
      have hm := hactive m hactm
      have hk' := hactive k hactk
      by_cases hold : w.Lingers c m
      · exact hf.alone m hold k hk hk'
      -- The call was the release of `m` itself, whose lease the store still had.
      have hrel : (w.nodes m).released = none := not_not.mp fun hr => hold ⟨hr, hm⟩
      by_cases hmn : m = e.node
      · subst hmn
        rw [nodes_answered] at hrelm
        have hended : q.isRelease = true ∧ o.wrote = true := by
          by_contra hnot
          rw [← Bool.and_eq_true] at hnot
          exact hrelm ((if_neg hnot).trans hrel)
        by_cases hlk : w.Lingers c k
        · exact hf.alone k hlk e.node (Ne.symm hk) hm
        · obtain ⟨g, hg, l, hl, hsame, _⟩ := hf.backs hs hk' hlk
          have hholder := hans.holder_of_release hended.1 hended.2 l hl
          exact hk (hg ▸ hsame.1 ▸ hholder)
      · rw [nodes_answered_of_ne hmn] at hrelm
        exact hrelm hrel
  | finish n hx =>
    rename_i t x
    refine ⟨forall_setNode (Q := fun m x => x.Covered _ m _ _) hf.covered
      ((hf.covered n).finish (hs.node n) hx), ?_⟩
    rcases Node.finish_cases hx with ⟨g, hg, _, hclock, hstate⟩ | ⟨_, _, hstate⟩
    · have htime : x.isActive c n → ((w.nodes n).clock : ℤ) < g.expires - c.margin n := by
        rintro ⟨_, ht⟩
        rw [hclock, hstate] at ht
        exact ht
      rintro m ⟨hrelm, hactm⟩ k hk hactk
      by_cases hmn : m = n
      · subst hmn
        rw [nodes_setNode] at hactm
        rw [nodes_setNode_of_ne hk] at hactk
        have hlk := halone g hg (htime hactm) k hk
        obtain ⟨l, hl, hback⟩ := hf.backs hs hactk hlk
        rcases (hf.covered m).granted t g hg with hback' | hdead
        · exact hk (hl ▸ hback.holder_eq hback' ▸ (hs.node m).holder t g hg)
        · have := htime hactm
          omega
      · rw [nodes_setNode_of_ne hmn] at hrelm hactm
        by_cases hkn : k = n
        · subst hkn
          rw [nodes_setNode] at hactk
          exact halone g hg (htime hactk) m hmn ⟨hrelm, hactm⟩
        · rw [nodes_setNode_of_ne hkn] at hactk
          exact hf.alone m ⟨hrelm, hactm⟩ k hk hactk
    · have hpassive : ¬ x.isActive c n := by
        rintro ⟨hrole, _⟩
        rw [hstate] at hrole
        cases hrole
      exact alone_setNode hf.alone (fun h => absurd h hpassive) (fun h => absurd h hpassive)

/-- What the claims about clocks and orders ask of a step. -/
def InTurn (B : Backend σ) (c : Config) (w : World σ) (e : Event) : Prop :=
  B.Holder e.node ∧ w.Synced c ∧ w.OneAtATime e

theorem reached_fenced (h : w.Reached B.toLeaseProvider c fun w e => w.InTurn B c e ∧ w.Alone c e) :
    w.Sound B c ∧ w.Fenced B c := by
  obtain ⟨clocks, hrun⟩ := h
  induction hrun with
  | refl => exact ⟨sound_start clocks, fenced_start clocks⟩
  | tail _ hnext ih =>
    obtain ⟨e, ⟨⟨hn, hsync, hone⟩, halone⟩, hstep⟩ := hnext
    have hstepped := stepped ih.1.fresh hstep
    exact ⟨ih.1.stepped hn hstepped, ih.2.stepped ih.1 hsync hn hone halone hstepped⟩

/-- Over any backend, no two nodes are active at once in a run in which no node becomes active
while another lingers; and in every run the grants that changed hands have ascending epochs, so
that grants under one epoch have one holder. -/
theorem active_unique (B : Backend σ) (c : Config) :
    (∀ w : World σ,
      w.Reached B.toLeaseProvider c (fun w e => w.InTurn B c e ∧ w.Alone c e) →
      ∀ m n, (w.nodes m).isActive c m → (w.nodes n).isActive c n → m = n) ∧
    ∀ w : World σ, w.Reached B.toLeaseProvider c (fun _ e => B.Holder e.node) →
      (w.handOffs.Pairwise fun later earlier => earlier.epoch < later.epoch) ∧
      ∀ g ∈ w.grants, ∀ h ∈ w.grants, g.epoch = h.epoch → g.holder = h.holder := by
  constructor
  · intro w h m n hm hn
    obtain ⟨hs, hf⟩ := reached_fenced h
    exact hf.single hs hm hn
  · intro w h
    obtain ⟨_, ht⟩ := reached_sound (fun _ _ hn => hn) h
    exact ⟨ht.ascending, ht.same_epoch⟩

instance (x : Stage σ) : Decidable (x = .idle) :=
  match x with
  | .idle => isTrue rfl
  | .renewing _ | .asking _ | .fetched _ _ _ | .granted _ | .lost | .leaving => isFalse nofun

instance (w : World σ) (e : Event) : Decidable (w.OneAtATime e) :=
  match e with
  | .promote n | .demote n => inferInstanceAs (Decidable ((w.nodes n).stage .renewal = .idle))
  | .renewal n => inferInstanceAs (Decidable ((w.nodes n).stage .control = .idle))
  | .tick _ _ | .readClock _ | .store _ _ | .fetch _ _ | .replace _ _ | .finish _ _
  | .fail _ _ => isTrue trivial

instance (w : World σ) (n : String) : Decidable (w.Lingers c n) :=
  inferInstanceAs (Decidable ((w.nodes n).released ≠ none ∧ (w.nodes n).isActive c n))

def pair : List String := ["a", "b"]

/-- `InTurn` for two nodes, with no time passed. -/
def PairInTurn (w : World σ) (e : Event) : Prop :=
  e.node ∈ pair ∧ (∀ m ∈ pair, (w.nodes m).clock = 0) ∧ w.OneAtATime e

/-- `Alone` for two nodes. -/
def PairAlone (c : Config) (w : World σ) (e : Event) : Prop :=
  ∀ m ∈ pair, m ≠ e.node → ¬ w.Lingers c m

instance (w : World σ) (e : Event) : Decidable (w.PairInTurn e) :=
  inferInstanceAs (Decidable (_ ∧ _))

instance (w : World σ) (e : Event) : Decidable (w.PairAlone c e) :=
  inferInstanceAs (Decidable (∀ m ∈ pair, _))

/-- The other nodes are as they started. -/
def OthersIdle (w : World σ) : Prop := ∀ m ∉ pair, w.nodes m = .start 0

theorem step_other {P : LeaseProvider σ} (h : w.step P c e = some w') {m : String}
    (hm : m ≠ e.node) : w'.nodes m = w.nodes m := by
  have hset : ∀ x, (w.setNode e.node x).nodes m = w.nodes m := nodes_setNode_of_ne hm
  have hans : ∀ t q o, (w.answered P e.node t q o).nodes m = w.nodes m := nodes_answered_of_ne hm
  cases e <;> simp only [step, Event.node] at h hset hans <;> repeat' split at h
  all_goals first
    | (cases h; first | exact hset _ | exact hans _ _ _)
    | cases h
    | (obtain ⟨x, _, rfl⟩ := Option.map_eq_some_iff.mp h; exact hset x)

theorem othersIdle_start (P : LeaseProvider σ) : (start P fun _ => 0).OthersIdle :=
  fun _ _ => rfl

theorem OthersIdle.step (h : w.OthersIdle) {P : LeaseProvider σ} (he : e.node ∈ pair)
    (hstep : w.step P c e = some w') : w'.OthersIdle := by
  intro m hm
  have hne : m ≠ e.node := fun heq => hm (heq ▸ he)
  rw [step_other hstep hne]
  exact h m hm

theorem OthersIdle.synced (h : w.OthersIdle) (hpair : ∀ m ∈ pair, (w.nodes m).clock = 0)
    (hmargin : ∀ n, 0 ≤ c.margin n) : w.Synced c := by
  have hclock : ∀ m, (w.nodes m).clock = 0 := by
    intro m
    by_cases hm : m ∈ pair
    · exact hpair m hm
    · rw [h m hm]
      rfl
  intro m n
  rw [hclock m, hclock n, Nat.cast_zero, zero_add]
  exact hmargin n

theorem OthersIdle.alone (h : w.OthersIdle) (hpair : w.PairAlone c e) : w.Alone c e := by
  cases e with
  | finish n t =>
    intro g _ _ m hm hlinger
    by_cases hmem : m ∈ pair
    · exact hpair m hmem hm hlinger
    · apply hlinger.1
      rw [h m hmem]
      rfl
  | _ => trivial

/-- Two nodes with leases of ten seconds and a margin of one. -/
def tenSeconds : Config := ⟨fun _ => .ofSecs 10, fun _ => .ofSecs 1⟩

theorem tenSeconds_margin (n : String) : 0 ≤ tenSeconds.margin n := by
  change 0 ≤ asI64 (Duration.ofSecs 1).asMillis
  decide

/-- The world that the events lead to from the beginning of time. -/
abbrev played (P : LeaseProvider σ) (events : List Event) : Option (World σ) :=
  play (step P tenSeconds) (start P fun _ => 0) events

abbrev Allows (P : LeaseProvider σ) (allowed : World σ → Event → Prop) (events : List Event) :
    Prop :=
  Plays (step P tenSeconds) allowed (start P fun _ => 0) events

/-- A node is promoted, renews its lease and is demoted, and another one is promoted. -/
def handOff : List Event :=
  [.promote "a", .store "a" .control, .finish "a" .control, .renewal "a", .readClock "a",
    .store "a" .renewal, .finish "a" .renewal, .demote "a", .store "a" .control,
    .finish "a" .control, .promote "b", .store "b" .control, .finish "b" .control]

theorem active_unique_handOff : ∃ w : World (Option Postgres.LeaseRow),
    (w.nodes "b").isActive tenSeconds "b" ∧
    (∀ m n, (w.nodes m).isActive tenSeconds m → (w.nodes n).isActive tenSeconds n → m = n) ∧
    w.handOffs.map Grant.epoch = [2, 1] ∧
    w.handOffs.Pairwise fun later earlier => earlier.epoch < later.epoch := by
  obtain ⟨w, hplay, hactive, hepochs⟩ : ∃ w, played Postgres.provider handOff = some w ∧
      (w.nodes "b").isActive tenSeconds "b" ∧ w.handOffs.map Grant.epoch = [2, 1] := by
    exact ⟨_, rfl, by decide +kernel, rfl⟩
  have hplays : Allows Postgres.provider
      (fun w e => w.PairInTurn e ∧ w.PairAlone tenSeconds e) handOff := by
    decide +kernel
  have hturns : Allows Postgres.provider
      (fun w e => w.InTurn Postgres.backend tenSeconds e ∧ w.Alone tenSeconds e) handOff :=
    hplays.imp (fun hI he hstep => hI.step he.1.1 hstep)
      (fun hI he => ⟨⟨trivial, hI.synced he.1.2.1 tenSeconds_margin, he.1.2.2⟩, hI.alone he.2⟩)
      (othersIdle_start Postgres.provider)
  exact ⟨w, hactive, (active_unique Postgres.backend tenSeconds).1 w ⟨_, hturns.run hplay⟩,
    hepochs, ((active_unique Postgres.backend tenSeconds).2 w
      ⟨_, (plays_of_allowed fun _ _ => trivial).run hplay⟩).1⟩

/-- A demotion that has ended the lease in the store but is not over, and a promotion. -/
def overtaking : List Event :=
  [.promote "a", .store "a" .control, .finish "a" .control, .demote "a", .store "a" .control,
    .promote "b", .store "b" .control, .finish "b" .control]

theorem active_not_unique : ∃ w : World Local.Inner,
    w.Reached Local.provider tenSeconds (fun w e => w.InTurn Local.backend tenSeconds e) ∧
    w.Synced tenSeconds ∧
    (w.nodes "a").isActive tenSeconds "a" ∧ (w.nodes "b").isActive tenSeconds "b" := by
  obtain ⟨w, hplay, hclock, hactive⟩ : ∃ w, played Local.provider overtaking = some w ∧
      (∀ m ∈ pair, (w.nodes m).clock = 0) ∧
      (w.nodes "a").isActive tenSeconds "a" ∧ (w.nodes "b").isActive tenSeconds "b" := by
    exact ⟨_, rfl, by decide +kernel⟩
  have hplays : Allows Local.provider PairInTurn overtaking := by decide +kernel
  have hidle : w.OthersIdle := by
    have hrun := hplays.run hplay
    clear hplay hclock hactive
    induction hrun with
    | refl => exact othersIdle_start Local.provider
    | tail _ hnext ih =>
      obtain ⟨e, he, hstep⟩ := hnext
      exact ih.step he.1 hstep
  have hturns : Allows Local.provider (fun w e => w.InTurn Local.backend tenSeconds e) overtaking :=
    hplays.imp (fun hI he hstep => hI.step he.1 hstep)
      (fun hI he => ⟨trivial, hI.synced he.2.1 tenSeconds_margin, he.2.2⟩)
      (othersIdle_start Local.provider)
  exact ⟨w, ⟨_, hturns.run hplay⟩, hidle.synced hclock tenSeconds_margin, hactive⟩

end World

end BlueDB.Ha
