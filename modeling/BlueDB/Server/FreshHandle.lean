import BlueDB.Server.Promotion

/-!
# The handle of an active writer

A node that answers as the writer serves from the handle it opened under its
current epoch, when a new epoch never begins while an old handle counts as bound,
no writer handle is opened under an epoch that another opening has left behind,
and no reader is put into the slot of a bound writer.
-/

namespace BlueDB.Server

open BlueDB.Ha LeaseRegister

namespace AppState

variable (site : Site)

/-- The lease that is live belongs to another node, or is the one the node is active under. -/
def Rejoins (s : AppState) : Prop :=
  ∃ g ∈ s.lease.current s.now, g.holder = site.nodeId →
    s.writer.storedActiveEpoch = some g.epoch

/-- No handle was opened under a later epoch. -/
def Foremost (s : AppState) (epoch : ℕ) : Prop := ∀ db ∈ s.opens, db.epoch ≤ epoch

/-- What is asked of a step. -/
def Orderly (s : AppState) : Event → Prop
  | .promotion _ =>
    match s.promotion with
    | some .entered => s.writerBound = true → s.Rejoins site
    | some (.acquired epoch) => s.Foremost epoch
    | _ => True
  | .otherOpens epoch => s.Foremost epoch
  | .job i _ => s.jobs i = .building →
    s.writerBound = false ∧ ∀ epoch db, s.promotion ≠ some (.installed epoch db)
  | _ => True

instance (s : AppState) : Decidable (s.Rejoins site) :=
  inferInstanceAs (Decidable (∃ g ∈ s.lease.current s.now, _ → _))

instance (s : AppState) (epoch : ℕ) : Decidable (s.Foremost epoch) :=
  inferInstanceAs (Decidable (∀ db ∈ s.opens, _))

instance decidableOrderly (s : AppState) : DecidablePred (s.Orderly site) := by
  have hinstalled : Decidable (∀ epoch db, s.promotion ≠ some (.installed epoch db)) :=
    match s.promotion with
    | some (.installed epoch db) => isFalse fun h => h epoch db rfl
    | none | some .entered | some (.acquired _) | some .abandoned | some (.opened _ _)
    | some (.checked _ _) | some .bound => isTrue nofun
  intro e
  unfold Orderly
  split
  · split <;> infer_instance
  all_goals infer_instance

/-- A writer handle is the node's own, of its current epoch. -/
def Serves (s : AppState) (epoch : ℕ) : Prop :=
  ∃ db, s.db = some (.writer db) ∧ db.epoch = epoch

end AppState

namespace Promotion

def epoch? : Promotion → Option ℕ
  | .acquired epoch | .opened epoch _ | .checked epoch _ | .installed epoch _ => some epoch
  | _ => none

def handle? : Promotion → Option Handle
  | .opened _ db | .checked _ db | .installed _ db => some db
  | _ => none

end Promotion

namespace AppState

structure Inv (s : AppState) : Prop where
  numbered : s.lease.Numbered
  filled : s.writer.role = .active → ∃ e, s.writer.epoch = some e
  pending_le : ∀ d ∈ s.pending, d ≤ s.lease.last
  opens_after : ∀ db ∈ s.opens, db.epoch ≤ db.opened
  opens_lt : ∀ db ∈ s.opens, db.seq < s.opens.length
  opens_ordered : s.opens.Pairwise fun later earlier =>
    earlier.seq < later.seq ∧ earlier.epoch ≤ later.epoch
  bound_opened : ∀ db, s.db = some (.writer db) → db ∈ s.opens
  serves : s.writerBound = true → ∀ e, s.writer.storedActiveEpoch = some e → s.Serves e
  current : ∀ p ∈ s.promotion, ∀ d ∈ p.epoch?, d ≤ s.lease.last ∧
    ∀ e, s.writer.storedActiveEpoch = some e → e = d
  handle : ∀ p ∈ s.promotion, ∀ db ∈ p.handle?, db ∈ s.opens ∧ p.epoch? = some db.epoch
  installed : ∀ epoch db, s.promotion = some (.installed epoch db) → s.db = some (.writer db)

variable {site} {s s' : AppState}

theorem inv_start : start.Inv where
  numbered := numbered_fresh
  filled := fun h => by cases h
  pending_le := fun _ h => by cases h
  opens_after := fun _ h => by cases h
  opens_lt := fun _ h => by cases h
  opens_ordered := .nil
  bound_opened := fun _ h => by cases h
  serves := fun h => by cases h
  current := fun _ h => by cases h
  handle := fun _ h => by cases h
  installed := fun _ _ h => by cases h

namespace Inv

theorem setJob (h : s.Inv) (i : ℕ) (j : Job) : (s.setJob i j).Inv :=
  { h with }

theorem setPromotion (h : s.Inv) {p : Option Promotion} (hp : ∀ q ∈ p, q.epoch? = none)
    (hdb : ∀ q ∈ p, q.handle? = none) : ({ s with promotion := p } : AppState).Inv where
  __ := h
  current := by
    intro q hq d hd
    rw [hp q hq] at hd
    cases hd
  handle := by
    intro q hq db hd
    rw [hdb q hq] at hd
    cases hd
  installed := by
    rintro epoch db rfl
    cases hp _ rfl

theorem promotionEnds (h : s.Inv) (ok : Bool) : (s.promotionEnds ok).Inv := by
  unfold AppState.promotionEnds
  split
  · exact h.setPromotion (fun _ hq => by cases hq) (fun _ hq => by cases hq)
  · rename_i i _
    have hset := h.setJob i (if ok then .idle else .ifUnbound)
    have hend := hset.setPromotion (p := none) (fun _ hq => by cases hq) (fun _ hq => by cases hq)
    exact { hend with }

/-- The lease store changes, and with it no more than that the node becomes passive. -/
theorem setLease (h : s.Inv) {lease : LeaseRegister String} (hnum : lease.Numbered)
    (hlast : s.lease.last ≤ lease.last) : ({ s with lease := lease } : AppState).Inv where
  __ := h
  numbered := hnum
  pending_le := fun d hd => (h.pending_le d hd).trans hlast
  current := fun p hp d hd => ⟨(h.current p hp d hd).1.trans hlast, (h.current p hp d hd).2⟩

theorem setPassive (h : s.Inv) : ({ s with writer := .passive } : AppState).Inv where
  __ := h
  filled := fun hr => by cases hr
  serves := fun _ e he => by cases he
  current := fun p hp d hd => ⟨(h.current p hp d hd).1, fun e he => by cases he⟩

theorem setActive (h : s.Inv) {lease : Lease} (he : s.writer.storedActiveEpoch = some lease.epoch) :
    ({ s with writer := .setActive lease } : AppState).Inv where
  __ := h
  filled := fun _ => ⟨lease.epoch, rfl⟩
  serves := by
    rintro hbound e ⟨⟩
    exact h.serves hbound _ he
  current := by
    intro p hp d hd
    refine ⟨(h.current p hp d hd).1, ?_⟩
    rintro e ⟨⟩
    exact (h.current p hp d hd).2 _ he

theorem renewOnce (h : s.Inv) (o : Outcome) : (s.renewOnce site o).1.Inv := by
  unfold AppState.renewOnce
  split
  · exact h
  · rename_i epoch he
    have hlease : ({ s with lease := (s.lease.renew site.nodeId epoch (s.now + site.ttl) s.now).2 }
        : AppState).Inv := by
      apply h.setLease h.numbered.renew
      rcases renew_cases s.lease site.nodeId epoch (s.now + site.ttl) s.now with
        ⟨_, heq⟩ | ⟨_, heq⟩ <;> rw [heq]
    dsimp only
    split
    · rename_i lease hgrant
      rcases renew_cases s.lease site.nodeId epoch (s.now + site.ttl) s.now with
        ⟨_, heq⟩ | ⟨_, heq⟩
      · rw [heq] at hgrant
        cases hgrant
      · have hepoch : lease.epoch = epoch := by
          rw [heq] at hgrant
          cases hgrant
          rfl
        exact hlease.setActive (by rw [hepoch]; exact he)
    · exact hlease.setPassive
    · exact h
    · exact hlease

theorem releaseLease (h : s.Inv) (o : Outcome) : (s.releaseLease site o).1.Inv := by
  unfold AppState.releaseLease
  split
  · exact h.setPassive
  · have hlease : ∀ epoch, ({ s with lease := s.lease.release site.nodeId epoch } : AppState).Inv :=
      fun epoch => h.setLease h.numbered.release release_last.ge
    cases o with
    | ok => exact (hlease _).setPassive
    | failed => exact h
    | lost => exact hlease _

theorem openWriter (h : s.Inv) {epoch : ℕ} (hle : epoch ≤ s.lease.last) (hfore : s.Foremost epoch) :
    (s.openWriter epoch).2.Inv ∧ (s.openWriter epoch).1 ∈ (s.openWriter epoch).2.opens ∧
      (s.openWriter epoch).1.epoch = epoch := by
  refine ⟨{ h with
    opens_after := ?_, opens_lt := ?_, opens_ordered := ?_, bound_opened := ?_, handle := ?_ },
    List.mem_cons_self, rfl⟩
  · rintro db (_ | ⟨_, hdb⟩)
    · exact hle
    · exact h.opens_after db hdb
  · rintro db (_ | ⟨_, hdb⟩)
    · exact Nat.lt_succ_self _
    · exact (h.opens_lt db hdb).trans (Nat.lt_succ_self _)
  · exact List.pairwise_cons.mpr ⟨fun db hdb => ⟨h.opens_lt db hdb, hfore db hdb⟩, h.opens_ordered⟩
  · exact fun db hdb => List.mem_cons_of_mem _ (h.bound_opened db hdb)
  · exact fun p hp db hdb => ⟨List.mem_cons_of_mem _ (h.handle p hp db hdb).1,
      (h.handle p hp db hdb).2⟩

/-- An acquisition that succeeds leaves the node active under the epoch of its lease. -/
theorem acquireLease (h : s.Inv) (hentered : s.promotion = some .entered)
    (hrejoin : s.writerBound = true → s.Rejoins site) (o : Outcome) :
    (s.acquireLease site o).1.Inv ∧ ∀ lease, (s.acquireLease site o).2 = some lease →
      ({ (s.acquireLease site o).1 with promotion := some (.acquired lease.epoch) }
        : AppState).Inv := by
  have hlast : s.lease.last ≤
      (s.lease.acquire site.nodeId (s.now + site.ttl) s.now).2.last := by
    rcases acquire_cases s.lease site.nodeId (s.now + site.ttl) s.now with
      ⟨_, _, _, _, heq⟩ | ⟨_, _, _, _, heq⟩ | ⟨_, heq⟩
    · rw [heq]
    · rw [heq]
      exact le_max_left _ _
    · rw [heq]
      exact Nat.le_succ _
  have hlease : ({ s with lease := (s.lease.acquire site.nodeId (s.now + site.ttl) s.now).2 }
      : AppState).Inv := h.setLease h.numbered.acquire hlast
  have hnone : ∀ p ∈ s.promotion, p.epoch? = none ∧ p.handle? = none := by
    intro p hp
    rw [hentered] at hp
    cases hp
    exact ⟨rfl, rfl⟩
  have hactive : ∀ lease, (s.lease.acquire site.nodeId (s.now + site.ttl) s.now).1 = some lease →
      lease.epoch ≤ (s.lease.acquire site.nodeId (s.now + site.ttl) s.now).2.last ∧
      (s.writerBound = true → s.writer.storedActiveEpoch = some lease.epoch) := by
    intro lease hgrant
    rcases acquire_cases s.lease site.nodeId (s.now + site.ttl) s.now with
      ⟨_, _, _, _, heq⟩ | ⟨g, hg, hlive, hholder, heq⟩ | ⟨hfree, heq⟩
    · rw [heq] at hgrant
      cases hgrant
    · rw [heq] at hgrant ⊢
      cases hgrant
      refine ⟨le_max_right _ _, ?_⟩
      intro hbound
      obtain ⟨k, hk, hsame⟩ := hrejoin hbound
      cases Option.mem_unique hg (mem_current.mp hk).1
      exact hsame hholder
    · rw [heq] at hgrant ⊢
      cases hgrant
      refine ⟨le_rfl, ?_⟩
      intro hbound
      obtain ⟨k, hk, _⟩ := hrejoin hbound
      exact absurd (mem_current.mp hk).2 (hfree k (mem_current.mp hk).1)
  have hgranted : ∀ lease, (s.lease.acquire site.nodeId (s.now + site.ttl) s.now).1 = some lease →
      ∀ p : Option Promotion, (p = s.promotion ∨ p = some (.acquired lease.epoch)) →
      ({ s with
          lease := (s.lease.acquire site.nodeId (s.now + site.ttl) s.now).2
          writer := .setActive lease
          promotion := p } : AppState).Inv := by
    intro lease hgrant p hp
    obtain ⟨hle, hsame⟩ := hactive lease hgrant
    refine ⟨hlease.numbered, fun _ => ⟨lease.epoch, rfl⟩, hlease.pending_le, h.opens_after,
      h.opens_lt, h.opens_ordered, h.bound_opened, ?_, ?_, ?_, ?_⟩
    · rintro hbound e ⟨⟩
      exact h.serves hbound _ (hsame hbound)
    · intro q hq d hd
      rcases hp with rfl | rfl
      · rw [(hnone q hq).1] at hd
        cases hd
      · cases hq
        cases hd
        exact ⟨hle, fun e he => (Option.some.inj he).symm⟩
    · intro q hq db hd
      rcases hp with rfl | rfl
      · rw [(hnone q hq).2] at hd
        cases hd
      · cases hq
        cases hd
    · intro epoch db hq
      rcases hp with rfl | rfl
      · exact absurd (hnone _ hq).1 (by simp [Promotion.epoch?])
      · cases hq
  unfold AppState.acquireLease
  dsimp only
  split
  · rename_i lease hgrant
    refine ⟨hgranted lease hgrant s.promotion (.inl rfl), ?_⟩
    rintro l ⟨⟩
    exact hgranted lease hgrant _ (.inr rfl)
  · exact ⟨hlease, fun l hl => by cases hl⟩
  · exact ⟨h, fun l hl => by cases hl⟩
  · exact ⟨hlease, fun l hl => by cases hl⟩

theorem promotionStep (h : s.Inv) {o : Outcome} (horder : s.Orderly site (.promotion o))
    (hstep : s.promotionStep site o = some s') : s'.Inv := by
  unfold AppState.promotionStep at hstep
  split at hstep
  · cases hstep
  · rename_i hentered
    rw [Orderly, hentered] at horder
    obtain ⟨hstate, hgrant⟩ := h.acquireLease hentered horder o
    split at hstep
    · rename_i s₁ lease heq
      cases hstep
      rw [heq] at hgrant
      exact hgrant lease rfl
    · rename_i s₁ heq
      cases hstep
      rw [heq] at hstate
      exact hstate.promotionEnds false
  · rename_i epoch hacquired
    rw [Orderly, hacquired] at horder
    obtain ⟨hle, hsame⟩ := h.current _ hacquired epoch rfl
    obtain ⟨hopen, hmem, hepoch⟩ := h.openWriter hle horder
    cases o with
    | ok =>
      cases hstep
      refine { hopen with current := ?_, handle := ?_, installed := ?_ }
      · rintro p ⟨⟩ d ⟨⟩
        exact ⟨hle, hsame⟩
      · rintro p ⟨⟩ db ⟨⟩
        exact ⟨hmem, congrArg some hepoch.symm⟩
      · intro epoch' db hp
        cases hp
    | failed =>
      cases hstep
      exact h.setPromotion (fun _ hq => by cases hq; rfl) (fun _ hq => by cases hq; rfl)
    | lost =>
      cases hstep
      exact hopen.setPromotion (fun _ hq => by cases hq; rfl) (fun _ hq => by cases hq; rfl)
  · cases hstep
    exact (h.releaseLease o).promotionEnds false
  · rename_i epoch db hopened
    obtain ⟨hle, hsame⟩ := h.current _ hopened epoch rfl
    obtain ⟨hmem, hepoch⟩ := h.handle _ hopened db rfl
    split_ifs at hstep
    · cases hstep
      refine { h with current := ?_, handle := ?_, installed := ?_ }
      · rintro p ⟨⟩ d ⟨⟩
        exact ⟨hle, hsame⟩
      · rintro p ⟨⟩ db' ⟨⟩
        exact ⟨hmem, hepoch⟩
      · intro epoch' db' hp
        cases hp
    · cases hstep
      exact h.promotionEnds false
  · rename_i epoch db hchecked
    obtain ⟨hle, hsame⟩ := h.current _ hchecked epoch rfl
    obtain ⟨hmem, hepoch⟩ := h.handle _ hchecked db rfl
    cases hepoch
    cases hstep
    refine { h with
      bound_opened := ?_, serves := ?_, current := ?_, handle := ?_, installed := ?_ }
    · rintro db' ⟨⟩
      exact hmem
    · exact fun _ e he => ⟨db, rfl, (hsame e he).symm⟩
    · rintro p ⟨⟩ d ⟨⟩
      exact ⟨hle, hsame⟩
    · rintro p ⟨⟩ db' ⟨⟩
      exact ⟨hmem, rfl⟩
    · rintro epoch' db' ⟨⟩
      rfl
  · rename_i epoch db hinstalled
    obtain ⟨hle, hsame⟩ := h.current _ hinstalled epoch rfl
    obtain ⟨hmem, hepoch⟩ := h.handle _ hinstalled db rfl
    cases hepoch
    cases hstep
    have hend := h.setPromotion (p := some .bound) (fun _ hq => by cases hq; rfl)
      (fun _ hq => by cases hq; rfl)
    refine { hend with serves := ?_ }
    exact fun _ e he => ⟨db, h.installed _ db hinstalled, (hsame e he).symm⟩
  · cases hstep
    exact h.promotionEnds _

/-- The slot gets a reader while no writer counts as bound or is about to. -/
theorem setReader (h : s.Inv) (hbound : s.writerBound = false)
    (hnot : ∀ epoch db, s.promotion ≠ some (.installed epoch db)) {db : Option Database}
    (hdb : db = some .reader ∨ db = none) : ({ s with db := db } : AppState).Inv where
  __ := h
  bound_opened := by
    rcases hdb with rfl | rfl <;>
    · intro db' hd
      cases hd
  serves := fun hb => absurd hb (by rw [hbound]; decide)
  installed := fun epoch db' hp => absurd hp (hnot epoch db')

theorem jobStep (h : s.Inv) {i : ℕ} {o : Outcome} (horder : s.Orderly site (.job i o))
    (hstep : s.jobStep site i o = some s') : s'.Inv := by
  unfold AppState.jobStep at hstep
  split at hstep
  · cases hstep
  · cases hstep
    exact h.setJob i _
  · have hrel := @AppState.Inv.releaseLease site _ h o
    split at hstep <;>
    · rename_i heq
      cases hstep
      rw [heq] at hrel
      exact hrel.setJob i _
  · cases hstep
    exact h.setJob i _
  · cases hstep
    have hset := h.setJob i .building
    exact { hset with serves := fun hb => by cases hb }
  · rename_i hbuilding
    cases hstep
    obtain ⟨hbound, hnot⟩ := horder hbuilding
    apply (h.setJob i .idle).setReader hbound hnot
    split_ifs
    · exact .inl rfl
    · exact .inr rfl
  · split_ifs at hstep
    · cases hstep
      exact h.setJob i _
    · cases hstep
      have hset := (h.setJob i .tickPromoting).setPromotion (p := some .entered)
        (fun _ hq => by cases hq; rfl) (fun _ hq => by cases hq; rfl)
      exact { hset with }
    · cases hstep
      exact h.setJob i _
  · cases hstep
    exact h.setJob i _
  · cases hstep
    exact h.setJob i _
  · cases hstep
    exact (h.renewOnce o).setJob i _
  · cases hstep
    exact (h.releaseLease o).setJob i _
  · have hrenew := @AppState.Inv.renewOnce site _ h o
    split at hstep <;>
    · rename_i heq
      cases hstep
      rw [heq] at hrenew
      exact hrenew.setJob i _
  · cases hstep
  · cases hstep
    exact h.setJob i _

theorem step {e : Event} (h : s.Inv) (horder : s.Orderly site e) (hstep : s.step site e = some s') :
    s'.Inv := by
  cases e with
  | tick t =>
    simp only [AppState.step] at hstep
    split_ifs at hstep
    cases hstep
    exact { h with }
  | promote =>
    simp only [AppState.step] at hstep
    split_ifs at hstep
    cases hstep
    exact h.setPromotion (fun _ hq => by cases hq; rfl) (fun _ hq => by cases hq; rfl)
  | demote i | haTick i | attachReader i =>
    simp only [AppState.step] at hstep
    split_ifs at hstep
    cases hstep
    exact h.setJob i _
  | promotion o => exact h.promotionStep horder hstep
  | job i o => exact h.jobStep horder hstep
  | renewer o =>
    simp only [AppState.step] at hstep
    split_ifs at hstep
    cases hstep
    exact h.renewOnce o
  | otherAcquires m expires now =>
    simp only [AppState.step] at hstep
    split_ifs at hstep
    cases hstep
    have hle := acquire_cases s.lease m expires now
    have hlease := @AppState.Inv.setLease _ h ((s.lease.acquire m expires now).2)
      h.numbered.acquire (by
      rcases hle with ⟨_, _, _, _, heq⟩ | ⟨_, _, _, _, heq⟩ | ⟨_, heq⟩
      · rw [heq]
      · rw [heq]
        exact le_max_left _ _
      · rw [heq]
        exact Nat.le_succ _)
    refine { hlease with pending_le := ?_ }
    intro d hd
    rcases List.mem_append.mp hd with hnew | hold
    · obtain ⟨g, hg, rfl⟩ := Option.map_eq_some_iff.mp (Option.mem_toList.mp hnew)
      rcases hle with ⟨_, _, _, _, heq⟩ | ⟨_, _, _, _, heq⟩ | ⟨_, heq⟩
      · rw [heq] at hg
        cases hg
      · rw [heq] at hg ⊢
        cases hg
        exact le_max_right _ _
      · rw [heq] at hg ⊢
        cases hg
        exact le_rfl
    · exact hlease.pending_le d hold
  | otherRenews m epoch expires now =>
    simp only [AppState.step] at hstep
    split_ifs at hstep
    cases hstep
    apply h.setLease h.numbered.renew
    rcases renew_cases s.lease m epoch expires now with ⟨_, heq⟩ | ⟨_, heq⟩ <;> rw [heq]
  | otherReleases m epoch =>
    simp only [AppState.step] at hstep
    split_ifs at hstep
    cases hstep
    exact h.setLease h.numbered.release release_last.ge
  | otherOpens epoch =>
    simp only [AppState.step] at hstep
    split_ifs at hstep with hpending
    cases hstep
    exact (h.openWriter (h.pending_le epoch hpending) horder).1

end Inv

/-- The bound handle is a writer's, opened under the current epoch and after its grant, and no
later opening was under an earlier grant. -/
def ServesFresh (s : AppState) : Prop :=
  ∃ db epoch, s.writer.epoch = some epoch ∧ s.db = some (.writer db) ∧ db.epoch = epoch ∧
    epoch ≤ db.opened ∧ ∀ later ∈ s.opens, db.seq < later.seq → ¬ later.epoch < epoch

theorem Inv.epoch_le_of_seq_lt (h : s.Inv) {earlier later : Handle} (he : earlier ∈ s.opens)
    (hl : later ∈ s.opens) : earlier.seq < later.seq → earlier.epoch ≤ later.epoch := by
  apply List.Pairwise.forall_of_forall_of_flip (l := s.opens)
    (R := fun a b => a.seq < b.seq → a.epoch ≤ b.epoch)
  · exact fun _ _ hlt => absurd hlt (lt_irrefl _)
  · exact h.opens_ordered.imp fun hord hlt => absurd hord.1 (Nat.not_lt.mpr hlt.le)
  · exact h.opens_ordered.imp fun hord _ => hord.2
  · exact he
  · exact hl

theorem Inv.servesFresh (h : s.Inv) (hwriter : s.isWriter site) : s.ServesFresh := by
  obtain ⟨⟨hrole, _⟩, hbound⟩ := hwriter
  obtain ⟨epoch, he⟩ := h.filled hrole
  have hstored : s.writer.storedActiveEpoch = some epoch := by
    unfold State.storedActiveEpoch
    rw [hrole]
    exact he
  obtain ⟨db, hdb, rfl⟩ := h.serves hbound epoch hstored
  have hmem := h.bound_opened db hdb
  refine ⟨db, db.epoch, he, hdb, rfl, h.opens_after db hmem, ?_⟩
  intro later hlater hseq
  exact Nat.not_lt.mpr (h.epoch_le_of_seq_lt hmem hlater hseq)

/-- In a run whose steps are orderly, a node that answers as the writer serves from its own
handle of the current epoch, which no opening under an earlier grant has fenced. -/
theorem isWriter_servesFresh (site : Site) (s : AppState)
    (h : s.Reached site fun s e => s.Orderly site e) (hwriter : s.isWriter site) :
    s.ServesFresh := by
  have hinv : s.Inv := by
    clear hwriter
    induction h with
    | refl => exact inv_start
    | tail _ hnext ih =>
      obtain ⟨e, horder, hstep⟩ := hnext
      exact ih.step horder hstep
  exact hinv.servesFresh hwriter

def tenSeconds : Site := ⟨"a", 10000, 1000⟩

def promoted : List Event :=
  .promote :: List.replicate 5 (.promotion .ok)

/-- The node is demoted, another one takes the lease, and the node is promoted again. -/
def promotedAgain : List Event :=
  promoted ++ .promotion .ok :: .demote 0 :: List.replicate 5 (.job 0 .ok) ++
    [.otherAcquires "b" 10000 0, .otherOpens 2, .tick 20000] ++ promoted

theorem isWriter_servesFresh_promotedAgain : ∃ s : AppState,
    s.Reached tenSeconds (fun s e => s.Orderly tenSeconds e) ∧ s.writer.epoch = some 3 ∧
      s.ServesFresh := by
  obtain ⟨s, hplay, hwriter, hepoch⟩ : ∃ s, play (step tenSeconds) start promotedAgain = some s ∧
      s.isWriter tenSeconds ∧ s.writer.epoch = some 3 := by
    exact ⟨_, rfl, by decide +kernel, rfl⟩
  have hplays : Plays (step tenSeconds) (fun s e => s.Orderly tenSeconds e) start
      promotedAgain := by decide +kernel
  have hreached := hplays.run hplay
  exact ⟨s, hreached, hepoch, isWriter_servesFresh tenSeconds s hreached hwriter⟩

/-- The lease of the bound writer expires, another node takes it and opens its own handle, and
when that lease expires too the writer acquires again, over the handle it still has. -/
def rejoined : List Event :=
  promoted ++ [.promotion .ok, .tick 20000, .otherAcquires "b" 30000 20000, .otherOpens 2,
    .tick 40000, .haTick 0, .job 0 .ok, .promotion .ok]

theorem isWriter_not_fresh : ∃ s : AppState,
    s.Reached tenSeconds (fun _ _ => True) ∧ s.isWriter tenSeconds ∧ ¬ s.ServesFresh := by
  obtain ⟨s, hplay, hwriter, hepoch, hdb⟩ : ∃ s, play (step tenSeconds) start rejoined = some s ∧
      s.isWriter tenSeconds ∧ s.writer.epoch = some 3 ∧ s.db = some (.writer ⟨1, 0, 1⟩) := by
    exact ⟨_, rfl, by decide +kernel, rfl, rfl⟩
  refine ⟨s, (plays_of_allowed fun _ _ => trivial).run hplay, hwriter, ?_⟩
  rintro ⟨db, epoch, he, hbound, hsame, _⟩
  rw [hepoch] at he
  rw [hdb] at hbound
  cases he
  cases hbound
  cases hsame

end AppState

end BlueDB.Server
