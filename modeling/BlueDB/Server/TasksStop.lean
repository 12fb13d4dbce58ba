import BlueDB.Server.Tasks

/-!
# Tasks stop with the role

At most one task of each kind runs in every run. When the role of the writer ends only
through a demotion while tasks run, they run only on a node that is the writer, or whose
demotion has released the lease and is about to stop them.
-/

namespace BlueDB.Server

open BlueDB.Ha LeaseRegister

namespace AppState

variable (site : Site)

/-- The slot is bound to a writer handle. -/
def HoldsWriter (s : AppState) : Prop := ∃ db, s.db = some (.writer db)

instance (s : AppState) : Decidable s.HoldsWriter :=
  match h : s.db with
  | some (.writer db) => isTrue ⟨db, h⟩
  | some .reader => isFalse fun ⟨_, hdb⟩ => by rw [h] at hdb; cases hdb
  | none => isFalse fun ⟨_, hdb⟩ => by rw [h] at hdb; cases hdb

/-- The renewal is not denied. -/
def Renews (s : AppState) (o : Outcome) : Prop :=
  o = .ok → ∀ epoch ∈ s.writer.storedActiveEpoch,
    (s.lease.renew site.nodeId epoch (s.now + site.ttl) s.now).1 ≠ none

instance (s : AppState) (o : Outcome) : Decidable (s.Renews site o) :=
  inferInstanceAs (Decidable (_ → _))

/-- The step does not end the role of the writer, unless it belongs to a demotion. -/
def Stays (s : AppState) : Event → Prop
  | .tick t => s.isActive site → (t : ℤ) < s.writer.expires - site.safetyMargin
  | .renewer o => s.Renews site o
  | .promotion _ => s.promotion ≠ some .abandoned
  | .job i o =>
    match s.jobs i with
    | .tickRenewing | .tickBoundRenewing => s.Renews site o
    | .tickReleasing | .attaching | .building => False
    | _ => True
  | _ => True

instance (s : AppState) : DecidablePred (s.Stays site)
  | .tick _ => inferInstanceAs (Decidable (_ → _))
  | .renewer o => inferInstanceAs (Decidable (s.Renews site o))
  | .promotion _ => inferInstanceAs (Decidable (_ ≠ _))
  | .job i o => by
    unfold Stays
    dsimp only
    split <;> infer_instance
  | .promote | .demote _ | .haTick _ | .attachReader _ | .otherAcquires .. | .otherRenews ..
  | .otherReleases .. | .otherOpens _ => isTrue trivial

/-- An active node got its lease no later than now, and a tick that waits has been told so. -/
structure Regular (s : AppState) : Prop where
  timely : s.writer.role = .active → s.writer.expires ≤ s.now + site.ttl
  waits : ∀ i, s.waiting = some i → s.jobs i = .tickPromoting

/-- The node is the writer, but for the lease that a demotion may have released. -/
structure Manned (s : AppState) : Prop where
  bound : s.writerBound = true
  holds : s.HoldsWriter
  active : s.isActive site ∨ ∃ i, s.jobs i = .tearingDown

/-- A lease granted now. -/
def Granted (s : AppState) (w : State) : Prop :=
  ∃ lease : Lease, w = .setActive lease ∧ lease.expires = s.now + site.ttl

variable {site} {s s' : AppState}

theorem acquireLease_eq (o : Outcome) : ∃ lease w,
    (s.acquireLease site o).1 = { s with lease := lease, writer := w } ∧
      (w = s.writer ∨ s.Granted site w) := by
  unfold acquireLease
  dsimp only
  split
  · rename_i lease hgrant
    refine ⟨_, _, rfl, .inr ⟨lease, rfl, ?_⟩⟩
    rcases acquire_cases s.lease site.nodeId (s.now + site.ttl) s.now with
      ⟨_, _, _, _, heq⟩ | ⟨_, _, _, _, heq⟩ | ⟨_, heq⟩
    all_goals
      rw [heq] at hgrant
      cases hgrant
    · rfl
    · rfl
  · exact ⟨_, _, rfl, .inl rfl⟩
  · exact ⟨s.lease, s.writer, rfl, .inl rfl⟩
  · exact ⟨_, _, rfl, .inl rfl⟩

theorem renewOnce_eq (o : Outcome) : ∃ lease w,
    (s.renewOnce site o).1 = { s with lease := lease, writer := w } ∧
      (w = s.writer ∨ s.Granted site w ∨ w = .passive ∧ ¬ s.Renews site o) := by
  unfold renewOnce
  split
  · exact ⟨s.lease, s.writer, rfl, .inl rfl⟩
  · rename_i epoch he
    dsimp only
    split
    · rename_i lease hgrant
      refine ⟨_, _, rfl, .inr (.inl ⟨lease, rfl, ?_⟩)⟩
      rcases renew_cases s.lease site.nodeId epoch (s.now + site.ttl) s.now with
        ⟨_, heq⟩ | ⟨_, heq⟩
      all_goals
        rw [heq] at hgrant
        cases hgrant
      rfl
    · rename_i hdenied
      exact ⟨_, _, rfl, .inr (.inr ⟨rfl, fun hrenews => hrenews rfl epoch he hdenied⟩)⟩
    · exact ⟨s.lease, s.writer, rfl, .inl rfl⟩
    · exact ⟨_, _, rfl, .inl rfl⟩

theorem releaseLease_eq (o : Outcome) : ∃ lease w,
    (s.releaseLease site o).1 = { s with lease := lease, writer := w } ∧
      (w = s.writer ∨ w = .passive) ∧ ((s.releaseLease site o).2 = false → w = s.writer) := by
  unfold releaseLease
  split
  · exact ⟨s.lease, _, rfl, .inr rfl, fun h => by cases h⟩
  · cases o with
    | ok => exact ⟨_, _, rfl, .inr rfl, fun h => by cases h⟩
    | failed => exact ⟨s.lease, s.writer, rfl, .inl rfl, fun _ => rfl⟩
    | lost => exact ⟨_, _, rfl, .inl rfl, fun _ => rfl⟩

/-- What a step of a demotion, a tick or the binding of a reader does. -/
theorem jobStep_cases {i : ℕ} {o : Outcome} (h : s.jobStep site i o = some s') :
    s.jobs i ≠ .tickPromoting ∧
    ((∃ j, s' = s.setJob i j) ∨
      (s.jobs i = .attaching ∧ s' = { s.setJob i .building with writerBound := false }) ∨
      (s.jobs i = .building ∧ ∃ db, s' = { s.setJob i .idle with db := db }) ∨
      (s.jobs i = .ticking ∧
        s' = { s.setJob i .tickPromoting with promotion := some .entered, waiting := some i }) ∨
      ∃ lease w j, s' = ({ s with lease := lease, writer := w } : AppState).setJob i j ∧
        (w = s.writer ∨ s.Granted site w ∨ w = .passive ∧
          (s.jobs i = .releasing ∧ j = .tearingDown ∨ s.jobs i = .tickReleasing ∨
            (s.jobs i = .tickRenewing ∨ s.jobs i = .tickBoundRenewing) ∧
              ¬ s.Renews site o))) := by
  obtain ⟨rlease, rwriter, hrenew, hrw⟩ := @AppState.renewOnce_eq site s o
  obtain ⟨dlease, dwriter, hrelease, hdw, hsame⟩ := @AppState.releaseLease_eq site s o
  unfold jobStep at h
  split at h <;> rename_i hjob
  · cases h
  · cases h
    exact ⟨by rw [hjob]; decide, .inl ⟨_, rfl⟩⟩
  · refine ⟨by rw [hjob]; decide, .inr (.inr (.inr (.inr ?_)))⟩
    split at h
    · rename_i t heq
      rw [heq] at hrelease
      cases h
      refine ⟨dlease, dwriter, .tearingDown, congrArg (fun t => t.setJob i .tearingDown) hrelease,
          ?_⟩
      exact hdw.imp_right fun hpassive => .inr ⟨hpassive, .inl ⟨hjob, rfl⟩⟩
    · rename_i t heq
      rw [heq] at hrelease hsame
      cases h
      exact ⟨dlease, dwriter, .idle, congrArg (fun t => t.setJob i .idle) hrelease,
          .inl (hsame rfl)⟩
  · cases h
    exact ⟨by rw [hjob]; decide, .inl ⟨_, rfl⟩⟩
  · cases h
    exact ⟨by rw [hjob]; decide, .inr (.inl ⟨hjob, rfl⟩)⟩
  · cases h
    exact ⟨by rw [hjob]; decide, .inr (.inr (.inl ⟨hjob, _, rfl⟩))⟩
  · refine ⟨by rw [hjob]; decide, ?_⟩
    split_ifs at h
    · cases h
      exact .inl ⟨_, rfl⟩
    · cases h
      exact .inr (.inr (.inr (.inl ⟨hjob, rfl⟩)))
    · cases h
      exact .inl ⟨_, rfl⟩
  · cases h
    exact ⟨by rw [hjob]; decide, .inl ⟨_, rfl⟩⟩
  · cases h
    exact ⟨by rw [hjob]; decide, .inl ⟨_, rfl⟩⟩
  · cases h
    refine ⟨by rw [hjob]; decide, .inr (.inr (.inr (.inr ⟨rlease, rwriter, .idle, ?_, ?_⟩)))⟩
    · rw [hrenew]
    · exact hrw.imp_right (Or.imp_right fun hdenied =>
        ⟨hdenied.1, .inr (.inr ⟨.inl hjob, hdenied.2⟩)⟩)
  · cases h
    refine ⟨by rw [hjob]; decide, .inr (.inr (.inr (.inr ⟨dlease, dwriter, .ifUnbound, ?_, ?_⟩)))⟩
    · rw [hrelease]
    · exact hdw.imp_right fun hpassive => .inr ⟨hpassive, .inr (.inl hjob)⟩
  · refine ⟨by rw [hjob]; decide, .inr (.inr (.inr (.inr ?_)))⟩
    split at h <;>
    · rename_i t heq
      rw [heq] at hrenew
      cases h
      refine ⟨rlease, rwriter, _, congrArg (fun t : AppState => t.setJob i _) hrenew, ?_⟩
      exact hrw.imp_right (Or.imp_right fun hdenied =>
        ⟨hdenied.1, .inr (.inr ⟨.inr hjob, hdenied.2⟩)⟩)
  · cases h
  · cases h
    exact ⟨by rw [hjob]; decide, .inl ⟨_, rfl⟩⟩

namespace Regular

theorem setWriter (h : s.Regular site) {lease : LeaseRegister String} {w : State}
    (hw : w = s.writer ∨ s.Granted site w ∨ w = .passive) :
    ({ s with lease := lease, writer := w } : AppState).Regular site := by
  refine ⟨?_, h.waits⟩
  intro hrole
  rcases hw with rfl | ⟨l, rfl, hexpires⟩ | rfl
  · exact h.timely hrole
  · exact hexpires.le
  · cases hrole

theorem setJob (h : s.Regular site) {i : ℕ} (hi : s.jobs i ≠ .tickPromoting) (j : Job) :
    (s.setJob i j).Regular site := by
  refine ⟨h.timely, ?_⟩
  intro k hk
  have hki : k ≠ i := by
    rintro rfl
    exact hi (h.waits k hk)
  exact (Function.update_of_ne hki _ _).trans (h.waits k hk)

theorem promotionEnds (h : s.Regular site) (ok : Bool) : (s.promotionEnds ok).Regular site := by
  unfold AppState.promotionEnds
  split
  · exact ⟨h.timely, h.waits⟩
  · refine ⟨h.timely, ?_⟩
    intro k hk
    cases hk

theorem acquireLease (h : s.Regular site) (o : Outcome) :
    (s.acquireLease site o).1.Regular site := by
  obtain ⟨lease, w, heq, hw⟩ := @AppState.acquireLease_eq site s o
  rw [heq]
  exact h.setWriter (hw.imp_right .inl)

theorem renewOnce (h : s.Regular site) (o : Outcome) : (s.renewOnce site o).1.Regular site := by
  obtain ⟨lease, w, heq, hw⟩ := @AppState.renewOnce_eq site s o
  rw [heq]
  exact h.setWriter (hw.imp_right (Or.imp_right And.left))

theorem releaseLease (h : s.Regular site) (o : Outcome) :
    (s.releaseLease site o).1.Regular site := by
  obtain ⟨lease, w, heq, hw, _⟩ := @AppState.releaseLease_eq site s o
  rw [heq]
  exact h.setWriter (hw.imp_right .inr)

theorem promotionStep (h : s.Regular site) {o : Outcome}
    (hstep : s.promotionStep site o = some s') : s'.Regular site := by
  unfold AppState.promotionStep at hstep
  split at hstep
  · cases hstep
  · have hacquire := h.acquireLease o
    split at hstep <;>
    · rename_i heq
      cases hstep
      rw [heq] at hacquire
      first
        | exact ⟨hacquire.timely, hacquire.waits⟩
        | exact hacquire.promotionEnds false
  · cases o <;>
    · cases hstep
      exact ⟨h.timely, h.waits⟩
  · cases hstep
    exact (h.releaseLease o).promotionEnds false
  · split_ifs at hstep
    · cases hstep
      exact ⟨h.timely, h.waits⟩
    · cases hstep
      exact h.promotionEnds false
  · cases hstep
    exact ⟨h.timely, h.waits⟩
  · cases hstep
    exact ⟨h.timely, h.waits⟩
  · cases hstep
    exact h.promotionEnds _

theorem jobStep (h : s.Regular site) {i : ℕ} {o : Outcome}
    (hstep : s.jobStep site i o = some s') : s'.Regular site := by
  obtain ⟨hi, hcases⟩ := jobStep_cases hstep
  rcases hcases with ⟨j, rfl⟩ | ⟨_, rfl⟩ | ⟨_, db, rfl⟩ | ⟨_, rfl⟩ | ⟨lease, w, j, rfl, hw⟩
  · exact h.setJob hi j
  · exact ⟨h.timely, (h.setJob hi _).waits⟩
  · exact ⟨h.timely, (h.setJob hi _).waits⟩
  · refine ⟨h.timely, ?_⟩
    rintro k ⟨⟩
    exact Function.update_self _ _ _
  · exact (h.setWriter (hw.imp_right (Or.imp_right And.left))).setJob hi j

theorem step {e : Event} (h : s.Regular site) (hstep : s.step site e = some s') :
    s'.Regular site := by
  cases e with
  | promotion o => exact h.promotionStep hstep
  | job i o => exact h.jobStep hstep
  | tick t =>
    simp only [AppState.step] at hstep
    split_ifs at hstep with hle
    cases hstep
    refine ⟨fun hrole => (h.timely hrole).trans ?_, h.waits⟩
    exact add_le_add_left (Int.ofNat_le.mpr hle) _
  | demote i | haTick i | attachReader i =>
    simp only [AppState.step] at hstep
    split_ifs at hstep with hidle
    cases hstep
    exact h.setJob (by rw [hidle]; decide) _
  | renewer o =>
    simp only [AppState.step] at hstep
    split_ifs at hstep
    cases hstep
    exact h.renewOnce o
  | _ =>
    simp only [AppState.step] at hstep
    split_ifs at hstep
    cases hstep
    exact ⟨h.timely, h.waits⟩

end Regular

namespace Manned

theorem isActive_of_granted (h : s.Regular site) (hactive : s.isActive site) {w : State}
    {lease : LeaseRegister String} (hw : s.Granted site w) :
    ({ s with lease := lease, writer := w } : AppState).isActive site := by
  obtain ⟨l, rfl, hexpires⟩ := hw
  have hold := h.timely hactive.1
  have hlt := hactive.2
  refine ⟨rfl, ?_⟩
  change (s.now : ℤ) < l.expires - site.safetyMargin
  omega

theorem setWriter (h : s.Manned site) (hr : s.Regular site) {lease : LeaseRegister String}
    {w : State} (hw : w = s.writer ∨ s.Granted site w) :
    ({ s with lease := lease, writer := w } : AppState).Manned site := by
  refine ⟨h.bound, h.holds, ?_⟩
  rcases hw with rfl | hw
  · exact h.active
  · exact h.active.imp_left fun hactive => isActive_of_granted hr hactive hw

theorem setJob (h : s.Manned site) {i : ℕ} (hi : s.jobs i ≠ .tearingDown) (j : Job) :
    (s.setJob i j).Manned site := by
  refine ⟨h.bound, h.holds, h.active.imp_right ?_⟩
  rintro ⟨k, hk⟩
  have hki : k ≠ i := by
    rintro rfl
    exact hi hk
  exact ⟨k, (Function.update_of_ne hki _ _).trans hk⟩

theorem promotionEnds (h : s.Manned site) (hr : s.Regular site) (ok : Bool) :
    (s.promotionEnds ok).Manned site := by
  unfold AppState.promotionEnds
  split
  · exact { h with }
  · rename_i i hwaiting
    have hset := h.setJob (i := i) (by rw [hr.waits i hwaiting]; decide)
      (if ok then .idle else .ifUnbound)
    exact { hset with }

theorem renewOnce (h : s.Manned site) (hr : s.Regular site) {o : Outcome}
    (hrenews : s.Renews site o) : (s.renewOnce site o).1.Manned site := by
  obtain ⟨lease, w, heq, hw⟩ := @AppState.renewOnce_eq site s o
  rw [heq]
  rcases hw with hsame | hgranted | ⟨_, hdenied⟩
  · exact h.setWriter hr (.inl hsame)
  · exact h.setWriter hr (.inr hgranted)
  · exact absurd hrenews hdenied

theorem promotionStep (h : s.Manned site) (hr : s.Regular site) {o : Outcome}
    (hstays : s.promotion ≠ some .abandoned) (hstep : s.promotionStep site o = some s') :
    s'.Manned site := by
  unfold AppState.promotionStep at hstep
  split at hstep
  · cases hstep
  · obtain ⟨lease, w, heq, hw⟩ := @AppState.acquireLease_eq site s o
    have hacquire := @AppState.Manned.setWriter _ _ h hr lease _ hw
    have hregular := hr.acquireLease o
    rw [← heq] at hacquire
    split at hstep <;>
    · rename_i hresult
      rw [hresult] at hacquire hregular
      cases hstep
      first
        | exact { hacquire with }
        | exact hacquire.promotionEnds hregular false
  · cases o <;>
    · cases hstep
      exact { h with }
  · rename_i habandoned
    exact absurd habandoned hstays
  · split_ifs at hstep
    · cases hstep
      exact { h with }
    · cases hstep
      exact h.promotionEnds hr false
  · cases hstep
    exact ⟨h.bound, ⟨_, rfl⟩, h.active⟩
  · cases hstep
    exact ⟨rfl, h.holds, h.active⟩
  · cases hstep
    exact h.promotionEnds hr _

theorem jobStep (h : s.Manned site) (hr : s.Regular site) {i : ℕ} {o : Outcome}
    (hstays : s.Stays site (.job i o)) (hi : s.jobs i ≠ .tearingDown)
    (hstep : s.jobStep site i o = some s') : s'.Manned site := by
  obtain ⟨_, hcases⟩ := jobStep_cases hstep
  simp only [Stays] at hstays
  rcases hcases with ⟨j, rfl⟩ | ⟨hjob, rfl⟩ | ⟨hjob, db, rfl⟩ | ⟨_, rfl⟩ | ⟨lease, w, j, rfl, hw⟩
  · exact h.setJob hi j
  · rw [hjob] at hstays
    exact hstays.elim
  · rw [hjob] at hstays
    exact hstays.elim
  · have hset := h.setJob hi .tickPromoting
    exact { hset with }
  · rcases hw with hsame | hgranted | ⟨_, ⟨hjob, rfl⟩ | hjob | ⟨hjob, hdenied⟩⟩
    · exact (h.setWriter hr (.inl hsame)).setJob hi j
    · exact (h.setWriter hr (.inr hgranted)).setJob hi j
    · exact ⟨h.bound, h.holds, .inr ⟨i, Function.update_self _ _ _⟩⟩
    · rw [hjob] at hstays
      exact hstays.elim
    · rcases hjob with hjob | hjob <;>
      · rw [hjob] at hstays
        exact absurd hstays hdenied

theorem step {e : Event} (h : s.Manned site) (hr : s.Regular site) (hstays : s.Stays site e)
    (hjob : ∀ i o, e = .job i o → s.jobs i ≠ .tearingDown) (hstep : s.step site e = some s') :
    s'.Manned site := by
  cases e with
  | promotion o => exact h.promotionStep hr hstays hstep
  | job i o => exact h.jobStep hr hstays (hjob i o rfl) hstep
  | tick t =>
    simp only [AppState.step] at hstep
    split_ifs at hstep
    cases hstep
    exact ⟨h.bound, h.holds, h.active.imp_left fun hactive => ⟨hactive.1, hstays hactive⟩⟩
  | demote i | haTick i | attachReader i =>
    simp only [AppState.step] at hstep
    split_ifs at hstep with hidle
    cases hstep
    exact h.setJob (by rw [hidle]; decide) _
  | renewer o =>
    simp only [AppState.step] at hstep
    split_ifs at hstep
    cases hstep
    exact h.renewOnce hr hstays
  | _ =>
    simp only [AppState.step] at hstep
    split_ifs at hstep
    cases hstep
    exact { h with }

end Manned

theorem regular_start : start.Regular site :=
  ⟨(fun h => by cases h), (fun _ h => by cases h)⟩

end AppState

namespace Inner

variable (site : Site)

/-- While tasks run the role does not end but by a demotion, and tasks are started only by a node
that is the writer. -/
def Kept (s : Inner) (e : AppState.Event) : Prop :=
  (¬ s.workers.Idle → s.node.Stays site e) ∧
  (e = .promotion .ok → s.node.promotion = some .bound → s.node.isWriter site ∧ s.node.HoldsWriter)

instance (s : Inner) : DecidablePred (s.Kept site) := fun _ => inferInstanceAs (Decidable (_ ∧ _))

/-- What holds in every run. -/
structure Inv (s : Inner) : Prop where
  settled : s.workers.Settled
  regular : s.node.Regular site
  /-- The old lakehouse manager has been shut down. -/
  shut : s.startup = .openingLakehouse → s.workers.lakehouse = none

variable {site} {s s' : Inner}

theorem inv_start : start.Inv site where
  settled := Workers.settled_fresh
  regular := AppState.regular_start
  shut := fun h => by cases h

theorem step_cases {e : AppState.Event} (h : s.step site e = some s') :
    (∃ node, s.node.step site e = some node ∧ (∀ i o, e = .job i o → s.node.jobs i ≠ .tearingDown) ∧
      (s' = { s with node := node } ∨ s' = ⟨node, .reopening, s.workers⟩)) ∨
    (∃ node, s.node.step site e = some node ∧ s' = { s with node := node, workers :=
      s.workers.stop }) ∨
    (e = .promotion .ok ∧ s.node.promotion = some .bound ∧
      s' = { s with startup := .openingLakehouse, workers := s.workers.start }) ∨
    (e = .promotion .ok ∧ s.node.promotion = some .bound ∧ s.startup = .openingLakehouse ∧
      s' = ⟨s.node.promotionEnds true, .reopening, s.workers.openLakehouse⟩) := by
  cases e with
  | promotion o =>
    simp only [step] at h
    split_ifs at h with hbound
    · unfold startupStep at h
      split at h
      · cases h
        exact .inr (.inr (.inl ⟨rfl, hbound, rfl⟩))
      · rename_i hopening
        obtain ⟨node, hnode, rfl⟩ := Option.map_eq_some_iff.mp h
        have hends : s.node.promotionEnds true = node := by
          simp only [AppState.step, AppState.promotionStep, hbound] at hnode
          exact Option.some.inj hnode
        rw [← hends]
        exact .inr (.inr (.inr ⟨rfl, hbound, hopening, rfl⟩))
      · obtain ⟨node, hnode, rfl⟩ := Option.map_eq_some_iff.mp h
        exact .inl ⟨node, hnode, (fun _ _ he => by cases he), .inr rfl⟩
    · obtain ⟨node, hnode, rfl⟩ := Option.map_eq_some_iff.mp h
      exact .inl ⟨node, hnode, (fun _ _ he => by cases he), .inl rfl⟩
  | job i o =>
    obtain ⟨t, ht, rfl⟩ := Option.map_eq_some_iff.mp h
    obtain ⟨node, hnode, rfl⟩ := Option.map_eq_some_iff.mp ht
    split_ifs with hjob
    · exact .inr (.inl ⟨node, hnode, rfl⟩)
    · refine .inl ⟨node, hnode, ?_, .inl rfl⟩
      rintro _ _ ⟨⟩
      exact hjob
  | _ =>
    obtain ⟨node, hnode, rfl⟩ := Option.map_eq_some_iff.mp h
    exact .inl ⟨node, hnode, (fun _ _ he => by cases he), .inl rfl⟩

theorem Inv.step {e : AppState.Event} (h : s.Inv site) (hstep : s.step site e = some s') :
    s'.Inv site := by
  rcases step_cases hstep with ⟨node, hnode, _, rfl | rfl⟩ | ⟨node, hnode, rfl⟩ | ⟨_, _, rfl⟩ |
    ⟨_, _, hopening, rfl⟩
  · exact ⟨h.settled, h.regular.step hnode, h.shut⟩
  · exact ⟨h.settled, h.regular.step hnode, fun hs => by cases hs⟩
  · exact ⟨h.settled.stop, h.regular.step hnode, fun _ => rfl⟩
  · exact ⟨h.settled.start, h.regular, fun _ => rfl⟩
  · exact ⟨h.settled.openLakehouse (h.shut hopening), h.regular.promotionEnds true,
      fun hs => by cases hs⟩

/-- While tasks run, the node has the role. -/
def Staffed (site : Site) (s : Inner) : Prop := ¬ s.workers.Idle → s.node.Manned site

theorem Staffed.step {e : AppState.Event} (h : s.Staffed site) (hinv : s.Inv site)
    (hkept : s.Kept site e) (hstep : s.step site e = some s') : s'.Staffed site := by
  have hstarted : e = .promotion .ok → s.node.promotion = some .bound → s.node.Manned site := by
    intro he hbound
    obtain ⟨⟨hactive, hflag⟩, hholds⟩ := hkept.2 he hbound
    exact ⟨hflag, hholds, .inl hactive⟩
  rcases step_cases hstep with ⟨node, hnode, hjob, rfl | rfl⟩ | ⟨node, _, rfl⟩ | ⟨he, hbound, rfl⟩ |
    ⟨he, hbound, _, rfl⟩
  · exact fun hbusy => (h hbusy).step hinv.regular (hkept.1 hbusy) hjob hnode
  · exact fun hbusy => (h hbusy).step hinv.regular (hkept.1 hbusy) hjob hnode
  · exact fun hbusy => absurd hinv.settled.idle_stop hbusy
  · exact fun _ => hstarted he hbound
  · exact fun _ => (hstarted he hbound).promotionEnds hinv.regular true

theorem Reached.inv {allowed : Inner → AppState.Event → Prop} (h : s.Reached site allowed) :
    s.Inv site := by
  induction h with
  | refl => exact inv_start
  | tail _ hnext ih =>
    obtain ⟨e, _, hstep⟩ := hnext
    exact ih.step hstep

theorem Reached.staffed (h : s.Reached site fun s e => s.Kept site e) : s.Staffed site := by
  induction h with
  | refl => exact fun hbusy => absurd ⟨rfl, rfl⟩ hbusy
  | tail hreached hnext ih =>
    obtain ⟨e, hkept, hstep⟩ := hnext
    exact ih.step (Reached.inv hreached) hkept hstep

/-- At most one task of each kind runs in every run; and when the role ends only through a
demotion while tasks run, tasks run and a lakehouse manager is bound only on a node that is the
writer with a writer handle in its slot, or, while a demotion is about to stop them, whose lease
has just been released. -/
theorem tasks_stop (site : Site) :
    (∀ s : Inner, s.Reached site (fun _ _ => True) → (s.workers.running.map Task.kind).Nodup) ∧
    ∀ s : Inner, s.Reached site (fun s e => s.Kept site e) →
      (s.node.writerBound = false ∨ ¬ s.node.HoldsWriter → s.workers.Idle) ∧
      ((∀ i, s.node.jobs i ≠ .tearingDown) → ¬ s.workers.Idle →
        s.node.isWriter site ∧ s.node.HoldsWriter) := by
  constructor
  · exact fun s h => h.inv.settled.kinds_nodup
  · intro s h
    constructor
    · intro hnot
      by_contra hbusy
      have hmanned := h.staffed hbusy
      rcases hnot with hflag | hslot
      · exact absurd (hmanned.bound.symm.trans hflag) (by decide)
      · exact hslot hmanned.holds
    · intro hjobs hbusy
      have hmanned := h.staffed hbusy
      rcases hmanned.active with hactive | ⟨i, hi⟩
      · exact ⟨⟨hactive, hmanned.bound⟩, hmanned.holds⟩
      · exact absurd hi (hjobs i)

def tenSeconds : Site := ⟨"a", 10000, 1000⟩

/-- A promotion up to the end, with all tasks started. -/
def promoted : List AppState.Event := .promote :: List.replicate 7 (.promotion .ok)

/-- After the promotion, a demotion up to the end. -/
def demoted : List AppState.Event := promoted ++ .demote 0 :: List.replicate 5 (.job 0 .ok)

theorem tasks_stop_demoted :
    (∃ s : Inner, play (step tenSeconds) start promoted = some s ∧ s.workers.running.length = 5 ∧
      s.node.isWriter tenSeconds ∧ s.node.HoldsWriter) ∧
    ∃ s : Inner, play (step tenSeconds) start demoted = some s ∧ s.node.db = some .reader ∧
      s.workers.Idle := by
  constructor
  · obtain ⟨s, hplay, hlength, hjobs⟩ : ∃ s, play (step tenSeconds) start promoted = some s ∧
        s.workers.running.length = 5 ∧ ∀ i, s.node.jobs i = .idle := by
      exact ⟨_, rfl, rfl, fun _ => rfl⟩
    refine ⟨s, hplay, hlength,
      ((tasks_stop tenSeconds).2 s (Plays.run (by decide +kernel) hplay)).2 ?_ ?_⟩
    · intro i
      rw [hjobs i]
      decide
    · rintro ⟨hnone, _⟩
      rw [hnone] at hlength
      cases hlength
  · obtain ⟨s, hplay, hdb, hbound⟩ : ∃ s, play (step tenSeconds) start demoted = some s ∧
        s.node.db = some .reader ∧ s.node.writerBound = false := by
      exact ⟨_, rfl, rfl, rfl⟩
    exact ⟨s, hplay, hdb,
      ((tasks_stop tenSeconds).2 s (Plays.run (by decide +kernel) hplay)).1 (Or.inl hbound)⟩

/-- The renewal of a tick fails, and the node attaches a reader. -/
def replaced : List AppState.Event :=
  promoted ++ [.haTick 0, .job 0 .ok, .job 0 .ok, .job 0 .failed, .job 0 .ok, .job 0 .ok]

theorem tasks_not_stopped : ∃ s : Inner, s.Reached tenSeconds (fun _ _ => True) ∧
    s.node.db = some .reader ∧ s.node.promotion = none ∧ s.node.jobs 0 = .idle ∧
      ¬ s.node.isWriter tenSeconds ∧ s.workers.running.length = 5 ∧
      s.workers.lakehouse.isSome := by
  obtain ⟨s, hplay, hdb, hpromotion, hjob, hwriter, hlength, hlakehouse⟩ : ∃ s,
      play (step tenSeconds) start replaced = some s ∧ s.node.db = some .reader ∧
      s.node.promotion = none ∧ s.node.jobs 0 = .idle ∧ ¬ s.node.isWriter tenSeconds ∧
      s.workers.running.length = 5 ∧ s.workers.lakehouse.isSome := by
    exact ⟨_, rfl, rfl, rfl, rfl, by decide +kernel, rfl, rfl⟩
  exact ⟨s, (plays_of_allowed fun _ _ => trivial).run hplay, hdb, hpromotion, hjob, hwriter,
    hlength, hlakehouse⟩

end Inner

end BlueDB.Server
