import BlueDB.Ledger.Runs

/-!
# Resolutions

A pending is posted or voided by one record, which names it and moves no more than it
reserved. Its state says which of the two there is; one that expired has neither.
-/

namespace BlueDB.Ledger

/-- A stored post or void that names the pending `id`. -/
structure Resolution (s : Store) (id : U128) (post : Bool) (r : Transfer) : Prop where
  stored : s.transfers r.id = some r
  kind : classify r = TransferOp.ofPost post
  names : r.pendingId = id

/-- What a resolution moves is what its pending reserved, or a part of it. -/
structure Takes (r p : Transfer) (post : Bool) : Prop where
  reserve : p.flags.contains .pending = true
  sameDebit : r.debitAccountId = p.debitAccountId
  sameCredit : r.creditAccountId = p.creditAccountId
  amount : r.amount ≤ p.amount
  voidAmount : post = false → r.amount = p.amount

structure ResolvedOnce (s : Store) : Prop where
  state : ∀ id post, s.pendingStates id = some (.ofPost post) ↔ ∃ r, Resolution s id post r
  unique : ∀ id post post' r r', Resolution s id post r → Resolution s id post' r' → r = r'
  takes : ∀ id post r, Resolution s id post r → ∃ p, s.transfers id = some p ∧ Takes r p post

theorem TransferOp.ofPost_injective : Function.Injective ofPost := by
  intro post post' h
  cases post <;> cases post' <;> simp_all [ofPost]

theorem PendingStatus.ofPost_injective : Function.Injective ofPost := by
  intro post post' h
  cases post <;> cases post' <;> simp_all [ofPost]

theorem PendingStatus.ofPost_ne_expired (post : Bool) : ofPost post ≠ expired := by
  cases post <;> simp [ofPost]

theorem ResolvedOnce.empty : ResolvedOnce .empty := by
  have hnone : ∀ id post r, ¬ Resolution .empty id post r := by
    intro id post r hr
    have hstored := hr.stored
    simp [Store.empty] at hstored
  refine ⟨?_, ?_, ?_⟩
  · intro id post
    constructor
    · intro h
      simp [Store.empty] at h
    · rintro ⟨r, hr⟩
      exact (hnone id post r hr).elim
  · intro id post post' r r' hr
    exact (hnone id post r hr).elim
  · intro id post r hr
    exact (hnone id post r hr).elim

section

variable {s s' : Store} {id : U128} {post : Bool} {r : Transfer} {e : Effect}

theorem resolution_congr (h : s'.transfers = s.transfers) :
    Resolution s' id post r ↔ Resolution s id post r := by
  constructor
  · intro hr
    exact ⟨h ▸ hr.stored, hr.kind, hr.names⟩
  · intro hr
    exact ⟨h ▸ hr.stored, hr.kind, hr.names⟩

theorem resolution_enact_iff (hfresh : s.transfers e.record.id = none) :
    Resolution (s.enact e) id post r ↔ Resolution s id post r ∨
      (r = e.record ∧ classify e.record = TransferOp.ofPost post ∧ e.record.pendingId = id) := by
  constructor
  · intro hr
    have hstored := hr.stored
    rw [Store.enact_transfers, put_apply] at hstored
    split_ifs at hstored with hid
    · obtain rfl := Option.some.inj hstored
      exact Or.inr ⟨rfl, hr.kind, hr.names⟩
    · exact Or.inl ⟨hstored, hr.kind, hr.names⟩
  · rintro (hr | ⟨rfl, hkind, hnames⟩)
    · have hne : r.id ≠ e.record.id := by
        intro hid
        have hstored := hr.stored
        rw [hid, hfresh] at hstored
        simp at hstored
      refine ⟨?_, hr.kind, hr.names⟩
      rw [Store.enact_transfers, put_of_ne hne]
      exact hr.stored
    · exact ⟨by simp, hkind, hnames⟩

theorem ResolvedOnce.of_same (h : ResolvedOnce s)
    (hstates : ∀ id post, s'.pendingStates id = some (.ofPost post) ↔
      s.pendingStates id = some (.ofPost post))
    (hsame : ∀ id post r, Resolution s' id post r ↔ Resolution s id post r)
    (hkept : ∀ id p, s.transfers id = some p → s'.transfers id = some p) : ResolvedOnce s' := by
  refine ⟨?_, ?_, ?_⟩
  · intro id post
    simp only [hstates, hsame, h.state]
  · intro id post post' r r' hr hr'
    exact h.unique id post post' r r' ((hsame _ _ _).mp hr) ((hsame _ _ _).mp hr')
  · intro id post r hr
    obtain ⟨p, hp, htakes⟩ := h.takes id post r ((hsame _ _ _).mp hr)
    exact ⟨p, hkept id p hp, htakes⟩

/-- Filing a record that resolves nothing. -/
theorem ResolvedOnce.filed (h : ResolvedOnce s) (hfresh : s.transfers e.record.id = none)
    (hnone : e.resolved = none) (hkind : e.record.flags.isResolution = false)
    (hkept : ∀ id p, s.transfers id = some p → (s.enact e).transfers id = some p) :
    ResolvedOnce (s.enact e) := by
  refine h.of_same ?_ ?_ hkept
  · intro id post
    rw [Store.enact_pendingStates, hnone, recordResolution]
  · intro id post r
    rw [resolution_enact_iff hfresh]
    apply or_iff_left
    rintro ⟨-, hk, -⟩
    rw [isResolution_of_classify hk] at hkind
    simp at hkind

/-- The pending that is settled had no resolution, and has the record from now on. -/
theorem ResolvedOnce.settled (h : ResolvedOnce s) {pending : Transfer} {debit credit : Account}
    (hs : Settles s r pending post debit credit)
    (hkept : ∀ id p, s.transfers id = some p →
      (s.enact (settleEffect r pending post debit credit)).transfers id = some p) :
    ResolvedOnce (s.enact (settleEffect r pending post debit credit)) := by
  have hnone : ∀ post' q, ¬ Resolution s pending.id post' q := by
    intro post' q hq
    have hstate := (h.state pending.id post').mpr ⟨q, hq⟩
    rw [hs.unresolved] at hstate
    simp at hstate
  have hnew : ∀ id post' q, Resolution (s.enact (settleEffect r pending post debit credit))
      id post' q ↔ Resolution s id post' q ∨ (q = r ∧ post' = post ∧ id = pending.id) := by
    intro id post' q
    have hkind : classify r = TransferOp.ofPost post' ↔ post' = post := by
      rw [hs.kind, TransferOp.ofPost_injective.eq_iff, eq_comm]
    have hnames : r.pendingId = id ↔ id = pending.id := by
      rw [hs.names, eq_comm]
    rw [resolution_enact_iff hs.fresh, settleEffect, hkind, hnames]
  have hstates : (s.enact (settleEffect r pending post debit credit)).pendingStates =
      put s.pendingStates pending.id (.ofPost post) := Store.enact_pendingStates _ _
  refine ⟨?_, ?_, ?_⟩
  · intro id post'
    rw [hstates, put_apply]
    simp only [hnew]
    split_ifs with hid
    · subst hid
      simp [hnone, PendingStatus.ofPost_injective.eq_iff, eq_comm]
    · simp [hid, h.state]
  · intro id post₁ post₂ q q' hq hq'
    rcases (hnew id post₁ q).mp hq with hq | ⟨rfl, -, rfl⟩
    · rcases (hnew id post₂ q').mp hq' with hq' | ⟨-, -, rfl⟩
      · exact h.unique id post₁ post₂ q q' hq hq'
      · exact (hnone post₁ q hq).elim
    · rcases (hnew pending.id post₂ q').mp hq' with hq' | ⟨rfl, -, -⟩
      · exact (hnone post₂ q' hq').elim
      · rfl
  · intro id post' q hq
    rcases (hnew id post' q).mp hq with hq | ⟨rfl, rfl, rfl⟩
    · obtain ⟨p, hp, htakes⟩ := h.takes id post' q hq
      exact ⟨p, hkept id p hp, htakes⟩
    · exact ⟨pending, hkept _ _ hs.stored, { hs with }⟩

theorem ResolvedOnce.step {now : ℕ} {b b' : Book} (h : ResolvedOnce b.store) (hs : Step now b b') :
    ResolvedOnce b'.store := by
  have hkept := hs.kept
  cases hs with
  | opened _ => exact h.of_same (fun _ _ => Iff.rfl) (fun _ _ _ => resolution_congr rfl) hkept
  | @moved r debit credit hm =>
    exact h.filed (e := moveEffect r debit credit) hm.fresh rfl
      (classify_eq_regular.mp hm.kind).1 hkept
  | @reserved r debit credit hr =>
    exact h.filed (e := reserveEffect r debit credit) hr.fresh rfl
      (classify_eq_pendingReserve.mp hr.kind).1 hkept
  | settled hset => exact h.settled hset hkept
  | @expired pending debit credit ho _ _ =>
    refine h.of_same ?_ (fun _ _ _ => resolution_congr (Store.expire_transfers ..)) hkept
    intro id post
    rw [Store.expire_pendingStates, put_apply]
    split_ifs with hid
    · rw [hid, ho.unresolved]
      simp [(PendingStatus.ofPost_ne_expired post).symm]
    · rfl
  | burned _ => exact h.of_same (fun _ _ => Iff.rfl) (fun _ _ _ => resolution_congr rfl) hkept

end

theorem reachable_resolved_once {s : Store} (h : Reachable s) : ResolvedOnce s := by
  obtain ⟨log, hlog⟩ := reachable_iff_history.mp h
  exact hlog.invariant (P := fun b => ResolvedOnce b.store) .empty fun _ hP hs => hP.step hs

/-- Twenty of the thirty that are reserved are posted. -/
def samplePosted : Book :=
  sampleReserved.callTransfers 30
    [{ sampleTransfer 102 0 0 20 .postPendingTransfer with pendingId := 101 }]

theorem reachable_resolved_once_sample : ∃ r, Resolution samplePosted.store 101 true r := by
  have hreachable : Reachable samplePosted.store :=
    reachable_iff_history.mpr ⟨_, sampleReserved_history.callTransfers 30 _⟩
  exact ((reachable_resolved_once hreachable).state 101 true).mp (by decide)

end BlueDB.Ledger
