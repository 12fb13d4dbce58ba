import BlueDB.Ledger.Batches

/-!
# Replays

What a created transfer is stored as, and what its sender gets when it submits
the same transfer again. The stored record inherits fields and resolves amount
sentinels; the comparison with it undoes all of that except the reduction of a
balancing amount.
-/

namespace BlueDB.Ledger

/-- A transfer that takes at most the headroom of one of its accounts. -/
def Transfer.balancing (t : Transfer) : Bool :=
  t.flags.contains .balancingDebit || t.flags.contains .balancingCredit

/-- The amount that stands for whatever the pending reserved. -/
def Transfer.amountWildcard (t : Transfer) : ℕ :=
  if t.flags.contains .postPendingTransfer then amountMax else 0

/-- `r` is a record that the submitted `t` can be stored as: the comparison of the
two finds no difference, the amount of a balancing transfer apart. -/
structure StoredAs (t r : Transfer) : Prop where
  id : r.id = t.id
  flags : r.flags = t.flags
  pendingId : r.pendingId = t.pendingId
  timeout : r.timeout = t.timeout
  debit : differs 0 t.flags.isResolution t.debitAccountId r.debitAccountId = false
  credit : differs 0 t.flags.isResolution t.creditAccountId r.creditAccountId = false
  amount : t.balancing = false →
    differs t.amountWildcard t.flags.isResolution t.amount r.amount = false
  userData128 : differs 0 t.flags.isResolution t.userData128 r.userData128 = false
  userData64 : differs 0 t.flags.isResolution t.userData64 r.userData64 = false
  userData32 : differs 0 t.flags.isResolution t.userData32 r.userData32 = false
  ledger : differs 0 t.flags.isResolution t.ledger r.ledger = false
  code : differs 0 t.flags.isResolution t.code r.code = false

@[simp] theorem differs_self {α : Type*} [DecidableEq α] (zero : α) (resolution : Bool) (x : α) :
    differs zero resolution x x = false := by
  simp [differs]

theorem differs_inherited {α : Type*} [DecidableEq α] {zero x y : α} (h : x = zero ∨ x = y) :
    differs zero true x y = false := by
  rcases h with rfl | rfl <;> simp [differs]

theorem balancingAmount_of_not_balancing {t : Transfer} (h : t.balancing = false)
    (debit credit : Account) : balancingAmount t debit credit = t.amount := by
  unfold Transfer.balancing at h
  rw [Bool.or_eq_false_iff] at h
  simp [balancingAmount, h.1, h.2]

theorem storedAs_movement {t : Transfer} {amount : ℕ} (h : t.balancing = false → amount = t.amount)
    (timestamp : ℕ) : StoredAs t { t with amount := amount, timestamp := timestamp } := by
  refine ⟨rfl, rfl, rfl, rfl, differs_self .., differs_self .., ?_, differs_self ..,
    differs_self .., differs_self .., differs_self .., differs_self ..⟩
  intro hb
  dsimp only
  rw [h hb, differs_self]

theorem storedAs_materialize {t pending : Transfer} {effective : ℕ}
    (hres : t.flags.isResolution = true) (hnames : NamesPending t pending)
    (hamount : t.amount = t.amountWildcard ∨ t.amount = effective) (timestamp : ℕ) :
    StoredAs t { materialize t pending effective with timestamp := timestamp } := by
  have hinherit : ∀ x y : ℕ, differs 0 true x (if x != 0 then x else y) = false := by
    intro x y
    apply differs_inherited
    by_cases hx : x = 0
    · exact Or.inl hx
    · exact Or.inr (by simp [hx])
  refine ⟨rfl, rfl, rfl, rfl, ?_, ?_, ?_, ?_, ?_, ?_, ?_, ?_⟩
  · rw [hres]
    exact differs_inherited hnames.debit
  · rw [hres]
    exact differs_inherited hnames.credit
  · intro _
    rw [hres]
    exact differs_inherited hamount
  · rw [hres]
    exact hinherit _ _
  · rw [hres]
    exact hinherit _ _
  · rw [hres]
    exact hinherit _ _
  · rw [hres]
    exact differs_inherited hnames.ledger
  · rw [hres]
    exact hinherit _ _

theorem amountWildcard_of_classify {t : Transfer} {post : Bool}
    (h : classify t = TransferOp.ofPost post) :
    t.amountWildcard = if post then amountMax else 0 := by
  revert h
  unfold classify TransferOp.ofPost Transfer.amountWildcard
  cases post <;> cases t.flags.contains .postPendingTransfer <;>
    cases t.flags.contains .voidPendingTransfer <;> cases t.flags.contains .pending <;> simp

section

variable {backstop : Transfer → ℕ → Bool} {batchImported : Bool} {now : ℕ} {s : Store}
  {t : Transfer} {e : Effect}

theorem storedAs_of_resolution {post : Bool} {importedTs : Option ℕ}
    (hkind : classify t = TransferOp.ofPost post)
    (h : decideResolution backstop s t post now importedTs s.getWatermark = .ok (.ok e))
    (timestamp : ℕ) : StoredAs t { e.record with timestamp := timestamp } := by
  obtain ⟨pending, debit, credit, effective, hr, rfl⟩ := decideResolution_eq_ok h
  obtain ⟨-, hvoid, hpost, hvoidAmount⟩ := effectiveAmount_eq_ok hr.amount
  apply storedAs_materialize (isResolution_of_classify hkind) hr.names
  rw [amountWildcard_of_classify hkind]
  cases post with
  | true =>
    rw [hpost rfl]
    by_cases hmax : t.amount = amountMax
    · exact Or.inl hmax
    · exact Or.inr (by rw [if_neg hmax])
  | false =>
    rw [hvoid rfl]
    exact hvoidAmount rfl

theorem storedAs_of_decide (h : decideTransfer backstop batchImported now s t = .ok (.ok e))
    (timestamp : ℕ) : StoredAs t { e.record with timestamp := timestamp } := by
  unfold decideTransfer at h
  dsimp only at h
  cases hkind : classify t with
  | regular =>
    simp only [hkind, Except.ok.injEq, map_eq_ok] at h
    obtain ⟨m, hm, rfl⟩ := h
    obtain ⟨debit, credit, -, -, hmove⟩ := decideMovement_eq_ok.mp hm
    apply storedAs_movement
    intro hb
    exact (regularMovement_eq_ok hmove).2.1.trans (balancingAmount_of_not_balancing hb _ _)
  | pendingReserve =>
    simp only [hkind, Except.ok.injEq, map_eq_ok] at h
    obtain ⟨m, hm, rfl⟩ := h
    obtain ⟨debit, credit, -, -, hmove⟩ := decideMovement_eq_ok.mp hm
    apply storedAs_movement
    intro hb
    exact (pendingMovement_eq_ok hmove).2.2.1.trans (balancingAmount_of_not_balancing hb _ _)
  | post =>
    simp only [hkind] at h
    have hpost : classify t = TransferOp.ofPost true := hkind
    exact storedAs_of_resolution hpost h timestamp
  | void =>
    simp only [hkind] at h
    have hvoid : classify t = TransferOp.ofPost false := hkind
    exact storedAs_of_resolution hvoid h timestamp

end

theorem not_isResolution_of_balancing {t : Transfer} (hw : WellFormed t)
    (hb : t.balancing = true) : t.flags.isResolution = false := by
  have hx := hw.exclusive
  have hb : (t.flags.contains .balancingDebit || t.flags.contains .balancingCredit) = true := hb
  unfold TransferFlags.isMutuallyExclusiveViolation at hx
  dsimp only at hx
  rw [hb] at hx
  revert hx
  unfold TransferFlags.isResolution
  cases t.flags.contains .pending <;> cases t.flags.contains .postPendingTransfer <;>
    cases t.flags.contains .voidPendingTransfer <;> simp

theorem transferExistsResult_eq_exists {t r : Transfer} :
    transferExistsResult t r = .exists_ ↔
      t.flags = r.flags ∧ t.pendingId = r.pendingId ∧ t.timeout = r.timeout ∧
      differs 0 t.flags.isResolution t.debitAccountId r.debitAccountId = false ∧
      differs 0 t.flags.isResolution t.creditAccountId r.creditAccountId = false ∧
      differs t.amountWildcard t.flags.isResolution t.amount r.amount = false ∧
      differs 0 t.flags.isResolution t.userData128 r.userData128 = false ∧
      differs 0 t.flags.isResolution t.userData64 r.userData64 = false ∧
      differs 0 t.flags.isResolution t.userData32 r.userData32 = false ∧
      differs 0 t.flags.isResolution t.ledger r.ledger = false ∧
      differs 0 t.flags.isResolution t.code r.code = false := by
  unfold transferExistsResult
  dsimp only
  rw [Option.getD_eq_iff]
  constructor
  · rintro (hsome | ⟨hnone, -⟩)
    · simpa using mem_of_firstFailing_eq_some hsome
    · simpa [firstFailing_eq_none, Transfer.amountWildcard] using hnone
  · intro h
    refine Or.inr ⟨?_, rfl⟩
    simpa [firstFailing_eq_none, Transfer.amountWildcard] using h

/-- Only the amount of a balancing transfer can tell a record from what it was
submitted as. -/
theorem StoredAs.exists_iff {t r : Transfer} (h : StoredAs t r) (hw : WellFormed t) :
    transferExistsResult t r = .exists_ ↔ (t.balancing = true → r.amount = t.amount) := by
  rw [transferExistsResult_eq_exists]
  constructor
  · rintro ⟨-, -, -, -, -, hamount, -⟩ hb
    rw [not_isResolution_of_balancing hw hb] at hamount
    have heq : t.amount = r.amount := by simpa [differs] using hamount
    exact heq.symm
  · intro hamount
    refine ⟨h.flags.symm, h.pendingId.symm, h.timeout.symm, h.debit, h.credit, ?_, h.userData128,
      h.userData64, h.userData32, h.ledger, h.code⟩
    cases hb : t.balancing with
    | false => exact h.amount hb
    | true => rw [hamount hb, differs_self]

/-- Every created item passed the checks and is in the store as what it was
submitted as; every known item has an equal record there. -/
structure Leaves (batchImported : Bool) (now : ℕ) (b : Book)
    (ps : List (Transfer × CreateTransferResult)) (b' : Book) : Prop where
  kept : Kept b b'
  created : ∀ p ∈ ps, p.2 = .created →
    validateTransferPreExistence p.1 batchImported now = none ∧ WellFormed p.1 ∧
      ∃ r, b'.store.transfers p.1.id = some r ∧ StoredAs p.1 r
  known : ∀ p ∈ ps, p.2 = .exists_ →
    ∃ r, b'.store.transfers p.1.id = some r ∧ transferExistsResult p.1 r = .exists_

section

variable {backstop : Transfer → ℕ → Bool} {batchImported : Bool} {now : ℕ} {b b' : Book}

theorem Leaves.nil (b : Book) : Leaves batchImported now b [] b :=
  ⟨Kept.refl b, by simp, by simp⟩

theorem Leaves.trans {b₁ b₂ b₃ : Book} {ps qs : List (Transfer × CreateTransferResult)}
    (h : Leaves batchImported now b₁ ps b₂) (h' : Leaves batchImported now b₂ qs b₃) :
    Leaves batchImported now b₁ (ps ++ qs) b₃ := by
  refine ⟨h.kept.trans h'.kept, ?_, ?_⟩
  · intro p hp hr
    rcases List.mem_append.mp hp with hp | hp
    · obtain ⟨hpre, hw, r, hstored, hr⟩ := h.created p hp hr
      exact ⟨hpre, hw, r, h'.kept _ _ hstored, hr⟩
    · exact h'.created p hp hr
  · intro p hp hr
    rcases List.mem_append.mp hp with hp | hp
    · obtain ⟨r, hstored, hr⟩ := h.known p hp hr
      exact ⟨r, h'.kept _ _ hstored, hr⟩
    · exact h'.known p hp hr

theorem Leaves.of_kept {ps : List (Transfer × CreateTransferResult)} {b₁ b₂ : Book}
    (h : Leaves batchImported now b₁ ps b₂) (hk : Kept b₂ b') :
    Leaves batchImported now b₁ ps b' := by
  have htail : Leaves batchImported now b₂ [] b' := ⟨hk, by simp, by simp⟩
  simpa using h.trans htail

theorem Verdict.leaves {t : Transfer} {r : CreateTransferResult}
    (h : Verdict backstop batchImported now b t r b') (hr : r = .created ∨ r = .exists_) :
    Leaves batchImported now b [(t, r)] b' := by
  cases h with
  | malformed hpre =>
    have hmem := mem_of_firstFailing_eq_some hpre
    rcases hr with rfl | rfl <;> simp at hmem
  | @known existing _ hstored =>
    refine ⟨Kept.refl b, ?_, ?_⟩
    · intro p hp hcreated
      rw [List.mem_singleton.mp hp] at hcreated
      exact absurd hcreated (transferExistsResult_ne_created t existing)
    · intro p hp hexists
      rw [List.mem_singleton.mp hp] at hexists ⊢
      exact ⟨existing, hstored, hexists⟩
  | burned _ _ _ => simp at hr
  | illFormed _ _ _ hpost =>
    have hmem := mem_of_firstFailing_eq_some hpost
    rcases hr with rfl | rfl <;> simp at hmem
  | refused _ _ _ _ hdec =>
    have hnot := refused_code hdec
    rcases hr with rfl | rfl <;> simp at hnot
  | @created e hpre hfresh _ hpost hdec =>
    have hid : e.record.id = t.id := (decideTransfer_record hdec).1
    refine ⟨?_, ?_, ?_⟩
    · apply Kept.file
      exact hid ▸ hfresh
    · intro p hp _
      rw [List.mem_singleton.mp hp]
      refine ⟨hpre, wellFormed_of_validate hpost,
        { e.record with
          timestamp := assignedTimestamp batchImported now b.store.getWatermark t.timestamp },
        ?_, storedAs_of_decide hdec _⟩
      simp [Book.accept, ← hid]
    · intro p hp hexists
      rw [List.mem_singleton.mp hp] at hexists
      simp at hexists

theorem TransferCall.leaves {transfers : List Transfer} {swept : Store}
    {results : List CreateTransferResult}
    (h : TransferCall backstop b now transfers swept results b') :
    Leaves (transfersImported transfers) now ⟨swept, b.log⟩ (transfers.zip results) b' := by
  have hunsettled : ∀ {b : Book} {ps : List (Transfer × CreateTransferResult)},
      (∀ p ∈ ps, (bookTransferOps backstop (transfersImported transfers) now).settled p.2 =
        false) → Leaves (transfersImported transfers) now b ps b := by
    intro b ps hps
    refine ⟨Kept.refl b, ?_, ?_⟩
    · intro p hp hr
      have hset := hps p hp
      simp [hr, bookTransferOps_settled] at hset
    · intro p hp hr
      have hset := hps p hp
      simp [hr, bookTransferOps_settled] at hset
  have hitem : ∀ {b : Book} {t : Transfer} {r : CreateTransferResult} {b₁ : Book}
      {ps : List (Transfer × CreateTransferResult)} {b' : Book},
      b.transfer backstop (transfersImported transfers) now t = .ok (r, b₁) →
      (bookTransferOps backstop (transfersImported transfers) now).settled r = true →
      Leaves (transfersImported transfers) now b₁ ps b' →
      Leaves (transfersImported transfers) now b ((t, r) :: ps) b' := by
    intro b t r b₁ ps b' hp hr hrest
    rw [bookTransferOps_settled] at hr
    have hcases : r = .created ∨ r = .exists_ := by simpa using hr
    exact ((Book.transfer_verdict hp).leaves hcases).trans hrest
  have htrace := (bookTransferOps_exact backstop (transfersImported transfers)
    now).runSegments_rule (S := Leaves (transfersImported transfers) now)
    (T := Leaves (transfersImported transfers) now) rfl rfl Leaves.nil Leaves.trans
    Leaves.nil (fun hp hr h => hitem hp hr h) hunsettled (fun h => h.of_kept (fun _ _ h => h))
    (fun seg hseg => segments_items_ne_nil transferLinked hseg) h.run
  rwa [flatMap_segments] at htrace

end

/-- An earlier call, at clock reading `now₀` and with a batch of the given
imported-ness, was given `t` and created it. -/
def AcceptedBefore (s : Store) (imported : Bool) (now₀ : ℕ) (t : Transfer) : Prop :=
  ∃ s₀ batch results s₁, Reachable s₀ ∧ createTransfers s₀ now₀ batch = .ok (results, s₁) ∧
    transfersImported batch = imported ∧ (t, CreateTransferResult.created) ∈ batch.zip results ∧
    Calls s₁ s

/-- The checks before the lookup, once passed, are passed at every later clock reading. -/
theorem validateTransferPreExistence_mono {t : Transfer} {imported : Bool} {now₀ now : ℕ}
    (hle : now₀ ≤ now) (h : validateTransferPreExistence t imported now₀ = none) :
    validateTransferPreExistence t imported now = none := by
  unfold validateTransferPreExistence at h ⊢
  simp only [firstFailing_eq_none, List.forall_mem_cons, Bool.and_eq_false_iff,
    decide_eq_false_iff_not, not_lt] at h ⊢
  obtain ⟨hexp, hnot, hrange, hadv, hrest⟩ := h
  exact ⟨hexp, hnot, hrange, hadv.imp_right fun h => h.trans hle, hrest⟩

/-- What is left of an earlier acceptance: a resubmission gets as far as the
lookup, and finds the record. -/
structure Resubmittable (s : Store) (imported : Bool) (now : ℕ) (t : Transfer) : Prop where
  pre : validateTransferPreExistence t imported now = none
  wellFormed : WellFormed t
  stored : ∃ r, s.transfers t.id = some r ∧ StoredAs t r

theorem AcceptedBefore.resubmittable {s : Store} {imported : Bool} {now₀ now : ℕ} {t : Transfer}
    (h : AcceptedBefore s imported now₀ t) (hle : now₀ ≤ now) :
    Resubmittable s imported now t := by
  obtain ⟨s₀, batch, results, s₁, hreach, hcall, rfl, hmem, hcalls⟩ := h
  obtain ⟨swept, b', rfl, hrun⟩ := hreach.inv.transferCall [] hcall
  obtain ⟨hpre, hwell, r, hstored, hr⟩ := hrun.leaves.created _ hmem rfl
  have hreach₁ : Reachable b'.store := hreach.tail (.transfers hcall)
  exact ⟨validateTransferPreExistence_mono hle hpre, hwell, r, hreach₁.kept hcalls hstored, hr⟩

def Unreduced (s : Store) (t : Transfer) : Prop :=
  ∀ r, s.transfers t.id = some r → t.balancing = true → r.amount = t.amount

/-- Wherever in a batch a resubmission stands, it is compared with the committed
record, and changes nothing. -/
theorem Resubmittable.processTransfer {s : Store} {imported : Bool} {now : ℕ} {t : Transfer}
    (h : Resubmittable s imported now t) (hu : Unreduced s t) (w : TransferWork) :
    processTransfer lazilyExpired s imported now w t = .ok (.exists_, w) := by
  obtain ⟨r, hstored, hr⟩ := h.stored
  have hexists : transferExistsResult t r = .exists_ :=
    (hr.exists_iff h.wellFormed).mpr (hu r hstored)
  simp [Ledger.processTransfer, h.pre, hstored, hexists]

theorem transferOps_finish_exists (s : Store) (imported : Bool) (now : ℕ) (w : TransferWork)
    {ps : List (Transfer × CreateTransferResult)} (h : ∀ p ∈ ps, p.2 = .exists_) :
    (transferOps lazilyExpired s imported now).finish w ps = w := by
  have hnone : burnedIds ps = ∅ := by
    rw [Finset.eq_empty_iff_forall_notMem]
    intro id hid
    obtain ⟨p, hp, hburn, -⟩ := mem_burnedIds.mp hid
    rw [h p hp] at hburn
    simp [transferBurnsId] at hburn
  simp [transferOps, hnone]

theorem applyTransfers_eq_run {s : Store} {now : ℕ} {imported : Bool} {batch : List Transfer}
    (h : ∀ t ∈ batch.head?, t.flags.contains .imported = imported) :
    applyTransfersWith lazilyExpired s now batch =
      (sweepExpired s now .default >>= fun state =>
        (transferOps lazilyExpired s imported now).runSegments (segments transferLinked batch)
          ⟨⟨s.getWatermark⟩, state, fun _ => none, [], ∅⟩) := by
  unfold applyTransfersWith
  rw [chainSegments_eq]
  cases batch with
  | nil => rfl
  | cons t rest =>
    have himp : transfersImported (t :: rest) = imported := h t (by simp)
    rw [himp]

theorem Resubmittable.imported {s : Store} {imported : Bool} {now : ℕ} {t : Transfer}
    (h : Resubmittable s imported now t) : t.flags.contains .imported = imported := by
  have hpre := h.pre
  unfold validateTransferPreExistence at hpre
  simp only [firstFailing_eq_none, List.forall_mem_cons] at hpre
  obtain ⟨hexpected, hnot, -⟩ := hpre
  revert hexpected hnot
  cases imported <;> cases t.flags.contains .imported <;> simp

/-- Chains that can be added anywhere in a batch: their items are known, and the
items around them and the store fare as without them. -/
def Inert (s : Store) (imported : Bool) (now : ℕ) (replay : List Transfer) : Prop :=
  ∀ before after : List Transfer,
    (∀ t ∈ before.getLast?, t.flags.contains .linked = false) →
    (∀ t ∈ (before ++ after).head?, t.flags.contains .imported = imported) →
    ∃ r₁ r₂ s', r₁.length = before.length ∧ r₂.length = after.length ∧
      createTransfers s now (before ++ after) = .ok (r₁ ++ r₂, s') ∧
      createTransfers s now (before ++ replay ++ after) =
        .ok (r₁ ++ List.replicate replay.length .exists_ ++ r₂, s')

/-- What a sender may expect of transfers that it submits again: each is known
wherever in a batch it is handled, together they make no difference to a batch,
and alone they leave a store as it is in which nothing is due for the sweep. -/
structure Replayed (s : Store) (imported : Bool) (now : ℕ) (replay : List Transfer) : Prop where
  handled : ∀ t ∈ replay, ∀ w,
    processTransfer lazilyExpired s imported now w t = .ok (.exists_, w)
  inert : Inert s imported now replay
  alone : Clear now s →
    createTransfers s now replay = .ok (List.replicate replay.length .exists_, s)

section

variable {s : Store} {imported : Bool} {now : ℕ} {replay : List Transfer}

theorem Inert.alone (h : Inert s imported now replay) :
    ∃ s', createTransfers s now [] = .ok ([], s') ∧
      createTransfers s now replay = .ok (List.replicate replay.length .exists_, s') := by
  obtain ⟨r₁, r₂, s', h₁, h₂, hempty, hreplay⟩ := h [] [] (by simp) (by simp)
  rw [List.length_eq_zero_iff.mp h₁, List.length_eq_zero_iff.mp h₂] at hempty hreplay
  exact ⟨s', hempty, by simpa using hreplay⟩

theorem inert_of_unreduced (hs : Inv s) (h : ∀ t ∈ replay, Resubmittable s imported now t)
    (hlast : ∀ t ∈ replay.getLast?, t.flags.contains .linked = false)
    (hu : ∀ t ∈ replay, Unreduced s t) : Inert s imported now replay := by
  intro before after hbefore himp
  obtain ⟨-, results, w, happly, -⟩ := exists_transferCall lazilyExpired hs [] now (before ++ after)
  have happly' := happly
  rw [applyTransfers_eq_run himp, bind_eq_ok] at happly
  obtain ⟨state, hsweep, hrun⟩ := happly
  obtain ⟨r₁, r₂, rfl, hlen₁, hlen₂, hrun'⟩ := BatchOps.runSegments_insert _ rfl
    (fun w _ => transferOps_finish_exists s imported now w) hbefore hlast
    (fun t ht w => (h t ht).processTransfer (hu t ht) w) hrun
  have himp' : ∀ t ∈ (before ++ replay ++ after).head?, t.flags.contains .imported = imported := by
    cases before with
    | cons u before => simpa using himp
    | nil =>
      cases replay with
      | nil => simpa using himp
      | cons u replay => simpa using (h u (by simp)).imported
  refine ⟨r₁, r₂, commitTransfers s w, hlen₁, hlen₂,
    createTransfersWith_eq_ok.mpr ⟨w, happly', rfl⟩,
    createTransfersWith_eq_ok.mpr ⟨w, ?_, rfl⟩⟩
  rw [applyTransfers_eq_run himp', bind_eq_ok]
  exact ⟨state, hsweep, hrun'⟩

/-- Where the codes of a call are all `exists`, no amount was reduced. -/
theorem unreduced_of_exists (hs : Inv s) (h : ∀ t ∈ replay, Resubmittable s imported now t)
    {results : List CreateTransferResult} {s' : Store}
    (hcall : createTransfers s now replay = .ok (results, s'))
    (hresults : ∀ r ∈ results, r = .exists_) : ∀ t ∈ replay, Unreduced s t := by
  obtain ⟨swept, b', rfl, hrun⟩ := hs.transferCall [] hcall
  intro t ht r hstored
  obtain ⟨r', hstored', hstoredAs⟩ := (h t ht).stored
  rw [hstored] at hstored'
  cases hstored'
  obtain ⟨i, hi, rfl⟩ := List.getElem_of_mem ht
  have hi' : i < results.length := hrun.length ▸ hi
  have hmem : (replay[i], results[i]) ∈ replay.zip results := by
    rw [List.mem_iff_getElem]
    exact ⟨i, by simp [hi, hi'], by simp⟩
  obtain ⟨r', hr', hexists⟩ := hrun.leaves.known _ hmem (hresults _ (List.getElem_mem hi'))
  have hkept : b'.store.transfers replay[i].id = some r := by
    apply hrun.leaves.kept
    rw [hrun.frame.transfers]
    exact hstored
  rw [hkept] at hr'
  cases hr'
  exact (hstoredAs.exists_iff (h _ ht).wellFormed).mp hexists

end

/-- A replay is idempotent exactly when no balancing amount in it was reduced. -/
theorem replay_idempotent_iff {s : Store} (h : Reachable s) {imported : Bool} {now : ℕ}
    {replay : List Transfer}
    (haccepted : ∀ t ∈ replay, ∃ now₀ ≤ now, AcceptedBefore s imported now₀ t)
    (hlast : ∀ t ∈ replay.getLast?, t.flags.contains .linked = false) :
    (Replayed s imported now replay ↔ ∀ t ∈ replay, Unreduced s t) ∧
    ∀ results s', createTransfers s now replay = .ok (results, s') →
      ((∀ r ∈ results, r = .exists_) ↔ ∀ t ∈ replay, Unreduced s t) := by
  have hre : ∀ t ∈ replay, Resubmittable s imported now t := by
    intro t ht
    obtain ⟨now₀, hle, hacc⟩ := haccepted t ht
    exact hacc.resubmittable hle
  have hinert : (∀ t ∈ replay, Unreduced s t) → Inert s imported now replay :=
    inert_of_unreduced h.inv hre hlast
  refine ⟨⟨?_, ?_⟩, ?_⟩
  · intro hr
    obtain ⟨s', -, hcall⟩ := hr.inert.alone
    exact unreduced_of_exists h.inv hre hcall (fun r hr => List.eq_of_mem_replicate hr)
  · intro hu
    refine ⟨fun t ht w => (hre t ht).processTransfer (hu t ht) w, hinert hu, ?_⟩
    intro hclear
    have hrun : (bookTransferOps lazilyExpired imported now).runSegments
        (segments transferLinked []) ⟨s, []⟩ = .ok ([], ⟨s, []⟩) := rfl
    have hnothing : createTransfers s now [] = .ok ([], s) :=
      createTransfers_of_run h.inv (sweep_of_clear hclear) (by simp) hrun
    obtain ⟨s', hempty, hcall⟩ := (hinert hu).alone
    rw [hnothing] at hempty
    cases hempty
    exact hcall
  · intro results s' hcall
    refine ⟨unreduced_of_exists h.inv hre hcall, ?_⟩
    intro hu r hr
    obtain ⟨s'', -, hcall'⟩ := (hinert hu).alone
    rw [hcall] at hcall'
    cases hcall'
    exact List.eq_of_mem_replicate hr

/-- Account 1 has twenty to spare when it is asked for two hundred. -/
def sampleBalancing : Transfer := sampleTransfer 105 1 2 200 .balancingDebit

def sampleBalanced : Book := sampleReserved.callTransfers 30 [sampleBalancing]

theorem sampleBalanced_accepted :
    AcceptedBefore sampleBalanced.store false 30 sampleBalancing := by
  refine ⟨sampleReserved.store, [sampleBalancing], [.created], sampleBalanced.store,
    sampleReserved_reachable, createTransfers_callTransfers (by decide), by decide,
    by simp, .refl⟩

theorem sampleBalanced_reachable : Reachable sampleBalanced.store :=
  reachable_iff_history.mpr ⟨_, sampleReserved_history.callTransfers 30 _⟩

/-- Its identical retry is answered as if it were another transfer. -/
theorem replay_balancing_differs :
    Reachable sampleBalanced.store ∧
    AcceptedBefore sampleBalanced.store false 30 sampleBalancing ∧
    (createTransfers sampleBalanced.store 40 [sampleBalancing]).toOption.map Prod.fst =
      some [.existsWithDifferentAmount] :=
  ⟨sampleBalanced_reachable, sampleBalanced_accepted, by decide +kernel⟩

theorem sampleReserved_accepted :
    ∀ t ∈ [sampleTransfer 100 2 1 50 .none,
        { sampleTransfer 101 1 2 30 .pending with timeout := 1 }],
      AcceptedBefore sampleReserved.store false 20 t := by
  intro t ht
  refine ⟨sampleOpened.store, _, [.created, .created], sampleReserved.store,
    reachable_iff_history.mpr ⟨_, sampleOpened_history⟩,
    createTransfers_callTransfers (by decide), by decide, ?_, .refl⟩
  simpa using ht

theorem replay_idempotent_iff_sample :
    Replayed sampleReserved.store false 30 [sampleTransfer 100 2 1 50 .none,
        { sampleTransfer 101 1 2 30 .pending with timeout := 1 }] ∧
      ¬ Replayed sampleBalanced.store false 40 [sampleBalancing] := by
  constructor
  · refine (replay_idempotent_iff sampleReserved_reachable ?_ (by decide)).1.mpr ?_
    · intro t ht
      exact ⟨20, by omega, sampleReserved_accepted t ht⟩
    · intro t ht r _ hb
      have hnot : ∀ t ∈ [sampleTransfer 100 2 1 50 .none,
          { sampleTransfer 101 1 2 30 .pending with timeout := 1 }], t.balancing = false := by
        decide
      rw [hnot t ht] at hb
      simp at hb
  · intro hr
    have hu := (replay_idempotent_iff sampleBalanced_reachable ?_ (by decide)).1.mp hr
      sampleBalancing (by simp)
    · have hstored : (sampleBalanced.store.transfers 105).map Transfer.amount = some 20 := by
        decide +kernel
      obtain ⟨r, hstored, hamount⟩ := Option.map_eq_some_iff.mp hstored
      have heq := hu r hstored (by decide)
      rw [hamount] at heq
      exact absurd heq (by decide)
    · intro t ht
      rw [List.mem_singleton.mp ht]
      exact ⟨30, by omega, sampleBalanced_accepted⟩

end BlueDB.Ledger
