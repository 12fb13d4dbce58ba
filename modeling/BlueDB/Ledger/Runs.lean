import BlueDB.Ledger.Balances
import BlueDB.Ledger.Refinement

/-!
# Runs of the ledger

On a store that satisfies the invariant no call can fail, a call is a sequence
of steps, and the invariant holds again after it. A history is any sequence of
`createAccounts` and `createTransfers` calls from the empty store, at any clock
readings, together with the log of what was accepted.
-/

namespace BlueDB.Ledger

/-- The invariant that makes every call succeed. -/
structure Inv (s : Store) : Prop where
  sound : Sound s
  balanced : Balanced s
  limited : AllLimited s

theorem Inv.empty : Inv .empty := ⟨.empty, .empty, .empty⟩

theorem Inv.step {now : ℕ} {b b' : Book} (h : Inv b.store) (hs : Step now b b') : Inv b'.store :=
  ⟨h.sound.step hs, h.balanced.step h.sound hs, h.limited.step hs⟩

theorem Inv.steps {now : ℕ} {b b' : Book} (h : Inv b.store) (hs : Steps now b b') :
    Inv b'.store := by
  induction hs with
  | refl => exact h
  | tail _ hstep ih => exact ih.step hstep

theorem Inv.wellKeyed {s : Store} (h : Inv s) : WellKeyed s := by
  refine ⟨h.sound.transferKeys, ?_⟩
  intro key hkey
  obtain ⟨t, ht, rfl⟩ := (h.sound.expiry key).mp hkey
  rw [pendingId_pendingKey, ht.stored]
  rfl

/-- An unresolved pending has both its accounts and its reservation on them. -/
theorem Inv.outstanding {s : Store} (h : Inv s) {pending : Transfer}
    (hstored : s.transfers pending.id = some pending)
    (hp : pending.flags.contains .pending = true) (hres : s.pendingStates pending.id = none) :
    ∃ debit credit, Outstanding s pending debit credit := by
  obtain ⟨debit, hd⟩ := Option.isSome_iff_exists.mp (h.sound.debitAccount _ _ hstored)
  obtain ⟨credit, hc⟩ := Option.isSome_iff_exists.mp (h.sound.creditAccount _ _ hstored)
  have hj : outstandingJournal s pending.id = some (posting pending) := by
    simp [outstandingJournal, hstored, hp, hres]
  refine ⟨debit, credit, ⟨hd, hc⟩, hstored, hp, hres, ?_, ?_⟩
  · rw [(h.balanced _ _ hd).debitsPending]
    exact Journal.amount_le_turnover Posting.debit _ hj
  · rw [(h.balanced _ _ hc).creditsPending]
    exact Journal.amount_le_turnover Posting.credit _ hj

theorem Inv.decideResolution {s : Store} (h : Inv s) (backstop : Transfer → ℕ → Bool)
    (t : Transfer) (post : Bool) (now : ℕ) (importedTs : Option ℕ) (lastTs : ℕ) :
    ∃ outcome, decideResolution backstop s t post now importedTs lastTs = .ok outcome := by
  unfold Ledger.decideResolution
  split
  · exact ⟨_, rfl⟩
  rename_i pending hpending
  split
  · exact ⟨_, rfl⟩
  rename_i hfields
  split
  · exact ⟨_, rfl⟩
  split
  · exact ⟨_, rfl⟩
  rename_i hprior
  by_cases hb : backstop pending now = true
  · rw [if_pos hb]
    exact ⟨_, rfl⟩
  rw [if_neg hb]
  obtain ⟨debit, credit, ho⟩ := h.outstanding (h.sound.stored hpending)
    (pendingFieldChecks_eq_none hfields).reserve (priorResolution_eq_none.mp hprior)
  rw [ho.debitAccount, ho.creditAccount]
  dsimp only
  split
  · rename_i e hmove
    obtain ⟨outcome, houtcome⟩ := exists_resolutionMovement ho.debitReserved ho.creditReserved
      post _ importedTs lastTs
    rw [hmove] at houtcome
    cases houtcome
  · exact ⟨_, rfl⟩
  · exact ⟨_, rfl⟩

theorem Inv.decideTransfer {s : Store} (h : Inv s) (backstop : Transfer → ℕ → Bool)
    (batchImported : Bool) (now : ℕ) (t : Transfer) :
    ∃ outcome, decideTransfer backstop batchImported now s t = .ok outcome := by
  unfold Ledger.decideTransfer
  dsimp only
  split
  · exact ⟨_, rfl⟩
  · exact ⟨_, rfl⟩
  · exact h.decideResolution backstop t true now _ _
  · exact h.decideResolution backstop t false now _ _

section

variable {backstop : Transfer → ℕ → Bool} {batchImported : Bool} {now : ℕ} {b b' : Book}

/-- Transfer records are never overwritten or removed. -/
def Kept (b b' : Book) : Prop :=
  ∀ id t, b.store.transfers id = some t → b'.store.transfers id = some t

theorem Kept.refl (b : Book) : Kept b b := fun _ _ h => h

theorem Kept.trans {b₁ b₂ b₃ : Book} (h : Kept b₁ b₂) (h' : Kept b₂ b₃) : Kept b₁ b₃ :=
  fun id t ht => h' id t (h id t ht)

theorem Kept.file {e : Effect} (h : b.store.transfers e.record.id = none) : Kept b (b.file e) := by
  intro id t ht
  have hne : id ≠ e.record.id := by
    rintro rfl
    rw [h] at ht
    simp at ht
  rw [Book.file, Store.enact_transfers, put_of_ne hne]
  exact ht

theorem Step.kept (h : Step now b b') : Kept b b' := by
  cases h with
  | opened _ => exact Kept.refl b
  | moved hm => exact Kept.file hm.fresh
  | reserved hr => exact Kept.file hr.fresh
  | settled hs => exact Kept.file hs.fresh
  | expired _ _ _ =>
    intro id t ht
    rw [Store.expire_transfers]
    exact ht
  | burned _ => exact Kept.refl b

theorem Steps.kept (h : Steps now b b') : Kept b b' := by
  induction h with
  | refl => exact Kept.refl b
  | tail _ hs ih => exact ih.trans hs.kept

theorem refused_code {t : Transfer} {code : CreateTransferResult}
    (h : decideTransfer backstop batchImported now b.store t = .ok (.error code)) :
    code ∉ [CreateTransferResult.created, .exists_, .linkedEventFailed] := by
  rcases decideTransfer_eq_error h with ⟨_, _, hcheck⟩ | hmem
  · unfold importedTransferChecks at hcheck
    obtain ⟨its, -, hcheck⟩ := Option.bind_eq_some_iff.mp hcheck
    have hmem := mem_of_firstFailing_eq_some hcheck
    simp only [List.map_cons, List.map_nil, List.mem_cons, List.not_mem_nil, or_false] at hmem
    rcases hmem with rfl | rfl | rfl | rfl <;> simp
  · have hnot : ∀ c ∈ refusalCodes,
        c ∉ [CreateTransferResult.created, .exists_, .linkedEventFailed] := by decide
    exact hnot code hmem

/-- The answers to an id that is already stored. -/
def existsCodes : List CreateTransferResult :=
  [.existsWithDifferentFlags, .existsWithDifferentPendingId, .existsWithDifferentTimeout,
    .existsWithDifferentDebitAccountId, .existsWithDifferentCreditAccountId,
    .existsWithDifferentAmount, .existsWithDifferentUserData128, .existsWithDifferentUserData64,
    .existsWithDifferentUserData32, .existsWithDifferentLedger, .existsWithDifferentCode, .exists_]

theorem transferExistsResult_mem (t existing : Transfer) :
    transferExistsResult t existing ∈ existsCodes := by
  unfold transferExistsResult
  dsimp only
  cases h : firstFailing _ with
  | none => simp [existsCodes]
  | some code =>
    have hmem := mem_of_firstFailing_eq_some h
    simp only [List.map_cons, List.map_nil, List.mem_cons, List.not_mem_nil, or_false] at hmem
    simp only [Option.getD_some, existsCodes, List.mem_cons]
    tauto

theorem transferExistsResult_ne_created (t existing : Transfer) :
    transferExistsResult t existing ≠ .created := by
  intro hcreated
  have hmem := transferExistsResult_mem t existing
  rw [hcreated] at hmem
  simp [existsCodes] at hmem

/-- An item either leaves the book alone without being created, or is created by a step. -/
theorem Verdict.cases {t : Transfer} {r : CreateTransferResult} (hsound : Sound b.store)
    (h : Verdict backstop batchImported now b t r b') :
    (r ≠ .created ∧ b' = b) ∨ (r = .created ∧ Step now b b') := by
  cases h with
  | malformed hpre =>
    refine Or.inl ⟨?_, rfl⟩
    rintro rfl
    simpa using mem_of_firstFailing_eq_some hpre
  | known _ _ => exact Or.inl ⟨transferExistsResult_ne_created _ _, rfl⟩
  | burned _ _ _ => exact Or.inl ⟨by simp, rfl⟩
  | illFormed _ _ _ hpost =>
    refine Or.inl ⟨?_, rfl⟩
    rintro rfl
    simpa using mem_of_firstFailing_eq_some hpost
  | refused _ _ _ _ hdec =>
    refine Or.inl ⟨?_, rfl⟩
    rintro rfl
    simpa using refused_code hdec
  | created _ hfresh hfailed hpost hdec =>
    exact Or.inr ⟨rfl, step_of_decide hsound.transferKeys hfresh hfailed hpost hdec⟩

theorem Verdict.fresh_of_burns {t : Transfer} {r : CreateTransferResult}
    (h : Verdict backstop batchImported now b t r b') (hr : transferBurnsId r = true) :
    b.store.transfers t.id = none ∧ t.id ∉ b.store.failed := by
  have hnot : ∀ {checks : List (Bool × CreateTransferResult)} {code : CreateTransferResult},
      firstFailing checks = some code → (∀ c ∈ checks.map Prod.snd, transferBurnsId c = false) →
      transferBurnsId code = false := fun hf hall => hall _ (mem_of_firstFailing_eq_some hf)
  cases h with
  | malformed hpre =>
    rw [hnot hpre (by simp [transferBurnsId])] at hr
    simp at hr
  | @known existing _ _ =>
    have hall : ∀ c ∈ existsCodes, transferBurnsId c = false := by decide
    rw [hall _ (transferExistsResult_mem t existing)] at hr
    simp at hr
  | burned _ _ _ => simp [transferBurnsId] at hr
  | illFormed _ hfresh hfailed _ | refused _ hfresh hfailed _ _ | created _ hfresh hfailed _ _ =>
    exact ⟨hfresh, hfailed⟩

theorem bookTransferOps_settled (r : CreateTransferResult) :
    (bookTransferOps backstop batchImported now).settled r = (r == .created || r == .exists_) :=
  rfl

theorem bookTransferOps_exact (backstop : Transfer → ℕ → Bool) (batchImported : Bool) (now : ℕ) :
    (bookTransferOps backstop batchImported now).Exact where
  inert := by
    intro b t r b' hp hr
    rw [bookTransferOps_settled] at hr
    have hverdict := Book.transfer_verdict hp
    cases hverdict with
    | malformed _ => rfl
    | known _ _ => rfl
    | burned _ _ _ => rfl
    | illFormed _ _ _ _ => rfl
    | refused _ _ _ _ _ => rfl
    | created _ _ _ _ _ => simp at hr
  rollback _ _ := rfl

section

variable {Q : Book → Prop}
  (hQ : ∀ {b b' : Book}, Inv b.store → Q b → Step now b b' → Q b')

include hQ

/-- Handling items keeps the invariant together with whatever every step keeps. -/
theorem bookTransferOps_keeps (backstop : Transfer → ℕ → Bool) (batchImported : Bool) :
    (bookTransferOps backstop batchImported now).Keeps (fun b => Inv b.store ∧ Q b) Kept where
  refl := Kept.refl
  process := by
    rintro b t ⟨hinv, hq⟩
    obtain ⟨r, b', hp⟩ := Book.exists_transfer (b := b) (t := t) fun _ =>
      hinv.decideTransfer backstop batchImported now t
    refine ⟨r, b', hp, ?_⟩
    rcases (Book.transfer_verdict hp).cases hinv.sound with ⟨-, rfl⟩ | ⟨-, hstep⟩
    · exact ⟨⟨hinv, hq⟩, fun _ h => h⟩
    · exact ⟨⟨hinv.step hstep, hQ hinv hq hstep⟩, fun _ h => h.trans hstep.kept⟩

end

theorem mem_burnedIds {ps : List (Transfer × CreateTransferResult)} {id : U128} :
    id ∈ burnedIds ps ↔ ∃ p ∈ ps, transferBurnsId p.2 = true ∧ p.1.id = id := by
  simp only [burnedIds, List.mem_toFinset, List.mem_map, List.mem_filter, and_assoc]

theorem fresh_of_burned {P : Book → Prop} {ps : List (Transfer × CreateTransferResult)}
    (h : ∀ p ∈ ps, (bookTransferOps backstop batchImported now).Answer P Kept b p.1 p.2) :
    ∀ id ∈ burnedIds ps, b.store.transfers id = none := by
  intro id hid
  obtain ⟨⟨t, r⟩, hp, hburn, rfl⟩ := mem_burnedIds.mp hid
  dsimp only at hburn ⊢
  rcases h _ hp with hset | rfl | rfl | ⟨b₁, b₂, -, hkept, hproc⟩
  · rw [bookTransferOps_settled] at hset
    have hcases : r = .created ∨ r = .exists_ := by simpa using hset
    rcases hcases with rfl | rfl <;> simp [transferBurnsId] at hburn
  · simp [bookTransferOps, transferBurnsId] at hburn
  · simp [bookTransferOps, transferBurnsId] at hburn
  · have hfresh := ((Book.transfer_verdict hproc).fresh_of_burns hburn).1
    by_contra hne
    obtain ⟨t', ht'⟩ := Option.ne_none_iff_exists'.mp hne
    rw [hkept _ _ ht'] at hfresh
    simp at hfresh

theorem bookTransferOps_finish {Q : Book → Prop}
    (hQ : ∀ {b b' : Book}, Inv b.store → Q b → Step now b b' → Q b') {b₁ : Book}
    {ps : List (Transfer × CreateTransferResult)} (h : Inv b₁.store ∧ Q b₁)
    (ha : ∀ p ∈ ps, (bookTransferOps backstop batchImported now).Answer
      (fun b => Inv b.store ∧ Q b) Kept b₁ p.1 p.2) :
    Inv (b₁.store.burn (burnedIds ps)) ∧ Q { b₁ with store := b₁.store.burn (burnedIds ps) } := by
  have hstep : Step now b₁ { b₁ with store := b₁.store.burn (burnedIds ps) } :=
    .burned (fresh_of_burned ha)
  exact ⟨h.1.step hstep, hQ h.1 h.2 hstep⟩

/-- Where a result code comes from: a settled item, a rolled-back chain, or the
answer to the item in a book reached from `b`. -/
def Answered (backstop : Transfer → ℕ → Bool) (batchImported : Bool) (now : ℕ) (b : Book)
    (t : Transfer) (r : CreateTransferResult) : Prop :=
  r ∈ [CreateTransferResult.created, .exists_, .linkedEventFailed, .linkedEventChainOpen] ∨
  ∃ b₁ b₂, Inv b₁.store ∧ Steps now b b₁ ∧ b₁.transfer backstop batchImported now t = .ok (r, b₂)

theorem exists_runSegments (backstop : Transfer → ℕ → Bool) (batchImported : Bool) (now : ℕ)
    (h : Inv b.store) {segs : List (Segment Transfer)} (hne : ∀ seg ∈ segs, seg.items ≠ []) :
    ∃ codes b', (bookTransferOps backstop batchImported now).runSegments segs b =
      .ok (codes, b') ∧ Steps now b b' ∧
      ∀ p ∈ (segs.flatMap Segment.items).zip codes,
        Answered backstop batchImported now b p.1 p.2 := by
  have hQ : ∀ {b₁ b₂ : Book}, Inv b₁.store → Steps now b b₁ → Step now b₁ b₂ → Steps now b b₂ :=
    fun _ hsteps hstep => hsteps.tail hstep
  obtain ⟨codes, b', hrun, ⟨-, hsteps⟩, hanswers⟩ :=
    (bookTransferOps_keeps hQ backstop batchImported).runSegments
      (bookTransferOps_exact backstop batchImported now) (bookTransferOps_finish hQ) hne ⟨h, .refl⟩
  refine ⟨codes, b', hrun, hsteps, ?_⟩
  intro p hp
  obtain ⟨-, -, hset | hlinked | hopen | ⟨b₁, b₂, ⟨hinv, hsteps⟩, -, hproc⟩⟩ := hanswers p hp
  · rw [bookTransferOps_settled] at hset
    have hcases : p.2 = .created ∨ p.2 = .exists_ := by simpa using hset
    rcases hcases with hr | hr <;> exact Or.inl (by simp [hr])
  · exact Or.inl (by simp [hlinked, bookTransferOps])
  · exact Or.inl (by simp [hopen, bookTransferOps])
  · exact Or.inr ⟨b₁, b₂, hinv, hsteps, hproc⟩

/-- No index entry is due. -/
def Clear (now : ℕ) (s : Store) : Prop := ∀ key ∈ s.expiry, now < ExpiryKey.expiresAt key

theorem expireOne_of_outstanding {s : Store} {pending : Transfer} {debit credit : Account}
    (h : Outstanding s pending debit credit) (ht : pending.timeout ≠ 0) :
    s.expireOne (pendingKey pending) = .ok (s.expire pending debit credit) := by
  unfold Store.expireOne
  rw [pendingId_pendingKey, h.unresolved, h.stored]
  simp only [Option.isSome_none, Bool.false_eq_true, if_false, h.debitAccount, h.creditAccount]
  rw [releaseReservation_eq_ok.mpr ⟨h.debitReserved, h.creditReserved, rfl⟩]
  simp only [bind, Except.bind, Store.expire, settledAccounts, Bool.false_eq_true, if_false,
    Store.dropPending]
  rw [if_pos (by simpa using ht)]
  rfl

/-- What a sweep leaves alone: it only marks pendings as expired and moves balances. -/
structure SweepFrame (s swept : Store) : Prop where
  transfers : swept.transfers = s.transfers
  failed : swept.failed = s.failed
  watermark : swept.watermark = s.watermark
  states : ∀ id status, swept.pendingStates id = some status →
    s.pendingStates id = some status ∨ status = .expired

theorem SweepFrame.refl (s : Store) : SweepFrame s s := ⟨rfl, rfl, rfl, fun _ _ h => Or.inl h⟩

theorem SweepFrame.head {s swept : Store} {pending : Transfer} {debit credit : Account}
    (h : SweepFrame (s.expire pending debit credit) swept) : SweepFrame s swept := by
  refine ⟨?_, ?_, ?_, ?_⟩
  · rw [h.transfers, Store.expire_transfers]
  · rw [h.failed, Store.expire_failed]
  · rw [h.watermark, Store.expire_watermark]
  · intro id status hs
    rcases h.states id status hs with hold | hexp
    · rw [Store.expire_pendingStates, put_apply] at hold
      split_ifs at hold
      · exact Or.inr (Option.some.inj hold).symm
      · exact Or.inl hold
    · exact Or.inr hexp

/-- The sweep over any duplicate-free part of the due index entries. -/
theorem exists_sweepKeys {now : ℕ} {s : Store} (log : List Entry) (h : Inv s)
    {keys : List ExpiryKey} (hnodup : keys.Nodup) (hmem : ∀ key ∈ keys, key ∈ s.expiry)
    (hdue : ∀ key ∈ keys, ExpiryKey.expiresAt key ≤ now) :
    ∃ swept, keys.foldlM Store.expireOne s = .ok swept ∧ Steps now ⟨s, log⟩ ⟨swept, log⟩ ∧
      (∀ key, key ∈ swept.expiry ↔ key ∈ s.expiry ∧ key ∉ keys) ∧ SweepFrame s swept := by
  induction keys generalizing s with
  | nil => exact ⟨s, rfl, .refl, by simp, .refl s⟩
  | cons key keys ih =>
    obtain ⟨pending, hp, rfl⟩ := (h.sound.expiry key).mp (hmem key (by simp))
    obtain ⟨debit, credit, ho⟩ := h.outstanding hp.stored hp.reserve hp.unresolved
    have hstep : Step now ⟨s, log⟩ ⟨s.expire pending debit credit, log⟩ :=
      .expired ho hp.timed (hdue (pendingKey pending) (by simp))
    have hexpiry : ∀ k, k ∈ (s.expire pending debit credit).expiry ↔
        k ∈ s.expiry ∧ k ≠ pendingKey pending := by
      intro k
      rw [Store.expire_expiry hp.timed, OrderedIndex.mem_delete]
    have hrest : ∀ k ∈ keys, k ∈ (s.expire pending debit credit).expiry := by
      intro k hk
      refine (hexpiry k).mpr ⟨hmem k (by simp [hk]), ?_⟩
      rintro rfl
      exact (List.nodup_cons.mp hnodup).1 hk
    obtain ⟨swept, hrun, hsteps, hswept, hframe⟩ := ih (h.step hstep)
      (List.nodup_cons.mp hnodup).2 hrest (fun k hk => hdue k (by simp [hk]))
    refine ⟨swept, ?_, hsteps.head hstep, ?_, hframe.head⟩
    · rw [List.foldlM_cons, expireOne_of_outstanding ho hp.timed]
      exact hrun
    · intro k
      rw [hswept, hexpiry, List.mem_cons, not_or, and_assoc]

theorem mem_scanExpired {s : Store} {key : ExpiryKey} :
    key ∈ s.scanExpired now ↔
      key ∈ s.expiry ∧ ExpiryKey.expiresAt key < saturatingAdd u64Max now 1 := by
  simp [Store.scanExpired]

theorem exists_sweep (now : ℕ) {s : Store} (log : List Entry) (h : Inv s) :
    ∃ swept, s.sweep now = .ok swept ∧ Steps now ⟨s, log⟩ ⟨swept, log⟩ ∧ Clear now swept ∧
      SweepFrame s swept := by
  have hdue : ∀ key ∈ s.scanExpired now, ExpiryKey.expiresAt key ≤ now := by
    intro key hkey
    have hlt := (mem_scanExpired.mp hkey).2
    unfold saturatingAdd at hlt
    omega
  obtain ⟨swept, hrun, hsteps, hswept, hframe⟩ := exists_sweepKeys log h
    (OrderedIndex.scan_nodup s.expiry _) (fun key hkey => (mem_scanExpired.mp hkey).1) hdue
  refine ⟨swept, hrun, hsteps, ?_, hframe⟩
  intro key hkey
  obtain ⟨hold, hnot⟩ := (hswept key).mp hkey
  obtain ⟨t, ht, rfl⟩ := (h.sound.expiry key).mp hold
  have hfiled := h.sound.filed _ _ ht.stored
  have hmax := hfiled.expiry ht.timed
  have heq := hfiled.expiryOf_eq ht.timed
  have hceil : timestampMax < u64Max := by decide
  by_contra hlt
  apply hnot
  refine mem_scanExpired.mpr ⟨hold, ?_⟩
  rw [expiresAt_pendingKey] at hlt ⊢
  unfold saturatingAdd
  omega

theorem scanExpired_of_clear {s : Store} (h : Clear now s) : s.scanExpired now = [] := by
  rw [List.eq_nil_iff_forall_not_mem]
  intro key hkey
  obtain ⟨hmem, hlt⟩ := mem_scanExpired.mp hkey
  have := h key hmem
  unfold saturatingAdd at hlt
  omega

theorem sweep_of_clear {s : Store} (h : Clear now s) : s.sweep now = .ok s := by
  rw [Store.sweep, scanExpired_of_clear h]
  rfl

/-- The two phases of a `createTransfers`: the sweep, then the batch. -/
structure TransferCall (backstop : Transfer → ℕ → Bool) (b : Book) (now : ℕ)
    (transfers : List Transfer) (swept : Store) (results : List CreateTransferResult)
    (b' : Book) : Prop where
  sweep : b.store.sweep now = .ok swept
  sweepSteps : Steps now b ⟨swept, b.log⟩
  clear : Clear now swept
  frame : SweepFrame b.store swept
  run : (bookTransferOps backstop (transfersImported transfers) now).runSegments
    (segments transferLinked transfers) ⟨swept, b.log⟩ = .ok (results, b')
  runSteps : Steps now ⟨swept, b.log⟩ b'
  answers : ∀ p ∈ transfers.zip results,
    Answered backstop (transfersImported transfers) now ⟨swept, b.log⟩ p.1 p.2

/-- On a store with the invariant, `createTransfers` succeeds and takes steps. -/
theorem exists_transferCall (backstop : Transfer → ℕ → Bool) {s : Store} (h : Inv s)
    (log : List Entry) (now : ℕ) (transfers : List Transfer) :
    ∃ swept results w, applyTransfersWith backstop s now transfers = .ok (results, w) ∧
      TransferCall backstop ⟨s, log⟩ now transfers swept results (w.book s log) := by
  obtain ⟨swept, hsweep, hsteps, hclear, hframe⟩ := exists_sweep now log h
  have hswept : Inv (Book.mk swept log).store := h.steps hsteps
  obtain ⟨results, b', hrun, hrunSteps, hanswers⟩ := exists_runSegments backstop
    (transfersImported transfers) now hswept
    (fun seg hseg => segments_items_ne_nil transferLinked hseg)
  rw [flatMap_segments] at hanswers
  have hbook : Book.createTransfers backstop ⟨s, log⟩ now transfers = .ok (results, b') := by
    simp only [Book.createTransfers, hsweep]
    exact hrun
  obtain ⟨⟨results', w⟩, happly, hres, hw⟩ :=
    (applyTransfersWith_refines h.wellKeyed log backstop now transfers).ok_right hbook
  dsimp only at hres hw
  subst hres hw
  exact ⟨swept, results', w, happly, hsweep, hsteps, hclear, hframe, hrun, hrunSteps, hanswers⟩

theorem Inv.transferCall_of_apply {s : Store} (h : Inv s) (log : List Entry)
    {transfers : List Transfer} {results : List CreateTransferResult} {w : TransferWork}
    (hw : applyTransfersWith backstop s now transfers = .ok (results, w)) :
    ∃ swept, TransferCall backstop ⟨s, log⟩ now transfers swept results (w.book s log) := by
  obtain ⟨swept, _, _, hw', hcall⟩ := exists_transferCall backstop h log now transfers
  rw [hw] at hw'
  cases hw'
  exact ⟨swept, hcall⟩

theorem TransferCall.length {backstop : Transfer → ℕ → Bool} {b b' : Book} {now : ℕ}
    {transfers : List Transfer} {swept : Store} {results : List CreateTransferResult}
    (h : TransferCall backstop b now transfers swept results b') :
    results.length = transfers.length := by
  have hlen := BatchOps.runSegments_length _
    (fun seg hseg => segments_items_ne_nil transferLinked hseg) h.run
  rwa [flatMap_segments] at hlen

theorem TransferCall.answered {backstop : Transfer → ℕ → Bool} {b b' : Book} {now : ℕ}
    {transfers : List Transfer} {swept : Store} {results : List CreateTransferResult}
    (h : TransferCall backstop b now transfers swept results b') {r : CreateTransferResult}
    (hr : r ∈ results) :
    ∃ t, Answered backstop (transfersImported transfers) now ⟨swept, b.log⟩ t r := by
  obtain ⟨i, hi, rfl⟩ := List.getElem_of_mem hr
  have hi' : i < transfers.length := h.length ▸ hi
  refine ⟨transfers[i], h.answers (transfers[i], results[i]) ?_⟩
  rw [List.mem_iff_getElem]
  exact ⟨i, by simp [hi, hi'], by simp⟩

theorem bookAccountOps_exact (batchImported : Bool) (now : ℕ) :
    (bookAccountOps batchImported now).Exact where
  inert := by
    intro b spec r b' hp hr
    rcases Book.account_cases (Except.ok.inj hp) with ⟨-, h⟩ | ⟨rfl, -⟩
    · exact h
    · simp [bookAccountOps] at hr
  rollback _ _ := rfl

theorem bookAccountOps_keeps (batchImported : Bool) (now : ℕ) (b₀ : Book) :
    (bookAccountOps batchImported now).Keeps
      (fun b => Inv b.store ∧ Steps now b₀ b) Kept where
  refl := Kept.refl
  process := by
    rintro b spec ⟨hinv, hsteps⟩
    refine ⟨_, _, rfl, ?_⟩
    rcases Book.account_cases (rfl : b.account batchImported now spec = _) with
      ⟨-, h⟩ | ⟨-, timestamp, hopens, h⟩
    · rw [h]
      exact ⟨⟨hinv, hsteps⟩, fun _ h => h⟩
    · rw [h]
      have hstep : Step now b (b.open { spec with timestamp := timestamp }) := .opened hopens
      exact ⟨⟨hinv.step hstep, hsteps.tail hstep⟩, fun _ h => h.trans hstep.kept⟩

/-- On a store with the invariant, `createAccounts` takes steps. -/
theorem exists_accountCall {s : Store} (h : Inv s) (log : List Entry) (now : ℕ)
    (specs : List Account) :
    ∃ results w, applyAccounts s now specs = .ok (results, w) ∧
      (bookAccountOps (accountsImported specs) now).runSegments (segments accountLinked specs)
        ⟨s, log⟩ = .ok (results, w.book s log) ∧ Steps now ⟨s, log⟩ (w.book s log) := by
  have hstart : Inv (Book.mk s log).store ∧ Steps now ⟨s, log⟩ ⟨s, log⟩ := ⟨h, .refl⟩
  obtain ⟨results, b', hrun, ⟨-, hsteps⟩, -⟩ :=
    (bookAccountOps_keeps (accountsImported specs) now ⟨s, log⟩).runSegments
      (bookAccountOps_exact (accountsImported specs) now) (fun hP _ => hP)
      (fun seg hseg => segments_items_ne_nil accountLinked hseg) hstart
  obtain ⟨⟨results', w⟩, happly, hres, hw⟩ :=
    (applyAccounts_refines s log now specs).ok_right hrun
  dsimp only at hres hw
  subst hres hw
  exact ⟨results', w, happly, hrun, hsteps⟩

end

/-- One call of the engine, with any batch and at any clock reading. -/
inductive Call (s s' : Store) : Prop
  | accounts {now : ℕ} {specs : List Account} {results : List CreateAccountResult}
      (h : createAccounts s now specs = .ok (results, s'))
  | transfers {now : ℕ} {batch : List Transfer} {results : List CreateTransferResult}
      (h : createTransfers s now batch = .ok (results, s'))

/-- Any number of calls. -/
abbrev Calls : Store → Store → Prop := Relation.ReflTransGen Call

def Reachable (s : Store) : Prop := Calls .empty s

/-- Sequences of calls from the empty store, with the log of accepted records in
the order in which the calls accepted them. -/
inductive History : List Entry → Store → Prop
  | empty : History [] .empty
  | accounts {log : List Entry} {s : Store} (before : History log s) {now : ℕ}
      {specs : List Account} {results : List CreateAccountResult} {w : AccountWork}
      (h : applyAccounts s now specs = .ok (results, w)) :
      History (log ++ w.accepted.map Entry.account) (commitAccounts s w)
  | transfers {log : List Entry} {s : Store} (before : History log s) {now : ℕ}
      {batch : List Transfer} {results : List CreateTransferResult} {w : TransferWork}
      (h : applyTransfers s now batch = .ok (results, w)) :
      History (log ++ w.accepted.map Entry.transfer) (commitTransfers s w)

/-- `createAccounts` as a function on books. -/
def Book.callAccounts (b : Book) (now : ℕ) (specs : List Account) : Book :=
  match applyAccounts b.store now specs with
  | .ok (_, w) => w.book b.store b.log
  | .error e => nomatch e

/-- `createTransfers` as a function on books; an aborted call writes nothing. -/
def Book.callTransfers (b : Book) (now : ℕ) (batch : List Transfer) : Book :=
  match applyTransfers b.store now batch with
  | .ok (_, w) => w.book b.store b.log
  | .error _ => b

theorem History.callAccounts {b : Book} (h : History b.log b.store) (now : ℕ)
    (specs : List Account) :
    History (b.callAccounts now specs).log (b.callAccounts now specs).store := by
  unfold Book.callAccounts
  split
  · rename_i hw
    exact h.accounts hw
  · rename_i e _
    exact nomatch e

theorem History.callTransfers {b : Book} (h : History b.log b.store) (now : ℕ)
    (batch : List Transfer) :
    History (b.callTransfers now batch).log (b.callTransfers now batch).store := by
  unfold Book.callTransfers
  split
  · rename_i hw
    exact h.transfers hw
  · exact h

theorem createAccounts_eq_ok {s s' : Store} {now : ℕ} {specs : List Account}
    {results : List CreateAccountResult} :
    createAccounts s now specs = .ok (results, s') ↔
      ∃ w, applyAccounts s now specs = .ok (results, w) ∧ s' = commitAccounts s w := by
  unfold createAccounts
  rw [bind_eq_ok]
  constructor
  · rintro ⟨⟨r, w⟩, hw, h⟩
    cases h
    exact ⟨w, hw, rfl⟩
  · rintro ⟨w, hw, rfl⟩
    exact ⟨(results, w), hw, rfl⟩

theorem createTransfersWith_eq_ok {backstop : Transfer → ℕ → Bool} {s s' : Store} {now : ℕ}
    {batch : List Transfer} {results : List CreateTransferResult} :
    createTransfersWith backstop s now batch = .ok (results, s') ↔
      ∃ w, applyTransfersWith backstop s now batch = .ok (results, w) ∧
        s' = commitTransfers s w := by
  unfold createTransfersWith
  rw [bind_eq_ok]
  constructor
  · rintro ⟨⟨r, w⟩, hw, h⟩
    cases h
    exact ⟨w, hw, rfl⟩
  · rintro ⟨w, hw, rfl⟩
    exact ⟨(results, w), hw, rfl⟩

theorem Inv.transferCall {s s' : Store} (h : Inv s) (log : List Entry) {now : ℕ}
    {batch : List Transfer} {results : List CreateTransferResult}
    (hc : createTransfers s now batch = .ok (results, s')) :
    ∃ swept b', b'.store = s' ∧
      TransferCall lazilyExpired ⟨s, log⟩ now batch swept results b' := by
  obtain ⟨w, hw, rfl⟩ := createTransfersWith_eq_ok.mp hc
  obtain ⟨swept, hcall⟩ := h.transferCall_of_apply log hw
  exact ⟨swept, w.book s log, rfl, hcall⟩

/-- The codes of a call, next to the book it leaves behind. -/
theorem createTransfers_callTransfers {b : Book} {now : ℕ} {batch : List Transfer}
    {results : List CreateTransferResult}
    (h : (createTransfers b.store now batch).toOption.map Prod.fst = some results) :
    createTransfers b.store now batch = .ok (results, (b.callTransfers now batch).store) := by
  cases hcall : createTransfers b.store now batch with
  | error e => simp [hcall, Except.toOption] at h
  | ok p =>
    obtain ⟨results', s'⟩ := p
    have hresults : results' = results := by simpa [hcall, Except.toOption] using h
    obtain ⟨w, hw, rfl⟩ := createTransfersWith_eq_ok.mp hcall
    rw [hresults, Book.callTransfers, applyTransfers, hw]
    rfl

theorem reachable_iff_history {s : Store} : Reachable s ↔ ∃ log, History log s := by
  constructor
  · intro h
    induction h with
    | refl => exact ⟨[], .empty⟩
    | tail _ hcall ih =>
      obtain ⟨log, hlog⟩ := ih
      cases hcall with
      | accounts h =>
        obtain ⟨w, hw, rfl⟩ := createAccounts_eq_ok.mp h
        exact ⟨_, hlog.accounts hw⟩
      | transfers h =>
        obtain ⟨w, hw, rfl⟩ := createTransfersWith_eq_ok.mp h
        exact ⟨_, hlog.transfers hw⟩
  · rintro ⟨log, h⟩
    induction h with
    | empty => exact .refl
    | accounts _ hw ih => exact ih.tail (.accounts (createAccounts_eq_ok.mpr ⟨_, hw, rfl⟩))
    | transfers _ hw ih => exact ih.tail (.transfers (createTransfersWith_eq_ok.mpr ⟨_, hw, rfl⟩))

/-- The rule for invariants of books: true of the empty one, kept by every step
from a store with the invariant. -/
theorem History.inv_and {P : Book → Prop} (init : P ⟨.empty, []⟩)
    (step : ∀ {now : ℕ} {b b' : Book}, Inv b.store → P b → Step now b b' → P b')
    {log : List Entry} {s : Store} (h : History log s) : Inv s ∧ P ⟨s, log⟩ := by
  have hsteps : ∀ {now : ℕ} {b b' : Book}, Inv b.store → P b → Steps now b b' →
      Inv b'.store ∧ P b' := by
    intro now b b' hinv hP hs
    induction hs with
    | refl => exact ⟨hinv, hP⟩
    | tail _ hstep ih => exact ⟨ih.1.step hstep, step ih.1 ih.2 hstep⟩
  induction h with
  | empty => exact ⟨.empty, init⟩
  | @accounts log s _ now specs results w hw ih =>
    obtain ⟨results', w', hw', -, hrun⟩ := exists_accountCall ih.1 log now specs
    rw [hw] at hw'
    cases hw'
    exact hsteps ih.1 ih.2 hrun
  | @transfers log s _ now batch results w hw ih =>
    obtain ⟨swept, hcall⟩ := ih.1.transferCall_of_apply log hw
    obtain ⟨hinv, hP⟩ := hsteps ih.1 ih.2 hcall.sweepSteps
    exact hsteps hinv hP hcall.runSteps

theorem History.inv {log : List Entry} {s : Store} (h : History log s) : Inv s :=
  (h.inv_and (P := fun _ => True) trivial (fun _ _ _ => trivial)).1

theorem History.invariant {P : Book → Prop} (init : P ⟨.empty, []⟩)
    (step : ∀ {now : ℕ} {b b' : Book}, Inv b.store → P b → Step now b b' → P b')
    {log : List Entry} {s : Store} (h : History log s) : P ⟨s, log⟩ :=
  (h.inv_and init step).2

theorem Reachable.inv {s : Store} (h : Reachable s) : Inv s := by
  obtain ⟨log, hlog⟩ := reachable_iff_history.mp h
  exact hlog.inv

/-- Further calls extend the log and keep all transfer records. -/
theorem History.calls {log : List Entry} {s s' : Store} (h : History log s) (hc : Calls s s') :
    ∃ rest, History (log ++ rest) s' ∧
      ∀ id t, s.transfers id = some t → s'.transfers id = some t := by
  induction hc with
  | refl => exact ⟨[], by simpa using h, fun _ _ ht => ht⟩
  | @tail s₁ s₂ _ hcall ih =>
    obtain ⟨rest, hhist, hkept⟩ := ih
    cases hcall with
    | accounts hacc =>
      obtain ⟨w, hw, rfl⟩ := createAccounts_eq_ok.mp hacc
      exact ⟨rest ++ w.accepted.map Entry.account,
        by simpa [List.append_assoc] using hhist.accounts hw, hkept⟩
    | @transfers now batch results htr =>
      obtain ⟨w, hw, rfl⟩ := createTransfersWith_eq_ok.mp htr
      refine ⟨rest ++ w.accepted.map Entry.transfer,
        by simpa [List.append_assoc] using hhist.transfers hw, ?_⟩
      obtain ⟨swept, hrun⟩ := hhist.inv.transferCall_of_apply (log ++ rest) hw
      have hstep := hrun.sweepSteps.kept.trans hrun.runSteps.kept
      intro id t ht
      exact hstep id t (hkept id t ht)

theorem Reachable.kept {s s' : Store} (h : Reachable s) (hc : Calls s s') {id : U128}
    {t : Transfer} (ht : s.transfers id = some t) : s'.transfers id = some t := by
  obtain ⟨log, hlog⟩ := reachable_iff_history.mp h
  exact (hlog.calls hc).choose_spec.2 id t ht

def sampleAccount (id : U128) (flags : AccountFlags) : Account :=
  { Account.input id 7 with code := 1, flags := flags }

def sampleTransfer (id debit credit : U128) (amount : ℕ) (flags : TransferFlags) : Transfer :=
  { Transfer.new id debit credit amount 7 with code := 1, flags := flags }

/-- Two accounts, of which account 1 must not overdraw. -/
def sampleOpened : Book :=
  (Book.mk .empty []).callAccounts 10
    [sampleAccount 1 .debitsMustNotExceedCredits, sampleAccount 2 .none]

/-- Fifty posted from account 2 to account 1, and thirty reserved the other way
with a timeout of one second. -/
def sampleReserved : Book :=
  sampleOpened.callTransfers 20
    [sampleTransfer 100 2 1 50 .none, { sampleTransfer 101 1 2 30 .pending with timeout := 1 }]

theorem sampleOpened_history : History sampleOpened.log sampleOpened.store := by
  have hempty : History (Book.mk .empty []).log (Book.mk .empty []).store := .empty
  exact hempty.callAccounts 10 _

theorem sampleReserved_history : History sampleReserved.log sampleReserved.store :=
  sampleOpened_history.callTransfers 20 _

/-- Account 1 after the run. -/
def sampleDebtor : Account :=
  { sampleAccount 1 .debitsMustNotExceedCredits with
    debitsPending := 30
    creditsPosted := 50
    timestamp := 10 }

theorem sampleReserved_debtor : sampleReserved.store.accounts 1 = some sampleDebtor := by
  decide

theorem sampleReserved_reachable : Reachable sampleReserved.store :=
  reachable_iff_history.mpr ⟨_, sampleReserved_history⟩

end BlueDB.Ledger
