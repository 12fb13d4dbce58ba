import BlueDB.Ledger.Runs

/-!
# Timestamps order the log

Accepted accounts and transfers share one watermark. As long as it has not
saturated, the log is strictly ascending in its timestamps and the watermark is
the largest of them; the checks that an imported transfer postdates its accounts
are then implied by the check against the watermark.
-/

namespace BlueDB.Ledger

/-- The log agrees with the store. -/
structure Chronicle (b : Book) : Prop where
  watermark : b.store.watermark = b.log.getLast?.map Entry.timestamp
  ordered : b.store.getWatermark < u64Max → (b.log.map Entry.timestamp).Pairwise (· < ·)
  transfers : ∀ t, Entry.transfer t ∈ b.log ↔ b.store.transfers t.id = some t
  opened : ∀ a, Entry.account a ∈ b.log → (b.store.accounts a.id).isSome = true
  accounts : ∀ id a, b.store.accounts id = some a →
    ∃ a₀, Entry.account a₀ ∈ b.log ∧ a₀.id = id ∧ a₀.timestamp = a.timestamp
  once : ∀ a a', Entry.account a ∈ b.log → Entry.account a' ∈ b.log → a.id = a'.id → a = a'

theorem Chronicle.empty : Chronicle ⟨.empty, []⟩ := by
  refine ⟨rfl, ?_, ?_, ?_, ?_, ?_⟩
  · intro _
    simp
  · intro t
    simp [Store.empty]
  · intro a ha
    simp at ha
  · intro id a ha
    simp [Store.empty] at ha
  · intro a a' ha
    simp at ha

theorem le_getLast_of_pairwise {l : List ℕ} (h : l.Pairwise (· < ·)) {m x : ℕ}
    (hm : l.getLast? = some m) (hx : x ∈ l) : x ≤ m := by
  obtain ⟨init, rfl⟩ := List.getLast?_eq_some_iff.mp hm
  rw [List.pairwise_append] at h
  rcases List.mem_append.mp hx with hx | hx
  · exact (h.2.2 x hx m (by simp)).le
  · exact (List.mem_singleton.mp hx).le

theorem max?_of_pairwise {l : List ℕ} (h : l.Pairwise (· < ·)) : l.max? = l.getLast? := by
  cases hl : l.getLast? with
  | none => rw [List.getLast?_eq_none_iff.mp hl, List.max?_nil]
  | some m =>
    rw [List.max?_eq_some_iff]
    exact ⟨List.mem_of_getLast? hl, fun x hx => le_getLast_of_pairwise h hl hx⟩

section

variable {b : Book}

theorem Chronicle.getWatermark (h : Chronicle b) :
    b.store.getWatermark = (b.log.getLast?.map Entry.timestamp).getD 0 := by
  rw [Store.getWatermark, h.watermark]

theorem Chronicle.le_watermark (h : Chronicle b) (hw : b.store.getWatermark < u64Max)
    {e : Entry} (he : e ∈ b.log) : e.timestamp ≤ b.store.getWatermark := by
  have hlast : ∃ last, b.log.getLast? = some last := by
    cases hl : b.log.getLast? with
    | none =>
      rw [List.getLast?_eq_none_iff] at hl
      rw [hl] at he
      simp at he
    | some last => exact ⟨last, rfl⟩
  obtain ⟨last, hl⟩ := hlast
  have hmap : (b.log.map Entry.timestamp).getLast? = some last.timestamp := by
    rw [List.getLast?_map, hl]
    rfl
  rw [h.getWatermark, hl]
  exact le_getLast_of_pairwise (h.ordered hw) hmap (List.mem_map_of_mem he)

/-- An entry stamped under the watermark extends the order. -/
theorem Chronicle.ordered_append (h : Chronicle b) {e : Entry}
    (hs : Stamped b.store.getWatermark e.timestamp) (hlt : e.timestamp < u64Max) :
    ((b.log ++ [e]).map Entry.timestamp).Pairwise (· < ·) := by
  have hw : b.store.getWatermark < u64Max := by
    by_contra hge
    have := hs.saturated (by omega)
    omega
  rw [List.map_append, List.pairwise_append]
  refine ⟨h.ordered hw, by simp, ?_⟩
  intro x hx y hy
  obtain ⟨e', he', rfl⟩ := List.mem_map.mp hx
  have hle := h.le_watermark hw he'
  have hadv := hs.advances hw
  simp only [List.map_cons, List.map_nil, List.mem_singleton] at hy
  omega

theorem Chronicle.open (h : Chronicle b) {a : Account} (ha : Opens b.store a) :
    Chronicle (b.open a) := by
  have hnone : ∀ a', Entry.account a' ∈ b.log → a'.id ≠ a.id := by
    intro a' ha' heq
    have hsome := h.opened a' ha'
    rw [heq, ha.fresh] at hsome
    simp at hsome
  refine ⟨?_, ?_, ?_, ?_, ?_, ?_⟩
  · simp [Book.open, Store.openAccount, Entry.timestamp]
  · intro hw
    exact h.ordered_append ha.stamped hw
  · intro t
    simpa [Book.open, Store.openAccount] using h.transfers t
  · intro a' ha'
    simp only [Book.open, List.mem_append, List.mem_singleton, Entry.account.injEq] at ha'
    simp only [Book.open, Store.openAccount]
    rcases ha' with ha' | rfl
    · exact put_isSome (h.opened a' ha') _ _
    · simp
  · intro id a' ha'
    simp only [Book.open, Store.openAccount, put_apply] at ha'
    split_ifs at ha' with hid
    · rw [← Option.some.inj ha']
      exact ⟨a, by simp [Book.open], hid.symm, rfl⟩
    · obtain ⟨a₀, hmem, hrest⟩ := h.accounts id a' ha'
      exact ⟨a₀, List.mem_append_left _ hmem, hrest⟩
  · intro a₁ a₂ h₁ h₂ heq
    simp only [Book.open, List.mem_append, List.mem_singleton, Entry.account.injEq] at h₁ h₂
    rcases h₁ with h₁ | rfl
    · rcases h₂ with h₂ | rfl
      · exact h.once a₁ a₂ h₁ h₂ heq
      · exact absurd heq (hnone a₁ h₁)
    · rcases h₂ with h₂ | rfl
      · exact absurd heq.symm (hnone a₂ h₂)
      · rfl

/-- Accounts keep their timestamps, and none disappears. -/
structure SameStamps (s s' : Store) : Prop where
  stamp : ∀ id a', s'.accounts id = some a' →
    ∃ a, s.accounts id = some a ∧ a.timestamp = a'.timestamp
  kept : ∀ id, (s.accounts id).isSome = true → (s'.accounts id).isSome = true

theorem sameStamps_of_put {s s' : Store} {debit credit debit' credit' : Account}
    (haccounts : s'.accounts = put (put s.accounts debit'.id debit') credit'.id credit')
    (hd : s.accounts debit'.id = some debit) (hdts : debit'.timestamp = debit.timestamp)
    (hc : s.accounts credit'.id = some credit) (hcts : credit'.timestamp = credit.timestamp) :
    SameStamps s s' := by
  constructor
  · rw [haccounts]
    exact forall_put_put ⟨debit, hd, hdts.symm⟩ ⟨credit, hc, hcts.symm⟩
      (fun k a ha _ _ => ⟨a, ha, rfl⟩)
  · intro id hid
    rw [haccounts]
    exact put_isSome (put_isSome hid _ _) _ _

theorem Chronicle.accounts_of_sameStamps (h : Chronicle b) {s' : Store}
    (hs : SameStamps b.store s') {id : U128} {a' : Account} (ha' : s'.accounts id = some a') :
    ∃ a₀, Entry.account a₀ ∈ b.log ∧ a₀.id = id ∧ a₀.timestamp = a'.timestamp := by
  obtain ⟨a, ha, hts⟩ := hs.stamp id a' ha'
  obtain ⟨a₀, hmem, hid, hts₀⟩ := h.accounts id a ha
  exact ⟨a₀, hmem, hid, hts₀.trans hts⟩

theorem Chronicle.file (h : Chronicle b) {e : Effect}
    (hfresh : b.store.transfers e.record.id = none)
    (hstamp : Stamped b.store.getWatermark e.record.timestamp)
    (hs : SameStamps b.store (b.store.enact e)) : Chronicle (b.file e) := by
  refine ⟨?_, ?_, ?_, ?_, ?_, ?_⟩
  · simp [Book.file, Entry.timestamp]
  · intro hw
    have hlt : e.record.timestamp < u64Max := by
      simpa [Book.file, Store.getWatermark] using hw
    exact h.ordered_append (e := .transfer e.record) hstamp hlt
  · intro t
    simp only [Book.file, List.mem_append, List.mem_singleton, Entry.transfer.injEq,
      Store.enact_transfers, put_apply]
    split_ifs with hid
    · constructor
      · rintro (hmem | rfl)
        · have hold := (h.transfers t).mp hmem
          rw [hid, hfresh] at hold
          simp at hold
        · rfl
      · intro heq
        exact Or.inr (Option.some.inj heq).symm
    · rw [← h.transfers t]
      constructor
      · rintro (hmem | rfl)
        · exact hmem
        · exact absurd rfl hid
      · exact Or.inl
  · intro a ha
    have ha : Entry.account a ∈ b.log := by simpa [Book.file] using ha
    exact hs.kept _ (h.opened a ha)
  · intro id a' ha'
    obtain ⟨a₀, hmem, hrest⟩ := h.accounts_of_sameStamps hs ha'
    exact ⟨a₀, List.mem_append_left _ hmem, hrest⟩
  · intro a₁ a₂ h₁ h₂ heq
    have h₁ : Entry.account a₁ ∈ b.log := by simpa [Book.file] using h₁
    have h₂ : Entry.account a₂ ∈ b.log := by simpa [Book.file] using h₂
    exact h.once a₁ a₂ h₁ h₂ heq

end

theorem closeAccounts_timestamps (t : Transfer) (debit credit : Account) :
    (closeAccounts t debit credit).1.timestamp = debit.timestamp ∧
      (closeAccounts t debit credit).2.timestamp = credit.timestamp := by
  unfold closeAccounts
  constructor
  · dsimp only
    split_ifs <;> rfl
  · dsimp only
    split_ifs <;> rfl

theorem settledAccounts_timestamps (pending : Transfer) (post : Bool) (effective : ℕ)
    (debit credit : Account) :
    (settledAccounts pending post effective debit credit).1.timestamp = debit.timestamp ∧
      (settledAccounts pending post effective debit credit).2.timestamp = credit.timestamp := by
  unfold settledAccounts reopenAccounts
  constructor
  · split_ifs <;> rfl
  · split_ifs <;> rfl

theorem sameStamps_settled {s s' : Store} (h : Sound s) {pending : Transfer} {post : Bool}
    {effective : ℕ} {debit credit : Account} (ho : Outstanding s pending debit credit)
    (haccounts : s'.accounts =
      put (put s.accounts (settledAccounts pending post effective debit credit).1.id
        (settledAccounts pending post effective debit credit).1)
        (settledAccounts pending post effective debit credit).2.id
        (settledAccounts pending post effective debit credit).2) : SameStamps s s' := by
  have hids := settledAccounts_ids pending post effective debit credit
  have hts := settledAccounts_timestamps pending post effective debit credit
  refine sameStamps_of_put haccounts ?_ hts.1 ?_ hts.2
  · rw [hids.1, h.accountKeys _ _ ho.debitAccount]
    exact ho.debitAccount
  · rw [hids.2, h.accountKeys _ _ ho.creditAccount]
    exact ho.creditAccount

theorem Chronicle.step {now : ℕ} {b b' : Book} (hinv : Inv b.store) (h : Chronicle b)
    (hs : Step now b b') : Chronicle b' := by
  have hsound := hinv.sound
  cases hs with
  | opened ha => exact h.open ha
  | @moved r debit credit hm =>
    have hd : b.store.accounts (moveEffect r debit credit).debit.id = some debit := by
      rw [(hm.enactable hsound).debitId]
      exact hm.debitAccount
    have hc : b.store.accounts (moveEffect r debit credit).credit.id = some credit := by
      rw [(hm.enactable hsound).creditId]
      exact hm.creditAccount
    exact h.file hm.fresh hm.stamped (sameStamps_of_put (Store.enact_accounts _ _) hd rfl hc rfl)
  | @reserved r debit credit hr =>
    have hts := closeAccounts_timestamps r (reservedAccounts r debit credit).1
      (reservedAccounts r debit credit).2
    have hd : b.store.accounts (reserveEffect r debit credit).debit.id = some debit := by
      rw [(hr.enactable hsound).debitId]
      exact hr.debitAccount
    have hc : b.store.accounts (reserveEffect r debit credit).credit.id = some credit := by
      rw [(hr.enactable hsound).creditId]
      exact hr.creditAccount
    exact h.file hr.fresh hr.stamped
      (sameStamps_of_put (Store.enact_accounts _ _) hd hts.1 hc hts.2)
  | settled hset =>
    exact h.file hset.fresh hset.stamped
      (sameStamps_settled hsound hset.toOutstanding (Store.enact_accounts _ _))
  | expired ho ht _ =>
    have hst := sameStamps_settled hsound ho Store.expire_accounts
    refine ⟨?_, ?_, ?_, ?_, ?_, h.once⟩
    · rw [Store.expire_watermark]
      exact h.watermark
    · intro hw
      rw [Store.getWatermark, Store.expire_watermark] at hw
      exact h.ordered hw
    · intro t
      rw [Store.expire_transfers]
      exact h.transfers t
    · intro a ha
      exact hst.kept _ (h.opened a ha)
    · intro id a' ha'
      exact h.accounts_of_sameStamps hst ha'
  | burned _ =>
    exact { h with }

theorem History.chronicle {log : List Entry} {s : Store} (h : History log s) :
    Chronicle ⟨s, log⟩ :=
  h.invariant .empty fun hinv hc hs => hc.step hinv hs

theorem Chronicle.steps {now : ℕ} {b b' : Book} (hinv : Inv b.store) (h : Chronicle b)
    (hs : Steps now b b') : Chronicle b' := by
  induction hs with
  | refl => exact h
  | tail hsteps hstep ih => exact ih.step (hinv.steps hsteps) hstep

section

variable {b : Book}

theorem timestamp_le_of_imported {t : Transfer} {now : ℕ}
    (h : validateTransferPreExistence t true now = none) : t.timestamp ≤ timestampMax := by
  unfold validateTransferPreExistence at h
  simp only [firstFailing_eq_none, List.forall_mem_cons, Bool.true_and, Bool.not_eq_false',
    Bool.and_eq_false_iff, Bool.or_eq_false_iff, decide_eq_false_iff_not, not_lt] at h
  obtain ⟨himported, -, hrange, -⟩ := h
  rcases hrange with hrange | hrange
  · rw [himported] at hrange
    simp at hrange
  · exact hrange.2

/-- A later watermark than both accounts leaves the postdate checks nothing to find. -/
theorem importedTransferChecks_ne_postdate {importedTs : Option ℕ}
    {lastTs debitTs creditTs timeout : ℕ} {code : CreateTransferResult}
    (hd : ∀ its, importedTs = some its → lastTs < its → debitTs < its)
    (hc : ∀ its, importedTs = some its → lastTs < its → creditTs < its)
    (h : importedTransferChecks importedTs lastTs debitTs creditTs timeout = some code) :
    code ≠ .importedEventTimestampMustPostdateDebitAccount ∧
      code ≠ .importedEventTimestampMustPostdateCreditAccount := by
  unfold importedTransferChecks at h
  obtain ⟨its, hits, h⟩ := Option.bind_eq_some_iff.mp h
  simp only [firstFailing_cons, decide_eq_true_eq] at h
  by_cases hreg : its ≤ lastTs
  · rw [if_pos hreg] at h
    rw [← Option.some.inj h]
    simp
  · rw [if_neg hreg, if_neg (by have := hd its hits; omega),
      if_neg (by have := hc its hits; omega)] at h
    split_ifs at h
    · rw [← Option.some.inj h]
      simp
    · simp at h

theorem Chronicle.account_lt (hc : Chronicle b) {id : U128} {a : Account}
    (ha : b.store.accounts id = some a) {its : ℕ} (hits : its ≤ timestampMax)
    (hw : b.store.getWatermark < its) : a.timestamp < its := by
  have hmax : timestampMax < u64Max := by decide
  obtain ⟨a₀, hmem, -, hts⟩ := hc.accounts id a ha
  have hle := hc.le_watermark (by omega) hmem
  simp only [Entry.timestamp] at hle
  omega

theorem Verdict.ne_postdate {backstop : Transfer → ℕ → Bool} {batchImported : Bool} {now : ℕ}
    {b b' : Book} {t : Transfer} {r : CreateTransferResult} (hc : Chronicle b)
    (h : Verdict backstop batchImported now b t r b') :
    r ≠ .importedEventTimestampMustPostdateDebitAccount ∧
      r ≠ .importedEventTimestampMustPostdateCreditAccount := by
  have hcodes : ∀ {checks : List (Bool × CreateTransferResult)} {code : CreateTransferResult},
      firstFailing checks = some code →
      CreateTransferResult.importedEventTimestampMustPostdateDebitAccount ∉ checks.map Prod.snd →
      CreateTransferResult.importedEventTimestampMustPostdateCreditAccount ∉ checks.map Prod.snd →
      code ≠ .importedEventTimestampMustPostdateDebitAccount ∧
        code ≠ .importedEventTimestampMustPostdateCreditAccount := by
    intro checks code hf hd hc
    have hmem := mem_of_firstFailing_eq_some hf
    constructor
    · rintro rfl
      exact hd hmem
    · rintro rfl
      exact hc hmem
  cases h with
  | malformed hpre => exact hcodes hpre (by simp) (by simp)
  | @known existing _ _ =>
    have hmem := transferExistsResult_mem t existing
    constructor
    · intro heq
      rw [heq] at hmem
      simp [existsCodes] at hmem
    · intro heq
      rw [heq] at hmem
      simp [existsCodes] at hmem
  | burned _ _ _ => simp
  | illFormed _ _ _ hpost => exact hcodes hpost (by simp) (by simp)
  | refused hpre _ _ _ hdec =>
    rcases decideTransfer_eq_error hdec with ⟨hd, hcr, hcheck⟩ | hmem
    · cases batchImported with
      | false => simp [importedTransferChecks] at hcheck
      | true =>
        have hmax := timestamp_le_of_imported hpre
        refine importedTransferChecks_ne_postdate ?_ ?_ hcheck
        · rintro its hits hlt
          cases hits
          exact hc.account_lt hd hmax hlt
        · rintro its hits hlt
          cases hits
          exact hc.account_lt hcr hmax hlt
    · constructor
      · rintro rfl
        simp [refusalCodes] at hmem
      · rintro rfl
        simp [refusalCodes] at hmem
  | created _ _ _ _ _ => simp

end

/-- Timestamps are a strict total order of acceptance. -/
theorem history_timestamps {log : List Entry} {s : Store} (h : History log s)
    (hw : s.getWatermark < u64Max) :
    (log.map Entry.timestamp).Pairwise (· < ·) ∧
    s.watermark = (log.map Entry.timestamp).max? ∧
    (∀ t, Entry.transfer t ∈ log ↔ s.transfers t.id = some t) ∧
    (∀ id a, s.accounts id = some a →
      ∃ a₀, Entry.account a₀ ∈ log ∧ a₀.id = id ∧ a₀.timestamp = a.timestamp) ∧
    ∀ now batch results s', createTransfers s now batch = .ok (results, s') →
      .importedEventTimestampMustPostdateDebitAccount ∉ results ∧
      .importedEventTimestampMustPostdateCreditAccount ∉ results := by
  have hc := h.chronicle
  refine ⟨hc.ordered hw, ?_, hc.transfers, hc.accounts, ?_⟩
  · rw [hc.watermark, ← List.getLast?_map]
    exact (max?_of_pairwise (hc.ordered hw)).symm
  · intro now batch results s' hcall
    obtain ⟨swept, b', rfl, hrun⟩ := h.inv.transferCall log hcall
    have hanswer : ∀ r ∈ results, r ≠ .importedEventTimestampMustPostdateDebitAccount ∧
        r ≠ .importedEventTimestampMustPostdateCreditAccount := by
      intro r hr
      obtain ⟨t, hsettled | ⟨b₁, b₂, hinv, hsteps, hproc⟩⟩ := hrun.answered hr
      · constructor
        · rintro rfl
          simp at hsettled
        · rintro rfl
          simp at hsettled
      · have hswept := hc.steps h.inv hrun.sweepSteps
        have hb₁ := hswept.steps (h.inv.steps hrun.sweepSteps) hsteps
        exact (Book.transfer_verdict hproc).ne_postdate hb₁
    exact ⟨fun hmem => (hanswer _ hmem).1 rfl, fun hmem => (hanswer _ hmem).2 rfl⟩

theorem history_timestamps_sample :
    sampleReserved.store.getWatermark = 21 ∧
      (sampleReserved.log.map Entry.timestamp).Pairwise (· < ·) ∧
      sampleReserved.log.map Entry.timestamp = [10, 11, 20, 21] := by
  have hw : sampleReserved.store.getWatermark = 21 := by decide +kernel
  have hlt : sampleReserved.store.getWatermark < u64Max := by
    rw [hw]
    decide
  exact ⟨hw, (history_timestamps sampleReserved_history hlt).1, by decide +kernel⟩

end BlueDB.Ledger
