import BlueDB.Ledger.Decisions

/-!
# The apply state machine refines the book

What a call would commit if it ended now is a store of its own. Every read of
the engine through its overlay is a read of that store, every mutation of the
overlay is one of that store, and a rollback of the overlay is a return to the
earlier store. So a call computes what the book machine computes.
-/

namespace BlueDB.Ledger

namespace ApplyState

/-- The accounts a call would leave behind if it ended now. -/
def accounts (db : Store) (state : ApplyState) (id : U128) : Option Account :=
  if id ∈ state.dirty then (state.working id).or (db.accounts id) else db.accounts id

/-- Clean entries are copies of committed accounts; dirty ids have an entry. -/
structure Coherent (db : Store) (state : ApplyState) : Prop where
  clean : ∀ id a, state.working id = some a → id ∉ state.dirty → db.accounts id = some a
  dirty : ∀ id ∈ state.dirty, (state.working id).isSome = true

/-- The second state differs from the first by cached reads only. -/
structure SameView (db : Store) (state state' : ApplyState) : Prop where
  coherent : state'.Coherent db
  accounts : state'.accounts db = state.accounts db
  resolved : state'.resolved = state.resolved
  removals : state'.expiryRemovals = state.expiryRemovals

variable {db : Store} {state state' state'' : ApplyState}

theorem SameView.refl (h : state.Coherent db) : SameView db state state := ⟨h, rfl, rfl, rfl⟩

theorem SameView.trans (h : SameView db state state') (h' : SameView db state' state'') :
    SameView db state state'' :=
  ⟨h'.coherent, h'.accounts.trans h.accounts, h'.resolved.trans h.resolved,
    h'.removals.trans h.removals⟩

theorem accounts_of_working (h : state.Coherent db) {id : U128} {a : Account}
    (hw : state.working id = some a) : state.accounts db id = some a := by
  unfold accounts
  split_ifs with hd
  · rw [hw]
    rfl
  · exact h.clean id a hw hd

theorem not_dirty_of_working (h : state.Coherent db) {id : U128}
    (hw : state.working id = none) : id ∉ state.dirty := by
  intro hd
  have := h.dirty id hd
  rw [hw] at this
  simp at this

theorem loadAccount_view (h : state.Coherent db) (id : U128) :
    ∃ state', loadAccount db id state = (state.accounts db id, state') ∧
      SameView db state state' := by
  unfold loadAccount
  cases hw : state.working id with
  | some a => exact ⟨state, by rw [accounts_of_working h hw], SameView.refl h⟩
  | none =>
    have hd := not_dirty_of_working h hw
    have hview : state.accounts db id = db.accounts id := if_neg hd
    rw [hview]
    cases ha : db.accounts id with
    | none => exact ⟨state, rfl, SameView.refl h⟩
    | some a =>
      refine ⟨_, rfl, ⟨?_, ?_⟩, ?_, rfl, rfl⟩
      · intro k b hk hkd
        dsimp only at hk
        rw [put_apply] at hk
        split_ifs at hk with heq
        · rw [heq, ha]
          exact hk
        · exact h.clean k b hk hkd
      · intro k hk
        have hne : k ≠ id := by
          rintro rfl
          exact hd hk
        dsimp only
        rw [put_of_ne hne]
        exact h.dirty k hk
      · funext k
        unfold accounts
        dsimp only
        split_ifs with hk
        · have hne : k ≠ id := by
            rintro rfl
            exact hd hk
          rw [put_of_ne hne]
        · rfl

theorem writeBack_view (h : state.Coherent db) (debit credit : Account) :
    (state.writeBack debit credit).Coherent db ∧
      (state.writeBack debit credit).accounts db =
        put (put (state.accounts db) debit.id debit) credit.id credit := by
  refine ⟨⟨?_, ?_⟩, ?_⟩
  · intro k a hk hkd
    simp only [writeBack, Finset.mem_insert, not_or] at hk hkd
    rw [put_of_ne hkd.1, put_of_ne hkd.2.1] at hk
    exact h.clean k a hk hkd.2.2
  · intro k hk
    simp only [writeBack, Finset.mem_insert] at hk
    simp only [writeBack, put_apply]
    split_ifs with hc hd
    · rfl
    · rfl
    · exact h.dirty k (by tauto)
  · funext k
    simp only [accounts, writeBack, Finset.mem_insert, put_apply]
    by_cases hc : k = credit.id
    · simp [hc]
    · by_cases hd : k = debit.id
      · subst hd
        simp [hc]
      · simp [hc, hd]

/-- The overlay after an effect has been staged. -/
structure Enacted (db : Store) (state state' : ApplyState) (e : Effect) : Prop where
  coherent : state'.Coherent db
  accounts : state'.accounts db =
    put (put (state.accounts db) e.debit.id e.debit) e.credit.id e.credit
  resolved : state'.resolved = recordResolution state.resolved e.resolved
  removals : state'.expiryRemovals = state.expiryRemovals ++ resolvedRemovals e.resolved

theorem Enacted.of_sameView {e : Effect} (h : SameView db state state')
    (h' : Enacted db state' state'' e) : Enacted db state state'' e := by
  refine ⟨h'.coherent, ?_, ?_, ?_⟩
  · rw [h'.accounts, h.accounts]
  · rw [h'.resolved, h.resolved]
  · rw [h'.removals, h.removals]

end ApplyState

open ApplyState

/-- A staging function and the book's decision reach the same verdict. -/
def Staged (db : Store) (state : ApplyState) :
    Except CreateTransferResult Transfer × ApplyState → Except CreateTransferResult Effect → Prop
  | (.error code, state'), .error code' => code = code' ∧ SameView db state state'
  | (.ok record, state'), .ok e => record = e.record ∧ Enacted db state state' e
  | _, _ => False

theorem stageMovement_refines {db s : Store} {state : ApplyState} (h : state.Coherent db)
    (hs : s.accounts = state.accounts db) (t : Transfer)
    (movement : Account → Account → Except CreateTransferResult Movement) :
    Staged db state
      ((stageMovement db t movement state).1.map (fun amount => { t with amount := amount }),
        (stageMovement db t movement state).2)
      ((decideMovement s t movement).map (Movement.effect t)) := by
  obtain ⟨state₁, hl₁, hv₁⟩ := loadAccount_view h t.debitAccountId
  obtain ⟨state₂, hl₂, hv₂⟩ := loadAccount_view hv₁.coherent t.creditAccountId
  unfold stageMovement decideMovement
  rw [hs, hl₁]
  cases hd : state.accounts db t.debitAccountId with
  | none => exact ⟨rfl, hv₁⟩
  | some debit =>
    dsimp only
    rw [hl₂, hv₁.accounts]
    cases hc : state.accounts db t.creditAccountId with
    | none => exact ⟨rfl, hv₁.trans hv₂⟩
    | some credit =>
      dsimp only
      cases hm : movement debit credit with
      | error code => exact ⟨rfl, hv₁.trans hv₂⟩
      | ok m =>
        obtain ⟨hcoh, hacc⟩ := writeBack_view hv₂.coherent m.debit m.credit
        have henact : Enacted db state₂ (state₂.writeBack m.debit m.credit) (m.effect t) := by
          refine ⟨hcoh, hacc, rfl, ?_⟩
          simp [Movement.effect, resolvedRemovals, writeBack]
        exact ⟨rfl, henact.of_sameView (hv₁.trans hv₂)⟩

theorem stageResolution_refines {db s : Store} {state : ApplyState} (h : state.Coherent db)
    (hs : s.accounts = state.accounts db)
    (hp : ∀ id, s.pendingStates id = (state.resolved id).or (db.pendingStates id))
    (backstop : Transfer → ℕ → Bool) (t : Transfer) (post : Bool) (now : ℕ)
    (importedTs : Option ℕ) (lastTs : ℕ) :
    Agree (Staged db state)
      (stageResolution backstop db t (s.transfers t.pendingId) post now importedTs lastTs state)
      (decideResolution backstop s t post now importedTs lastTs) := by
  unfold stageResolution decideResolution
  cases s.transfers t.pendingId with
  | none => exact ⟨rfl, SameView.refl h⟩
  | some pending =>
    obtain ⟨state₁, hl₁, hv₁⟩ := loadAccount_view h pending.debitAccountId
    obtain ⟨state₂, hl₂, hv₂⟩ := loadAccount_view hv₁.coherent pending.creditAccountId
    dsimp only
    cases pendingFieldChecks t pending with
    | some code => exact ⟨rfl, SameView.refl h⟩
    | none =>
      dsimp only
      cases effectiveAmount t pending post with
      | error code => exact ⟨rfl, SameView.refl h⟩
      | ok effective =>
        dsimp only
        rw [hp, hs, hl₁]
        cases priorResolution ((state.resolved pending.id).or (db.pendingStates pending.id)) with
        | some code => exact ⟨rfl, SameView.refl h⟩
        | none =>
          dsimp only
          by_cases hb : backstop pending now = true
          · rw [if_pos hb, if_pos hb]
            exact ⟨rfl, SameView.refl h⟩
          · rw [if_neg hb, if_neg hb]
            cases hd : state.accounts db pending.debitAccountId with
            | none => exact rfl
            | some debit =>
              dsimp only
              rw [hl₂, hv₁.accounts]
              cases hc : state.accounts db pending.creditAccountId with
              | none => exact rfl
              | some credit =>
                dsimp only
                cases resolutionMovement t pending post effective importedTs lastTs
                    debit credit with
                | error e => exact rfl
                | ok outcome =>
                  cases outcome with
                  | error code => exact ⟨rfl, hv₁.trans hv₂⟩
                  | ok accounts =>
                    obtain ⟨debit', credit'⟩ := accounts
                    obtain ⟨hcoh, hacc⟩ := writeBack_view hv₂.coherent debit' credit'
                    refine ⟨rfl, Enacted.of_sameView (hv₁.trans hv₂) ?_⟩
                    -- the resolution record and the index removal leave the accounts alone
                    by_cases ht : (pending.timeout != 0) = true
                    · rw [if_pos ht]
                      refine ⟨⟨hcoh.clean, hcoh.dirty⟩, hacc, rfl, ?_⟩
                      simp [removeExpiry, resolvedRemovals, ht, writeBack]
                    · rw [if_neg ht]
                      refine ⟨⟨hcoh.clean, hcoh.dirty⟩, hacc, rfl, ?_⟩
                      simp [resolvedRemovals, ht, writeBack]

theorem stageTransfer_refines {db s : Store} {w : TransferWork} (h : w.state.Coherent db)
    (hs : s.accounts = w.state.accounts db)
    (hp : ∀ id, s.pendingStates id = (w.state.resolved id).or (db.pendingStates id))
    (ht : ∀ id, s.transfers id = (db.transfers id).or (w.staged id))
    (hl : w.ts.last = s.getWatermark) (backstop : Transfer → ℕ → Bool) (batchImported : Bool)
    (now : ℕ) (t : Transfer) :
    Agree (Staged db w.state) (stageTransfer backstop db batchImported now w t)
      (decideTransfer backstop batchImported now s t) := by
  have hpeek : w.ts.peek now = TimestampSource.peek ⟨s.getWatermark⟩ now := by
    simp [TimestampSource.peek, hl]
  unfold stageTransfer decideTransfer
  simp only [hl, hpeek, ← ht]
  cases classify t with
  | regular => exact stageMovement_refines h hs t _
  | pendingReserve => exact stageMovement_refines h hs t _
  | post => exact stageResolution_refines h hs hp backstop t true now _ _
  | void => exact stageResolution_refines h hs hp backstop t false now _ _

/-- The book a call has reached: what it would commit now, and the log with what
it has accepted. -/
def TransferWork.book (db : Store) (log : List Entry) (w : TransferWork) : Book :=
  ⟨commitTransfers db w, log ++ w.accepted.map Entry.transfer⟩

/-- The overlay `w` stands for the book `b`. -/
structure Refines (db : Store) (log : List Entry) (w : TransferWork) (b : Book) : Prop where
  coherent : w.state.Coherent db
  book : w.book db log = b
  staged : ∀ id, b.store.transfers id = (db.transfers id).or (w.staged id)
  keyed : ∀ id t, b.store.transfers id = some t → t.id = id
  removals : ∀ key ∈ w.state.expiryRemovals,
    (b.store.transfers (ExpiryKey.pendingId key)).isSome = true
  last : w.ts.last = b.store.getWatermark

variable {db : Store} {log : List Entry} {w w' : TransferWork} {b : Book}

theorem Refines.accounts (h : Refines db log w b) : b.store.accounts = w.state.accounts db := by
  rw [← h.book]
  rfl

theorem Refines.pendingStates (h : Refines db log w b) (id : U128) :
    b.store.pendingStates id = (w.state.resolved id).or (db.pendingStates id) := by
  rw [← h.book]
  rfl

theorem Refines.failed (h : Refines db log w b) : b.store.failed = db.failed ∪ w.failedIds := by
  rw [← h.book]
  rfl

theorem Refines.sameView (h : Refines db log w b) {state : ApplyState}
    (hv : SameView db w.state state) : Refines db log { w with state := state } b := by
  have hbook : TransferWork.book db log { w with state := state } = w.book db log := by
    simp only [TransferWork.book, commitTransfers, hv.removals, hv.resolved]
    have hacc := hv.accounts
    simp only [funext_iff, ApplyState.accounts] at hacc
    simp only [hacc]
  exact ⟨hv.coherent, hbook.trans h.book, h.staged, h.keyed, by
    rw [hv.removals]
    exact h.removals, h.last⟩

theorem foldl_delete_putExpiry (index : OrderedIndex ExpiryKey) (t : Transfer)
    {removals : List ExpiryKey} (h : ∀ key ∈ removals, ExpiryKey.pendingId key ≠ t.id) :
    removals.foldl OrderedIndex.delete (putExpiry index t) =
      putExpiry (removals.foldl OrderedIndex.delete index) t := by
  unfold putExpiry
  split_ifs
  · apply OrderedIndex.foldl_delete_put
    intro hmem
    exact h _ hmem rfl
  · rfl

theorem recordResolution_or (states states' : U128 → Option PendingStatus)
    (resolved : Option (Transfer × PendingStatus)) (id : U128) :
    (recordResolution states resolved id).or (states' id) =
      recordResolution (fun k => (states k).or (states' k)) resolved id := by
  cases resolved with
  | none => rfl
  | some p =>
    simp only [recordResolution, put_apply]
    split_ifs <;> rfl

theorem Refines.enacted (h : Refines db log w b) {state : ApplyState} {e : Effect}
    (he : Enacted db w.state state e) (hfresh : b.store.transfers e.record.id = none)
    (hpending : ∀ pending status, e.resolved = some (pending, status) →
      (b.store.transfers pending.id).isSome = true) (timestamp : ℕ) :
    Refines db log { w with
        ts := ⟨timestamp⟩
        state := state
        staged := put w.staged e.record.id { e.record with timestamp := timestamp }
        accepted := w.accepted ++ [{ e.record with timestamp := timestamp }] }
      (b.accept timestamp e) := by
  have hremovals : ∀ key ∈ state.expiryRemovals,
      (b.store.transfers (ExpiryKey.pendingId key)).isSome = true := by
    intro key hkey
    rw [he.removals, List.mem_append] at hkey
    rcases hkey with hkey | hkey
    · exact h.removals key hkey
    · obtain ⟨pending, status, hres, -, rfl⟩ := mem_resolvedRemovals.mp hkey
      exact hpending pending status hres
  have hfiled : ∀ key ∈ state.expiryRemovals, ExpiryKey.pendingId key ≠ e.record.id := by
    intro key hkey heq
    have hsome := hremovals key hkey
    rw [heq, hfresh] at hsome
    simp at hsome
  have hbook := h.book
  refine ⟨he.coherent, ?_, ?_, ?_, ?_, by simp [Book.accept, Store.getWatermark]⟩
  · rw [Book.accept, ← hbook, TransferWork.book, TransferWork.book]
    refine congrArg₂ Book.mk ?_ (by simp)
    ext1
    · rw [Store.enact_accounts]
      exact he.accounts
    · simp [commitTransfers]
    · rw [Store.enact_pendingStates]
      funext id
      simp only [commitTransfers, he.resolved]
      rw [recordResolution_or]
    · rw [Store.enact_expiry]
      simp only [commitTransfers, List.foldl_append, List.foldl_cons, List.foldl_nil]
      rw [foldl_delete_putExpiry _ { e.record with timestamp := timestamp } hfiled, he.removals,
        List.foldl_append]
    · simp [commitTransfers]
    · simp [commitTransfers]
  · intro id
    have hstaged := h.staged id
    simp only [Book.accept, Store.enact_transfers, put_apply]
    split_ifs with hid
    · subst hid
      rw [hfresh] at hstaged
      simp [(Option.or_eq_none_iff.mp hstaged.symm).1]
    · exact hstaged
  · intro id t ht
    simp only [Book.accept, Store.enact_transfers, put_apply] at ht
    split_ifs at ht with hid
    · rw [← Option.some.inj ht]
      exact hid.symm
    · exact h.keyed id t ht
  · intro key hkey
    simp only [Book.accept, Store.enact_transfers, put_apply]
    split_ifs
    · rfl
    · exact hremovals key hkey

theorem Refines.process (h : Refines db log w b) (backstop : Transfer → ℕ → Bool)
    (batchImported : Bool) (now : ℕ) (t : Transfer) :
    Agree (fun p q => p.1 = q.1 ∧ Refines db log p.2 q.2)
      (processTransfer backstop db batchImported now w t)
      (b.transfer backstop batchImported now t) := by
  unfold processTransfer Book.transfer
  cases validateTransferPreExistence t batchImported now with
  | some code => exact ⟨rfl, h⟩
  | none =>
    dsimp only
    rw [← h.staged]
    cases hfresh : b.store.transfers t.id with
    | some existing => exact ⟨rfl, h⟩
    | none =>
      have hfailed : (t.id ∈ w.failedIds ∨ t.id ∈ db.failed) ↔ t.id ∈ b.store.failed := by
        rw [h.failed, Finset.mem_union, or_comm]
      dsimp only
      by_cases hf : t.id ∈ b.store.failed
      · rw [if_pos (hfailed.mpr hf), if_pos hf]
        exact ⟨rfl, h⟩
      · rw [if_neg (mt hfailed.mp hf), if_neg hf]
        cases validateTransferPostExistence t with
        | some code => exact ⟨rfl, h⟩
        | none =>
          have hstage := stageTransfer_refines h.coherent h.accounts h.pendingStates h.staged
            h.last backstop batchImported now t
          dsimp only
          cases hd : decideTransfer backstop batchImported now b.store t with
          | error e =>
            cases hst : stageTransfer backstop db batchImported now w t with
            | error e' => simpa [hst, hd, Agree, bind, Except.bind] using hstage
            | ok p => simp [hst, hd, Agree] at hstage
          | ok outcome =>
            obtain ⟨⟨record, state⟩, hst, hrel⟩ := hstage.ok_right hd
            rw [hst]
            cases outcome with
            | error code =>
              cases record with
              | ok record => exact hrel.elim
              | error code' =>
                obtain ⟨rfl, hv⟩ := hrel
                exact ⟨rfl, h.sameView hv⟩
            | ok e =>
              cases record with
              | error code' => exact hrel.elim
              | ok record =>
                obtain ⟨rfl, he⟩ := hrel
                obtain ⟨hid, hres⟩ := decideTransfer_record hd
                have hpending : ∀ pending status, e.resolved = some (pending, status) →
                    (b.store.transfers pending.id).isSome = true := by
                  intro pending status hp
                  have hstored := hres pending status hp
                  rw [h.keyed _ _ hstored, hstored]
                  rfl
                have hstep := h.enacted he (by rw [hid]; exact hfresh) hpending
                  (assignedTimestamp batchImported now b.store.getWatermark t.timestamp)
                refine ⟨rfl, ?_⟩
                cases batchImported with
                | true => exact hstep
                | false =>
                  have hpeek : w.ts.peek now = TimestampSource.peek ⟨b.store.getWatermark⟩ now := by
                    simp [TimestampSource.peek, h.last]
                  simp only [Bool.false_eq_true, if_false, TimestampSource.next, hpeek]
                  exact hstep

/-- `w` was reached from `snapshot` by handling items of one chain. -/
structure Extends (snapshot w : TransferWork) : Prop where
  accepted : snapshot.accepted <+: w.accepted
  failedIds : w.failedIds = snapshot.failedIds

theorem processTransfer_extends {backstop : Transfer → ℕ → Bool} {batchImported : Bool} {now : ℕ}
    {t : Transfer} {r : CreateTransferResult}
    (h : processTransfer backstop db batchImported now w t = .ok (r, w')) : Extends w w' := by
  unfold processTransfer at h
  split at h
  · cases h
    exact ⟨List.prefix_rfl, rfl⟩
  split at h
  · cases h
    exact ⟨List.prefix_rfl, rfl⟩
  by_cases hf : t.id ∈ w.failedIds ∨ t.id ∈ db.failed
  · rw [if_pos hf] at h
    cases h
    exact ⟨List.prefix_rfl, rfl⟩
  rw [if_neg hf] at h
  split at h
  · cases h
    exact ⟨List.prefix_rfl, rfl⟩
  rw [bind_eq_ok] at h
  obtain ⟨⟨record, state⟩, -, h⟩ := h
  cases record with
  | error code =>
    cases h
    exact ⟨List.prefix_rfl, rfl⟩
  | ok record =>
    cases h
    exact ⟨List.prefix_append _ _, rfl⟩

theorem rollback_of_extends {snapshot : TransferWork} (h : Extends snapshot w) :
    w.rollback snapshot = snapshot := by
  obtain ⟨rest, hrest⟩ := h.accepted
  unfold TransferWork.rollback
  rw [← hrest, List.take_left, h.failedIds]

theorem Refines.burn (h : Refines db log w b) (ids : Finset U128) :
    Refines db log { w with failedIds := w.failedIds ∪ ids }
      { b with store := b.store.burn ids } := by
  refine { h with book := ?_ }
  rw [← h.book]
  simp [TransferWork.book, commitTransfers, Store.burn, Finset.union_assoc]

theorem transferOps_simulates (db : Store) (log : List Entry) (backstop : Transfer → ℕ → Bool)
    (batchImported : Bool) (now : ℕ) :
    BatchOps.Simulates (transferOps backstop db batchImported now)
      (bookTransferOps backstop batchImported now) (Refines db log) Extends (fun _ => True) where
  settled _ := rfl
  linkedFailed := rfl
  chainOpen := rfl
  refl _ := ⟨List.prefix_rfl, rfl⟩
  extend := by
    intro w₀ w t r w' he hp
    have hstep := processTransfer_extends hp
    exact ⟨he.accepted.trans hstep.accepted, hstep.failedIds.trans he.failedIds⟩
  process := by
    intro w b t _ h
    exact h.process backstop batchImported now t
  rollback := by
    intro snapshot snapshot' w b hsnap _ he
    change Refines db log (w.rollback snapshot) snapshot'
    rw [rollback_of_extends he]
    exact hsnap
  finish := by
    intro w b ps h
    exact h.burn (burnedIds ps)

/-- A call before its first item. -/
def TransferWork.start (db : Store) (state : ApplyState) : TransferWork :=
  ⟨⟨db.getWatermark⟩, state, fun _ => none, [], ∅⟩

/-- Records are stored under their own ids, and index entries name stored transfers. -/
structure WellKeyed (db : Store) : Prop where
  transfers : ∀ id t, db.transfers id = some t → t.id = id
  expiry : ∀ key ∈ db.expiry, (db.transfers (ExpiryKey.pendingId key)).isSome = true

theorem Refines.start (h : WellKeyed db) (log : List Entry) :
    Refines db log (.start db .default) ⟨db, log⟩ := by
  refine ⟨⟨?_, ?_⟩, ?_, ?_, h.transfers, ?_, rfl⟩
  · intro id a ha
    simp [TransferWork.start, ApplyState.default] at ha
  · intro id hid
    simp [TransferWork.start, ApplyState.default] at hid
  · simp [TransferWork.book, commitTransfers, TransferWork.start, ApplyState.default]
  · intro id
    simp [TransferWork.start]
  · intro key hkey
    simp [TransferWork.start, ApplyState.default] at hkey

theorem Refines.removeExpiry (h : Refines db log w b) {key : ExpiryKey}
    (hkey : (b.store.transfers (ExpiryKey.pendingId key)).isSome = true) :
    Refines db log { w with state := w.state.removeExpiry key }
      { b with store := b.store.dropExpiry key } := by
  refine ⟨⟨h.coherent.clean, h.coherent.dirty⟩, ?_, h.staged, h.keyed, ?_, h.last⟩
  · rw [← h.book]
    simp only [TransferWork.book, commitTransfers, ApplyState.removeExpiry, Store.dropExpiry,
      List.foldl_append, List.foldl_cons, List.foldl_nil]
    rfl
  · intro k hk
    simp only [ApplyState.removeExpiry, List.mem_append, List.mem_singleton] at hk
    rcases hk with hk | rfl
    · exact h.removals k hk
    · exact hkey

theorem Refines.release (h : Refines db log w b) (debit credit : Account) (id : U128)
    (status : PendingStatus) :
    Refines db log
      { w with
        state := { w.state.writeBack debit credit with
          resolved := put w.state.resolved id status } }
      { b with store := (b.store.putAccounts debit credit).resolve id status } := by
  obtain ⟨hcoh, hacc⟩ := ApplyState.writeBack_view h.coherent debit credit
  refine { h with coherent := { hcoh with }, book := ?_ }
  rw [← h.book]
  refine congrArg₂ Book.mk ?_ rfl
  ext1
  · exact hacc
  · rfl
  · funext k
    simp only [commitTransfers, Store.resolve, Store.putAccounts, TransferWork.book, put_apply]
    split_ifs <;> rfl
  · rfl
  · rfl
  · rfl

theorem sweepOne_refines {state : ApplyState} {s : Store}
    (h : Refines db log (.start db state) ⟨s, log⟩) {key : ExpiryKey}
    (hkey : (db.transfers (ExpiryKey.pendingId key)).isSome = true) :
    Agree (fun state' s' => Refines db log (.start db state') ⟨s', log⟩)
      (sweepOne db state key) (s.expireOne key) := by
  have hstored : s.transfers (ExpiryKey.pendingId key) =
      db.transfers (ExpiryKey.pendingId key) := by
    have hst := h.staged (ExpiryKey.pendingId key)
    simpa [TransferWork.start] using hst
  have hresolved : ((state.resolved (ExpiryKey.pendingId key)).isSome ||
      (db.pendingStates (ExpiryKey.pendingId key)).isSome) =
      (s.pendingStates (ExpiryKey.pendingId key)).isSome := by
    have hp := h.pendingStates (ExpiryKey.pendingId key)
    dsimp only [TransferWork.start] at hp
    rw [hp, Option.isSome_or]
  unfold sweepOne Store.expireOne
  dsimp only
  rw [hresolved, hstored]
  by_cases hr : (s.pendingStates (ExpiryKey.pendingId key)).isSome = true
  · rw [if_pos hr, if_pos hr]
    exact h.removeExpiry (by rw [hstored]; exact hkey)
  · rw [if_neg hr, if_neg hr]
    cases hp : db.transfers (ExpiryKey.pendingId key) with
    | none =>
      rw [hp] at hkey
      simp at hkey
    | some pending =>
      obtain ⟨state₁, hl₁, hv₁⟩ := loadAccount_view h.coherent pending.debitAccountId
      obtain ⟨state₂, hl₂, hv₂⟩ := loadAccount_view hv₁.coherent pending.creditAccountId
      have hacc : s.accounts = state.accounts db := h.accounts
      dsimp only [TransferWork.start] at hl₁ hl₂ hv₁ hv₂ ⊢
      rw [hacc, hl₁]
      cases state.accounts db pending.debitAccountId with
      | none => exact rfl
      | some debit =>
        dsimp only
        rw [hl₂, hv₁.accounts]
        cases state.accounts db pending.creditAccountId with
        | none => exact rfl
        | some credit =>
          dsimp only
          cases releaseReservation pending debit credit .debitsPendingUnderflowOnExpiry
              .creditsPendingUnderflowOnExpiry with
          | error e => exact rfl
          | ok released =>
            have hv := h.sameView (hv₁.trans hv₂)
            have hrel := hv.release (reopenAccounts pending released.1 released.2).1
              (reopenAccounts pending released.1 released.2).2 (ExpiryKey.pendingId key) .expired
            refine hrel.removeExpiry ?_
            change (s.transfers (ExpiryKey.pendingId key)).isSome = true
            rw [hstored]
            exact hkey

theorem sweepExpired_refines (h : WellKeyed db) (log : List Entry) (now : ℕ) :
    Agree (fun state s => Refines db log (.start db state) ⟨s, log⟩)
      (sweepExpired db now .default) (db.sweep now) := by
  have hkeys : ∀ key ∈ db.scanExpired now,
      (db.transfers (ExpiryKey.pendingId key)).isSome = true := by
    intro key hkey
    exact h.expiry key (OrderedIndex.mem_scan.mp hkey).1
  unfold sweepExpired Store.sweep
  generalize db.scanExpired now = keys at hkeys
  suffices hrun : ∀ state s, Refines db log (.start db state) ⟨s, log⟩ →
      Agree (fun state s => Refines db log (.start db state) ⟨s, log⟩)
        (keys.foldlM (sweepOne db) state) (keys.foldlM Store.expireOne s) from
    hrun _ _ (Refines.start h log)
  induction keys with
  | nil =>
    intro state s hs
    exact hs
  | cons key keys ih =>
    intro state s hs
    rw [List.foldlM_cons, List.foldlM_cons]
    apply (sweepOne_refines hs (hkeys key (by simp))).bind
    intro state' s' hs'
    exact ih (fun k hk => hkeys k (by simp [hk])) state' s' hs'

/-- `createTransfers` computes what the book machine computes, and commits its store. -/
theorem applyTransfersWith_refines (h : WellKeyed db) (log : List Entry)
    (backstop : Transfer → ℕ → Bool) (now : ℕ) (transfers : List Transfer) :
    Agree (fun p q => p.1 = q.1 ∧ p.2.book db log = q.2)
      (applyTransfersWith backstop db now transfers)
      (Book.createTransfers backstop ⟨db, log⟩ now transfers) := by
  unfold applyTransfersWith Book.createTransfers
  rw [chainSegments_eq]
  apply (sweepExpired_refines h log now).bind
  intro state s hs
  refine ((transferOps_simulates db log backstop (transfersImported transfers) now).runSegments
    (fun _ _ => trivial) hs).mono ?_
  rintro p q ⟨hr, hR⟩
  exact ⟨hr, hR.book⟩

theorem createTransfersWith_eq_book (h : WellKeyed db) (log : List Entry)
    (backstop : Transfer → ℕ → Bool) (now : ℕ) (transfers : List Transfer) :
    createTransfersWith backstop db now transfers =
      (Book.createTransfers backstop ⟨db, log⟩ now transfers).map fun p => (p.1, p.2.store) := by
  have hagree := applyTransfersWith_refines h log backstop now transfers
  unfold createTransfersWith
  cases hb : Book.createTransfers backstop ⟨db, log⟩ now transfers with
  | error e =>
    cases ha : applyTransfersWith backstop db now transfers with
    | error e' =>
      simp only [ha, hb, Agree] at hagree
      rw [hagree]
      rfl
    | ok p => simp [ha, hb, Agree] at hagree
  | ok q =>
    obtain ⟨p, ha, hr, hbook⟩ := hagree.ok_right hb
    rw [ha, Except.map, ← hr, ← hbook]
    rfl

def AccountWork.book (db : Store) (log : List Entry) (w : AccountWork) : Book :=
  ⟨commitAccounts db w, log ++ w.accepted.map Entry.account⟩

/-- The account overlay `w` stands for the book `b`. -/
structure AccountRefines (db : Store) (log : List Entry) (w : AccountWork) (b : Book) : Prop where
  book : w.book db log = b
  staged : ∀ id, b.store.accounts id = (db.accounts id).or (w.staged id)
  last : w.ts.last = b.store.getWatermark

theorem AccountRefines.process {w : AccountWork} (h : AccountRefines db log w b)
    (batchImported : Bool) (now : ℕ) (spec : Account) :
    (stageAccount db batchImported now w spec).1 = (b.account batchImported now spec).1 ∧
      AccountRefines db log (stageAccount db batchImported now w spec).2
        (b.account batchImported now spec).2 := by
  unfold stageAccount Book.account
  cases validateAccountPreExistence spec batchImported now with
  | some code => exact ⟨rfl, h⟩
  | none =>
    dsimp only
    rw [← h.staged]
    cases hfresh : b.store.accounts spec.id with
    | some existing => exact ⟨rfl, h⟩
    | none =>
      dsimp only
      cases validateAccountPostExistence spec with
      | some code => exact ⟨rfl, h⟩
      | none =>
        dsimp only
        rw [h.last]
        by_cases hreg : (batchImported && decide (spec.timestamp ≤ b.store.getWatermark)) = true
        · rw [if_pos hreg, if_pos hreg]
          exact ⟨rfl, h⟩
        · rw [if_neg hreg, if_neg hreg]
          have hstaged := h.staged spec.id
          rw [hfresh] at hstaged
          have hdb := (Option.or_eq_none_iff.mp hstaged.symm).1
          have hts : (if batchImported = true then
              (spec.timestamp, w.ts.assignImported spec.timestamp) else w.ts.next now) =
              (assignedTimestamp batchImported now b.store.getWatermark spec.timestamp,
                ⟨assignedTimestamp batchImported now b.store.getWatermark spec.timestamp⟩) := by
            cases batchImported with
            | true => rfl
            | false => simp [assignedTimestamp, TimestampSource.next, TimestampSource.peek, h.last]
          rw [hts]
          refine ⟨rfl, ?_, ?_, rfl⟩
          · rw [← h.book]
            simp [AccountWork.book, commitAccounts, Store.openAccount]
          · intro id
            simp only [Store.openAccount, put_apply]
            split_ifs with hid
            · subst hid
              simp [hdb]
            · exact h.staged id

theorem accountOps_simulates (db : Store) (log : List Entry) (batchImported : Bool) (now : ℕ) :
    BatchOps.Simulates (accountOps db batchImported now) (bookAccountOps batchImported now)
      (AccountRefines db log) (fun snapshot w => snapshot.accepted <+: w.accepted)
      (fun _ => True) where
  settled _ := rfl
  linkedFailed := rfl
  chainOpen := rfl
  refl _ := List.prefix_rfl
  extend := by
    intro w₀ w spec r w' he hp
    simp only [accountOps, Except.ok.injEq] at hp
    refine he.trans ?_
    unfold stageAccount at hp
    split at hp
    · cases hp
      exact List.prefix_rfl
    split at hp
    · cases hp
      exact List.prefix_rfl
    split at hp
    · cases hp
      exact List.prefix_rfl
    split_ifs at hp
    all_goals
      cases hp
      simp
  process := by
    intro w b spec _ h
    exact h.process batchImported now spec
  rollback := by
    intro snapshot snapshot' w b hsnap _ he
    obtain ⟨rest, hrest⟩ := he
    change AccountRefines db log (w.rollback snapshot) snapshot'
    rw [AccountWork.rollback, ← hrest, List.take_left]
    exact hsnap
  finish := by
    intro w b ps h
    exact h

/-- `createAccounts` computes what the book machine computes, and commits its store. -/
theorem applyAccounts_refines (db : Store) (log : List Entry) (now : ℕ) (specs : List Account) :
    Agree (fun p q => p.1 = q.1 ∧ p.2.book db log = q.2)
      (applyAccounts db now specs) (Book.createAccounts ⟨db, log⟩ now specs) := by
  have hstart : AccountRefines db log ⟨⟨db.getWatermark⟩, fun _ => none, []⟩ ⟨db, log⟩ := by
    refine ⟨by simp [AccountWork.book, commitAccounts], ?_, rfl⟩
    intro id
    simp
  unfold applyAccounts Book.createAccounts
  rw [chainSegments_eq]
  refine ((accountOps_simulates db log (accountsImported specs) now).runSegments
    (fun _ _ => trivial) hstart).mono ?_
  rintro p q ⟨hr, hR⟩
  exact ⟨hr, hR.book⟩

theorem createAccounts_eq_book (db : Store) (log : List Entry) (now : ℕ) (specs : List Account) :
    createAccounts db now specs =
      (Book.createAccounts ⟨db, log⟩ now specs).map fun p => (p.1, p.2.store) := by
  have hagree := applyAccounts_refines db log now specs
  unfold createAccounts
  cases hb : Book.createAccounts ⟨db, log⟩ now specs with
  | error e => exact e.elim
  | ok q =>
    obtain ⟨p, ha, hr, hbook⟩ := hagree.ok_right hb
    rw [ha, Except.map, ← hr, ← hbook]
    rfl

end BlueDB.Ledger
