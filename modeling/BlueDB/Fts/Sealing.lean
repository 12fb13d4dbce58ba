import BlueDB.Fts.Segment

/-!
# Sealing loses no write

The lock keeps writes and commits apart, and once a careful seal has committed, no call is
past the gate until the seal ends. So the snapshot is what the writer holds, the durable
tier takes it before the live segment forgets it, and nothing else is forgotten.
-/

namespace BlueDB.Fts.LiveSegment

variable {Tid Pk Text : Type} {s s' : LiveSegment Tid Pk Text}

/-- No call is past the gate. -/
def Shut (s : LiveSegment Tid Pk Text) : Prop := ∀ h, s.lock = some h → h.next = .recheck

theorem Shut.not_inFlight (h : s.Shut) (pk : Pk) : ¬ s.InFlight pk := by
  rintro ⟨hld, hlock, -, hnext⟩
  exact hnext (h hld hlock)

theorem shut_of_free (h : s.lock = none) : s.Shut := by
  intro hld hlock
  rw [h] at hlock
  cases hlock

theorem Shut.lock_eq (h : s.Shut) (hlock : s'.lock = s.lock) : s'.Shut := by
  unfold Shut
  rw [hlock]
  exact h

/-- Somebody is about to commit. -/
def Committing (s : LiveSegment Tid Pk Text) : Prop :=
  s.sealing = some .commit ∨ ∃ t, s.searches t = some .commit

/-- Somebody is about to reload. -/
def Reloading (s : LiveSegment Tid Pk Text) : Prop :=
  s.sealing = some .reload ∨ s.sealing = some .reloadEmpty ∨
    ∃ t, s.searches t = some .reload

/-- Whenever the reader is behind the writer, somebody knows. -/
structure Fresh (s : LiveSegment Tid Pk Text) : Prop where
  committed : s.committed = s.writer ∨ s.dirty = true ∨ s.Writing ∨ s.Committing
  reader : s.reader = s.writer ∨ s.dirty = true ∨ s.Writing ∨ s.Committing ∨ s.Reloading
  /-- The mark of the call that is about to unlock has not been acted on. -/
  marked : ∀ h, s.lock = some h → h.next = .unlock → s.dirty = true ∨ s.Committing

theorem Fresh.congr (h : s.Fresh) (hwriter : s'.writer = s.writer)
    (hcommitted : s'.committed = s.committed) (hreader : s'.reader = s.reader)
    (hdirty : s'.dirty = s.dirty) (hlock : s'.lock = s.lock) (hsearches : s'.searches = s.searches)
    (hcommit : s.sealing = some .commit → s'.sealing = some .commit)
    (hreload : s.sealing = some .reload → s'.sealing = some .reload)
    (hempty : s.sealing = some .reloadEmpty → s'.sealing = some .reloadEmpty) : s'.Fresh := by
  have hwriting : s.Writing → s'.Writing := by
    unfold Writing
    rw [hlock]
    exact id
  have hcommitting : s.Committing → s'.Committing := by
    unfold Committing
    rw [hsearches]
    exact Or.imp_left hcommit
  have hreloading : s.Reloading → s'.Reloading := by
    unfold Reloading
    rw [hsearches]
    exact Or.imp hreload (Or.imp_left hempty)
  refine ⟨?_, ?_, ?_⟩
  · rw [hwriter, hcommitted, hdirty]
    exact h.committed.imp_right (Or.imp_right (Or.imp hwriting hcommitting))
  · rw [hwriter, hreader, hdirty]
    exact h.reader.imp_right (Or.imp_right (Or.imp hwriting (Or.imp hcommitting hreloading)))
  · intro hld hl hnext
    rw [hlock] at hl
    rw [hdirty]
    exact (h.marked hld hl hnext).imp_right hcommitting

theorem Fresh.of_writing {h : Holder Tid Pk Text} (hlock : s.lock = some h)
    (hrecheck : h.next ≠ .recheck) (hunlock : h.next ≠ .unlock) : s.Fresh := by
  have hwriting : s.Writing := ⟨h, hlock, hrecheck, hunlock⟩
  refine ⟨Or.inr (Or.inr (Or.inl hwriting)), Or.inr (Or.inr (Or.inl hwriting)), ?_⟩
  intro hld hl hnext
  rw [hlock] at hl
  obtain rfl := Option.some.inj hl
  exact absurd hnext hunlock

theorem Fresh.of_dirty (h : s.dirty = true) : s.Fresh :=
  ⟨Or.inr (Or.inl h), Or.inr (Or.inl h), fun _ _ _ => Or.inl h⟩

theorem Fresh.of_committing (h : s.Committing) : s.Fresh :=
  ⟨Or.inr (Or.inr (Or.inr h)), Or.inr (Or.inr (Or.inr (Or.inl h))), fun _ _ _ => Or.inr h⟩

theorem Fresh.relock (h : s.Fresh) (hwriting : ¬ s.Writing) {l : Option (Holder Tid Pk Text)}
    {c : Tid → Option (Caller Pk Text)} (hl : ∀ hld, l = some hld → hld.next ≠ .unlock) :
    Fresh { s with lock := l, callers := c } := by
  refine ⟨?_, ?_, fun hld hlock hnext => absurd hnext (hl hld hlock)⟩
  · rcases h.committed with hc | hd | hw | hm
    · exact Or.inl hc
    · exact Or.inr (Or.inl hd)
    · exact absurd hw hwriting
    · exact Or.inr (Or.inr (Or.inr hm))
  · rcases h.reader with hc | hd | hw | hm
    · exact Or.inl hc
    · exact Or.inr (Or.inl hd)
    · exact absurd hw hwriting
    · exact Or.inr (Or.inr (Or.inr hm))

theorem not_writing_of_next {h : Holder Tid Pk Text} (hlock : s.lock = some h)
    (hnext : h.next = .recheck ∨ h.next = .unlock) : ¬ s.Writing := by
  rintro ⟨hld, hl, hrecheck, hunlock⟩
  rw [hlock] at hl
  obtain rfl := Option.some.inj hl
  exact hnext.elim hrecheck hunlock

theorem not_writing_of_free (h : s.lock = none) : ¬ s.Writing := by
  rintro ⟨hld, hl, -⟩
  rw [h] at hl
  cases hl

theorem committing_setSearch [DecidableEq Tid] {t : Tid} {f : Option Freshening} (h : s.Committing)
    (ht : s.searches t ≠ some .commit) : (s.setSearch t f).Committing := by
  rcases h with h | ⟨t', h⟩
  · exact Or.inl h
  · refine Or.inr ⟨t', ?_⟩
    have hne : t' ≠ t := by
      rintro rfl
      exact ht h
    exact (Function.update_of_ne hne ..).trans h

/-- The next step of a seal that has not to do with the documents. -/
theorem Fresh.sealing (h : s.Fresh) {step : SealStep Pk Text}
    (hstep : s.sealing = some step)
    (hother : step ≠ .commit ∧ step ≠ .reload ∧ step ≠ .reloadEmpty)
    (hsame : (s'.writer, s'.committed, s'.reader, s'.dirty, s'.lock, s'.searches) =
      (s.writer, s.committed, s.reader, s.dirty, s.lock, s.searches)) : s'.Fresh := by
  obtain ⟨hwriter, hcommitted, hreader, hdirty, hlock, hsearches⟩ := by
    simpa only [Prod.mk.injEq] using hsame
  apply h.congr hwriter hcommitted hreader hdirty hlock hsearches
  · rw [hstep]
    exact fun heq => absurd (Option.some.inj heq) hother.1
  · rw [hstep]
    exact fun heq => absurd (Option.some.inj heq) hother.2.1
  · rw [hstep]
    exact fun heq => absurd (Option.some.inj heq) hother.2.2

/-- What the call that holds the lock has already written of its key. -/
def Written (s : LiveSegment Tid Pk Text) (task : Task Pk Text) : WriterStep → Prop
  | .recheck | .buffer => True
  | .hide => s.writer task.pk = none ∧ task.text = none
  | .cover => s.writer task.pk = task.text ∧ (task.pk ∈ s.tombstones ↔ task.text = none)
  | .mark | .unlock => s.writer task.pk = task.text ∧
      (task.pk ∈ s.tombstones ↔ task.text = none) ∧ task.pk ∈ s.covered

theorem not_inFlight_of_holding {hld : Holder Tid Pk Text} (step : WriterStep) {pk : Pk}
    (hlock : s'.lock = some ⟨hld.thread, hld.task, step⟩) (hnext : step ≠ .recheck)
    (h : ¬ s'.InFlight pk) : pk ≠ hld.task.pk := by
  rintro rfl
  exact h ⟨_, hlock, rfl, hnext⟩

theorem not_inFlight_of_ne {hld : Holder Tid Pk Text} {pk : Pk} (hlock : s.lock = some hld)
    (hne : pk ≠ hld.task.pk) : ¬ s.InFlight pk := by
  rintro ⟨hld', hl, hpk, -⟩
  rw [hlock] at hl
  obtain rfl := Option.some.inj hl
  exact hne hpk.symm

theorem not_inFlight_of_recheck {hld : Holder Tid Pk Text} (hlock : s.lock = some hld)
    (hnext : hld.next = .recheck) (pk : Pk) : ¬ s.InFlight pk := by
  rintro ⟨hld', hl, -, hne⟩
  rw [hlock] at hl
  obtain rfl := Option.some.inj hl
  exact hne hnext

variable [DecidableEq Pk]

/-- The live segment and the durable tier together hold what is intended for a key. -/
structure Kept (initial : Docs Pk Text) (s : LiveSegment Tid Pk Text) (pk : Pk) : Prop where
  hidden : pk ∈ s.covered → pk ∈ s.tombstones → intended initial s.returned pk = none
  live : pk ∈ s.covered → pk ∉ s.tombstones →
    s.writer pk = intended initial s.returned pk ∧ (s.writer pk).isSome = true
  sealed : pk ∉ s.covered → pk ∉ s.tombstones ∧ s.writer pk = none ∧
    s.durable pk = intended initial s.returned pk

/-- The reader shows what the writer holds, and no call is past the gate. -/
structure Shown (s : LiveSegment Tid Pk Text) : Prop where
  shut : s.Shut
  committed : s.committed = s.writer
  reader : s.reader = s.writer

/-- The durable tier holds all that is intended, and no call is past the gate. -/
structure Stored (initial : Docs Pk Text) (s : LiveSegment Tid Pk Text) : Prop where
  shut : s.Shut
  durable : s.durable = intended initial s.returned

structure Wiped (initial : Docs Pk Text) (s : LiveSegment Tid Pk Text) : Prop
    extends Stored initial s where
  writer : s.writer = fun _ => none
  committed : s.committed = fun _ => none

/-- The documents are gone for the reader too. -/
structure Emptied (initial : Docs Pk Text) (s : LiveSegment Tid Pk Text) : Prop
    extends Wiped initial s where
  reader : s.reader = fun _ => none

/-- What a seal has reached. -/
def Progress (initial : Docs Pk Text) (s : LiveSegment Tid Pk Text) : SealStep Pk Text → Prop
  | .swap | .commit => True
  | .reload => s.Shut ∧ s.committed = s.writer
  | .cloneTombs => s.Shown
  | .readDocs tombs => s.Shown ∧ tombs = s.tombstones
  | .update docs tombs => s.Shown ∧ tombs = s.tombstones ∧
      docs = fun pk => if pk ∈ tombs then none else s.writer pk
  | .delete tombs => s.Shut ∧ tombs = s.tombstones ∧
      ∀ pk, pk ∉ tombs → (s.writer pk).isSome = true → s.durable pk = s.writer pk
  | .wipe => Stored initial s
  | .reloadEmpty => Wiped initial s
  | .clearTombs => Emptied initial s
  | .clearCovered => Emptied initial s ∧ s.tombstones = ∅
  | .clearDirty | .release => Emptied initial s ∧ s.tombstones = ∅ ∧ s.covered = ∅

/-- The seal has cleared some of the live segment, and not yet all of it. -/
def clearing : SealStep Pk Text → Bool
  | .reloadEmpty | .clearTombs | .clearCovered => true
  | _ => false

structure Inv (initial : Docs Pk Text) (s : LiveSegment Tid Pk Text) : Prop where
  fresh : s.Fresh
  written : ∀ h, s.lock = some h → s.Written h.task h.next
  progress : ∀ step, s.sealing = some step → Progress initial s step
  kept : (∀ step, s.sealing = some step → clearing step = false) →
    ∀ pk, ¬ s.InFlight pk → Kept initial s pk

variable {initial : Docs Pk Text}

theorem Inv.start (initial : Docs Pk Text) :
    Inv initial (LiveSegment.fresh initial : LiveSegment Tid Pk Text) where
  fresh := ⟨Or.inl rfl, Or.inl rfl, fun _ h => nomatch h⟩
  written _ h := nomatch h
  progress _ h := nomatch h
  kept _ pk _ := by
    refine ⟨?_, ?_, fun _ => ⟨Finset.notMem_empty pk, rfl, rfl⟩⟩
    · exact fun h => absurd h (Finset.notMem_empty pk)
    · exact fun h => absurd h (Finset.notMem_empty pk)

variable {a : Action Tid Pk Text}

theorem Inv.step_fresh [DecidableEq Tid] (h : Inv initial s) (hstep : Step s a s') : s'.Fresh := by
  cases hstep with
  | call _ | waited _ _ => exact h.fresh.congr rfl rfl rfl rfl rfl rfl id id id
  | lock _ hfree =>
    refine h.fresh.relock (not_writing_of_free hfree) ?_
    rintro hld ⟨⟩
    exact nofun
  | bounce hlock hnext _ =>
    exact h.fresh.relock (not_writing_of_next hlock (Or.inl hnext)) nofun
  | enter _ _ _ | bufferIndex _ _ _ | bufferTombstone _ _ _ | hide _ _ | cover _ _ =>
    exact .of_writing rfl nofun nofun
  | mark _ _ => exact .of_dirty rfl
  | unlock hlock hnext =>
    rcases h.fresh.marked _ hlock hnext with hdirty | hcommitting
    · exact .of_dirty hdirty
    · exact .of_committing hcommitting
  | searchClean _ _ => exact h.fresh
  | @searchSwap t _ _ => exact .of_committing (Or.inr ⟨t, Function.update_self ..⟩)
  | @searchCommit t ht hfree =>
    refine ⟨Or.inl rfl, ?_, ?_⟩
    · exact Or.inr (Or.inr (Or.inr (Or.inr (Or.inr (Or.inr ⟨t, Function.update_self ..⟩)))))
    · intro hld hlock
      exact absurd hlock (by simp [setSearch, hfree])
  | @searchReload t ht =>
    have hne : s.searches t ≠ some .commit := by simp [ht]
    have hcommitted : s.committed = s.writer ∨ s.dirty = true ∨ s.Writing ∨
        (s.setSearch t none).Committing := by
      rcases h.fresh.committed with hc | hd | hw | hm
      · exact Or.inl hc
      · exact Or.inr (Or.inl hd)
      · exact Or.inr (Or.inr (Or.inl hw))
      · exact Or.inr (Or.inr (Or.inr (committing_setSearch hm hne)))
    refine ⟨hcommitted, ?_, ?_⟩
    · exact hcommitted.imp_right (Or.imp_right (Or.imp_right Or.inl))
    · intro hld hlock hnext
      exact (h.fresh.marked hld hlock hnext).imp_right fun hm => committing_setSearch hm hne
  | claim hs =>
    refine h.fresh.congr rfl rfl rfl rfl rfl rfl ?_ ?_ ?_
    all_goals
      rw [hs]
      exact nofun
  | sealClean hs _ | cloneTombs hs | readDocs hs | update hs | delete hs | abortUpdate hs
  | abortUpdated hs | abortDelete hs | abortDeleted hs | clearTombs hs | clearCovered hs
  | release hs => exact h.fresh.sealing hs ⟨nofun, nofun, nofun⟩ rfl
  | sealSwap _ _ => exact .of_committing (Or.inl rfl)
  | sealCommit _ hfree =>
    refine ⟨Or.inl rfl, Or.inr (Or.inr (Or.inr (Or.inr (Or.inl rfl)))), ?_⟩
    intro hld hlock
    exact absurd hlock (by simp [hfree])
  | sealReload hs =>
    obtain ⟨hshut, hcommitted⟩ := h.progress _ hs
    refine ⟨Or.inl hcommitted, Or.inl hcommitted, ?_⟩
    intro hld hlock hnext
    exact absurd ((hshut hld hlock).symm.trans hnext) nofun
  | wipe _ hfree =>
    refine ⟨Or.inl rfl, Or.inr (Or.inr (Or.inr (Or.inr (Or.inr (Or.inl rfl))))), ?_⟩
    intro hld hlock
    exact absurd hlock (by simp [hfree])
  | reloadEmpty hs =>
    obtain ⟨⟨hshut, -⟩, hwriter, hcommitted⟩ := h.progress _ hs
    refine ⟨Or.inl (hcommitted.trans hwriter.symm), Or.inl (hcommitted.trans hwriter.symm), ?_⟩
    intro hld hlock hnext
    exact absurd ((hshut hld hlock).symm.trans hnext) nofun
  | clearDirty hs =>
    obtain ⟨⟨⟨⟨hshut, -⟩, hwriter, hcommitted⟩, hreader⟩, -⟩ := h.progress _ hs
    refine ⟨Or.inl (hcommitted.trans hwriter.symm), Or.inl (hreader.trans hwriter.symm), ?_⟩
    intro hld hlock hnext
    exact absurd ((hshut hld hlock).symm.trans hnext) nofun

theorem Inv.step_written [DecidableEq Tid] (h : Inv initial s) (hcareful : s.Careful a)
    (hstep : Step s a s') :
    ∀ hld, s'.lock = some hld → s'.Written hld.task hld.next := by
  intro hld hlock
  cases hstep with
  | call _ | waited _ _ | searchClean _ _ | searchSwap _ _ | searchCommit _ _ | searchReload _
  | claim _ | sealClean _ _ | sealSwap _ _ | sealCommit _ _ | sealReload _ | cloneTombs _
  | readDocs _ | update _ | delete _ | abortUpdate _ | abortUpdated _ | abortDelete _
  | abortDeleted _ | reloadEmpty _ | clearDirty _ | release _ => exact h.written hld hlock
  | lock _ _ | enter _ _ _ =>
    obtain rfl := Option.some.inj hlock
    trivial
  | bounce _ _ _ => cases hlock
  | bufferIndex hl hnext htask =>
    obtain rfl := Option.some.inj hlock
    refine ⟨Function.update_self .., ?_⟩
    have hfree := hcareful _ _ _ hl htask
    rw [htask]
    exact ⟨fun hmem => absurd hmem hfree, nofun⟩
  | bufferTombstone hl hnext htask =>
    obtain rfl := Option.some.inj hlock
    refine ⟨(Function.update_self ..).trans ?_, ?_⟩
    · rw [htask]
      rfl
    · dsimp only
      rw [htask]
      rfl
  | hide hl hnext =>
    obtain rfl := Option.some.inj hlock
    have hwritten := h.written _ hl
    rw [hnext] at hwritten
    obtain ⟨hwriter, htext⟩ := hwritten
    exact ⟨hwriter.trans htext.symm, fun _ => htext, fun _ => Finset.mem_insert_self ..⟩
  | cover hl hnext =>
    obtain rfl := Option.some.inj hlock
    have hwritten := h.written _ hl
    rw [hnext] at hwritten
    exact ⟨hwritten.1, hwritten.2, Finset.mem_insert_self ..⟩
  | mark hl hnext =>
    obtain rfl := Option.some.inj hlock
    have hwritten := h.written _ hl
    rw [hnext] at hwritten
    exact hwritten
  | unlock _ _ => cases hlock
  | wipe _ hfree => exact absurd hlock (by simp [hfree])
  | clearTombs hs =>
    rw [(h.progress _ hs).shut hld hlock]
    trivial
  | clearCovered hs =>
    rw [(h.progress _ hs).1.shut hld hlock]
    trivial

theorem Progress.shut {step : SealStep Pk Text} (h : Progress initial s step)
    (hswap : step ≠ .swap) (hcommit : step ≠ .commit) : s.Shut := by
  cases step with
  | swap => exact absurd rfl hswap
  | commit => exact absurd rfl hcommit
  | reload => exact h.1
  | cloneTombs => exact Shown.shut h
  | readDocs _ | update _ _ | clearCovered | clearDirty | release => exact h.1.shut
  | delete _ => exact h.1
  | wipe => exact Stored.shut h
  | reloadEmpty => exact Stored.shut h.toStored
  | clearTombs => exact Stored.shut h.toWiped.toStored

/-- A call past the gate meets a seal only before its commit. -/
theorem Progress.of_admitted {step : SealStep Pk Text} {hld : Holder Tid Pk Text}
    (h : Progress initial s step) (hlock : s.lock = some hld) (hnext : hld.next ≠ .recheck) :
    Progress initial s' step := by
  by_cases hswap : step = .swap
  · subst hswap
    trivial
  by_cases hcommit : step = .commit
  · subst hcommit
    trivial
  exact absurd (h.shut hswap hcommit hld hlock) hnext

/-- Commits and reloads of searches, and calls that do not pass the gate, leave the
progress of a seal alone. -/
theorem Progress.congr {step : SealStep Pk Text} (h : Progress initial s step)
    (hshut : s.Shut → s'.Shut) (hwriter : s'.writer = s.writer)
    (hcommitted : s'.committed = s.committed ∨ s'.committed = s.writer)
    (hreader : s'.reader = s.reader ∨ s'.reader = s.committed)
    (htombs : s'.tombstones = s.tombstones) (hcovered : s'.covered = s.covered)
    (hdurable : s'.durable = s.durable) (hreturned : s'.returned = s.returned) :
    Progress initial s' step := by
  have hsame : s.committed = s.writer → s'.committed = s'.writer := by
    intro heq
    rw [hwriter]
    exact hcommitted.elim (·.trans heq) id
  have hshown : s.Shown → s'.Shown := by
    intro hs
    refine ⟨hshut hs.shut, hsame hs.committed, ?_⟩
    rw [hwriter]
    exact hreader.elim (·.trans hs.reader) (·.trans hs.committed)
  have hstored : Stored initial s → Stored initial s' := by
    intro hs
    refine ⟨hshut hs.shut, ?_⟩
    rw [hdurable, hreturned]
    exact hs.durable
  have hwiped : Wiped initial s → Wiped initial s' := by
    intro hs
    refine ⟨hstored hs.toStored, hwriter.trans hs.writer, ?_⟩
    exact hcommitted.elim (·.trans hs.committed) (·.trans hs.writer)
  have hemptied : Emptied initial s → Emptied initial s' := by
    intro hs
    refine ⟨hwiped hs.toWiped, ?_⟩
    exact hreader.elim (·.trans hs.reader) (·.trans hs.committed)
  cases step with
  | swap => trivial
  | commit => trivial
  | reload => exact ⟨hshut h.1, hsame h.2⟩
  | cloneTombs => exact hshown h
  | readDocs _ => exact ⟨hshown h.1, h.2.trans htombs.symm⟩
  | update _ _ =>
    refine ⟨hshown h.1, h.2.1.trans htombs.symm, ?_⟩
    rw [hwriter]
    exact h.2.2
  | delete _ =>
    refine ⟨hshut h.1, h.2.1.trans htombs.symm, ?_⟩
    rw [hwriter, hdurable]
    exact h.2.2
  | wipe => exact hstored h
  | reloadEmpty => exact hwiped h
  | clearTombs => exact hemptied h
  | clearCovered => exact ⟨hemptied h.1, htombs.trans h.2⟩
  | clearDirty | release => exact ⟨hemptied h.1, htombs.trans h.2.1, hcovered.trans h.2.2⟩

/-- A careful seal that finds the flag clear finds the reader up to date. -/
theorem Inv.shown_of_clean (h : Inv initial s) (hs : s.sealing = some .swap)
    (hclean : s.dirty = false) (hcareful : s.dirty = true ∨ ¬ s.Writing ∧
      ∀ t, s.searches t = none) : s.Shown := by
  obtain ⟨hwriting, hsearches⟩ := hcareful.resolve_left (by simp [hclean])
  have hcommitting : ¬ s.Committing := by
    rintro (hc | ⟨t, ht⟩)
    · rw [hs] at hc
      cases hc
    · rw [hsearches t] at ht
      cases ht
  have hreloading : ¬ s.Reloading := by
    rintro (hr | hr | ⟨t, ht⟩)
    · rw [hs] at hr
      cases hr
    · rw [hs] at hr
      cases hr
    · rw [hsearches t] at ht
      cases ht
  have hdirty : ¬ s.dirty = true := by simp [hclean]
  refine ⟨?_, ?_, ?_⟩
  · intro hld hlock
    by_contra hnext
    by_cases hunlock : hld.next = .unlock
    · exact (h.fresh.marked hld hlock hunlock).elim hdirty hcommitting
    · exact hwriting ⟨hld, hlock, hnext, hunlock⟩
  · rcases h.fresh.committed with hc | hd | hw | hm
    · exact hc
    · exact absurd hd hdirty
    · exact absurd hw hwriting
    · exact absurd hm hcommitting
  · rcases h.fresh.reader with hc | hd | hw | hm | hr
    · exact hc
    · exact absurd hd hdirty
    · exact absurd hw hwriting
    · exact absurd hm hcommitting
    · exact absurd hr hreloading

theorem Inv.all_kept (h : Inv initial s) (hshut : s.Shut) {step : SealStep Pk Text}
    (hs : s.sealing = some step) (hclearing : clearing step = false) (pk : Pk) :
    Kept initial s pk := by
  refine h.kept ?_ pk (hshut.not_inFlight pk)
  intro step' hs'
  rw [hs] at hs'
  obtain rfl := Option.some.inj hs'
  exact hclearing

theorem Inv.step_progress [DecidableEq Tid] (h : Inv initial s) (hcareful : s.Careful a)
    (hstep : Step s a s') :
    ∀ step, s'.sealing = some step → Progress initial s' step := by
  intro step hs'
  cases hstep with
  | call _ | waited _ _ | searchSwap _ _ =>
    exact (h.progress step hs').congr id rfl (Or.inl rfl) (Or.inl rfl) rfl rfl rfl rfl
  | lock _ _ =>
    refine (h.progress step hs').congr ?_ rfl (Or.inl rfl) (Or.inl rfl) rfl rfl rfl rfl
    rintro _ hld ⟨⟩
    rfl
  | bounce _ _ _ =>
    exact (h.progress step hs').congr (fun _ => nofun) rfl (Or.inl rfl) (Or.inl rfl) rfl rfl rfl rfl
  | enter _ _ hopen =>
    change s.sealing = some step at hs'
    rw [hopen] at hs'
    cases hs'
  | bufferIndex hl hnext _ | bufferTombstone hl hnext _ | hide hl hnext | cover hl hnext
  | mark hl hnext | unlock hl hnext =>
    exact (h.progress step hs').of_admitted hl (by rw [hnext]; exact nofun)
  | searchClean _ _ => exact h.progress step hs'
  | searchCommit _ _ =>
    exact (h.progress step hs').congr id rfl (Or.inr rfl) (Or.inl rfl) rfl rfl rfl rfl
  | searchReload _ =>
    exact (h.progress step hs').congr id rfl (Or.inl rfl) (Or.inr rfl) rfl rfl rfl rfl
  | claim _ | sealSwap _ _ =>
    obtain rfl := Option.some.inj hs'
    trivial
  | sealClean hs hclean =>
    obtain rfl := Option.some.inj hs'
    obtain ⟨hshut, hcommitted, hreader⟩ := h.shown_of_clean hs hclean hcareful
    exact ⟨hshut, hcommitted, hreader⟩
  | sealCommit _ hfree =>
    obtain rfl := Option.some.inj hs'
    exact ⟨(shut_of_free hfree).lock_eq rfl, rfl⟩
  | sealReload hs =>
    obtain rfl := Option.some.inj hs'
    obtain ⟨hshut, hcommitted⟩ := h.progress _ hs
    exact ⟨hshut, hcommitted, hcommitted⟩
  | cloneTombs hs =>
    obtain rfl := Option.some.inj hs'
    obtain ⟨hshut, hcommitted, hreader⟩ := h.progress _ hs
    exact ⟨⟨hshut, hcommitted, hreader⟩, rfl⟩
  | readDocs hs =>
    obtain rfl := Option.some.inj hs'
    obtain ⟨⟨hshut, hcommitted, hreader⟩, htombs⟩ := h.progress _ hs
    refine ⟨⟨hshut, hcommitted, hreader⟩, htombs, ?_⟩
    unfold shownDocs
    rw [hreader]
  | update hs =>
    obtain rfl := Option.some.inj hs'
    obtain ⟨⟨hshut, -, -⟩, htombs, rfl⟩ := h.progress _ hs
    refine ⟨hshut, htombs, ?_⟩
    intro pk hpk hlive
    obtain ⟨text, htext⟩ := Option.isSome_iff_exists.mp hlive
    dsimp only [updated]
    rw [if_neg hpk, htext]
    rfl
  | delete hs =>
    obtain rfl := Option.some.inj hs'
    obtain ⟨hshut, htombs, hlive⟩ := h.progress _ hs
    refine ⟨hshut, ?_⟩
    funext pk
    have hkept := h.all_kept hshut hs rfl pk
    dsimp only [deleted]
    rw [htombs] at hlive ⊢
    by_cases htomb : pk ∈ s.tombstones
    · rw [if_pos htomb]
      by_cases hcovered : pk ∈ s.covered
      · exact (hkept.hidden hcovered htomb).symm
      · exact absurd htomb (hkept.sealed hcovered).1
    · rw [if_neg htomb]
      by_cases hcovered : pk ∈ s.covered
      · obtain ⟨hwriter, hsome⟩ := hkept.live hcovered htomb
        rw [hlive pk htomb hsome, hwriter]
      · exact (hkept.sealed hcovered).2.2
  | abortUpdate _ | abortUpdated _ | abortDelete _ | abortDeleted _ | release _ => cases hs'
  | wipe hs _ =>
    obtain rfl := Option.some.inj hs'
    obtain ⟨hshut, hdurable⟩ := h.progress _ hs
    exact ⟨⟨hshut, hdurable⟩, rfl, rfl⟩
  | reloadEmpty hs =>
    obtain rfl := Option.some.inj hs'
    obtain ⟨⟨hshut, hdurable⟩, hwriter, hcommitted⟩ := h.progress _ hs
    exact ⟨⟨⟨hshut, hdurable⟩, hwriter, hcommitted⟩, hcommitted⟩
  | clearTombs hs =>
    obtain rfl := Option.some.inj hs'
    obtain ⟨⟨⟨hshut, hdurable⟩, hwriter, hcommitted⟩, hreader⟩ := h.progress _ hs
    exact ⟨⟨⟨⟨hshut, hdurable⟩, hwriter, hcommitted⟩, hreader⟩, rfl⟩
  | clearCovered hs =>
    obtain rfl := Option.some.inj hs'
    obtain ⟨⟨⟨⟨hshut, hdurable⟩, hwriter, hcommitted⟩, hreader⟩, htombs⟩ := h.progress _ hs
    exact ⟨⟨⟨⟨hshut, hdurable⟩, hwriter, hcommitted⟩, hreader⟩, htombs, rfl⟩
  | clearDirty hs =>
    obtain rfl := Option.some.inj hs'
    obtain ⟨⟨⟨⟨hshut, hdurable⟩, hwriter, hcommitted⟩, hreader⟩, hempty⟩ := h.progress _ hs
    exact ⟨⟨⟨⟨hshut, hdurable⟩, hwriter, hcommitted⟩, hreader⟩, hempty⟩

theorem intended_append (initial : Docs Pk Text) (returned : List (Task Pk Text))
    (task : Task Pk Text) : intended initial (returned ++ [task]) =
      Function.update (intended initial returned) task.pk task.text := by
  unfold intended
  rw [List.foldl_append]
  rfl

theorem Kept.congr {pk : Pk} (h : Kept initial s pk) (hwriter : s'.writer pk = s.writer pk)
    (htombs : pk ∈ s'.tombstones ↔ pk ∈ s.tombstones) (hcovered : pk ∈ s'.covered ↔ pk ∈ s.covered)
    (hdurable : pk ∉ s.covered → s'.durable pk = s.durable pk)
    (hintended : intended initial s'.returned pk = intended initial s.returned pk) :
    Kept initial s' pk := by
  refine ⟨?_, ?_, ?_⟩
  · rw [hcovered, htombs, hintended]
    exact h.hidden
  · rw [hcovered, htombs, hintended, hwriter]
    exact h.live
  · intro hc
    have hc' := hcovered.not.mp hc
    rw [htombs, hintended, hwriter, hdurable hc']
    exact h.sealed hc'

theorem Kept.same {pk : Pk} (h : Kept initial s pk)
    (hsame : (s'.writer, s'.tombstones, s'.covered, s'.durable, s'.returned) =
      (s.writer, s.tombstones, s.covered, s.durable, s.returned)) : Kept initial s' pk := by
  obtain ⟨hwriter, htombs, hcovered, hdurable, hreturned⟩ := by simpa only
      [Prod.mk.injEq] using hsame
  exact h.congr (congrFun hwriter pk) (by rw [htombs]) (by rw [hcovered])
    (fun _ => congrFun hdurable pk) (by rw [hreturned])

/-- A durable update changes no key that the live segment does not cover. -/
theorem updated_of_uncovered {docs : Docs Pk Text} {tombs : Finset Pk} {pk : Pk}
    (hp : Progress initial s (.update docs tombs)) (h : Kept initial s pk) (hpk : pk ∉ s.covered) :
    updated s.durable docs pk = s.durable pk := by
  obtain ⟨-, -, rfl⟩ := hp
  dsimp only [updated]
  rw [(h.sealed hpk).2.1, ite_self]
  rfl

theorem deleted_of_uncovered {tombs : Finset Pk} {pk : Pk}
    (hp : Progress initial s (.delete tombs)) (h : Kept initial s pk) (hpk : pk ∉ s.covered) :
    deleted s.durable tombs pk = s.durable pk := by
  obtain ⟨-, rfl, -⟩ := hp
  exact if_neg (h.sealed hpk).1

theorem Inv.step_kept [DecidableEq Tid] (h : Inv initial s) (hstep : Step s a s')
    (hclearing : ∀ step, s'.sealing = some step → clearing step = false) :
    ∀ pk, ¬ s'.InFlight pk → Kept initial s' pk := by
  intro pk hpk
  -- what the next step of a seal finds, when neither it nor the last one clears
  have hnow : ∀ step, s.sealing = some step → clearing step = false → ∀ pk, ¬ s.InFlight pk →
      Kept initial s pk := by
    intro step hs hstep
    apply h.kept
    intro step' hs'
    rw [hs] at hs'
    obtain rfl := Option.some.inj hs'
    exact hstep
  cases hstep with
  | call _ | waited _ _ | searchSwap _ _ | searchCommit _ _ | searchReload _ =>
    exact (h.kept hclearing pk hpk).same rfl
  | lock _ hfree =>
    exact (h.kept hclearing pk ((shut_of_free hfree).not_inFlight pk)).same rfl
  | bounce hlock hnext _ | enter hlock hnext _ =>
    exact (h.kept hclearing pk (not_inFlight_of_recheck hlock hnext pk)).same rfl
  | @bufferIndex hld _ _ hlock _ _ =>
    have hne : pk ≠ hld.task.pk := not_inFlight_of_holding .cover rfl nofun hpk
    exact (h.kept hclearing pk (not_inFlight_of_ne hlock hne)).congr (Function.update_of_ne hne ..)
      Iff.rfl Iff.rfl (fun _ => rfl) rfl
  | @bufferTombstone hld _ hlock _ _ =>
    have hne : pk ≠ hld.task.pk := not_inFlight_of_holding .hide rfl nofun hpk
    exact (h.kept hclearing pk (not_inFlight_of_ne hlock hne)).congr (Function.update_of_ne hne ..)
      Iff.rfl Iff.rfl (fun _ => rfl) rfl
  | @hide hld hlock _ =>
    have hne : pk ≠ hld.task.pk := not_inFlight_of_holding .cover rfl nofun hpk
    exact (h.kept hclearing pk (not_inFlight_of_ne hlock hne)).congr rfl
      (Finset.mem_insert.trans (or_iff_right hne)) Iff.rfl (fun _ => rfl) rfl
  | @cover hld hlock _ =>
    have hne : pk ≠ hld.task.pk := not_inFlight_of_holding .mark rfl nofun hpk
    exact (h.kept hclearing pk (not_inFlight_of_ne hlock hne)).congr rfl Iff.rfl
      (Finset.mem_insert.trans (or_iff_right hne)) (fun _ => rfl) rfl
  | @mark hld hlock _ =>
    have hne : pk ≠ hld.task.pk := not_inFlight_of_holding .unlock rfl nofun hpk
    exact (h.kept hclearing pk (not_inFlight_of_ne hlock hne)).same rfl
  | @unlock hld hlock hnext =>
    by_cases hne : pk = hld.task.pk
    · -- the call returns, and its key is as it left it
      have hwritten := h.written hld hlock
      rw [hnext] at hwritten
      obtain ⟨hwriter, htombs, hcovered⟩ := hwritten
      have hintended : intended initial (s.returned ++ [hld.task]) hld.task.pk = hld.task.text := by
        rw [intended_append, Function.update_self]
      subst hne
      refine ⟨?_, ?_, fun hc => absurd hcovered hc⟩
      · intro _ htomb
        exact hintended.trans (htombs.mp htomb)
      · intro _ htomb
        refine ⟨hwriter.trans hintended.symm, ?_⟩
        rw [hwriter, Option.isSome_iff_ne_none]
        exact fun hnone => htomb (htombs.mpr hnone)
    · refine (h.kept hclearing pk (not_inFlight_of_ne hlock hne)).congr rfl Iff.rfl Iff.rfl
        (fun _ => rfl) ?_
      rw [intended_append, Function.update_of_ne hne]
  | searchClean _ _ => exact h.kept hclearing pk hpk
  | claim hs =>
    have hkept := h.kept (fun step hs' => absurd (hs.symm.trans hs') nofun) pk hpk
    exact hkept.same rfl
  | sealClean hs _ | sealSwap hs _ | sealCommit hs _ | sealReload hs | cloneTombs hs | readDocs hs
  | abortUpdate hs | abortDelete hs | clearDirty hs | release hs =>
    exact (hnow _ hs rfl pk hpk).same rfl
  | update hs | abortUpdated hs =>
    have hkept := hnow _ hs rfl pk hpk
    exact hkept.congr rfl Iff.rfl Iff.rfl (updated_of_uncovered (h.progress _ hs) hkept) rfl
  | delete hs | abortDeleted hs =>
    have hkept := hnow _ hs rfl pk hpk
    exact hkept.congr rfl Iff.rfl Iff.rfl (deleted_of_uncovered (h.progress _ hs) hkept) rfl
  | wipe _ _ | reloadEmpty _ | clearTombs _ => exact absurd (hclearing _ rfl) nofun
  | clearCovered hs =>
    obtain ⟨⟨⟨⟨-, hdurable⟩, hwriter, -⟩, -⟩, htombs⟩ := h.progress _ hs
    have hcovered : pk ∉ (∅ : Finset Pk) := Finset.notMem_empty pk
    refine ⟨fun hc => absurd hc hcovered, fun hc => absurd hc hcovered, fun _ => ⟨?_, ?_, ?_⟩⟩
    · dsimp only
      rw [htombs]
      exact hcovered
    · exact congrFun hwriter pk
    · exact congrFun hdurable pk

theorem Inv.step [DecidableEq Tid] (h : Inv initial s) (hcareful : s.Careful a)
    (hstep : Step s a s') : Inv initial s' where
  fresh := h.step_fresh hstep
  written := h.step_written hcareful hstep
  progress := h.step_progress hcareful hstep
  kept := h.step_kept hstep

theorem Inv.reflects (h : Inv initial s) : Reflects initial s := by
  intro hs pk hpk
  have hkept := h.kept (fun step hs' => absurd (hs.symm.trans hs') nofun) pk hpk
  unfold found
  split_ifs with hcovered htomb
  · exact (hkept.hidden hcovered htomb).symm
  · exact (hkept.live hcovered htomb).1
  · exact (hkept.sealed hcovered).2.2

/-- In a run whose steps are all careful, every call that returned is found again, in the
live segment or in the durable tier, whenever no seal is running. -/
theorem sealing_reflects [DecidableEq Tid] (initial : Docs Pk Text)
    (h : Runs Careful (LiveSegment.fresh initial : LiveSegment Tid Pk Text) s) :
    Reflects initial s := by
  suffices hinv : Inv initial s from hinv.reflects
  induction h with
  | refl => exact .start initial
  | tail _ hstep ih =>
    obtain ⟨a, hcareful, hstep⟩ := hstep
    exact ih.step hcareful hstep

namespace Example

abbrev Segment := LiveSegment Unit ℕ String

def write : Task ℕ String := .index 1 "a"

variable {allowed : Segment → Action Unit ℕ String → Prop} {s₀ s s' : Segment}

theorem Runs.one (a : Action Unit ℕ String) (h : Runs allowed s₀ s) (hallowed : allowed s a)
    (hstep : Step s a s') : Runs allowed s₀ s' :=
  .tail h ⟨a, hallowed, hstep⟩

/-- A seal that has looked at the dirty flag comes to its end. -/
theorem seals (hallowed : ∀ s a, a ≠ .buffer → a ≠ .sealSwap → allowed s a)
    (h : Runs allowed s₀ s) (hseal : s.sealing = some .cloneTombs) (hfree : s.lock = none) :
    ∃ s', Runs allowed s₀ s' ∧ s'.sealing = none ∧ s'.lock = none ∧ s'.returned = s.returned ∧
      s'.covered = ∅ ∧
      s'.durable = deleted (updated s.durable (s.shownDocs s.tombstones)) s.tombstones := by
  have htombs := Runs.one .cloneTombs h (hallowed _ _ nofun nofun) (.cloneTombs hseal)
  have hdocs := Runs.one .readDocs htombs (hallowed _ _ nofun nofun) (.readDocs rfl)
  have hupdate := Runs.one .update hdocs (hallowed _ _ nofun nofun) (.update rfl)
  have hdelete := Runs.one .delete hupdate (hallowed _ _ nofun nofun) (.delete rfl)
  have hwipe := Runs.one .wipe hdelete (hallowed _ _ nofun nofun) (.wipe rfl hfree)
  have hreload := Runs.one .reloadEmpty hwipe (hallowed _ _ nofun nofun) (.reloadEmpty rfl)
  have hclearTombs := Runs.one .clearTombs hreload (hallowed _ _ nofun nofun) (.clearTombs rfl)
  have hclearCovered := Runs.one .clearCovered hclearTombs (hallowed _ _ nofun nofun)
    (.clearCovered rfl)
  have hclearDirty := Runs.one .clearDirty hclearCovered (hallowed _ _ nofun nofun)
    (.clearDirty rfl)
  have hrelease := Runs.one .release hclearDirty (hallowed _ _ nofun nofun) (.release rfl)
  exact ⟨_, hrelease, rfl, hfree, rfl, rfl, rfl⟩

/-- The seal looks at the dirty flag while a call is past the gate and has not marked it. -/
theorem forgets : ∃ s : Segment, Runs (fun _ _ => True) (fresh fun _ => none) s ∧
    s.sealing = none ∧ s.lock = none ∧ s.returned = [write] ∧ s.covered = ∅ ∧
      s.durable 1 = none := by
  have hbegin : Runs (fun _ _ => True) (fresh fun _ => none : Segment) (fresh fun _ => none) :=
    .refl
  have hcall := Runs.one (.call () write) hbegin trivial (.call rfl)
  have hwaited := Runs.one (.waited () write) hcall trivial (.waited rfl rfl)
  have hlock := Runs.one (.lock () write) hwaited trivial (.lock rfl rfl)
  have hadmit := Runs.one .enter hlock trivial (.enter rfl rfl rfl)
  have hclaim := Runs.one .claim hadmit trivial (.claim rfl)
  have hswap := Runs.one .sealSwap hclaim trivial (.sealClean rfl rfl)
  have hbuffer := Runs.one .buffer hswap trivial (.bufferIndex rfl rfl rfl)
  have hcover := Runs.one .cover hbuffer trivial (.cover rfl rfl)
  have hmark := Runs.one .mark hcover trivial (.mark rfl rfl)
  have hunlock := Runs.one .unlock hmark trivial (.unlock rfl rfl)
  obtain ⟨s, hrun, hsealing, hfree, hreturned, hcovered, hdurable⟩ :=
    seals (fun _ _ _ _ => trivial) hunlock rfl rfl
  exact ⟨s, hrun, hsealing, hfree, hreturned, hcovered, congrFun hdurable 1⟩

/-- A key is written, a search shows it, another key is deleted, and all is sealed. -/
theorem sealing_reflects_sealed : ∃ s : Segment, s.returned = [write, .tombstone 2] ∧
    s.covered = ∅ ∧ s.durable 1 = some "a" ∧ Reflects (fun _ => none) s := by
  have hbegin : Runs Careful (fresh fun _ => none : Segment) (fresh fun _ => none) := .refl
  have hcall := Runs.one (.call () write) hbegin trivial (.call rfl)
  have hwaited := Runs.one (.waited () write) hcall trivial (.waited rfl rfl)
  have hlock := Runs.one (.lock () write) hwaited trivial (.lock rfl rfl)
  have hadmit := Runs.one .enter hlock trivial (.enter rfl rfl rfl)
  have hbuffer := Runs.one .buffer hadmit (fun _ pk _ _ _ => Finset.notMem_empty pk)
    (.bufferIndex rfl rfl rfl)
  have hcover := Runs.one .cover hbuffer trivial (.cover rfl rfl)
  have hmark := Runs.one .mark hcover trivial (.mark rfl rfl)
  have hunlock := Runs.one .unlock hmark trivial (.unlock rfl rfl)
  have hswap := Runs.one (.searchSwap ()) hunlock trivial (.searchSwap rfl rfl)
  have hcommit := Runs.one (.searchCommit ()) hswap trivial (.searchCommit rfl rfl)
  have hreload := Runs.one (.searchReload ()) hcommit trivial (.searchReload rfl)
  have hcall := Runs.one (.call () (.tombstone 2)) hreload trivial (.call rfl)
  have hwaited := Runs.one (.waited () (.tombstone 2)) hcall trivial (.waited rfl rfl)
  have hlock := Runs.one (.lock () (.tombstone 2)) hwaited trivial (.lock rfl rfl)
  have hadmit := Runs.one .enter hlock trivial (.enter rfl rfl rfl)
  have hbuffer := Runs.one .buffer hadmit (by rintro _ _ _ ⟨⟩ ⟨⟩) (.bufferTombstone rfl rfl rfl)
  have hhide := Runs.one .hide hbuffer trivial (.hide rfl rfl)
  have hcover := Runs.one .cover hhide trivial (.cover rfl rfl)
  have hmark := Runs.one .mark hcover trivial (.mark rfl rfl)
  have hunlock := Runs.one .unlock hmark trivial (.unlock rfl rfl)
  have hclaim := Runs.one .claim hunlock trivial (.claim rfl)
  have hseal := Runs.one .sealSwap hclaim (Or.inl rfl) (.sealSwap rfl rfl)
  have hwrite := Runs.one .sealCommit hseal trivial (.sealCommit rfl rfl)
  have hshow := Runs.one .sealReload hwrite trivial (.sealReload rfl)
  obtain ⟨s, hrun, hsealing, hfree, hreturned, hcovered, hdurable⟩ := seals
    (fun _ a hbuffer hswap => by cases a <;> trivial) hshow rfl rfl
  exact ⟨s, hreturned, hcovered, congrFun hdurable 1, sealing_reflects (fun _ => none) hrun⟩

theorem sealing_forgets : ¬ ∀ s : Segment, Runs (fun _ _ => True) (fresh fun _ => none) s →
    Reflects (fun _ => none) s := by
  intro h
  obtain ⟨s, hrun, hsealing, hlock, hreturned, hcovered, hdurable⟩ := forgets
  have hfound := h s hrun hsealing 1 ((shut_of_free hlock).not_inFlight 1)
  rw [hreturned] at hfound
  unfold found at hfound
  rw [hcovered, if_neg (Finset.notMem_empty 1), hdurable] at hfound
  cases hfound

end Example

end BlueDB.Fts.LiveSegment
