import BlueDB.Sql.Commits

/-!
# Conflicts between transactions

Two transactions that store a row under one fresh key, or rows with one unique
value under different keys, are both committed only if the row or the value of
the first was gone again in between: the second has checked it under the lock
of the first. Nothing else locks a row, so a transaction that brings back a row
it has read does so beside the checks of an INSERT. The locks themselves never
block all commits.
-/

namespace BlueDB.Sql

variable {ι : Type} {G : Engine} [DecidableEq ι] [Fintype ι] {srv srv' : Commits ι G} {i j : ι}
  {events : ℕ → CommitEvent ι G}

/-- The connection is in its commit. -/
def Phase.Committing : Phase G → Prop
  | .locking _ => True
  | .checking _ _ _ => True
  | .written => True
  | _ => False

namespace Commits

theorem step_ne_of_phase {e : CommitEvent ι G} (h : (srv.step e).phase i ≠ srv.phase i) :
    srv.step e ≠ srv :=
  fun hsame => h (congrArg (fun s => s.phase i) hsame)

theorem exists_step (hcommitting : (srv.phase i).Committing)
    (hfree : ∀ j, ¬srv.locks.WaitsFor i j) : ∃ e, e.conn = i ∧ srv.step e ≠ srv := by
  cases hphase : srv.phase i with
  | idle | running kind executed x => exact absurd hcommitting (by rw [hphase]; exact id)
  | locking x =>
    have htake : ∀ locks, srv.takeLock i locks = { srv with locks := locks } := by
      intro locks
      unfold takeLock
      rw [hphase]
    cases hwaiting : (srv.locks.client i).waiting with
    | some r =>
      have hgrant := srv.locks.waiting_grant hwaiting fun j hj => hfree j ⟨r, hwaiting, hj⟩
      refine ⟨.grant i, rfl, fun hsame => ?_⟩
      have hlocks := congrArg (fun s : Commits ι G => (s.locks.client i).waiting) hsame
      change ((srv.takeLock i _).locks.client i).waiting = _ at hlocks
      rw [htake, hwaiting] at hlocks
      cases hgrant.symm.trans hlocks
    | none =>
      by_cases hwanted : (srv.locks.client i).wanted = []
      · refine ⟨.verify i, rfl, step_ne_of_phase (i := i) ?_⟩
        change (srv.verify i).phase i ≠ _
        unfold verify
        rw [hphase]
        dsimp only
        rw [if_pos ⟨hwaiting, hwanted⟩]
        simp [setPhase]
      · have hlookup := srv.locks.waiting_lookup uniqueLockPruneAt hwaiting hwanted
        refine ⟨.lookup i, rfl, fun hsame => ?_⟩
        have hlocks := congrArg (fun s : Commits ι G => (s.locks.client i).waiting) hsame
        change ((srv.takeLock i _).locks.client i).waiting = _ at hlocks
        rw [htake, hwaiting] at hlocks
        exact hlookup hlocks
  | checking x keys checks =>
    cases keys with
    | cons k keys =>
      refine ⟨.recheck i, rfl, step_ne_of_phase (i := i) ?_⟩
      change (srv.recheckNext i).phase i ≠ _
      unfold recheckNext
      rw [hphase]
      dsimp only
      split_ifs with htaken
      · simp [close, setPhase]
      · simp [setPhase]
    | nil =>
      cases checks with
      | cons check checks =>
        refine ⟨.recheck i, rfl, step_ne_of_phase (i := i) ?_⟩
        change (srv.recheckNext i).phase i ≠ _
        unfold recheckNext
        rw [hphase]
        dsimp only
        split_ifs with htaken
        · simp [close, setPhase]
        · simp [setPhase]
      | nil =>
        refine ⟨.write i, rfl, step_ne_of_phase (i := i) ?_⟩
        change (srv.writeBatch i).phase i ≠ _
        unfold writeBatch
        rw [hphase]
        simp [setPhase]
  | written =>
    refine ⟨.finish i, rfl, step_ne_of_phase (i := i) ?_⟩
    change (srv.finish i).phase i ≠ _
    unfold finish
    rw [hphase]
    simp [close, setPhase]

omit [DecidableEq ι] [Fintype ι] in
theorem CommitsOk.committing (h : CommitsOk srv) (hheld : (srv.locks.client i).held ≠ []) :
    (srv.phase i).Committing := by
  have hphase := h.phase i
  cases hp : srv.phase i with
  | idle | running kind executed x =>
    rw [hp] at hphase
    exact absurd (congrArg Client.held hphase) hheld
  | locking x => trivial
  | checking x keys checks => trivial
  | written => trivial

theorem CommitsOk.progress (h : CommitsOk srv) (hi : (srv.phase i).Committing) :
    ∃ e, (srv.phase e.conn).Committing ∧ srv.step e ≠ srv := by
  obtain ⟨j, hreach, hfree⟩ := h.locks.exists_unblocked i
  have hj : (srv.phase j).Committing := by
    rcases hreach.cases_tail with rfl | ⟨j', _, r, _, hheld⟩
    · exact hi
    · apply h.committing
      intro hnil
      rw [hnil] at hheld
      cases hheld
  obtain ⟨e, hconn, hstep⟩ := exists_step hj hfree
  exact ⟨e, hconn.symm ▸ hj, hstep⟩

end Commits

/-- A row that statement `stmt` of connection `conn` stores at step `exec`, in a
transaction that is written at step `write`; `txn` is what the statement finds. -/
structure RowWrite (ι : Type) (G : Engine) where
  conn : ι
  exec : ℕ
  write : ℕ
  stmt : Stmt G
  txn : Txn G
  table : Name
  schema : Schema G
  id : UInt64
  key : G.Key
  row : DataRow G.Value

namespace RowWrite

variable (w w' : RowWrite ι G)

/-- What the statement reads. -/
def view : Store G := w.txn.snapshot.commit w.txn.overlay

/-- The statement returns, its transaction stays open until step `write` and is
written there. -/
structure Happens (srv : Commits ι G) (events : ℕ → CommitEvent ι G) : Prop where
  order : w.exec < w.write
  event : events w.exec = .exec w.conn w.stmt
  accepts : ((srv.before events w.exec).phase w.conn).accepts = some w.txn
  returns : failure ((srv.before events w.exec).conn w.txn) (.exec w.stmt) = none
  target : w.stmt.target = some w.table
  table : TableAt w.view w.table w.schema w.id (readCatalog w.view w.table)
  stored : (w.key, w.row) ∈
    storedRows ((srv.before events w.exec).conn w.txn) w.table w.schema w.id w.stmt
  stays : ∀ n, w.exec < n → n ≤ w.write → ((srv.before events n).phase w.conn).txn.isSome = true
  ready : ((srv.before events w.write).phase w.conn).ready.isSome = true
  written : ((srv.before events (w.write + 1)).phase w.conn).isWritten = true

/-- The row is stored under a key of its own that holds none. -/
def Fresh (p : List UInt8) : Prop :=
  w.stmt.keyed w.schema = true ∧ keyBytes w.key = .ok p ∧ readRow w.view w.id p = none

/-- The row has the value in the unique index `n`, and it is not null. -/
def HasValue (n : Name) (v : List UInt8) : Prop :=
  ∃ value, UniqueValue w.schema (readUniqueIndexes w.view w.table) w.row n value ∧
    keyBytes value = .ok v

end RowWrite

namespace Commits

theorem exists_of_accepts {p : Phase G} {x : Txn G} (h : p.accepts = some x) :
    ∃ kind executed, p = .running kind executed x ∧ kind.runs executed = true := by
  cases p with
  | running kind executed txn =>
    unfold Phase.accepts at h
    dsimp only at h
    split_ifs at h with hruns
    obtain rfl : txn = x := Option.some.inj h
    exact ⟨kind, executed, rfl, hruns⟩
  | idle => cases h
  | locking txn => cases h
  | checking txn keys checks => cases h
  | written => cases h

theorem exists_of_ready {p : Phase G} (h : p.ready.isSome = true) :
    ∃ x, p = .checking x [] [] := by
  cases p with
  | checking txn keys checks =>
    cases keys with
    | nil =>
      cases checks with
      | nil => exact ⟨txn, rfl⟩
      | cons check checks => cases h
    | cons k keys => cases h
  | idle => cases h
  | running kind executed txn => cases h
  | locking txn => cases h
  | written => cases h

theorem eq_of_isWritten {p : Phase G} (h : p.isWritten = true) : p = .written := by
  cases p with
  | written => rfl
  | idle => cases h
  | running kind executed txn => cases h
  | locking txn => cases h
  | checking txn keys checks => cases h

theorem Transition.keepsStaged (h : Transition srv srv' i) {x : Txn G}
    (hx : (srv.phase i).txn = some x) (hopen : (srv'.phase i).txn.isSome = true) :
    ∃ x', (srv'.phase i).txn = some x' ∧ StagesMore x x' := by
  cases h with
  | opened kind hidle hsets =>
    rw [hidle] at hx
    cases hx
  | ran kind executed x0 x' hphase hmore hsets =>
    rw [hphase] at hx
    obtain rfl : x0 = x := Option.some.inj hx
    exact ⟨x', by rw [hsets.self]; rfl, hmore⟩
  | closed hsets | wrote x0 hphase hsets =>
    rw [hsets.self] at hopen
    cases hopen
  | unchecked kind executed x0 hphase hkeys hchecks hsets | requested kind executed x0 hphase hsets
  | looked x0 hphase hsets | granted x0 hphase hsets | verified x0 hphase hserved hsets
  | keyChecked x0 k keys checks hphase hfree hsets
  | valueChecked x0 check checks hphase hfree hsets =>
    rw [hphase] at hx
    exact ⟨x, by rw [hsets.self]; exact hx, StagesMore.refl x⟩

theorem keepsStaged {a n : ℕ} (han : a ≤ n) {x : Txn G}
    (hx : ((srv.before events a).phase i).txn = some x)
    (hopen : ∀ m, a ≤ m → m ≤ n → ((srv.before events m).phase i).txn.isSome = true) :
    ∃ x', ((srv.before events n).phase i).txn = some x' ∧ StagesMore x x' := by
  induction n, han using Nat.le_induction with
  | base => exact ⟨x, hx, StagesMore.refl x⟩
  | succ n han ih =>
    obtain ⟨x', hx', hmore⟩ := ih fun m h h' => hopen m h (by omega)
    have hnext := hopen (n + 1) (by omega) le_rfl
    rcases (srv.before events n).step_cases (events n) with hsame | htransition
    · exact ⟨x', by rw [before, hsame]; exact hx', hmore⟩
    · by_cases hi : i = (events n).conn
      · rw [← hi] at htransition
        obtain ⟨x'', hx'', hmore'⟩ := htransition.keepsStaged hx' hnext
        exact ⟨x'', hx'', hmore.trans hmore'⟩
      · refine ⟨x', ?_, hmore⟩
        rw [before, htransition.other hi]
        exact hx'

end Commits

theorem storedRows_staged {c : Conn G} (hc : c.txn.isSome = true) {stmt : Stmt G} {t : Name}
    {schema : Schema G} {id : UInt64} (htarget : stmt.target = some t)
    (hat : TableAt c.view t schema id (readCatalog c.view t)) {q : G.Key × DataRow G.Value}
    (hq : q ∈ storedRows c t schema id stmt) :
    Holds (runStmt stmt) c (fun _ c' =>
      (stmt.keyed schema = true → ∀ p, keyBytes q.1 = .ok p → readRow c.view id p = none →
        ∃ x ∈ c'.txn, .row id p ∈ x.uniqueChecks) ∧
      ∀ ch, RowCheck schema (readUniqueIndexes c.view t) t id q.1 q.2 ch →
        ∃ x ∈ c'.txn, ch ∈ x.uniqueIndexChecks) fun _ _ => True := by
  have hstored : ∀ {keyed c' done}, Stored c c' t schema id (readCatalog c.view t) keyed done →
      stmt.keyed schema = keyed → q ∈ done →
      (stmt.keyed schema = true → ∀ p, keyBytes q.1 = .ok p → readRow c.view id p = none →
        ∃ x ∈ c'.txn, .row id p ∈ x.uniqueChecks) ∧
      ∀ ch, RowCheck schema (readUniqueIndexes c.view t) t id q.1 q.2 ch →
        ∃ x ∈ c'.txn, ch ∈ x.uniqueIndexChecks := by
    intro keyed c' done h hkeyed hdone
    obtain ⟨x, _, x', hx', hkeys, hchecks⟩ := h.staged
    constructor
    · intro htrue p hp hnone
      refine ⟨x', hx', (hkeys _).mpr (Or.inr ⟨q, hdone, hkeyed ▸ htrue, p, hp, ?_⟩)⟩
      exact ⟨rfl, hnone⟩
    · exact fun ch hch => ⟨x', hx', (hchecks ch).mpr (Or.inr ⟨q, hdone, hch⟩)⟩
  cases stmt with
  | insert t' rows =>
    obtain rfl : t' = t := Option.some.inj htarget
    apply (insertStmt_stored hc hat rows).mono
    · exact fun _ _ h => hstored h rfl hq
    · exact fun _ _ _ => trivial
  | update t' assign =>
    obtain rfl : t' = t := Option.some.inj htarget
    apply (updateStmt_stored hc hat assign).mono
    · exact fun _ _ h => hstored h rfl hq
    · exact fun _ _ _ => trivial
  | delete t' selects | createTable t' columns | dropTable t' | createIndex t' index expr asc
  | dropIndex t' index | addColumn t' column | dropColumn t' column ifExists
  | renameColumn t' old new | renameTable t' new => cases htarget

namespace RowWrite

variable {w w' : RowWrite ι G}

structure Staged (w : RowWrite ι G) (y : Txn G) : Prop where
  key : ∀ p, w.Fresh p → .row w.id p ∈ y.uniqueChecks
  value : ∀ ch, RowCheck w.schema (readUniqueIndexes w.view w.table) w.table w.id w.key w.row ch →
    ch ∈ y.uniqueIndexChecks

theorem Happens.exec_staged (h : w.Happens srv events) :
    ∃ y, ((srv.before events (w.exec + 1)).phase w.conn).txn = some y ∧ w.Staged y := by
  obtain ⟨kind, executed, hphase, hruns⟩ := Commits.exists_of_accepts h.accepts
  have hrun := storedRows_staged (c := (srv.before events w.exec).conn w.txn) rfl h.target h.table
    h.stored
  have hreturns := h.returns
  have hopen : ((srv.before events w.exec).conn w.txn).txn.isSome = true := rfl
  have hexec : execute (.exec w.stmt) ((srv.before events w.exec).conn w.txn) =
      runStmt w.stmt ((srv.before events w.exec).conn w.txn) := by
    simp only [execute, executeStmt, hopen, if_true]
  have hafter : srv.before events (w.exec + 1) = (srv.before events w.exec).afterStmt w.conn kind
      (runStmt w.stmt ((srv.before events w.exec).conn w.txn)) := by
    change (srv.before events w.exec).step (events w.exec) = _
    rw [h.event]
    change (srv.before events w.exec).execStmt w.conn w.stmt = _
    unfold Commits.execStmt
    rw [hphase]
    dsimp only
    rw [if_pos hruns]
  have hkept := (bufferwise_keepsStaged.runStmt w.stmt).holds
    ((srv.before events w.exec).conn w.txn)
  unfold failure at hreturns
  rw [hexec] at hreturns
  unfold Holds at hrun hkept
  cases hresult : runStmt w.stmt ((srv.before events w.exec).conn w.txn) with
  | error e c =>
    rw [hresult] at hreturns
    cases hreturns
  | ok a c =>
    rw [hresult] at hrun hkept hafter
    obtain ⟨y, hy, _⟩ := hkept w.txn rfl
    refine ⟨y, ?_, ?_, ?_⟩
    · rw [hafter]
      dsimp only [Commits.afterStmt]
      rw [Option.mem_def.mp hy]
      simp [Commits.setPhase, Phase.txn]
    · rintro p ⟨hkeyed, hp, hnone⟩
      obtain ⟨y', hy', hmem⟩ := hrun.1 hkeyed p hp hnone
      obtain rfl : y = y' := Option.some.inj (hy.symm.trans hy')
      exact hmem
    · intro ch hch
      obtain ⟨y', hy', hmem⟩ := hrun.2 ch hch
      obtain rfl : y = y' := Option.some.inj (hy.symm.trans hy')
      exact hmem

theorem Happens.writes (h : w.Happens srv events) :
    ∃ y, Commits.Writes srv events w.write w.conn y ∧ w.Staged y := by
  obtain ⟨x, hx, hstaged⟩ := h.exec_staged
  obtain ⟨y, hy, hmore⟩ := Commits.keepsStaged (n := w.write) h.order hx
    fun m hm hm' => h.stays m (by omega) hm'
  obtain ⟨y', hready⟩ := Commits.exists_of_ready h.ready
  rw [hready] at hy
  obtain rfl : y' = y := Option.some.inj hy
  exact ⟨y', ⟨hready, Commits.eq_of_isWritten h.written⟩,
    fun p hp => hmore.keys (hstaged.key p hp), fun ch hch => hmore.checks (hstaged.value ch hch)⟩

omit [DecidableEq ι] [Fintype ι] in
theorem HasValue.rowCheck {n : Name} {v : List UInt8} (h : w.HasValue n v) :
    RowCheck w.schema (readUniqueIndexes w.view w.table) w.table w.id w.key w.row
      ⟨w.table, n, indexValuePrefix w.id n v, w.key⟩ := by
  obtain ⟨value, hvalue, hv⟩ := h
  exact ⟨n, value, v, hvalue, hv, rfl⟩

end RowWrite

section Guarantees

variable {c : Conn G} {w w' : RowWrite ι G}

theorem row_gone (h : w.Happens (.quiet c) events) (h' : w'.Happens (.quiet c) events)
    (hwrite : w.write < w'.write) (hid : w.id = w'.id) {p : List UInt8} (hp : w.Fresh p)
    (hp' : w'.Fresh p) : ∃ l, w.write < l ∧ l ≤ w'.write ∧
      readRow ((Commits.quiet c).before events l).live w.id p = none := by
  obtain ⟨x, hx, hstaged⟩ := h.writes
  obtain ⟨y, hy, hstaged'⟩ := h'.writes
  have hkey := hstaged.key p hp
  have hkey' : .row w.id p ∈ y.uniqueChecks := hid ▸ hstaged'.key p hp'
  have hchecked := Commits.checked c events w'.write hy.ready
  rcases hchecked.keys _ hkey' with hmem | hsince
  · cases hmem
  · apply hsince.after (Commits.commitsOk_quiet c) hx hwrite (k := (StorageKey.row w.id p).encode)
    · exact List.mem_append_left _ (List.mem_map_of_mem hkey)
    · exact List.mem_append_left _ (List.mem_map_of_mem hkey')

theorem value_gone (h : w.Happens (.quiet c) events) (h' : w'.Happens (.quiet c) events)
    (hwrite : w.write < w'.write) (hid : w.id = w'.id) {n : Name} {v : List UInt8}
    (hv : w.HasValue n v) (hv' : w'.HasValue n v) : ∃ l, w.write < l ∧ l ≤ w'.write ∧
      ∀ p k, readEntry ((Commits.quiet c).before events l).live w.id n v p = some k →
        k = w'.key := by
  obtain ⟨x, hx, hstaged⟩ := h.writes
  obtain ⟨y, hy, hstaged'⟩ := h'.writes
  have hcheck := hstaged.value _ hv.rowCheck
  have hcheck' := hstaged'.value _ hv'.rowCheck
  have hchecked := Commits.checked c events w'.write hy.ready
  rcases hchecked.checks _ hcheck' with hmem | hsince
  · cases hmem
  · obtain ⟨l, hl, hl', hfree⟩ := hsince.after (Commits.commitsOk_quiet c) hx hwrite
      (k := indexValuePrefix w.id n v) (List.mem_append_right _ (List.mem_map_of_mem hcheck))
      (List.mem_append_right _ (hid ▸ List.mem_map_of_mem hcheck'))
    refine ⟨l, hl, hl', ?_⟩
    intro p k hk
    by_contra hne
    rw [hid] at hk
    have hviolates := violates_iff (t := w'.table).mpr ⟨p, k, hk, hne⟩
    rw [hfree] at hviolates
    cases hviolates

theorem overwritten (h : w.Happens (.quiet c) events) {p : List UInt8} (hp : w.Fresh p)
    (htaken : readRow ((Commits.quiet c).before events w.write).live w.id p ≠ none) :
    ∃ m < w.write, ∃ i x, i ≠ w.conn ∧ Commits.Writes (.quiet c) events m i x ∧
      .row w.id p ∉ x.uniqueChecks ∧
      (∃ y, Commits.Checking ((Commits.quiet c).before events m) w.conn y) ∧
      readRow ((Commits.quiet c).before events m).live w.id p = none ∧
      readRow ((Commits.quiet c).before events (m + 1)).live w.id p ≠ none := by
  obtain ⟨y, hy, hstaged⟩ := h.writes
  have hkey := hstaged.key p hp
  have hchecked := Commits.checked c events w.write hy.ready
  rcases hchecked.keys _ hkey with hmem | hsince
  · cases hmem
  · obtain ⟨m, hm, i, x, hne, hx, hfresh, hchecking, hfree, hput⟩ :=
      hsince.overwritten (Commits.commitsOk_quiet c) htaken hkey
    exact ⟨m, hm, i, x, hne, hx, hfresh, ⟨y, hchecking⟩, hfree, hput⟩

end Guarantees

/-- Two transactions that freshly store a row under one key are both written only if
the row is gone in between; so it is for rows of one unique value under different
keys. A batch replaces a row under a fresh key of its own only if a transaction that
had not stored it freshly put it there during the checks of the commit. No commits
wait for each other in a circle, and while there is a commit one has a step to take. -/
theorem commits_exclusive (c : Conn G) (events : ℕ → CommitEvent ι G) :
    (∀ w w' : RowWrite ι G, w.Happens (.quiet c) events → w'.Happens (.quiet c) events →
      w.write < w'.write → w.id = w'.id → ∀ p, w.Fresh p → w'.Fresh p →
        ∃ l, w.write < l ∧ l ≤ w'.write ∧
          readRow ((Commits.quiet c).before events l).live w.id p = none) ∧
    (∀ w w' : RowWrite ι G, w.Happens (.quiet c) events → w'.Happens (.quiet c) events →
      w.write < w'.write → w.id = w'.id → ∀ n v, w.HasValue n v → w'.HasValue n v →
        ∃ l, w.write < l ∧ l ≤ w'.write ∧
          ∀ p k, readEntry ((Commits.quiet c).before events l).live w.id n v p = some k →
            k = w'.key) ∧
    (∀ w : RowWrite ι G, w.Happens (.quiet c) events → ∀ p, w.Fresh p →
      readRow ((Commits.quiet c).before events w.write).live w.id p ≠ none →
        ∃ m < w.write, ∃ i x, i ≠ w.conn ∧ Commits.Writes (.quiet c) events m i x ∧
          .row w.id p ∉ x.uniqueChecks ∧
          (∃ y, Commits.Checking ((Commits.quiet c).before events m) w.conn y) ∧
          readRow ((Commits.quiet c).before events m).live w.id p = none ∧
          readRow ((Commits.quiet c).before events (m + 1)).live w.id p ≠ none) ∧
    ∀ n i, ¬Relation.TransGen ((Commits.quiet c).before events n).locks.WaitsFor i i ∧
      ((((Commits.quiet c).before events n).phase i).Committing →
        ∃ e, (((Commits.quiet c).before events n).phase e.conn).Committing ∧
          ((Commits.quiet c).before events n).step e ≠ (Commits.quiet c).before events n) := by
  refine ⟨?_, ?_, ?_, ?_⟩
  · intro w w' h h' hwrite hid p hp hp'
    exact row_gone h h' hwrite hid hp hp'
  · intro w w' h h' hwrite hid n v hv hv'
    exact value_gone h h' hwrite hid hv hv'
  · intro w h p hp htaken
    exact overwritten h hp htaken
  · intro n i
    have hok := (Commits.commitsOk_quiet c).before events n
    exact ⟨hok.locks.acyclic i, hok.progress⟩

namespace Ints

def keyedCommit (conn : Fin 3) : List (CommitEvent (Fin 3) engine) :=
  [.commit conn, .lookup conn, .grant conn, .verify conn, .recheck conn, .write conn, .finish conn]

/-- A connection runs a statement, with the steps of its commit. -/
def autocommit (conn : Fin 3) (stmt : Stmt engine) (steps : List (CommitEvent (Fin 3) engine)) :
    List (CommitEvent (Fin 3) engine) :=
  .begin conn (.autocommit false) :: .exec conn stmt :: steps

/-- The steps of `events`, and no others. -/
def schedule (events : List (CommitEvent (Fin 3) engine)) (n : ℕ) : CommitEvent (Fin 3) engine :=
  events.getD n (.verify 0)

/-- A row is inserted and deleted, and another one is inserted by a connection that began
first. -/
def insertedTwice (values values' : List ℤ) : ℕ → CommitEvent (Fin 3) engine :=
  schedule (.begin 2 (.autocommit false) :: autocommit 0 (insert values) (keyedCommit 0) ++
    autocommit 1 deleteRows [.commit 1, .write 1, .finish 1] ++
    .exec 2 (insert values') :: keyedCommit 2)

/-- An UPDATE brings back a row that is deleted, while an INSERT has checked its key. -/
def broughtBack : ℕ → CommitEvent (Fin 3) engine :=
  schedule (autocommit 0 (updateA 30) [] ++
    autocommit 1 deleteRows [.commit 1, .write 1, .finish 1] ++
    autocommit 2 (insert [1, 20]) [.commit 2, .lookup 2, .grant 2, .verify 2, .recheck 2] ++
    [.commit 0, .write 0, .finish 0, .write 2, .finish 2])

def noRow : Conn engine := run (Conn.init false 0) [.exec createTable]

def oneRow : Conn engine := run (Conn.init false 0) [.exec createTable, .exec (insert [1, 10])]

/-- A table without a key, with a unique index. -/
def uniqueTable : Conn engine :=
  run (Conn.init false 0) [.exec (.createTable Ints.t (some [⟨a, .int, true, none, false⟩])),
    .declareUnique Ints.t x, .exec createIndex]

def tableSchema (c : Conn engine) : Schema engine :=
  (readSchema c.live Ints.t).getD ⟨Ints.t, none, []⟩

/-- The row of `INSERT INTO t VALUES (...)` under the key `i`. -/
def rowWrite (c₀ : Conn engine) (conn : Fin 3) (exec write : ℕ) (i : ℤ) (values : List ℤ)
    (txn : Txn engine) : RowWrite (Fin 3) engine :=
  ⟨conn, exec, write, insert values, txn, Ints.t, tableSchema c₀, 1, .i64 i, row values⟩

def keyedRow (i : ℤ) (values : List ℤ) : engine.Key × DataRow engine.Value := (.i64 i, row values)

/-- What the statement of the row finds and does. -/
abbrev Stores (c₀ c : Conn engine) (i : ℤ) (values : List ℤ) : Prop :=
  failure c (.exec (insert values)) = none ∧ readSchema c.view Ints.t = some (tableSchema c₀) ∧
    resolveTableId c.view Ints.t = some 1 ∧
    keyedRow i values ∈ storedRows c Ints.t (tableSchema c₀) 1 (insert values) ∧
    readRow c.view 1 (toCmpBeBytes (.i64 i)) = none ∧
    readUniqueIndexes c.view Ints.t = readUniqueIndexes c₀.live Ints.t

variable (c : Conn engine) (events : ℕ → CommitEvent (Fin 3) engine) (conn : Fin 3)
  (exec write : ℕ) (i : ℤ) (values : List ℤ)

/-- The statement of the row runs at step `exec`, and its transaction is written at step
`write`. -/
abbrev Written : Prop :=
  let srv := (Commits.quiet c).before events
  exec < write ∧ ((srv exec).phase conn).accepts.isSome = true ∧
    (∀ x ∈ ((srv exec).phase conn).accepts, Stores c ((srv exec).conn x) i values) ∧
    (∀ m, m ≤ write → exec < m → ((srv m).phase conn).txn.isSome = true) ∧
    ((srv write).phase conn).ready.isSome = true ∧
    ((srv (write + 1)).phase conn).isWritten = true

variable {c events conn exec write i values}

theorem Written.exists_rowWrite (h : Written c events conn exec write i values)
    (hevent : events exec = .exec conn (insert values)) :
    ∃ x, (rowWrite c conn exec write i values x).Happens (.quiet c) events ∧
      ((insert values).keyed (tableSchema c) = true →
        (rowWrite c conn exec write i values x).Fresh (toCmpBeBytes (.i64 i))) ∧
      readUniqueIndexes (rowWrite c conn exec write i values x).view Ints.t =
        readUniqueIndexes c.live Ints.t := by
  obtain ⟨horder, haccepts, hstores, hstays, hready, hwritten⟩ := h
  obtain ⟨x, hx⟩ := Option.isSome_iff_exists.mp haccepts
  obtain ⟨hreturns, hschema, hid, hstored, hnone, hunique⟩ := hstores x hx
  refine ⟨x, ?_, fun hkeyed => ⟨hkeyed, rfl, hnone⟩, hunique⟩
  constructor
  · exact horder
  · exact hevent
  · exact hx
  · exact hreturns
  · rfl
  · exact ⟨hschema, hid, rfl⟩
  · exact hstored
  · exact fun m hm hm' => hstays m hm' hm
  · exact hready
  · exact hwritten

/-- A row has its value in the unique index. -/
theorem hasValue {w : RowWrite (Fin 3) engine} (hschema : w.schema = tableSchema uniqueTable)
    (hunique : readUniqueIndexes w.view w.table = readUniqueIndexes uniqueTable.live Ints.t)
    (hrow : w.row = row [10]) : w.HasValue x (toCmpBeBytes (.i64 10)) := by
  have hindexes : (tableSchema uniqueTable).indexes = [⟨x, Expr.column a, .both⟩] := by
    decide +kernel
  refine ⟨.i64 10, ⟨⟨x, Expr.column a, .both⟩, ?_, rfl, ?_, ?_, nofun⟩, rfl⟩
  · rw [hschema, hindexes]
    exact List.mem_cons_self
  · rw [hunique]
    decide +kernel
  · rw [hschema, hrow]
    rfl

end Ints

/-- A row inserted by two connections, deleted in between; so with the value of a row; a row
that an INSERT replaces. -/
theorem commits_overlap :
    (∃ w w' : RowWrite (Fin 3) Ints.engine, w.conn ≠ w'.conn ∧
      w.Happens (.quiet Ints.noRow) (Ints.insertedTwice [1, 10] [1, 20]) ∧
      w'.Happens (.quiet Ints.noRow) (Ints.insertedTwice [1, 10] [1, 20]) ∧ w.id = w'.id ∧
      ∃ p, w.Fresh p ∧ w'.Fresh p) ∧
    (∃ w w' : RowWrite (Fin 3) Ints.engine, w.conn ≠ w'.conn ∧
      w.Happens (.quiet Ints.uniqueTable) (Ints.insertedTwice [10] [10]) ∧
      w'.Happens (.quiet Ints.uniqueTable) (Ints.insertedTwice [10] [10]) ∧ w.id = w'.id ∧
      w.key ≠ w'.key ∧ ∃ n v, w.HasValue n v ∧ w'.HasValue n v) ∧
    ∃ w : RowWrite (Fin 3) Ints.engine, w.Happens (.quiet Ints.oneRow) Ints.broughtBack ∧
      ∃ p, w.Fresh p ∧ readRow ((Commits.quiet Ints.oneRow).before Ints.broughtBack w.write).live
        w.id p ≠ none := by
  have hconn : (0 : Fin 3) ≠ 2 := by decide
  refine ⟨?_, ?_, ?_⟩
  · have h : Ints.Written Ints.noRow (Ints.insertedTwice [1, 10] [1, 20]) 0 2 8 1 [1, 10] := by
      decide +kernel
    have h' : Ints.Written Ints.noRow (Ints.insertedTwice [1, 10] [1, 20]) 2 15 21 1 [1, 20] := by
      decide +kernel
    obtain ⟨x, hx, hfresh, -⟩ := h.exists_rowWrite rfl
    obtain ⟨y, hy, hfresh', -⟩ := h'.exists_rowWrite rfl
    exact ⟨_, _, hconn, hx, hy, rfl, _, hfresh (by decide +kernel), hfresh' (by decide +kernel)⟩
  · have h : Ints.Written Ints.uniqueTable (Ints.insertedTwice [10] [10]) 0 2 8 1 [10] := by
      decide +kernel
    have h' : Ints.Written Ints.uniqueTable (Ints.insertedTwice [10] [10]) 2 15 21 2 [10] := by
      decide +kernel
    obtain ⟨x, hx, -, hunique⟩ := h.exists_rowWrite rfl
    obtain ⟨y, hy, -, hunique'⟩ := h'.exists_rowWrite rfl
    exact ⟨_, _, hconn, hx, hy, rfl, nofun, _, _, Ints.hasValue rfl hunique rfl,
      Ints.hasValue rfl hunique' rfl⟩
  · have h : Ints.Written Ints.oneRow Ints.broughtBack 2 8 17 1 [1, 20] := by decide +kernel
    obtain ⟨x, hx, hfresh, -⟩ := h.exists_rowWrite rfl
    have htaken : readRow ((Commits.quiet Ints.oneRow).before Ints.broughtBack 17).live 1
        (Ints.toCmpBeBytes (.i64 1)) ≠ none := by decide +kernel
    exact ⟨_, hx, _, hfresh (by decide +kernel), htaken⟩

end BlueDB.Sql
