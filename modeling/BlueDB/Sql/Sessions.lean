import BlueDB.Sql.Isolation
import BlueDB.Sql.Tables

/-!
# Sessions

A session is a run of requests on one connection. An INSERT, an UPDATE or a
CREATE INDEX that fails between two of its writes leaves the first of them in
the overlay of an explicit transaction; the session keeps track of that. As long
as such a transaction is not committed, no indexed column is renamed and no
table takes the name of another, the committed store keeps the invariant.
-/

namespace BlueDB.Sql

variable {G : Engine} {c c' : Conn G}

/-- A statement that keeps the invariant when it returns. -/
def Stmt.Sound (s : Store G) : Stmt G → Prop
  | .renameColumn t old new => ∀ schema ∈ readSchema s t, new ∉ schemaColumns schema →
      ∀ i ∈ schema.indexes, old ∉ G.mentions i.expr
  | .renameTable t new => (readSchema s t).isSome = true → readSchema s new = none
  | _ => True

instance Stmt.decidableSound (s : Store G) : (stmt : Stmt G) → Decidable (stmt.Sound s)
  | .createTable _ _ | .dropTable _ | .insert _ _ | .update _ _ | .delete _ _
  | .createIndex _ _ _ _ | .dropIndex _ _ | .addColumn _ _ | .dropColumn _ _ _ => isTrue trivial
  | .renameColumn t old new => inferInstanceAs (Decidable (∀ schema ∈ readSchema s t,
      new ∉ schemaColumns schema → ∀ i ∈ schema.indexes, old ∉ G.mentions i.expr))
  | .renameTable t new =>
    inferInstanceAs (Decidable ((readSchema s t).isSome = true → readSchema s new = none))

/-- A statement that writes the entries of a row apart from the row. -/
def Stmt.writesRows : Stmt G → Bool
  | .insert _ _ => true
  | .update _ _ => true
  | .createIndex _ _ _ _ => true
  | _ => false

theorem renameStmt_holds (hG : Lawful G) (h : InTxn c) {t old new : Name}
    (hsound : Stmt.Sound c.view (.renameColumn t old new)) :
    Holds (renameColumn t old new) c (fun _ c' => InTxn c') (fun _ c' => InTxn c') := by
  by_cases hnew : ∃ schema, readSchema c.view t = some schema ∧ new ∈ schemaColumns schema
  · obtain ⟨schema, hschema, hmem⟩ := hnew
    unfold renameColumn
    rw [Holds.bind_iff, Holds.get_iff, hschema]
    dsimp only
    cases hdefs : schema.columnDefs with
    | none => exact h
    | some columns =>
      dsimp only
      rw [schemaColumns_eq hdefs] at hmem
      obtain ⟨d, hd, hname⟩ := List.mem_map.mp hmem
      rw [if_pos (List.any_eq_true.mpr ⟨d, hd, decide_eq_true hname⟩)]
      exact h
  · have hunused : ∀ schema, readSchema c.view t = some schema →
        ∀ i ∈ schema.indexes, old ∉ G.mentions i.expr :=
      fun schema hschema => hsound schema hschema fun hmem => hnew ⟨schema, hschema, hmem⟩
    apply (renameColumn_holds hG h hunused).mono
    · exact fun _ _ h' => h'
    · exact fun _ _ hsame => hsame ▸ h

/-- Every statement but an INSERT, UPDATE or CREATE INDEX keeps the invariant when
it fails, too. -/
theorem runStmt_holds (hG : Lawful G) (h : InTxn c) (stmt : Stmt G)
    (hsound : stmt.Sound c.view) :
    Holds (runStmt stmt) c (fun _ c' => InTxn c')
      (fun _ c' => stmt.writesRows = false → InTxn c') := by
  cases stmt with
  | createTable t columns =>
    apply (createTableStmt_holds h columns).mono
    · exact fun _ _ h' => h'
    · exact fun _ _ hsame _ => hsame ▸ h
  | dropTable t =>
    apply (dropTableStmt_holds h).mono
    · exact fun _ _ h' => h'
    · exact fun _ _ hsame _ => hsame ▸ h
  | insert t rows =>
    apply (insertStmt_holds hG h rows).mono
    · exact fun _ _ h' => h'
    · exact fun _ _ _ hfalse => absurd hfalse (by simp [Stmt.writesRows])
  | update t assign =>
    apply (updateStmt_holds h assign).mono
    · exact fun _ _ h' => h'
    · exact fun _ _ _ hfalse => absurd hfalse (by simp [Stmt.writesRows])
  | delete t selects =>
    apply (deleteStmt_holds h selects).mono
    · exact fun _ _ h' => h'
    · exact fun _ _ h' _ => h'.1
  | createIndex t index expr asc =>
    apply (createIndexStmt_holds h index expr asc).mono
    · exact fun _ _ h' => h'
    · exact fun _ _ _ hfalse => absurd hfalse (by simp [Stmt.writesRows])
  | dropIndex t index =>
    apply (dropIndex_holds h index).mono
    · exact fun _ _ h' => h'
    · exact fun _ _ hsame _ => hsame ▸ h
  | addColumn t column =>
    apply (addColumn_holds hG h column).mono
    · exact fun _ _ h' => h'
    · exact fun _ _ hsame _ => hsame ▸ h
  | dropColumn t column ifExists =>
    apply (dropColumnStmt_holds hG h column ifExists).mono
    · exact fun _ _ h' => h'
    · exact fun _ _ h' _ => h'
  | renameColumn t old new =>
    apply (renameStmt_holds hG h hsound).mono
    · exact fun _ _ h' => h'
    · exact fun _ _ h' _ => h'
  | renameTable t new =>
    apply (renameSchema_holds h hsound).mono
    · exact fun _ _ h' => h'
    · exact fun _ _ hsame _ => hsame ▸ h

/-- What holds of a connection whatever its transaction has buffered. -/
structure LiveOk (c : Conn G) : Prop where
  live : Integrity c.live
  liveKeys : AppendKeys c.live c.seq c.live
  seq : ∀ id last, c.seq id = some last → 0 ≤ last
  snapshot : ∀ x, c.txn = some x → x.snapshot = c.live

theorem ConnOk.liveOk (h : ConnOk c) : LiveOk c := ⟨h.live, h.liveKeys, h.seq, h.snapshot⟩

theorem AppendKeys.grow (hG : Lawful G) {s : Store G} (h : AppendKeys c.live c.seq s)
    (hext : Extends c c') : AppendKeys c'.live c'.seq s := by
  intro t schema id hschema hid hpk p st hst
  have hold := h t schema id hschema hid hpk p st hst
  rw [hext.live]
  rcases hext.seq id with hsame | ⟨last, hlast, hle⟩
  · unfold KeyAllocated at hold ⊢
    rw [hsame]
    exact hold
  · obtain ⟨m, hkey, hm, hmax⟩ := hold.le hG
    refine ⟨m, hkey, hm, ?_⟩
    rw [hlast]
    exact hmax.trans hle

namespace LiveOk

theorem grow (hG : Lawful G) (h : LiveOk c) (hext : Extends c c') : LiveOk c' := by
  constructor
  · rw [hext.live]
    exact h.live
  · rw [hext.live]
    exact hext.live ▸ h.liveKeys.grow hG hext
  · intro id last hlast
    rcases hext.seq id with hsame | ⟨last', hlast', hle⟩
    · exact h.seq id last (hsame.symm.trans hlast)
    · rw [hlast', Option.some.injEq] at hlast
      subst last'
      apply le_trans _ hle
      cases hseq : c.seq id with
      | some old => exact h.seq id old hseq
      | none => exact (le_foldl_max _ 0).1
  · intro x' hx'
    obtain ⟨x, hx, y, hy, hsnap, -⟩ := hext.txn
    obtain rfl : x' = y := Option.some.inj (hx'.symm.trans hy)
    rw [hsnap, h.snapshot x hx, hext.live]

theorem closed (h : LiveOk c) (hc : c.txn = none) : ConnOk c := by
  have hview : c.view = c.live := by rw [Conn.view, hc]
  constructor
  · exact h.live
  · exact h.liveKeys
  · exact hview.symm ▸ h.live
  · exact hview.symm ▸ h.liveKeys
  · exact h.seq
  · exact h.snapshot

theorem closeTxn (h : LiveOk c) : LiveOk c.closeTxn :=
  ⟨h.live, h.liveKeys, h.seq, fun _ hx => absurd hx (by simp [Conn.closeTxn])⟩

theorem openTxn (h : LiveOk c) : InTxn c.openTxn := by
  refine ⟨⟨h.live, h.liveKeys, h.live, h.liveKeys, h.seq, ?_⟩, rfl⟩
  intro x hx
  rw [← Option.some.inj hx]
  rfl

end LiveOk

theorem ConnOk.grow (hG : Lawful G) (h : ConnOk c) (hext : Extends c c')
    (hview : c'.view = c.view) : ConnOk c' := by
  have hlive := h.liveOk.grow hG hext
  constructor
  · exact hlive.live
  · exact hlive.liveKeys
  · exact hview.symm ▸ h.view
  · rw [hview]
    exact h.viewKeys.grow hG hext
  · exact hlive.seq
  · exact hlive.snapshot

theorem Integrity.registry {s s' : Store G} {t : Name} (h : Integrity s)
    (hget : ∀ k, k ≠ .uniqueidx t → s'.get k = s.get k) : Integrity s' := by
  have hrows : ∀ id, readRow s' id = readRow s id :=
    fun id => funext fun p => hget (.row id p) (by simp)
  have hentries : ∀ id, readEntry s' id = readEntry s id :=
    fun id => funext fun n => funext fun v => funext fun p => hget (.indexEntry id n v p) (by simp)
  have hids : ∀ t', resolveTableId s' t' = resolveTableId s t' :=
    fun t' => hget (.tableid t') (by simp)
  have hschemas : ∀ t', readSchema s' t' = readSchema s t' := fun t' => hget (.schema t') (by simp)
  have hcatalogs : ∀ t', readCatalog s' t' = readCatalog s t' :=
    fun t' => hget (.colcat t') (by simp)
  have hseq : readTableIdSeq s' = readTableIdSeq s := hget .tableidSeq (by simp)
  constructor
  · intro t' schema hread
    rw [hschemas] at hread
    obtain ⟨hname, id, hid, hok⟩ := h.table t' schema hread
    refine ⟨hname, id, (hids t').trans hid, ?_⟩
    rw [hcatalogs, hrows, hentries]
    exact hok
  · intro t' id hid
    rw [hschemas]
    exact h.ids t' id ((hids t').symm.trans hid)
  · intro t' t'' id h' h''
    exact h.ids_inj t' t'' id ((hids t').symm.trans h') ((hids t'').symm.trans h'')
  · intro t' hcat
    rw [hcatalogs] at hcat
    rw [hschemas]
    exact h.catalogs t' hcat
  · intro t' id hid
    rw [hseq]
    exact h.counter t' id ((hids t').symm.trans hid)
  · intro id hdead
    rw [hrows, hentries]
    exact h.dead id fun t' => by rw [← hids]; exact hdead t'

theorem AppendKeys.registry {live live' s s' : Store G} {seq : UInt64 → Option ℤ} {t : Name}
    (h : AppendKeys live seq s) (hget : ∀ k, k ≠ .uniqueidx t → s'.get k = s.get k)
    (hlive : ∀ id, readRow live' id = readRow live id) : AppendKeys live' seq s' := by
  intro t' schema id hschema hid hpk p st hst
  have hschema' : readSchema s t' = some schema := (hget (.schema t') (by simp)).symm.trans hschema
  have hid' : resolveTableId s t' = some id := (hget (.tableid t') (by simp)).symm.trans hid
  have hst' : readRow s id p = some st := (hget (.row id p) (by simp)).symm.trans hst
  have hold := h t' schema id hschema' hid' hpk p st hst'
  unfold KeyAllocated at hold ⊢
  rw [hlive]
  exact hold

theorem LiveOk.registry (h : LiveOk c) (hc : c.txn = none) {w : Write (StorageKey.Value G)}
    {t : Name} (hw : w.key = .uniqueidx t) : LiveOk (c.write w) := by
  have hget : ∀ k, k ≠ .uniqueidx t → (c.write w).live.get k = c.live.get k := by
    intro k hk
    unfold Conn.write
    rw [hc]
    exact Kv.get_write_of_ne (hw ▸ hk)
  have hseq : (c.write w).seq = c.seq := by
    unfold Conn.write
    rw [hc]
  constructor
  · exact h.live.registry hget
  · rw [hseq]
    exact h.liveKeys.registry hget fun id => funext fun p => hget (.row id p) (by simp)
  · rw [hseq]
    exact h.seq
  · intro x hx
    unfold Conn.write at hx
    rw [hc] at hx
    exact absurd hx (by simp)

theorem ConnOk.registry (h : ConnOk c) (hc : c.txn.isSome = true)
    {w : Write (StorageKey.Value G)} {t : Name} (hw : w.key = .uniqueidx t) :
      ConnOk (c.write w) := by
  have hbuf := buffered_write hc w
  have hget : ∀ k, k ≠ .uniqueidx t → (c.write w).view.get k = c.view.get k := by
    intro k hk
    rw [hbuf.view]
    exact Kv.get_write_of_ne (hw ▸ hk)
  exact h.buffered hbuf (h.view.registry hget) (h.viewKeys.registry hget fun _ => rfl)

theorem recheck_not_indexEval {live : Store G} {txn : Txn G} {e : Error G}
    (h : recheck live txn = .error e) : ¬e.IsIndexEval := by
  unfold recheck at h
  split at h
  · rw [← Except.error.inj h]
    exact not_false
  · split at h
    · rw [← Except.error.inj h]
      exact not_false
    · exact absurd h (by simp)

theorem commit_holds (h : ConnOk c) :
    Holds commit c (fun _ c' => LiveOk c' ∧ c'.txn = none)
      (fun e c' => (LiveOk c' ∧ c'.txn = none) ∧ ¬e.IsIndexEval) := by
  unfold Holds commit
  cases hx : c.txn with
  | none => exact ⟨h.liveOk, hx⟩
  | some x =>
    dsimp only
    by_cases hover : x.overlay = []
    · rw [if_pos hover]
      exact ⟨h.liveOk.closeTxn, rfl⟩
    · rw [if_neg hover]
      cases hcheck : recheck c.live x with
      | error e => exact ⟨⟨h.liveOk.closeTxn, rfl⟩, recheck_not_indexEval hcheck⟩
      | ok _ =>
        have hview : c.view = c.live.commit x.overlay := by
          rw [← h.snapshot x hx, Conn.view, hx]
        refine ⟨⟨hview ▸ h.view, ?_, h.seq, fun _ hx' => absurd hx' (by simp)⟩, rfl⟩
        intro t schema id hschema hid hpk p st hst
        rw [← hview] at hschema hid hst
        obtain ⟨m, hkey, hm, hle⟩ := h.viewKeys t schema id hschema hid hpk p st hst
        refine ⟨m, hkey, hm, ?_⟩
        cases hseq : c.seq id with
        | some last =>
          rw [hseq] at hle
          exact hle
        | none => exact ⟨st, hview ▸ hst, rfl⟩

theorem executeStmt_closed (hG : Lawful G) (h : LiveOk c) (hc : c.txn = none) (stmt : Stmt G)
    (hsound : stmt.Sound c.view) :
    Holds (executeStmt stmt) c (fun _ c' => LiveOk c' ∧ c'.txn = none)
      (fun _ c' => LiveOk c' ∧ c'.txn = none) := by
  have hview : c.view = c.openTxn.view := by
    rw [Conn.view, hc]
    rfl
  have hrun := runStmt_holds hG h.openTxn stmt (hview ▸ hsound)
  have hgrows := (runStmt_grows stmt).holds c.openTxn
  unfold Holds executeStmt
  rw [hc, if_neg (by simp)]
  unfold Holds at hrun hgrows
  cases hresult : runStmt stmt c.openTxn with
  | ok a c' =>
    rw [hresult] at hrun
    have hcommit := commit_holds hrun.ok
    unfold Holds at hcommit
    dsimp only
    cases hc' : commit c' with
    | ok b c'' =>
      rw [hc'] at hcommit
      exact hcommit
    | error e c'' =>
      rw [hc'] at hcommit
      exact hcommit.1
  | error e c' =>
    rw [hresult] at hgrows
    exact ⟨(h.openTxn.ok.liveOk.grow hG (hgrows rfl)).closeTxn, rfl⟩

/-- A connection, and whether a failed statement left some of its writes in the
open transaction. -/
structure Session (G : Engine) where
  conn : Conn G
  torn : Bool

/-- The error of a request, if it fails. -/
def failure (c : Conn G) (op : Op G) : Option (Error G) :=
  match execute op c with
  | .ok _ _ => none
  | .error e _ => some e

def overlayLength (c : Conn G) : Option ℕ := c.txn.map (·.overlay.length)

/-- The statement writes rows and fails in an explicit transaction with some of
its writes buffered. -/
def tears (c : Conn G) : Op G → Bool
  | .exec stmt => stmt.writesRows && c.txn.isSome && (failure c (.exec stmt)).isSome &&
      decide (overlayLength (step c (.exec stmt)) ≠ overlayLength c)
  | _ => false

namespace Session

def init (strict : Bool) (now : ℤ) : Session G := ⟨Conn.init strict now, false⟩

def step (x : Session G) (op : Op G) : Session G where
  conn := Sql.step x.conn op
  torn := (Sql.step x.conn op).txn.isSome && (x.torn || tears x.conn op)

def run (x : Session G) (ops : List (Op G)) : Session G := ops.foldl step x

/-- A torn transaction is not committed, and the statement is sound on what the
connection reads. -/
def Admits (x : Session G) : Op G → Prop
  | .commit => x.torn = false
  | .exec stmt => x.torn = false → stmt.Sound x.conn.view
  | _ => True

instance (x : Session G) : (op : Op G) → Decidable (x.Admits op)
  | .begin => isTrue trivial
  | .commit => inferInstanceAs (Decidable (x.torn = false))
  | .rollback | .declareUnique _ _ => isTrue trivial
  | .exec stmt => inferInstanceAs (Decidable (x.torn = false → stmt.Sound x.conn.view))

def Conforms : Session G → List (Op G) → Prop
  | _, [] => True
  | x, op :: ops => x.Admits op ∧ (x.step op).Conforms ops

instance decidableConforms : (x : Session G) → (ops : List (Op G)) → Decidable (x.Conforms ops)
  | _, [] => isTrue trivial
  | x, op :: ops =>
    have := decidableConforms (x.step op) ops
    inferInstanceAs (Decidable (x.Admits op ∧ (x.step op).Conforms ops))

theorem conn_run (x : Session G) (ops : List (Op G)) :
    (x.run ops).conn = Sql.run x.conn ops := by
  induction ops generalizing x with
  | nil => rfl
  | cons op ops ih => exact ih (x.step op)

end Session

/-- What every conforming run keeps. -/
structure SessionOk (x : Session G) : Prop where
  live : LiveOk x.conn
  conn : x.torn = false → ConnOk x.conn
  inside : x.torn = true → x.conn.txn.isSome = true

theorem sessionOk_init (strict : Bool) (now : ℤ) :
    SessionOk (Session.init strict now : Session G) := by
  have hlive : LiveOk (Conn.init strict now : Conn G) := by
    constructor
    · exact integrity_empty
    · intro t schema id hschema
      exact absurd hschema (by simp [Conn.init, readSchema])
    · intro id last hlast
      exact absurd hlast (by simp [Conn.init])
    · intro x hx
      exact absurd hx (by simp [Conn.init])
  exact ⟨hlive, fun _ => hlive.closed rfl, fun h => absurd h (by simp [Session.init])⟩

namespace SessionOk

variable {x : Session G} {op : Op G}

theorem of_closed (h : LiveOk (x.step op).conn) (hc : (x.step op).conn.txn = none) :
    SessionOk (x.step op) := by
  refine ⟨h, fun _ => h.closed hc, fun htorn => ?_⟩
  have hc' : (Sql.step x.conn op).txn = none := hc
  simp [Session.step, hc'] at htorn

theorem exec_open (hG : Lawful G) (h : SessionOk x) (hc : x.conn.txn.isSome = true)
    {stmt : Stmt G} (hsound : x.torn = false → stmt.Sound x.conn.view) :
    SessionOk (x.step (.exec stmt)) := by
  have hexec : execute (.exec stmt) x.conn = runStmt stmt x.conn := by
    simp only [execute, executeStmt, hc, if_true]
  have hgrows := (runStmt_grows stmt).holds x.conn
  have hext : Extends x.conn (Sql.step x.conn (.exec stmt)) := by
    unfold Sql.step
    rw [hexec]
    unfold Holds at hgrows
    cases hresult : runStmt stmt x.conn <;> rw [hresult] at hgrows <;> exact hgrows hc
  refine ⟨h.live.grow hG hext, fun htorn => ?_, fun _ => hext.isSome⟩
  have hstep : (x.torn || tears x.conn (.exec stmt)) = false := by
    have hsome : (Sql.step x.conn (.exec stmt)).txn.isSome = true := hext.isSome
    simpa only [Session.step, hsome, Bool.true_and] using htorn
  rw [Bool.or_eq_false_iff] at hstep
  obtain ⟨hclean, htears⟩ := hstep
  have hrun := runStmt_holds hG ⟨h.conn hclean, hc⟩ stmt (hsound hclean)
  change ConnOk (Sql.step x.conn (.exec stmt))
  unfold Holds at hrun
  cases hresult : runStmt stmt x.conn with
  | ok a c' =>
    rw [hresult] at hrun
    simp only [Sql.step, hexec, hresult]
    exact hrun.ok
  | error e c' =>
    rw [hresult] at hrun
    have hsame : Sql.step x.conn (.exec stmt) = c' := by simp only [Sql.step, hexec, hresult]
    by_cases hrows : stmt.writesRows = false
    · rw [hsame]
      exact (hrun hrows).ok
    · have hfails : (failure x.conn (.exec stmt)).isSome = true := by
        simp only [failure, hexec, hresult, Option.isSome_some]
      have hlen : overlayLength (Sql.step x.conn (.exec stmt)) = overlayLength x.conn := by
        by_contra hne
        simp [tears, hrows, hc, hfails, hne] at htears
      exact (h.conn hclean).grow hG hext (hext.view_eq hlen)

theorem declareUnique (hG : Lawful G) (h : SessionOk x) (t index : Name) :
    SessionOk (x.step (.declareUnique t index)) := by
  obtain ⟨w, hw, hwrite⟩ : ∃ w, w.key = .uniqueidx t ∧
      Sql.step x.conn (.declareUnique t index) = x.conn.write w := ⟨_, rfl, rfl⟩
  by_cases hc : x.conn.txn.isSome = true
  · have hext := (buffered_write hc w).extends
    constructor
    · change LiveOk (Sql.step x.conn (.declareUnique t index))
      rw [hwrite]
      exact h.live.grow hG hext
    · intro htorn
      have hclean : x.torn = false := by
        simpa [Session.step, tears, hwrite, hext.isSome] using htorn
      change ConnOk (Sql.step x.conn (.declareUnique t index))
      rw [hwrite]
      exact (h.conn hclean).registry hc hw
    · intro _
      change (Sql.step x.conn (.declareUnique t index)).txn.isSome = true
      rw [hwrite]
      exact hext.isSome
  · have hnone : x.conn.txn = none := Option.not_isSome_iff_eq_none.mp hc
    apply of_closed
    · change LiveOk (Sql.step x.conn (.declareUnique t index))
      rw [hwrite]
      exact h.live.registry hnone hw
    · change (Sql.step x.conn (.declareUnique t index)).txn = none
      rw [hwrite]
      unfold Conn.write
      rw [hnone]

theorem begin (h : SessionOk x) : SessionOk (x.step .begin) := by
  have hstep : Sql.step x.conn .begin = if x.conn.txn.isSome then x.conn else x.conn.openTxn := rfl
  by_cases hc : x.conn.txn.isSome = true
  · rw [if_pos hc] at hstep
    have hsame : x.step .begin = x := by
      unfold Session.step
      rw [hstep, hc]
      simp [tears]
    rw [hsame]
    exact h
  · rw [if_neg hc] at hstep
    have hclean : x.torn = false := by
      rw [← Bool.not_eq_true]
      exact fun htorn => hc (h.inside htorn)
    constructor
    · change LiveOk (Sql.step x.conn .begin)
      rw [hstep]
      exact h.live.openTxn.ok.liveOk
    · intro _
      change ConnOk (Sql.step x.conn .begin)
      rw [hstep]
      exact h.live.openTxn.ok
    · intro htorn
      simp [Session.step, tears, hclean] at htorn

theorem step (hG : Lawful G) (h : SessionOk x) (hadmits : x.Admits op) : SessionOk (x.step op) := by
  cases op with
  | begin => exact h.begin
  | commit =>
    have hcommit := commit_holds (h.conn hadmits)
    unfold Holds at hcommit
    have hboth : LiveOk (x.step .commit).conn ∧ (x.step .commit).conn.txn = none := by
      simp only [Session.step, Sql.step, execute]
      cases hresult : Sql.commit x.conn with
      | ok a c' =>
        rw [hresult] at hcommit
        exact hcommit
      | error e c' =>
        rw [hresult] at hcommit
        exact hcommit.1
    exact of_closed hboth.1 hboth.2
  | rollback => exact of_closed h.live.closeTxn rfl
  | declareUnique t index => exact h.declareUnique hG t index
  | exec stmt =>
    by_cases hc : x.conn.txn.isSome = true
    · exact h.exec_open hG hc hadmits
    · have hnone : x.conn.txn = none := Option.not_isSome_iff_eq_none.mp hc
      have hclean : x.torn = false := by
        rw [← Bool.not_eq_true]
        exact fun htorn => hc (h.inside htorn)
      have hexec := executeStmt_closed hG h.live hnone stmt (hadmits hclean)
      unfold Holds at hexec
      have hboth : LiveOk (x.step (.exec stmt)).conn ∧ (x.step (.exec stmt)).conn.txn = none := by
        simp only [Session.step, Sql.step, execute]
        cases hresult : executeStmt stmt x.conn <;> rw [hresult] at hexec <;> exact hexec
      exact of_closed hboth.1 hboth.2

theorem run (hG : Lawful G) (h : SessionOk x) {ops : List (Op G)} (hconforms : x.Conforms ops) :
    SessionOk (x.run ops) := by
  induction ops generalizing x with
  | nil => exact h
  | cons op ops ih => exact ih (h.step hG hconforms.1) hconforms.2

end SessionOk

theorem integrity_run (hG : Lawful G) {strict : Bool} {now : ℤ} {ops : List (Op G)}
    (hconforms : (Session.init strict now).Conforms ops) :
    Integrity (Sql.run (Conn.init strict now) ops).live :=
  Session.conn_run (Session.init strict now) ops ▸
    ((sessionOk_init strict now).run hG hconforms).live.live

end BlueDB.Sql
