import BlueDB.Sql.UniqueStatements

/-!
# Unique indexes over whole runs

A CREATE UNIQUE INDEX registers its name outside of the statement and creates a
plain index, over whatever rows the table has; the registry stays behind under
the name of the table when the table is dropped or renamed. As long as none of
this is met, the indexes created with UNIQUE and no others are unique.
-/

namespace BlueDB.Sql

variable {G : Engine} {c c' : Conn G} {t : Name} {declared : List (Name × Name)}

/-- A request of a client. -/
inductive Request (G : Engine)
  | begin
  | commit
  | rollback
  | exec (stmt : Stmt G)
  | createUniqueIndex (t index : Name) (expr : G.Expr) (asc : Option Bool)

def Request.ops : Request G → List (Op G)
  | .begin => [.begin]
  | .commit => [.commit]
  | .rollback => [.rollback]
  | .exec stmt => [.exec stmt]
  | .createUniqueIndex t index expr asc =>
    [.declareUnique t index, .exec (.createIndex t index expr asc)]

/-- A session with the indexes that are to be unique: in the open transaction, in
the committed store, and at some point of the open transaction. -/
structure UniqueSession (G : Engine) where
  session : Session G
  declared : List (Name × Name)
  committed : List (Name × Name)
  checked : List (Name × Name)

namespace UniqueSession

def init (strict : Bool) (now : ℤ) : UniqueSession G := ⟨Session.init strict now, [], [], []⟩

/-- A statement has left the session `y` behind, and `after` declared unless it is gone. -/
def executed (x : UniqueSession G) (y : Session G) (after : List (Name × Name)) :
    UniqueSession G :=
  let declared := stillListed y.conn.view after
  if y.conn.txn.isSome then ⟨y, declared, x.committed, x.checked ++ declared⟩
  else ⟨y, declared, declared, declared⟩

/-- The transaction is over. -/
def closed (y : Session G) (declared : List (Name × Name)) : UniqueSession G :=
  ⟨y, declared, declared, declared⟩

def step (x : UniqueSession G) : Request G → UniqueSession G
  | .begin => { x with session := x.session.step .begin }
  | .commit =>
    closed (x.session.step .commit)
      (if failure x.session.conn .commit = none then x.declared else x.committed)
  | .rollback => closed (x.session.step .rollback) x.committed
  | .exec stmt =>
    x.executed (x.session.step (.exec stmt))
      (if failure x.session.conn (.exec stmt) = none then stmt.moves x.declared else x.declared)
  | .createUniqueIndex t index expr asc =>
    let y := x.session.step (.declareUnique t index)
    x.executed (y.step (.exec (.createIndex t index expr asc)))
      (if failure y.conn (.exec (.createIndex t index expr asc)) = none
        then (t, index) :: x.declared else x.declared)

def run (x : UniqueSession G) (requests : List (Request G)) : UniqueSession G :=
  requests.foldl step x

end UniqueSession

/-- A unique index is created under a new name, over rows that have no value in common. -/
def Request.Ready (s : Store G) : Request G → Prop
  | .exec stmt => stmt.KeepsRegistry s
  | .createUniqueIndex t index expr _ =>
    (index ∈ indexNames s t → index ∈ readUniqueIndexes s t) ∧
      ∀ schema ∈ readSchema s t, ∀ rows ∈ (scanData s t).toOption, indexExprOk schema expr = true →
        Unrepeated ⟨index, expr, .both⟩ (evalColumns schema) rows
  | _ => True

instance Request.decidableReady (s : Store G) : (r : Request G) → Decidable (r.Ready s)
  | .begin => isTrue trivial
  | .commit => isTrue trivial
  | .rollback => isTrue trivial
  | .exec stmt => inferInstanceAs (Decidable (stmt.KeepsRegistry s))
  | .createUniqueIndex t index expr _ => inferInstanceAs (Decidable
      ((index ∈ indexNames s t → index ∈ readUniqueIndexes s t) ∧
        ∀ schema ∈ readSchema s t, ∀ rows ∈ (scanData s t).toOption, indexExprOk schema expr =
          true →
          Unrepeated ⟨index, expr, .both⟩ (evalColumns schema) rows))

namespace UniqueSession

/-- The request meets the conditions of the invariant of indexes and rows and, in a
transaction that is not torn, those of the registry. -/
def Admits (x : UniqueSession G) (r : Request G) : Prop :=
  x.session.Conforms r.ops ∧ (x.session.torn = false → r.Ready x.session.conn.view)

instance (x : UniqueSession G) (r : Request G) : Decidable (x.Admits r) :=
  inferInstanceAs (Decidable (_ ∧ _))

def Conforms : UniqueSession G → List (Request G) → Prop
  | _, [] => True
  | x, r :: requests => x.Admits r ∧ (x.step r).Conforms requests

instance decidableConforms : (x : UniqueSession G) → (requests : List (Request G)) →
    Decidable (x.Conforms requests)
  | _, [] => isTrue trivial
  | x, r :: requests =>
    have := decidableConforms (x.step r) requests
    inferInstanceAs (Decidable (x.Admits r ∧ (x.step r).Conforms requests))

end UniqueSession

theorem Error.isDuplicateEntry_unique {e : Error G} {n n' : Name} (h : e.IsDuplicateEntry n)
    (h' : e.IsDuplicateEntry n') : n = n' := by
  unfold Error.IsDuplicateEntry at h h'
  split at h
  · exact h.symm.trans h'
  · exact h.elim

theorem isUniqueViolation_of_entry {e : Error G} {n : Name} (h : e.IsDuplicateEntry n) :
    e.IsUniqueViolation := by
  unfold Error.IsDuplicateEntry at h
  split at h
  · trivial
  · exact h.elim

structure CommitFailed (c : Conn G) (e : Error G) : Prop where
  entry : ∀ n, ¬e.IsDuplicateEntry n
  commit : ∀ n t, e = .uniqueViolation (.duplicateAtCommit n t) →
    ∃ ch ∈ stagedChecks c, ch.tableName = t ∧ ch.indexName = n

theorem commit_checked (h : ConnOk c) :
    Holds commit c (fun _ c' => c'.live = c.view ∧ c'.txn = none)
      (fun e c' => (c'.live = c.live ∧ c'.txn = none) ∧ CommitFailed c e) := by
  unfold Holds commit
  cases hx : c.txn with
  | none =>
    dsimp only
    rw [Conn.view, hx]
    exact ⟨rfl, rfl⟩
  | some x =>
    have hview : c.view = c.live.commit x.overlay := by
      rw [← h.snapshot x hx, Conn.view, hx]
    dsimp only
    by_cases hover : x.overlay = []
    · rw [if_pos hover, hview, hover]
      exact ⟨rfl, rfl⟩
    · rw [if_neg hover]
      cases hcheck : recheck c.live x with
      | ok _ => exact ⟨hview.symm, rfl⟩
      | error e =>
        refine ⟨⟨rfl, rfl⟩, ?_⟩
        unfold recheck at hcheck
        split at hcheck
        · rw [← Except.error.inj hcheck]
          exact ⟨fun _ => not_false, fun n t heq => absurd heq (by simp)⟩
        · split at hcheck
          · rename_i ch hfind
            rw [← Except.error.inj hcheck]
            refine ⟨fun _ => not_false, fun n t heq => ⟨ch, ?_, ?_⟩⟩
            · rw [stagedChecks, hx]
              exact List.mem_of_find?_eq_some hfind
            · simp only [Error.uniqueViolation.injEq, Violation.duplicateAtCommit.injEq] at heq
              exact ⟨heq.2, heq.1⟩
          · exact absurd hcheck (by simp)

/-- The unique indexes of a table with one more. -/
def registered (s : Store G) (t index : Name) : List Name :=
  if index ∈ readUniqueIndexes s t then readUniqueIndexes s t else index :: readUniqueIndexes s t

theorem mem_registered (s : Store G) (t index m : Name) :
    m ∈ readUniqueIndexes (s.write (.put (.uniqueidx t) (registered s t index))) t ↔
      m ∈ readUniqueIndexes s t ∨ m = index := by
  have hget : (s.write (.put (.uniqueidx t) (registered s t index))).get (.uniqueidx t) =
      some (registered s t index) := Kv.get_write_put ..
  have hread : readUniqueIndexes (s.write (.put (.uniqueidx t) (registered s t index))) t =
      registered s t index :=
    congrArg (fun names : Option (List Name) => names.getD []) hget
  rw [hread, registered]
  split_ifs with hmem
  · exact ⟨Or.inl, fun h => h.elim (fun h => h) fun h => h ▸ hmem⟩
  · rw [List.mem_cons, or_comm]

theorem step_declareUnique (c : Conn G) (t index : Name) :
    Sql.step c (.declareUnique t index) =
      c.write (.put (.uniqueidx t) (registered c.view t index)) := rfl

theorem Conn.view_write (c : Conn G) (w : Write (StorageKey.Value G)) :
    (c.write w).view = c.view.write w := by
  cases hc : c.txn with
  | none => simp only [Conn.view, Conn.write, hc]
  | some x =>
    simp only [Conn.view, Conn.write, hc, Kv.commit_append, Kv.commit_cons, Kv.commit_nil]

theorem Conn.live_write (hc : c.txn = none) (w : Write (StorageKey.Value G)) :
    (c.write w).live = c.live.write w := by
  simp only [Conn.write, hc]

structure UniqueSessionOk (x : UniqueSession G) : Prop where
  base : SessionOk x.session
  live : UniqueOk x.session.conn.live x.committed
  view : x.session.torn = false → UniqueOk x.session.conn.view x.declared
  staged : x.session.torn = false → ∀ ch ∈ stagedChecks x.session.conn, OfDeclared x.checked ch
  checked : x.session.torn = false → ∀ q ∈ x.declared, q ∈ x.checked

/-- The statement keeps the declared indexes unique in whatever transaction it runs. -/
def KeepsUnique (x : UniqueSession G) (stmt : Stmt G) (after : List (Name × Name)) : Prop :=
  x.session.torn = false → ∀ c, InTxn c → c.view = x.session.conn.view →
    Holds (runStmt stmt) c (fun _ c' => Declared c c' x.declared after)
      (fun e c' => DeclaredFailed c c' stmt x.declared e)

namespace UniqueSessionOk

variable {x : UniqueSession G} {stmt : Stmt G} {after : List (Name × Name)}

theorem step_of_ok {y : Session G} {op : Op G} {r : Unit} {c' : Conn G}
    (h : execute op y.conn = .ok r c') : (y.step op).conn = c' ∧ failure y.conn op = none := by
  simp only [Session.step, Sql.step, failure, h, and_self]

theorem step_of_error {y : Session G} {op : Op G} {e : Error G} {c' : Conn G}
    (h : execute op y.conn = .error e c') : (y.step op).conn = c' ∧ failure y.conn op = some e := by
  simp only [Session.step, Sql.step, failure, h, and_self]

theorem executed_open (hG : Lawful G) (h : UniqueSessionOk x)
    (hc : x.session.conn.txn.isSome = true) (hadmits : x.session.Admits (.exec stmt))
    (hkeeps : KeepsUnique x stmt after) :
    UniqueSessionOk (x.executed (x.session.step (.exec stmt))
      (if failure x.session.conn (.exec stmt) = none then after else x.declared)) := by
  have hbase := h.base.step hG hadmits
  have hexec : execute (.exec stmt) x.session.conn = runStmt stmt x.session.conn := by
    simp only [execute, executeStmt, hc, if_true]
  have hgrows := (runStmt_grows stmt).holds x.session.conn
  have hext : Extends x.session.conn (x.session.step (.exec stmt)).conn := by
    change Extends _ (Sql.step x.session.conn (.exec stmt))
    unfold Sql.step
    rw [hexec]
    unfold Holds at hgrows
    cases hresult : runStmt stmt x.session.conn <;> rw [hresult] at hgrows <;> exact hgrows hc
  unfold UniqueSession.executed
  rw [if_pos hext.isSome]
  have hclean : (x.session.step (.exec stmt)).torn = false →
      x.session.torn = false ∧ tears x.session.conn (.exec stmt) = false := by
    intro htorn
    have hsome : (Sql.step x.session.conn (.exec stmt)).txn.isSome = true := hext.isSome
    have hboth : (x.session.torn || tears x.session.conn (.exec stmt)) = false := by
      simpa only [Session.step, hsome, Bool.true_and] using htorn
    exact Bool.or_eq_false_iff.mp hboth
  have hrun : (x.session.step (.exec stmt)).torn = false →
      UniqueOk (x.session.step (.exec stmt)).conn.view
        (stillListed (x.session.step (.exec stmt)).conn.view
          (if failure x.session.conn (.exec stmt) = none then after else x.declared)) ∧
      ∀ ch ∈ stagedChecks (x.session.step (.exec stmt)).conn,
        ch ∈ stagedChecks x.session.conn ∨ OfDeclared x.declared ch := by
    intro htorn
    obtain ⟨htorn0, htears⟩ := hclean htorn
    have hholds := hkeeps htorn0 x.session.conn ⟨h.base.conn htorn0, hc⟩ rfl
    unfold Holds at hholds
    cases hresult : runStmt stmt x.session.conn with
    | ok a c' =>
      rw [hresult] at hholds
      obtain ⟨hconn, hfails⟩ := step_of_ok (hexec.trans hresult)
      rw [hconn, if_pos hfails]
      exact ⟨hholds.ok, hholds.staged⟩
    | error e c' =>
      rw [hresult] at hholds
      obtain ⟨hconn, hfails⟩ := step_of_error (hexec.trans hresult)
      rw [hconn, if_neg (by simp [hfails])]
      refine ⟨?_, hholds.staged⟩
      by_cases hrows : stmt.writesRows = false
      · exact hholds.ok hrows
      · have hlen : overlayLength (Sql.step x.session.conn (.exec stmt)) =
            overlayLength x.session.conn := by
          by_contra hne
          simp [tears, hrows, hc, hfails, hne] at htears
        have hview : c'.view = x.session.conn.view := by
          rw [← hconn]
          exact hext.view_eq hlen
        rw [hview]
        exact (h.view htorn0).still
  constructor
  · exact hbase
  · change UniqueOk (x.session.step (.exec stmt)).conn.live x.committed
    rw [hext.live]
    exact h.live
  · exact fun htorn => (hrun htorn).1
  · intro htorn ch hmem
    rcases (hrun htorn).2 ch hmem with hch | hch
    · exact List.mem_append_left _ (h.staged (hclean htorn).1 ch hch)
    · exact List.mem_append_left _ (h.checked (hclean htorn).1 _ hch)
  · exact fun _ q hq => List.mem_append_right _ hq

theorem of_closed {y : Session G} (hy : SessionOk y) (hc : y.conn.txn = none)
    (hok : UniqueOk y.conn.live declared) : UniqueSessionOk (UniqueSession.closed y declared) := by
  have hview : y.conn.view = y.conn.live := by rw [Conn.view, hc]
  constructor
  · exact hy
  · exact hok
  · intro _
    change UniqueOk y.conn.view declared
    exact hview ▸ hok
  · intro _ ch hmem
    change ch ∈ stagedChecks y.conn at hmem
    rw [stagedChecks, hc] at hmem
    exact absurd hmem List.not_mem_nil
  · exact fun _ _ hq => hq

theorem clean (h : UniqueSessionOk x) (hc : x.session.conn.txn = none) : x.session.torn =
    false := by
  rw [← Bool.not_eq_true]
  intro htorn
  have hopen := h.base.inside htorn
  rw [hc] at hopen
  exact absurd hopen (by simp)

/-- A statement outside of a transaction, up to its commit. -/
theorem autocommit (hG : Lawful G) (h : UniqueSessionOk x) (hc : x.session.conn.txn = none)
    (hadmits : x.session.Admits (.exec stmt)) (hkeeps : KeepsUnique x stmt after) :
    Holds (executeStmt stmt) x.session.conn
      (fun _ c' => c'.txn = none ∧ UniqueOk c'.live (stillListed c'.live after))
      (fun e c' => (c'.txn = none ∧ c'.live = x.session.conn.live) ∧
        (∀ n, e.IsDuplicateEntry n → ∃ t ∈ stmt.target, (t, n) ∈ x.declared) ∧
          ∀ n t, e = .uniqueViolation (.duplicateAtCommit n t) → (t, n) ∈ x.declared) := by
  have hclean := h.clean hc
  have hopen : InTxn x.session.conn.openTxn := h.base.live.openTxn
  have hview : x.session.conn.openTxn.view = x.session.conn.view := by
    rw [Conn.view, Conn.view, hc]
    rfl
  have hstart : stagedChecks x.session.conn.openTxn = [] := rfl
  have hrun := hkeeps hclean _ hopen hview
  have hinv := runStmt_holds hG hopen stmt (hview ▸ hadmits hclean)
  have hgrows := (runStmt_grows stmt).holds x.session.conn.openTxn
  unfold Holds at hrun hinv hgrows
  unfold Holds executeStmt
  rw [hc, if_neg (by simp)]
  cases hresult : runStmt stmt x.session.conn.openTxn with
  | error e c1 =>
    rw [hresult] at hrun hgrows
    refine ⟨⟨rfl, (hgrows rfl).live⟩, ?_, ?_⟩
    · intro n hn
      obtain ⟨t, ht, n', hn', hmem⟩ := hrun.violation (isUniqueViolation_of_entry hn)
      obtain rfl := Error.isDuplicateEntry_unique hn' hn
      exact ⟨t, ht, hmem⟩
    · intro n t heq
      rw [heq] at hrun
      obtain ⟨t', _, n', hn', _⟩ := hrun.violation trivial
      exact absurd hn' not_false
  | ok a c1 =>
    rw [hresult] at hrun hinv hgrows
    have hcommit := commit_checked hinv.ok
    unfold Holds at hcommit
    dsimp only
    cases hc1 : commit c1 with
    | ok b c2 =>
      rw [hc1] at hcommit
      refine ⟨hcommit.2, ?_⟩
      rw [hcommit.1]
      exact hrun.ok
    | error e c2 =>
      rw [hc1] at hcommit
      obtain ⟨⟨hlive, hc2⟩, hfailed⟩ := hcommit
      refine ⟨⟨hc2, hlive.trans (hgrows rfl).live⟩, ?_, ?_⟩
      · exact fun n hn => absurd hn (hfailed.entry n)
      · intro n t heq
        obtain ⟨ch, hch, rfl, rfl⟩ := hfailed.commit n t heq
        rcases hrun.staged ch hch with hch | hch
        · rw [hstart] at hch
          exact absurd hch List.not_mem_nil
        · exact hch

theorem executed_closed (hG : Lawful G) (h : UniqueSessionOk x) (hc : x.session.conn.txn = none)
    (hadmits : x.session.Admits (.exec stmt)) (hkeeps : KeepsUnique x stmt after) :
    UniqueSessionOk (x.executed (x.session.step (.exec stmt))
      (if failure x.session.conn (.exec stmt) = none then after else x.declared)) := by
  have hbase := h.base.step hG hadmits
  have hholds := h.autocommit hG hc hadmits hkeeps
  have hlive : x.session.conn.view = x.session.conn.live := by rw [Conn.view, hc]
  have hexec : execute (.exec stmt) x.session.conn = executeStmt stmt x.session.conn := rfl
  unfold Holds at hholds
  have hboth : (x.session.step (.exec stmt)).conn.txn = none ∧
      UniqueOk (x.session.step (.exec stmt)).conn.live
        (stillListed (x.session.step (.exec stmt)).conn.live
          (if failure x.session.conn (.exec stmt) = none then after else x.declared)) := by
    cases hresult : executeStmt stmt x.session.conn with
    | ok a c' =>
      rw [hresult] at hholds
      obtain ⟨hconn, hfails⟩ := step_of_ok (hexec.trans hresult)
      rw [hconn, if_pos hfails]
      exact hholds
    | error e c' =>
      rw [hresult] at hholds
      obtain ⟨hconn, hfails⟩ := step_of_error (hexec.trans hresult)
      rw [hconn, if_neg (by simp [hfails]), hholds.1.2, ← hlive]
      exact ⟨hholds.1.1, (h.view (h.clean hc)).still⟩
  have hview : (x.session.step (.exec stmt)).conn.view =
      (x.session.step (.exec stmt)).conn.live := by rw [Conn.view, hboth.1]
  unfold UniqueSession.executed
  rw [if_neg (by simp [hboth.1]), hview]
  exact of_closed hbase hboth.1 hboth.2

theorem executed (hG : Lawful G) (h : UniqueSessionOk x) (hadmits : x.session.Admits (.exec stmt))
    (hkeeps : KeepsUnique x stmt after) :
    UniqueSessionOk (x.executed (x.session.step (.exec stmt))
      (if failure x.session.conn (.exec stmt) = none then after else x.declared)) := by
  by_cases hc : x.session.conn.txn.isSome = true
  · exact h.executed_open hG hc hadmits hkeeps
  · exact h.executed_closed hG (Option.not_isSome_iff_eq_none.mp hc) hadmits hkeeps

theorem keepsUnique (hnull : NullApart G) (h : UniqueSessionOk x)
    (hadmits : x.session.Admits (.exec stmt))
    (hready : x.session.torn = false → stmt.KeepsRegistry x.session.conn.view) :
    KeepsUnique x stmt (stmt.moves x.declared) := by
  intro htorn c hc hview
  apply runStmt_unique hnull hc
  · exact hview ▸ h.view htorn
  · exact hview ▸ hadmits htorn
  · exact hview ▸ hready htorn

theorem declareUnique (hG : Lawful G) (h : UniqueSessionOk x) (t index : Name)
    (hnew : x.session.torn = false → index ∈ indexNames x.session.conn.view t →
      index ∈ readUniqueIndexes x.session.conn.view t) :
    UniqueSessionOk { x with session := x.session.step (.declareUnique t index) } := by
  have hbase := h.base.declareUnique hG t index
  have hconn := step_declareUnique x.session.conn t index
  have hclean : (x.session.step (.declareUnique t index)).torn = false →
      x.session.torn = false := by
    intro htorn
    rw [← Bool.not_eq_true]
    intro htorn0
    have hopen := h.base.inside htorn0
    have hopen' : (Sql.step x.session.conn (.declareUnique t index)).txn.isSome = true := by
      rw [hconn]
      exact (buffered_write hopen _).isSome
    simp [Session.step, htorn0, hopen'] at htorn
  have hview : x.session.torn = false →
      UniqueOk (Sql.step x.session.conn (.declareUnique t index)).view x.declared := by
    intro htorn
    rw [hconn, Conn.view_write]
    apply (h.view htorn).register (t := t) (n := index) _ _ (hnew htorn)
    · exact fun k hk => Kv.get_write_of_ne hk
    · exact mem_registered _ t index
  constructor
  · exact hbase
  · change UniqueOk (Sql.step x.session.conn (.declareUnique t index)).live x.committed
    by_cases hc : x.session.conn.txn.isSome = true
    · rw [hconn, (buffered_write hc _).live]
      exact h.live
    · have hnone := Option.not_isSome_iff_eq_none.mp hc
      have hlive : x.session.conn.view = x.session.conn.live := by rw [Conn.view, hnone]
      have hnew' := hnew (h.clean hnone)
      rw [hconn, Conn.live_write hnone]
      rw [hlive] at hnew' ⊢
      apply h.live.register (t := t) (n := index) _ _ hnew'
      · exact fun k hk => Kv.get_write_of_ne hk
      · exact mem_registered _ t index
  · exact fun htorn => hview (hclean htorn)
  · intro htorn ch hmem
    have hquiet : stagedChecks (Sql.step x.session.conn (.declareUnique t index)) =
        stagedChecks x.session.conn := by
      rw [hconn]
      exact quiet_write _
    exact h.staged (hclean htorn) ch (hquiet ▸ hmem)
  · exact fun htorn => h.checked (hclean htorn)

theorem createUniqueIndex_keeps (hG : Lawful G) (hnull : NullApart G) (h : UniqueSessionOk x)
    {t index : Name} {expr : G.Expr} {asc : Option Bool}
    (hready : x.session.torn = false →
      (Request.createUniqueIndex t index expr asc).Ready x.session.conn.view) :
    KeepsUnique { x with session := x.session.step (.declareUnique t index) }
      (.createIndex t index expr asc) ((t, index) :: x.declared) := by
  have hdeclared := h.declareUnique hG t index fun htorn => (hready htorn).1
  intro htorn c hc hview
  have htorn0 : x.session.torn = false := by
    rw [← Bool.not_eq_true]
    intro htorn0
    have hopen := h.base.inside htorn0
    have hopen' : (Sql.step x.session.conn (.declareUnique t index)).txn.isSome = true := by
      rw [step_declareUnique]
      exact (buffered_write hopen _).isSome
    change (_ && (x.session.torn || _)) = false at htorn
    simp [htorn0, hopen'] at htorn
  have hstep : c.view = x.session.conn.view.write (.put (.uniqueidx t)
      (registered x.session.conn.view t index)) := by
    rw [hview]
    change (Sql.step x.session.conn (.declareUnique t index)).view = _
    rw [step_declareUnique, Conn.view_write]
  have hother : ∀ k, k ≠ .uniqueidx t → c.view.get k = x.session.conn.view.get k := by
    intro k hk
    rw [hstep]
    exact Kv.get_write_of_ne hk
  have hunique : index ∈ readUniqueIndexes c.view t := by
    rw [hstep, mem_registered]
    exact Or.inr rfl
  have hok : UniqueOk c.view x.declared := hview ▸ hdeclared.view htorn
  have hschema : readSchema c.view t = readSchema x.session.conn.view t :=
    hother (.schema t) (by simp)
  have hscan : scanData c.view t = scanData x.session.conn.view t := by
    have hid : resolveTableId c.view t = resolveTableId x.session.conn.view t :=
      hother (.tableid t) (by simp)
    have hcatalog : readCatalog c.view t = readCatalog x.session.conn.view t :=
      hother (.colcat t) (by simp)
    unfold scanData collectRows tableId
    rw [hid, hcatalog]
    cases resolveTableId x.session.conn.view t with
    | none => rfl
    | some id =>
      exact congrArg Except.ok (logicalRows_congr _ fun pk => hother (.row id pk) (by simp))
  have hquiet := (runStmt_quiet (.createIndex t index expr asc) rfl).holds c
  apply ((createUniqueIndexStmt_unique hnull hc hok expr asc hunique ?_).and hquiet).mono
  · intro _ c' ⟨hok', hq⟩
    refine ⟨hok'.still, fun ch hmem => Or.inl ?_⟩
    exact hq ▸ hmem
  · intro e c' ⟨_, hq⟩
    refine ⟨fun hrows => absurd hrows (by simp [Stmt.writesRows]), fun ch hmem => Or.inl ?_,
      fun he => absurd he hq.2⟩
    exact hq.1 ▸ hmem
  · rw [hschema, hscan]
    exact (hready htorn0).2

theorem createUniqueIndex (hG : Lawful G) (hnull : NullApart G) (h : UniqueSessionOk x)
    {t index : Name} {expr : G.Expr} {asc : Option Bool}
    (hadmits : x.Admits (.createUniqueIndex t index expr asc)) :
    UniqueSessionOk (x.step (.createUniqueIndex t index expr asc)) := by
  obtain ⟨⟨-, hexec, -⟩, hready⟩ := hadmits
  have hdeclared := h.declareUnique hG t index fun htorn => (hready htorn).1
  exact hdeclared.executed hG hexec (h.createUniqueIndex_keeps hG hnull hready)

theorem begin (hG : Lawful G) (h : UniqueSessionOk x) : UniqueSessionOk (x.step .begin) := by
  have hbase := h.base.step hG (show x.session.Admits .begin from trivial)
  have hstep : Sql.step x.session.conn .begin =
      if x.session.conn.txn.isSome then x.session.conn else x.session.conn.openTxn := rfl
  have hclean : (x.session.step .begin).torn = false → x.session.torn = false := by
    intro htorn
    rw [← Bool.not_eq_true]
    intro htorn0
    have hopen := h.base.inside htorn0
    rw [if_pos hopen] at hstep
    simp [Session.step, hstep, hopen, htorn0] at htorn
  have hview : (Sql.step x.session.conn .begin).view = x.session.conn.view := by
    rw [hstep]
    split_ifs with hc
    · rfl
    · rw [Conn.view, Conn.view, Option.not_isSome_iff_eq_none.mp hc]
      rfl
  have hlive : (Sql.step x.session.conn .begin).live = x.session.conn.live := by
    rw [hstep]
    split_ifs <;> rfl
  constructor
  · exact hbase
  · change UniqueOk (Sql.step x.session.conn .begin).live x.committed
    exact hlive.symm ▸ h.live
  · intro htorn
    change UniqueOk (Sql.step x.session.conn .begin).view x.declared
    exact hview.symm ▸ h.view (hclean htorn)
  · intro htorn ch hmem
    change ch ∈ stagedChecks (Sql.step x.session.conn .begin) at hmem
    rw [hstep] at hmem
    split_ifs at hmem with hc
    · exact h.staged (hclean htorn) ch hmem
    · exact absurd hmem List.not_mem_nil
  · exact fun htorn => h.checked (hclean htorn)

theorem commit (hG : Lawful G) (h : UniqueSessionOk x) (hadmits : x.session.Admits .commit) :
    UniqueSessionOk (x.step .commit) := by
  have hbase := h.base.step hG hadmits
  have hcommit := commit_checked (h.base.conn hadmits)
  unfold Holds at hcommit
  have hexec : execute .commit x.session.conn = Sql.commit x.session.conn := rfl
  have hboth : (x.session.step .commit).conn.txn = none ∧
      UniqueOk (x.session.step .commit).conn.live
        (if failure x.session.conn .commit = none then x.declared else x.committed) := by
    cases hresult : Sql.commit x.session.conn with
    | ok a c' =>
      rw [hresult] at hcommit
      obtain ⟨hconn, hfails⟩ := step_of_ok (hexec.trans hresult)
      rw [hconn, if_pos hfails, hcommit.1]
      exact ⟨hcommit.2, h.view hadmits⟩
    | error e c' =>
      rw [hresult] at hcommit
      obtain ⟨hconn, hfails⟩ := step_of_error (hexec.trans hresult)
      rw [hconn, if_neg (by simp [hfails]), hcommit.1.1]
      exact ⟨hcommit.1.2, h.live⟩
  exact of_closed hbase hboth.1 hboth.2

theorem step (hG : Lawful G) (hnull : NullApart G) (h : UniqueSessionOk x) {r : Request G}
    (hadmits : x.Admits r) : UniqueSessionOk (x.step r) := by
  cases r with
  | begin => exact h.begin hG
  | commit => exact h.commit hG hadmits.1.1
  | rollback =>
    apply of_closed (h.base.step hG (show x.session.Admits .rollback from trivial)) rfl
    exact h.live
  | exec stmt => exact h.executed hG hadmits.1.1 (h.keepsUnique hnull hadmits.1.1 hadmits.2)
  | createUniqueIndex t index expr asc => exact h.createUniqueIndex hG hnull hadmits

theorem run (hG : Lawful G) (hnull : NullApart G) (h : UniqueSessionOk x)
    {requests : List (Request G)} (hconforms : x.Conforms requests) :
    UniqueSessionOk (x.run requests) := by
  induction requests generalizing x with
  | nil => exact h
  | cons r requests ih => exact ih (h.step hG hnull hconforms.1) hconforms.2

end UniqueSessionOk

theorem uniqueSessionOk_init (strict : Bool) (now : ℤ) :
    UniqueSessionOk (UniqueSession.init strict now : UniqueSession G) :=
  UniqueSessionOk.of_closed (sessionOk_init strict now) rfl uniqueOk_empty

/-- The error of a request, if its last operation fails. -/
def Request.failure (c : Conn G) : Request G → Option (Error G)
  | .begin => Sql.failure c .begin
  | .commit => Sql.failure c .commit
  | .rollback => Sql.failure c .rollback
  | .exec stmt => Sql.failure c (.exec stmt)
  | .createUniqueIndex t index expr asc =>
    Sql.failure (Sql.step c (.declareUnique t index)) (.exec (.createIndex t index expr asc))

/-- The table a request stores rows in. -/
def Request.target : Request G → Option Name
  | .exec stmt => stmt.target
  | _ => none

structure UniqueSound (x : UniqueSession G) : Prop where
  committed : ∀ q ∈ x.committed, UniqueIndex x.session.conn.live q.1 q.2
  declared : x.session.torn = false → ∀ q ∈ x.declared, UniqueIndex x.session.conn.view q.1 q.2
  entry : x.session.torn = false → ∀ r, x.Admits r → ∀ value n,
    r.failure x.session.conn = some (.uniqueViolation (.duplicateEntry value n)) →
      ∃ t ∈ r.target, (t, n) ∈ x.declared
  commit : x.session.torn = false → ∀ r, x.Admits r → ∀ n t,
    r.failure x.session.conn = some (.uniqueViolation (.duplicateAtCommit n t)) →
      (t, n) ∈ x.checked

namespace UniqueSessionOk

variable {x : UniqueSession G} {stmt : Stmt G} {after : List (Name × Name)} {e : Error G}

theorem exec_failure (hG : Lawful G) (h : UniqueSessionOk x) (htorn : x.session.torn = false)
    (hadmits : x.session.Admits (.exec stmt)) (hkeeps : KeepsUnique x stmt after)
    (hfail : failure x.session.conn (.exec stmt) = some e) :
    (∀ n, e.IsDuplicateEntry n → ∃ t ∈ stmt.target, (t, n) ∈ x.declared) ∧
      ∀ n t, e = .uniqueViolation (.duplicateAtCommit n t) → (t, n) ∈ x.declared := by
  by_cases hc : x.session.conn.txn.isSome = true
  · have hexec : execute (.exec stmt) x.session.conn = runStmt stmt x.session.conn := by
      simp only [execute, executeStmt, hc, if_true]
    have hholds := hkeeps htorn x.session.conn ⟨h.base.conn htorn, hc⟩ rfl
    unfold Holds at hholds
    rw [failure, hexec] at hfail
    cases hresult : runStmt stmt x.session.conn with
    | ok a c' => simp [hresult] at hfail
    | error e' c' =>
      rw [hresult] at hholds
      obtain rfl : e' = e := by simpa [hresult] using hfail
      constructor
      · intro n hn
        obtain ⟨t, ht, n', hn', hmem⟩ := hholds.violation (isUniqueViolation_of_entry hn)
        obtain rfl := Error.isDuplicateEntry_unique hn' hn
        exact ⟨t, ht, hmem⟩
      · intro n t heq
        rw [heq] at hholds
        obtain ⟨t', _, n', hn', _⟩ := hholds.violation trivial
        exact absurd hn' not_false
  · have hholds := h.autocommit hG (Option.not_isSome_iff_eq_none.mp hc) hadmits hkeeps
    have hexec : execute (.exec stmt) x.session.conn = executeStmt stmt x.session.conn := rfl
    unfold Holds at hholds
    rw [failure, hexec] at hfail
    cases hresult : executeStmt stmt x.session.conn with
    | ok a c' => simp [hresult] at hfail
    | error e' c' =>
      rw [hresult] at hholds
      obtain rfl : e' = e := by simpa [hresult] using hfail
      exact hholds.2

theorem commit_failure (h : UniqueSessionOk x) (htorn : x.session.torn = false)
    (hfail : failure x.session.conn .commit = some e) :
    (∀ n, ¬e.IsDuplicateEntry n) ∧
      ∀ n t, e = .uniqueViolation (.duplicateAtCommit n t) → (t, n) ∈ x.checked := by
  have hcommit := commit_checked (h.base.conn htorn)
  have hexec : execute .commit x.session.conn = Sql.commit x.session.conn := rfl
  unfold Holds at hcommit
  rw [failure, hexec] at hfail
  cases hresult : Sql.commit x.session.conn with
  | ok a c' => simp [hresult] at hfail
  | error e' c' =>
    rw [hresult] at hcommit
    obtain rfl : e' = e := by simpa [hresult] using hfail
    refine ⟨hcommit.2.entry, fun n t heq => ?_⟩
    obtain ⟨ch, hch, rfl, rfl⟩ := hcommit.2.commit n t heq
    exact h.staged htorn ch hch

theorem request_failure (hG : Lawful G) (hnull : NullApart G) (h : UniqueSessionOk x)
    (htorn : x.session.torn = false) {r : Request G} (hadmits : x.Admits r)
    (hfail : r.failure x.session.conn = some e) :
    (∀ n, e.IsDuplicateEntry n → ∃ t ∈ r.target, (t, n) ∈ x.declared) ∧
      ∀ n t, e = .uniqueViolation (.duplicateAtCommit n t) → (t, n) ∈ x.checked := by
  cases r with
  | begin | rollback => cases hfail
  | commit =>
    obtain ⟨hentry, hcommit⟩ := h.commit_failure htorn hfail
    exact ⟨fun n hn => absurd hn (hentry n), hcommit⟩
  | exec stmt =>
    obtain ⟨hentry, hcommit⟩ := h.exec_failure hG htorn hadmits.1.1
      (h.keepsUnique hnull hadmits.1.1 hadmits.2) hfail
    exact ⟨hentry, fun n t heq => h.checked htorn _ (hcommit n t heq)⟩
  | createUniqueIndex t index expr asc =>
    obtain ⟨⟨-, hexec, -⟩, hready⟩ := hadmits
    have hdeclared := h.declareUnique hG t index fun htorn => (hready htorn).1
    have htorn' : (x.session.step (.declareUnique t index)).torn = false := by
      change (_ && (x.session.torn || false)) = false
      rw [htorn, Bool.or_false, Bool.and_false]
    obtain ⟨hentry, hcommit⟩ := hdeclared.exec_failure hG htorn' hexec
      (h.createUniqueIndex_keeps hG hnull hready) hfail
    refine ⟨fun n hn => ?_, fun n t heq => h.checked htorn _ (hcommit n t heq)⟩
    obtain ⟨t', ht', -⟩ := hentry n hn
    exact absurd ht' (by simp [Stmt.target])

theorem uniqueSound (hG : Lawful G) (hnull : NullApart G) (h : UniqueSessionOk x) :
    UniqueSound x := by
  constructor
  · exact fun q hq => h.live.uniqueIndex h.base.live.live hq
  · exact fun htorn q hq => (h.view htorn).uniqueIndex (h.base.conn htorn).view hq
  · intro htorn r hadmits value n hfail
    exact (h.request_failure hG hnull htorn hadmits hfail).1 n rfl
  · intro htorn r hadmits n t hfail
    exact (h.request_failure hG hnull htorn hadmits hfail).2 n t rfl

end UniqueSessionOk

/-- In every run that commits no torn transaction, gives no registered name to a plain
index, renames no table with a unique index and no indexed column, and creates unique
indexes over rows without a common value, the indexes created with UNIQUE are unique
and no others cause a violation. -/
theorem uniqueSound_run (hG : Lawful G) (hnull : NullApart G) (strict : Bool) (now : ℤ)
    (requests : List (Request G)) (hconforms : (UniqueSession.init strict now).Conforms requests) :
    UniqueSound ((UniqueSession.init strict now).run requests) :=
  ((uniqueSessionOk_init strict now).run hG hnull hconforms).uniqueSound hG hnull

namespace Ints

theorem nullApart : NullApart engine := by
  intro key b hnone hkey
  obtain rfl := Except.ok.inj hnone
  cases key with
  | none => rfl
  | i64 n =>
    have hbytes : toCmpBeBytes (.i64 n) = toCmpBeBytes .none := Except.ok.inj hkey
    simp [toCmpBeBytes] at hbytes

/-- `CREATE UNIQUE INDEX x ON t (a)`. -/
def createUnique : Request engine := .createUniqueIndex Ints.t x (Expr.column a) none

/-- A second row with the value 10 is refused, in the table and after a column is added. -/
def unique : List (Request engine) :=
  [.exec createTable, createUnique, .exec (insert [1, 10]), .exec (insert [2, 10]), .begin,
    .exec (addColumn 99), .exec (insert [2, 20, 30]), .exec (insert [3, 20, 30]), .rollback,
    .exec (insert [2, 20])]

/-- The table of a unique index is renamed, and gets two rows with the value 10. -/
def uniqueRenamed : List (Request engine) :=
  [.exec createTable, createUnique, .exec (.renameTable Ints.t u), .exec (.insert u [row [1, 10]]),
    .exec (.insert u [row [2, 10]])]

/-- The table is dropped and created again, with a plain index of the same name. -/
def uniqueDropped : List (Request engine) :=
  [.exec createTable, createUnique, .exec (.dropTable Ints.t), .exec createTable, .exec createIndex,
    .exec (insert [1, 10])]

end Ints

theorem uniqueSound_unique :
    UniqueSound ((UniqueSession.init false 0).run Ints.unique) ∧
      ((UniqueSession.init false 0).run Ints.unique).declared = [(Ints.t, Ints.x)] :=
  ⟨uniqueSound_run Ints.lawful Ints.nullApart false 0 Ints.unique (by decide +kernel),
    by decide +kernel⟩

/-- Under its new name the table has two rows with the value, and a plain index of a
dropped name refuses the second of them. -/
theorem unique_renamed_dropped :
    ¬UniqueSound ((UniqueSession.init false 0).run Ints.uniqueRenamed) ∧
      ¬UniqueSound ((UniqueSession.init false 0).run Ints.uniqueDropped) := by
  constructor
  · intro h
    have hmem : (Ints.u, Ints.x) ∈
        ((UniqueSession.init false 0).run Ints.uniqueRenamed).committed := by decide +kernel
    exact absurd (h.committed _ hmem) (by decide +kernel)
  · intro h
    have htorn : ((UniqueSession.init false 0).run Ints.uniqueDropped).session.torn = false := by
      decide +kernel
    have hfail : (Request.exec (Ints.insert [2, 10])).failure
        ((UniqueSession.init false 0).run Ints.uniqueDropped).session.conn =
          some (.uniqueViolation (.duplicateEntry "10" Ints.x)) := by decide +kernel
    obtain ⟨t', -, hmem⟩ := h.entry htorn (.exec (Ints.insert [2, 10]))
        (by decide +kernel) _ _ hfail
    have hnone : ((UniqueSession.init false 0).run Ints.uniqueDropped).declared = [] := by
      decide +kernel
    rw [hnone] at hmem
    exact absurd hmem List.not_mem_nil

end BlueDB.Sql
