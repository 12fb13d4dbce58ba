import BlueDB.Sql.Sessions
import BlueDB.Sql.UniqueIndexes

/-!
# Unique indexes and statements

Rows are stored with a check for each unique index, and no other statement stages
one. What a statement leaves of the declared indexes is unique, and a violation
is one of them, unless a plain index gets a registered name or a table with a
registered index a new one.
-/

namespace BlueDB.Sql

variable {G : Engine} {c c' c'' : Conn G} {t : Name} {schema : Schema G} {id : UInt64}
  {catalog : Option (ColumnCatalog G)} {declared : List (Name × Name)}

/-- The checks an open transaction has staged. -/
def stagedChecks (c : Conn G) : List (UniqueIndexCheck G) :=
  match c.txn with
  | some x => x.uniqueIndexChecks
  | none => []

/-- No check is staged, and a failure is no violation. -/
def Quiet (c c' : Conn G) : Prop := stagedChecks c' = stagedChecks c

def QuietFailure (e : Error G) (c c' : Conn G) : Prop := Quiet c c' ∧ ¬e.IsUniqueViolation

theorem tracks_quiet : Tracks Quiet (QuietFailure (G := G)) where
  refl _ := rfl
  trans h h' := h'.trans h
  fail h h' := ⟨h'.1.trans h, h'.2⟩

theorem quiet_write (w : Write (StorageKey.Value G)) : Quiet c (c.write w) := by
  unfold Quiet stagedChecks Conn.write
  cases c.txn <;> rfl

theorem quiet_except {α : Type} {x : Except (Error G) α} (hx : Plain x) :
    Along Quiet QuietFailure (ofExcept x) :=
  Along.ofExcept tracks_quiet fun e he _ => ⟨rfl, hx e he⟩

theorem removeEntries_quiet (t : Name) (pk : G.Key) (row : DataRow G.Value) :
    Along Quiet QuietFailure (applyIndexEntries t pk row false) := by
  unfold applyIndexEntries
  apply Along.bind tracks_quiet (Along.get tracks_quiet)
  intro c
  dsimp only
  split_ifs with hnil
  · exact Along.pure tracks_quiet _
  · apply Along.bind tracks_quiet (quiet_except (tableId_plain _ _))
    intro id
    apply Along.forM tracks_quiet
    intro index _
    unfold applyIndexEntry
    apply Along.bind tracks_quiet (quiet_except (indexValue_plain _ _ _))
    intro value
    apply Along.bind tracks_quiet
    · have hnone : ¬(index.name ∈ (if false = true then readUniqueIndexes c.view t else []) ∧
          value ≠ G.noneKey) := by simp
      unfold checkUnique
      rw [if_neg hnone]
      exact Along.pure tracks_quiet _
    · intro _
      apply Along.bind tracks_quiet (quiet_except (keyBytes_plain _))
      intro valueBytes
      apply Along.bind tracks_quiet (quiet_except (keyBytes_plain _))
      intro pkBytes
      rw [if_neg (by simp)]
      exact Along.modify fun _ => quiet_write _

theorem forgetUniqueIndex_quiet (t index : Name) :
    Along Quiet QuietFailure (forgetUniqueIndex t index : Exec G Unit) := by
  unfold forgetUniqueIndex
  apply Along.bind tracks_quiet (Along.get tracks_quiet)
  intro c
  dsimp only
  split_ifs with hunique
  · exact Along.modify fun _ => quiet_write _
  · exact Along.pure tracks_quiet _

theorem allocateKeys_quiet (t : Name) (count : ℕ) :
    Along Quiet QuietFailure (allocateKeys t count : Exec G ℤ) := by
  unfold allocateKeys
  apply Along.bind tracks_quiet (Along.get tracks_quiet)
  intro c
  apply Along.bind tracks_quiet (quiet_except (tableId_plain _ _))
  intro id
  dsimp only
  split_ifs with hlimit
  · apply Along.bind tracks_quiet
    · apply Along.modify
      exact fun _ => rfl
    · intro _
      exact Along.pure tracks_quiet _
  · exact Along.throw fun _ => ⟨rfl, not_false⟩

theorem stageUniqueCheck_quiet (k : StorageKey) :
    Along Quiet QuietFailure (stageUniqueCheck k : Exec G Unit) := by
  apply Along.modify
  intro c
  unfold Quiet stagedChecks
  cases c.txn <;> rfl

theorem stepwise_quiet : Stepwise (fun _ => False) Quiet (QuietFailure (G := G)) where
  tracks := tracks_quiet
  write _ w _ := quiet_write w
  forget := forgetUniqueIndex_quiet
  entries t pk row insert hinsert := by
    cases insert with
    | true => exact (hinsert rfl).elim
    | false => exact removeEntries_quiet t pk row
  stage := stageUniqueCheck_quiet
  allocate := allocateKeys_quiet
  error _ _ he := ⟨rfl, he⟩

/-- A statement that stores no row stages no check and fails with no violation. -/
theorem runStmt_quiet (stmt : Stmt G) (ht : stmt.target = none) :
    Along Quiet QuietFailure (runStmt stmt) := by
  apply runStmt_along stepwise_quiet
  rw [ht]
  simp

def OfDeclared (declared : List (Name × Name)) (ch : UniqueIndexCheck G) : Prop :=
  (ch.tableName, ch.indexName) ∈ declared

theorem Enforced.rowCheck {s : Store G} (h : Enforced s t schema id catalog declared) {key : G.Key}
    {row : DataRow G.Value} {ch : UniqueIndexCheck G}
    (hch : RowCheck schema (readUniqueIndexes s t) t id key row ch) : OfDeclared declared ch := by
  obtain ⟨n, value, v, ⟨i, hi, hname, hunique, -⟩, -, rfl⟩ := hch
  apply (h.ok.registry t n _).mp hunique
  rw [indexNames_eq h.table.schema]
  exact List.mem_map.mpr ⟨i, hi, hname⟩

/-- A transaction in which the rows stored since `c` have been checked. -/
structure Storing (c c' : Conn G) (t : Name) (schema : Schema G) (id : UInt64)
    (catalog : Option (ColumnCatalog G)) (declared : List (Name × Name)) : Prop where
  enforced : Enforced c'.view t schema id catalog declared
  staged : StagesSome c c' (OfDeclared declared)

theorem StagesSome.isSome {checks : UniqueIndexCheck G → Prop} (h : StagesSome c c' checks) :
    c'.txn.isSome = true := by
  obtain ⟨-, -, x, hx, -⟩ := h
  rw [Option.mem_def.mp hx]
  rfl

/-- A failed write of a row: the checks so far are of declared indexes, and so is a violation. -/
structure StoreFailed (c c' : Conn G) (t : Name) (declared : List (Name × Name)) (e : Error G) :
    Prop where
  staged : StagesSome c c' (OfDeclared declared)
  violation : e.IsUniqueViolation → ∃ n, e.IsDuplicateEntry n ∧ (t, n) ∈ declared

theorem StoreFailed.of_error (hc : c.txn.isSome = true) {e : Error G}
    (he : ¬e.IsUniqueViolation) : StoreFailed c c t declared e :=
  ⟨StagesSome.refl hc _, fun h => absurd h he⟩

theorem Storing.failed (h : Storing c c' t schema id catalog declared) {key : G.Key}
    {row : DataRow G.Value} {e : Error G}
    (hfailed : RowFailed c' c'' (RowCheck schema (readUniqueIndexes c'.view t) t id key row) e) :
    StoreFailed c c'' t declared e := by
  constructor
  · apply (h.staged.trans hfailed.staged).mono
    intro ch hch
    exact hch.elim (fun hch => hch) h.enforced.rowCheck
  · intro he
    obtain ⟨ch, hch, hnamed⟩ := hfailed.violation he
    have hdeclared : (ch.tableName, ch.indexName) ∈ declared := h.enforced.rowCheck hch
    obtain ⟨n, value, v, _, _, rfl⟩ := hch
    exact ⟨n, hnamed, hdeclared⟩

theorem Storing.put (hnull : NullApart G) (h : Storing c c' t schema id catalog declared)
    {p : List UInt8} {key : G.Key} {row : DataRow G.Value} {keys : StorageKey → Prop}
    (hput : RowPut c'.view c''.view schema id catalog (readUniqueIndexes c'.view t) p key row)
    (hstages : Stages c' c'' keys (RowCheck schema (readUniqueIndexes c'.view t) t id key row)) :
    Storing c c'' t schema id catalog declared := by
  constructor
  · exact hput.enforced hnull h.enforced
  · apply (h.staged.trans hstages.some).mono
    intro ch hch
    exact hch.elim (fun hch => hch) h.enforced.rowCheck

theorem Storing.insertRow (hnull : NullApart G) (h : Storing c c' t schema id catalog declared)
    (key : G.Key) (row : DataRow G.Value) :
    Holds (insertRow t id catalog key row) c'
      (fun _ c'' => Storing c c'' t schema id catalog declared)
      (fun e c'' => StoreFailed c c'' t declared e) := by
  apply (insertRow_put h.staged.isSome h.enforced.table rfl).mono
  · intro _ c1 ⟨p, hput, hstages⟩
    exact h.put hnull hput hstages
  · intro e c1 hfailed
    exact h.failed hfailed

theorem Storing.appendRow (hnull : NullApart G) (h : Storing c c' t schema id catalog declared)
    (m : ℤ) (row : DataRow G.Value) :
    Holds (appendRow t id catalog m row) c'
      (fun _ c'' => Storing c c'' t schema id catalog declared)
      (fun e c'' => StoreFailed c c'' t declared e) := by
  apply (appendRow_put h.staged.isSome h.enforced.table rfl).mono
  · intro _ c1 ⟨p, hput, hstages⟩
    exact h.put hnull hput hstages
  · intro e c1 hfailed
    exact h.failed hfailed

theorem Storing.start (h : InTxn c) (hok : UniqueOk c.view declared)
    (hat : TableAt c.view t schema id catalog) : Storing c c t schema id catalog declared :=
  ⟨h.ok.view.enforced hok hat, StagesSome.refl h.txn _⟩

theorem insertStmt_unique (hnull : NullApart G) (h : InTxn c) (hok : UniqueOk c.view declared)
    (rows : List (DataRow G.Value)) :
    Holds (insertStmt t rows) c
      (fun _ c' => UniqueOk c'.view declared ∧ StagesSome c c' (OfDeclared declared))
      (fun e c' => StoreFailed c c' t declared e) := by
  cases hschema : readSchema c.view t with
  | none =>
    unfold insertStmt getSchema
    rw [Holds.bind_iff, Holds.get_iff]
    dsimp only
    rw [hschema]
    exact StoreFailed.of_error h.txn not_false
  | some schema =>
    obtain ⟨id, hat⟩ := h.ok.view.tableAt hschema
    have hstart := Storing.start h hok hat
    apply (insertStmt_rule (J := fun _ c' => Storing c c' t schema id _ declared) hat
      (fun seq => ⟨hstart.enforced, hstart.staged⟩)
      (fun _ key row c' _ h' => h'.insertRow hnull key row)
      (fun _ m row c' _ h' => h'.appendRow hnull m row)
      (fun _ he => StoreFailed.of_error h.txn he)).mono
    · intro _ c' h'
      exact ⟨h'.enforced.ok, h'.staged⟩
    · exact fun _ _ h' => h'

theorem updateStmt_unique (hnull : NullApart G) (h : InTxn c) (hok : UniqueOk c.view declared)
    (assign : G.Key × DataRow G.Value → Option (DataRow G.Value)) :
    Holds (updateStmt t assign) c
      (fun _ c' => UniqueOk c'.view declared ∧ StagesSome c c' (OfDeclared declared))
      (fun e c' => StoreFailed c c' t declared e) := by
  cases hschema : readSchema c.view t with
  | none =>
    unfold updateStmt getSchema
    rw [Holds.bind_iff, Holds.get_iff]
    dsimp only
    rw [hschema]
    exact StoreFailed.of_error h.txn not_false
  | some schema =>
    obtain ⟨id, hat⟩ := h.ok.view.tableAt hschema
    apply (updateStmt_rule (J := fun _ c' => Storing c c' t schema id _ declared) hat
      (Storing.start h hok hat) (fun _ key row c' _ h' => h'.insertRow hnull key row)
      (fun _ he => StoreFailed.of_error h.txn he)).mono
    · intro _ c' h'
      exact ⟨h'.enforced.ok, h'.staged⟩
    · exact fun _ _ h' => h'

theorem UniqueOk.stillListed_eq {s : Store G} (h : UniqueOk s declared) :
    stillListed s declared = declared := by
  rw [stillListed, List.filter_eq_self]
  exact fun q hq => decide_eq_true (h.listed q hq)

theorem UniqueOk.still {s : Store G} (h : UniqueOk s declared) :
    UniqueOk s (stillListed s declared) := h.stillListed_eq.symm ▸ h

theorem deleteStmt_shrinks (h : InTxn c) (selects : G.Key × DataRow G.Value → Bool) :
    Holds (deleteStmt t selects) c (fun _ c' => Shrinks c.view c'.view)
      (fun _ c' => Shrinks c.view c'.view) := by
  cases hschema : readSchema c.view t with
  | none =>
    unfold deleteStmt getSchema
    rw [Holds.bind_iff, Holds.get_iff]
    dsimp only
    rw [hschema]
    exact Shrinks.refl c.view
  | some schema =>
    obtain ⟨id, hat⟩ := h.connAt hschema
    have hstep : ∀ (done : List G.Key) key c',
        (ConnAt c' t schema id (readCatalog c.view t) ∧ Shrinks c.view c'.view) →
        Holds (deleteRow t id (readCatalog c.view t) key) c'
          (fun _ c'' => ConnAt c'' t schema id (readCatalog c.view t) ∧ Shrinks c.view c''.view)
          (fun _ c'' => Shrinks c.view c''.view) := by
      intro _ key c' ⟨hat', hshrinks⟩
      apply ((deleteRow_gone hat'.txn hat'.table).and hat'.deleteRow_holds).mono
      · intro _ c'' ⟨⟨p, _, hgone, _⟩, hat''⟩
        exact ⟨hat'', hshrinks.trans hgone.shrinks⟩
      · intro e c'' ⟨_, hsame, _⟩
        exact hsame ▸ hshrinks
    apply (deleteStmt_rule hat.table ⟨hat, Shrinks.refl _⟩ hstep
      (fun _ _ => Shrinks.refl _)).mono
    · exact fun _ _ h' => h'.2
    · exact fun _ _ h' => h'

theorem dropIndexes_shrinks (indexes : List (SchemaIndex G)) (h : InTxn c) :
    Holds (indexes.forM fun i => dropIndex t i.name) c
      (fun _ c' => InTxn c' ∧ Shrinks c.view c'.view)
      (fun _ c' => InTxn c' ∧ Shrinks c.view c'.view) := by
  apply Holds.forM (fun c' => InTxn c' ∧ Shrinks c.view c'.view) indexes ⟨h, Shrinks.refl _⟩
  intro i _ c1 ⟨h1, hshrinks⟩
  apply ((dropIndex_forgotten h1.txn h1.ok.view.named i.name).and (dropIndex_holds h1 i.name)).mono
  · intro _ c2 ⟨⟨schema, id, hforgotten, _⟩, h2⟩
    exact ⟨h2, hshrinks.trans hforgotten.shrinks⟩
  · intro e c2 ⟨hsame, _⟩
    exact hsame ▸ ⟨h1, hshrinks⟩

theorem dropColumnStmt_shrinks (h : InTxn c) (column : Name) (ifExists : Bool) :
    Holds (dropColumnStmt t column ifExists) c (fun _ c' => Shrinks c.view c'.view)
      (fun _ c' => Shrinks c.view c'.view) := by
  unfold dropColumnStmt
  rw [Holds.bind_iff, Holds.get_iff, Holds.bind_iff]
  apply (dropIndexes_shrinks _ h).mono
  · intro _ c1 ⟨h1, hshrinks⟩
    apply (dropColumn_dropped h1.txn h1.ok.view.named column ifExists).mono
    · intro _ c2 hcases
      rcases hcases with ⟨hsame, -⟩ | ⟨schema, columns, i, d, hdropped, -⟩
      · exact hsame ▸ hshrinks
      · exact hshrinks.trans (hdropped.altered.shrinks hdropped.before rfl)
    · exact fun _ _ hsame => hsame ▸ hshrinks
  · exact fun _ _ h' => h'.2

/-- Statements that take indexes away or leave them alone. -/
def Stmt.shrinking : Stmt G → Bool
  | .createIndex _ _ _ _ => false
  | .renameTable _ _ => false
  | .insert _ _ => false
  | .update _ _ => false
  | _ => true

theorem runStmt_shrinks (h : InTxn c) (stmt : Stmt G) (hstmt : stmt.shrinking = true) :
    Holds (runStmt stmt) c (fun _ c' => Shrinks c.view c'.view)
      (fun _ c' => Shrinks c.view c'.view) := by
  have hsame : ∀ (e : Error G) (c' : Conn G), c' = c → Shrinks c.view c'.view :=
    fun _ _ heq => heq ▸ Shrinks.refl _
  cases stmt with
  | createTable t columns =>
    apply (createTableStmt_created h columns).mono
    · intro _ c' ⟨_, ws, next, hcreated, _⟩
      exact hcreated.shrinks rfl
    · exact hsame
  | dropTable t =>
    apply (dropTableStmt_dropped h).mono
    · intro _ c' ⟨schema, id, ws, hat, hdropped, _⟩
      exact hdropped.shrinks
    · exact hsame
  | delete t selects => exact deleteStmt_shrinks h selects
  | dropIndex t index =>
    apply (dropIndex_forgotten h.txn h.ok.view.named index).mono
    · intro _ c' ⟨schema, id, hforgotten, _⟩
      exact hforgotten.shrinks
    · exact hsame
  | addColumn t column =>
    apply (addColumn_added h.txn h.ok.view.named column).mono
    · intro _ c' ⟨schema, columns, default, hadded, _⟩
      exact hadded.altered.shrinks hadded.before rfl
    · exact hsame
  | dropColumn t column ifExists => exact dropColumnStmt_shrinks h column ifExists
  | renameColumn t old new =>
    apply (renameColumn_renamed h.txn h.ok.view.named old new).mono
    · intro _ c' ⟨schema, columns, hrenamed, _⟩
      exact hrenamed.altered.shrinks hrenamed.before rfl
    · exact hsame
  | insert _ _ | update _ _ | createIndex _ _ _ _ | renameTable _ _ =>
    exact absurd hstmt (by simp [Stmt.shrinking])

/-- The indexes declared unique after a statement that returns, unless they are gone. -/
def Stmt.moves (declared : List (Name × Name)) : Stmt G → List (Name × Name)
  | .renameTable t new => declared.map fun q => if q.1 = t then (new, q.2) else q
  | _ => declared

/-- A plain index gets a name that is not registered, and a table under a new name
has no index that is registered under either name. -/
def Stmt.KeepsRegistry (s : Store G) : Stmt G → Prop
  | .createIndex t index _ _ => (readSchema s t).isSome = true → index ∉ indexNames s t →
      index ∉ readUniqueIndexes s t
  | .renameTable t new => ∀ n ∈ indexNames s t,
      n ∉ readUniqueIndexes s t ∧ n ∉ readUniqueIndexes s new
  | _ => True

instance Stmt.decidableKeepsRegistry (s : Store G) : (stmt : Stmt G) →
    Decidable (stmt.KeepsRegistry s)
  | .createTable _ _ | .dropTable _ | .insert _ _ | .update _ _ | .delete _ _ => isTrue trivial
  | .createIndex t index _ _ => inferInstanceAs (Decidable ((readSchema s t).isSome = true →
      index ∉ indexNames s t → index ∉ readUniqueIndexes s t))
  | .dropIndex _ _ | .addColumn _ _ | .dropColumn _ _ _ | .renameColumn _ _ _ => isTrue trivial
  | .renameTable t new => inferInstanceAs (Decidable (∀ n ∈ indexNames s t,
      n ∉ readUniqueIndexes s t ∧ n ∉ readUniqueIndexes s new))

/-- A statement keeps the declared indexes unique, and checks and violates no others. -/
structure Declared (c c' : Conn G) (declared after : List (Name × Name)) : Prop where
  ok : UniqueOk c'.view (stillListed c'.view after)
  staged : ∀ ch ∈ stagedChecks c', ch ∈ stagedChecks c ∨ OfDeclared declared ch

/-- What a failed statement leaves behind. -/
structure DeclaredFailed (c c' : Conn G) (stmt : Stmt G) (declared : List (Name × Name))
    (e : Error G) : Prop where
  ok : stmt.writesRows = false → UniqueOk c'.view (stillListed c'.view declared)
  staged : ∀ ch ∈ stagedChecks c', ch ∈ stagedChecks c ∨ OfDeclared declared ch
  violation : e.IsUniqueViolation →
    ∃ t ∈ stmt.target, ∃ n, e.IsDuplicateEntry n ∧ (t, n) ∈ declared

theorem StagesSome.stagedChecks (h : StagesSome c c' (OfDeclared declared)) :
    ∀ ch ∈ stagedChecks c', ch ∈ stagedChecks c ∨ OfDeclared declared ch := by
  obtain ⟨x, hx, x', hx', hch⟩ := h
  intro ch hmem
  simp only [Sql.stagedChecks, Option.mem_def.mp hx, Option.mem_def.mp hx'] at hmem ⊢
  exact hch ch hmem

theorem createIndexStmt_unique (h : InTxn c) (hok : UniqueOk c.view declared) {index : Name}
    (expr : G.Expr) (asc : Option Bool)
    (hplain : Stmt.KeepsRegistry c.view (.createIndex t index expr asc)) :
    Holds (createIndexStmt t index expr asc) c (fun _ c' => UniqueOk c'.view declared)
      (fun _ _ => True) := by
  apply (createIndexStmt_indexed h.txn index expr asc).mono
  · intro _ c' ⟨schema, id, i, entries, hi, hbatch, hbuf⟩
    have hadded := hbatch.added h.ok.view
    rw [← hbuf.view] at hadded
    subst i
    apply hadded.uniqueOk_plain _ hok
    · apply hplain
      · rw [hbatch.table.schema]
        rfl
      · exact hadded.fresh
    · exact fun t' hid => h.ok.view.ids_inj t' t id hid hbatch.table.id
  · exact fun _ _ _ => trivial

theorem renameTable_unique (h : InTxn c) (hok : UniqueOk c.view declared) {new : Name}
    (hsound : Stmt.Sound c.view (.renameTable t new))
    (hregistry : Stmt.KeepsRegistry c.view (.renameTable t new)) :
    Holds (renameSchema t new) c
      (fun _ c' => UniqueOk c'.view (Stmt.moves declared (.renameTable t new : Stmt G)))
      (fun _ c' => c' = c) := by
  apply (renameSchema_renamed h hsound).mono
  · intro _ c' ⟨schema, id, ws, hat, hrenamed, _⟩
    obtain ⟨hok', hne⟩ := hrenamed.uniqueOk hat h.ok.view hok hregistry
    have hmoves : Stmt.moves declared (.renameTable t new : Stmt G) = declared := by
      change declared.map _ = declared
      rw [List.map_congr_left fun q hq => if_neg (hne q hq), List.map_id']
    rw [hmoves]
    exact hok'
  · exact fun _ _ hsame => hsame

theorem runStmt_unique (hnull : NullApart G) (h : InTxn c)
    (hok : UniqueOk c.view declared) (stmt : Stmt G) (hsound : stmt.Sound c.view)
    (hregistry : stmt.KeepsRegistry c.view) :
    Holds (runStmt stmt) c (fun _ c' => Declared c c' declared (stmt.moves declared))
      (fun e c' => DeclaredFailed c c' stmt declared e) := by
  have hquiet := fun ht => (runStmt_quiet stmt ht).holds c
  have hstaged : ∀ {c' : Conn G}, Quiet c c' → ∀ ch ∈ stagedChecks c',
      ch ∈ stagedChecks c ∨ OfDeclared declared ch := by
    intro c' hquiet ch hmem
    exact Or.inl (hquiet ▸ hmem)
  by_cases hshrinking : stmt.shrinking = true
  · have ht : stmt.target = none := by
      cases stmt <;> first | rfl | exact absurd hshrinking (by simp [Stmt.shrinking])
    have hmoves : stmt.moves declared = declared := by
      cases stmt <;> first | rfl | exact absurd hshrinking (by simp [Stmt.shrinking])
    rw [hmoves]
    apply ((runStmt_shrinks h stmt hshrinking).and (hquiet ht)).mono
    · rintro _ c' ⟨hshrinks, hq⟩
      exact ⟨hok.shrinks hshrinks, hstaged hq⟩
    · rintro e c' ⟨hshrinks, hq⟩
      exact ⟨fun _ => hok.shrinks hshrinks, hstaged hq.1, fun he => absurd he hq.2⟩
  · cases stmt with
    | insert t rows =>
      apply (insertStmt_unique hnull h hok rows).mono
      · rintro _ c' ⟨hok', hstages⟩
        exact ⟨hok'.still, hstages.stagedChecks⟩
      · intro e c' hfailed
        refine ⟨fun hrows => absurd hrows (by simp [Stmt.writesRows]),
          hfailed.staged.stagedChecks, fun he => ⟨t, rfl, hfailed.violation he⟩⟩
    | update t assign =>
      apply (updateStmt_unique hnull h hok assign).mono
      · rintro _ c' ⟨hok', hstages⟩
        exact ⟨hok'.still, hstages.stagedChecks⟩
      · intro e c' hfailed
        refine ⟨fun hrows => absurd hrows (by simp [Stmt.writesRows]),
          hfailed.staged.stagedChecks, fun he => ⟨t, rfl, hfailed.violation he⟩⟩
    | createIndex t index expr asc =>
      apply ((createIndexStmt_unique h hok expr asc hregistry).and (hquiet rfl)).mono
      · rintro _ c' ⟨hok', hq⟩
        exact ⟨hok'.still, hstaged hq⟩
      · rintro e c' ⟨_, hq⟩
        exact ⟨fun hrows => absurd hrows (by simp [Stmt.writesRows]), hstaged hq.1,
          fun he => absurd he hq.2⟩
    | renameTable t new =>
      apply ((renameTable_unique h hok hsound hregistry).and (hquiet rfl)).mono
      · rintro _ c' ⟨hok', hq⟩
        exact ⟨hok'.still, hstaged hq⟩
      · rintro e c' ⟨hsame, hq⟩
        exact ⟨fun _ => hsame ▸ hok.still, hstaged hq.1, fun he => absurd he hq.2⟩
    | createTable _ _ | dropTable _ | delete _ _ | dropIndex _ _ | addColumn _ _ | dropColumn _ _ _
    | renameColumn _ _ _ => exact absurd rfl hshrinking

theorem createUniqueIndexStmt_unique (hnull : NullApart G) (h : InTxn c)
    (hok : UniqueOk c.view declared) {index : Name} (expr : G.Expr) (asc : Option Bool)
    (hunique : index ∈ readUniqueIndexes c.view t)
    (hrows : ∀ schema ∈ readSchema c.view t, ∀ rows ∈ (scanData c.view t).toOption,
      indexExprOk schema expr = true →
        Unrepeated ⟨index, expr, .both⟩ (evalColumns schema) rows) :
    Holds (createIndexStmt t index expr asc) c
      (fun _ c' => UniqueOk c'.view ((t, index) :: declared)) (fun _ _ => True) := by
  apply (createIndexStmt_indexed h.txn index expr asc).mono
  · intro _ c' ⟨schema, id, i, entries, hi, hbatch, hbuf⟩
    have hadded := hbatch.added h.ok.view
    rw [← hbuf.view] at hadded
    have hexpr := hbatch.expr
    subst i
    apply hadded.uniqueOk_unique (fun t' hid => h.ok.view.ids_inj t' t id hid hbatch.table.id) hok
    · exact hunique
    · apply hadded.entriesDistinct hnull
      apply hrows schema hbatch.table.schema _ _ hexpr
      rw [scanData_eq hbatch.table]
      rfl
  · exact fun _ _ _ => trivial

end BlueDB.Sql
