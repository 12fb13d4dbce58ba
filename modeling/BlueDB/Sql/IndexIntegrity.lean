import BlueDB.Sql.Sessions

/-!
# Index entries over whole runs

In every run whose steps are sound the entries of an index are its values on the
rows a full scan returns, and no others are stored. A statement that fails with
an evaluation error fails over one of its own new rows.
-/

namespace BlueDB.Sql

variable {G : Engine} {c c' : Conn G} {s : Store G} {t : Name}

/-- The entries under a table and an index are the values of the index on the
rows of the table, and there are no entries beside them. -/
structure IndexesMatchRows (s : Store G) : Prop where
  entries : ∀ t schema, readSchema s t = some schema → ∃ id rows,
    resolveTableId s t = some id ∧ scanData s t = .ok rows ∧ ∀ i ∈ schema.indexes,
      (∀ q ∈ rows, ∃ v, indexBytes (evalColumns schema) q.2 i = .ok v) ∧
      ∀ v p k, readEntry s id i.name v p = some k ↔ ∃ row, (k, row) ∈ rows ∧
        indexBytes (evalColumns schema) row i = .ok v ∧ keyBytes k = .ok p
  columns : ∀ t schema, readSchema s t = some schema → ∀ i ∈ schema.indexes,
    ∀ column ∈ G.mentions i.expr, column ∈ schemaColumns schema
  unlisted : ∀ t schema id n, readSchema s t = some schema → resolveTableId s t = some id →
    n ∉ schema.indexes.map SchemaIndex.name → ∀ v p, readEntry s id n v p = none
  orphaned : ∀ id, (∀ t, resolveTableId s t ≠ some id) → ∀ n v p, readEntry s id n v p = none

theorem indexed_iff {schema : Schema G} (hnodup : (schema.indexes.map SchemaIndex.name).Nodup)
    {i : SchemaIndex G} (hi : i ∈ schema.indexes) {row : DataRow G.Value} {v : List UInt8} :
    Indexed schema row i.name v ↔ indexBytes (evalColumns schema) row i = .ok v := by
  constructor
  · intro ⟨j, hj, hname, hv⟩
    rw [← List.inj_on_of_nodup_map hnodup hj hi hname]
    exact hv
  · intro hv
    exact ⟨i, hi, rfl, hv⟩

theorem Integrity.indexesMatchRows (h : Integrity s) : IndexesMatchRows s := by
  constructor
  · intro t schema hschema
    obtain ⟨id, hat⟩ := h.tableAt hschema
    have hok := h.tableOk hat
    refine ⟨id, _, hat.id, scanData_eq hat, fun i hi => ⟨?_, ?_⟩⟩
    · intro q hq
      obtain ⟨p, st, hst, rfl⟩ := mem_logicalRows_scanTable.mp hq
      exact (hok.row p st hst).evaluable i hi
    · intro v p k
      rw [hok.entry]
      constructor
      · intro ⟨st, hst, hk, hindexed⟩
        refine ⟨_, mem_logicalRows_scanTable.mpr ⟨p, st, hst, Prod.ext hk rfl⟩, ?_, ?_⟩
        · exact (indexed_iff hok.indexes_nodup hi).mp hindexed
        · exact hk ▸ (hok.row p st hst).key
      · intro ⟨row, hmem, hv, hp⟩
        obtain ⟨p', st, hst, heq⟩ := mem_logicalRows_scanTable.mp hmem
        obtain ⟨rfl, rfl⟩ := Prod.mk.inj heq
        obtain rfl : p' = p := Except.ok.inj ((hok.row p' st hst).key.symm.trans hp)
        exact ⟨st, hst, rfl, (indexed_iff hok.indexes_nodup hi).mpr hv⟩
  · intro t schema hschema i hi
    obtain ⟨id, hat⟩ := h.tableAt hschema
    exact fun column hcolumn => mentions_subset ((h.tableOk hat).exprs i hi) column hcolumn
  · intro t schema id n hschema hid hn v p
    have hok := h.tableOk ⟨hschema, hid, rfl⟩
    rw [Option.eq_none_iff_forall_ne_some]
    intro k hk
    obtain ⟨st, -, -, i, hi, hname, -⟩ := (hok.entry n v p k).mp hk
    exact hn (List.mem_map.mpr ⟨i, hi, hname⟩)
  · exact fun id hdead => (h.dead id hdead).2

/-- An INSERT or an UPDATE fails with an evaluation error only where an index of
the table has no value on one of its new rows; a DELETE never does. -/
structure DmlSound (c : Conn G) : Prop where
  insert : ∀ t rows e, failure c (.exec (.insert t rows)) = some e → e.IsIndexEval →
    ∃ schema, readSchema c.view t = some schema ∧ ∃ row ∈ rows, RowFails schema row e
  update : ∀ t assign e, failure c (.exec (.update t assign)) = some e → e.IsIndexEval →
    ∃ schema, readSchema c.view t = some schema ∧ ∃ rows, scanData c.view t = .ok rows ∧
      ∃ q ∈ rows, ∃ row, assign q = some row ∧ RowFails schema row e
  delete : ∀ t selects e, failure c (.exec (.delete t selects)) = some e → ¬e.IsIndexEval

/-- An evaluation error comes from the statement, not from its commit. -/
theorem ConnOk.runStmt_error (hG : Lawful G) (h : ConnOk c) {stmt : Stmt G}
    (hsound : stmt.Sound c.view) {e : Error G} (hfail : failure c (.exec stmt) = some e)
    (heval : e.IsIndexEval) :
    ∃ c0 c1, InTxn c0 ∧ c0.view = c.view ∧ runStmt stmt c0 = .error e c1 := by
  by_cases hc : c.txn.isSome = true
  · have hexec : execute (.exec stmt) c = runStmt stmt c := by
      simp only [execute, executeStmt, hc, if_true]
    rw [failure, hexec] at hfail
    cases hresult : runStmt stmt c with
    | ok a c1 => simp [hresult] at hfail
    | error e' c1 =>
      rw [hresult, Option.some.injEq] at hfail
      exact ⟨c, c1, ⟨h, hc⟩, rfl, hfail ▸ hresult⟩
  · have hview : c.openTxn.view = c.view := by
      simp [Conn.view, Option.not_isSome_iff_eq_none.mp hc, Conn.openTxn]
    simp only [failure, execute, executeStmt, hc] at hfail
    have hrun := runStmt_holds hG h.liveOk.openTxn stmt (hview ▸ hsound)
    unfold Holds at hrun
    cases hresult : runStmt stmt c.openTxn with
    | ok a c1 =>
      rw [hresult] at hrun
      have hcommit := commit_holds hrun.ok
      unfold Holds at hcommit
      cases hc1 : commit c1 with
      | ok b c2 => simp [hresult, hc1] at hfail
      | error e' c2 =>
        rw [hc1] at hcommit
        obtain rfl : e' = e := by simpa [hresult, hc1] using hfail
        exact absurd heval hcommit.2
    | error e' c1 =>
      obtain rfl : e' = e := by simpa [hresult] using hfail
      exact ⟨c.openTxn, c1, h.liveOk.openTxn, hview, hresult⟩

theorem ConnOk.dmlSound (hG : Lawful G) (h : ConnOk c) : DmlSound c := by
  constructor
  · intro t rows e hfail heval
    obtain ⟨c0, c1, hc0, hview, hrun⟩ := h.runStmt_error hG
      (show Stmt.Sound c.view (.insert t rows) from trivial) hfail heval
    have hholds := insertStmt_holds (t := t) hG hc0 rows
    unfold Holds at hholds
    change insertStmt t rows c0 = .error e c1 at hrun
    rw [hrun] at hholds
    rw [← hview]
    exact hholds heval
  · intro t assign e hfail heval
    obtain ⟨c0, c1, hc0, hview, hrun⟩ := h.runStmt_error hG
      (show Stmt.Sound c.view (.update t assign) from trivial) hfail heval
    have hholds := updateStmt_holds (t := t) hc0 assign
    unfold Holds at hholds
    change updateStmt t assign c0 = .error e c1 at hrun
    rw [hrun] at hholds
    rw [← hview]
    exact hholds heval
  · intro t selects e hfail heval
    obtain ⟨c0, c1, hc0, -, hrun⟩ := h.runStmt_error hG
      (show Stmt.Sound c.view (.delete t selects) from trivial) hfail heval
    have hholds := deleteStmt_holds (t := t) hc0 selects
    unfold Holds at hholds
    change deleteStmt t selects c0 = .error e c1 at hrun
    rw [hrun] at hholds
    exact hholds.2 heval

end BlueDB.Sql
