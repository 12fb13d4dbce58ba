import BlueDB.Sql.IndexIntegrity
import BlueDB.Sql.Server

/-!
# CREATE INDEX beside INSERT

A batch of an INSERT brings the entries of its rows for the indexes its snapshot
lists; the batch of a CREATE INDEX brings the entries of the rows its snapshot
holds. No row is without its entries as long as an INSERT commits under the
indexes of its snapshot and a CREATE INDEX over the rows of its snapshot, which
the commit does not check.
-/

namespace BlueDB.Sql

variable {G : Engine} {c c' c'' : Conn G} {t : Name} {schema : Schema G} {id : UInt64}
  {catalog : Option (ColumnCatalog G)}

/-- The overlay of `c'` is that of `c` with the writes `ws` behind it. -/
def Adds (c c' : Conn G) (ws : Batch G) : Prop :=
  ∃ x ∈ c.txn, ∃ x' ∈ c'.txn, x'.snapshot = x.snapshot ∧ x'.overlay = x.overlay ++ ws

namespace Adds

variable {ws ws' : Batch G}

theorem isSome (h : Adds c c' ws) : c'.txn.isSome = true := by
  obtain ⟨-, -, x', hx', -⟩ := h
  rw [Option.mem_def.mp hx']
  rfl

theorem view (h : Adds c c' ws) : c'.view = c.view.commit ws := by
  obtain ⟨x, hx, x', hx', hsnap, hover⟩ := h
  simp only [Conn.view, Option.mem_def.mp hx, Option.mem_def.mp hx', hsnap, hover,
    Kv.commit_append]

theorem trans (h : Adds c c' ws) (h' : Adds c' c'' ws') : Adds c c'' (ws ++ ws') := by
  obtain ⟨x, hx, x', hx', hsnap, hover⟩ := h
  obtain ⟨y, hy, y', hy', hsnap', hover'⟩ := h'
  obtain rfl : x' = y := Option.some.inj (hx'.symm.trans hy)
  exact ⟨x, hx, y', hy', hsnap'.trans hsnap, by rw [hover', hover, List.append_assoc]⟩

end Adds

/-- A key that belongs to the row under `p`. -/
def Touches (id : UInt64) (p : List UInt8) (k : StorageKey) : Prop :=
  k = .row id p ∨ ∃ n v, k = .indexEntry id n v p

/-- The row under `p` with an entry in every index of the schema. -/
structure RowCovered (s : Store G) (schema : Schema G) (id : UInt64)
    (catalog : Option (ColumnCatalog G)) (p : List UInt8) (st : StoredRow G) : Prop where
  row : readRow s id p = some st
  key : keyBytes st.key = .ok p
  entries : ∀ i ∈ schema.indexes, ∃ v,
    indexBytes (evalColumns schema) (toLogical catalog st.row) i = .ok v ∧
      readEntry s id i.name v p = some st.key

/-- Whatever store the batch is applied to, a row it touches has its entries. -/
structure Covers (schema : Schema G) (id : UInt64) (catalog : Option (ColumnCatalog G))
    (ws : Batch G) : Prop where
  only : ∀ w ∈ ws, ∃ p, Touches id p w.key
  rows : ∀ p, (∀ w ∈ ws, ¬Touches id p w.key) ∨
    ∃ st, ∀ s : Store G, RowCovered (s.commit ws) schema id catalog p st

theorem RowCovered.commit {s : Store G} {p : List UInt8} {st : StoredRow G} {ws : Batch G}
    (h : RowCovered s schema id catalog p st) (hws : ∀ w ∈ ws, ¬Touches id p w.key) :
    RowCovered (s.commit ws) schema id catalog p st := by
  have hget : ∀ k, Touches id p k → (s.commit ws).get k = s.get k := by
    intro k hk
    apply Kv.get_commit_of_forall_ne
    intro w hw hkey
    exact hws w hw (hkey ▸ hk)
  constructor
  · exact (hget (.row id p) (Or.inl rfl)).trans h.row
  · exact h.key
  · intro i hi
    obtain ⟨v, hv, hentry⟩ := h.entries i hi
    exact ⟨v, hv, (hget (.indexEntry id i.name v p) (Or.inr ⟨_, _, rfl⟩)).trans hentry⟩

theorem covers_nil : Covers schema id catalog ([] : Batch G) where
  only := by simp
  rows p := Or.inl (by simp)

theorem Covers.append {ws ws' : Batch G} (h : Covers schema id catalog ws)
    (h' : Covers schema id catalog ws') : Covers schema id catalog (ws ++ ws') := by
  constructor
  · intro w hw
    rcases List.mem_append.mp hw with hw | hw
    · exact h.only w hw
    · exact h'.only w hw
  · intro p
    rcases h'.rows p with hnone' | ⟨st, hst⟩
    · rcases h.rows p with hnone | ⟨st, hst⟩
      · left
        intro w hw
        rcases List.mem_append.mp hw with hw | hw
        · exact hnone w hw
        · exact hnone' w hw
      · right
        refine ⟨st, fun s => ?_⟩
        rw [Kv.commit_append]
        exact (hst s).commit hnone'
    · right
      refine ⟨st, fun s => ?_⟩
      rw [Kv.commit_append]
      exact hst _

theorem Covers.isData {ws : Batch G} (h : Covers schema id catalog ws) :
    ∀ w ∈ ws, w.key.IsData := by
  intro w hw
  obtain ⟨p, hkey | ⟨n, v, hkey⟩⟩ := h.only w hw
  · rw [hkey]
    trivial
  · rw [hkey]
    trivial

theorem covers_row {row : DataRow G.Value} {p : List UInt8} {key : G.Key} {old new : Batch G}
    (hold : ∀ w ∈ old, Touches id p w.key) (hnew : EntryBatch schema row id p key true new)
    (hp : (keyBytes key : Except (Error G) (List UInt8)) = .ok p)
    (hrow : toLogical catalog (toPhysical catalog row) = row) :
    Covers schema id catalog
      (old ++ (new ++ [.put (.row id p) ⟨key, toPhysical catalog row⟩])) := by
  have htouch : ∀ w ∈ old ++ (new ++ [.put (.row id p) ⟨key, toPhysical catalog row⟩]),
      Touches id p w.key := by
    intro w hw
    rcases List.mem_append.mp hw with hw | hw
    · exact hold w hw
    · rcases List.mem_append.mp hw with hw | hw
      · obtain ⟨n, v, -, rfl⟩ := (hnew.mem_iff w).mp hw
        rw [entryWrite_key]
        exact Or.inr ⟨n, v, rfl⟩
      · rw [List.mem_singleton.mp hw]
        exact Or.inl rfl
  have hsame : ∀ q k, Touches id p k → Touches id q k → q = p := by
    intro q k hk hk'
    rcases hk with rfl | ⟨n, v, rfl⟩
    · rcases hk' with hk' | ⟨n, v, hk'⟩
      · exact (StorageKey.row.inj hk').2.symm
      · exact absurd hk' (by simp)
    · rcases hk' with hk' | ⟨n', v', hk'⟩
      · exact absurd hk' (by simp)
      · exact (StorageKey.indexEntry.inj hk').2.2.2.symm
  constructor
  · exact fun w hw => ⟨p, htouch w hw⟩
  · intro q
    by_cases hq : q = p
    · subst q
      right
      refine ⟨⟨key, toPhysical catalog row⟩, fun s => ?_⟩
      rw [Kv.commit_append, Kv.commit_append, Kv.commit_cons, Kv.commit_nil]
      constructor
      · exact Kv.get_write_put ..
      · exact hp
      · intro i hi
        obtain ⟨v, hv⟩ := hnew.evaluable i hi
        refine ⟨v, by rw [hrow]; exact hv, ?_⟩
        have hget : readEntry (((s.commit old).commit new).write
            (.put (.row id p) ⟨key, toPhysical catalog row⟩)) id i.name v p =
              readEntry ((s.commit old).commit new) id i.name v p := Kv.get_write_of_ne (by simp)
        rw [hget, hnew.readEntry _ ⟨i, hi, rfl, hv⟩]
        rfl
    · left
      intro w hw hk
      exact hq (hsame q w.key (htouch w hw) hk)

section Insert

theorem Buffered.adds {ws : Batch G} (h : Buffered c c' ws) : Adds c c' ws := h.txn

theorem retireRow_touches {p : List UInt8} {key : G.Key} (hc : c.txn.isSome = true)
    (hat : TableAt c.view t schema id catalog)
    (hp : (keyBytes key : Except (Error G) (List UInt8)) = .ok p) :
    Holds (retireRow t id catalog p key) c
      (fun _ c' => ∃ ws, (∀ w ∈ ws, Touches id p w.key) ∧ Buffered c c' ws) (fun _ _ => True) := by
  unfold retireRow
  rw [Holds.bind_iff, Holds.get_iff]
  cases readRow c.view id p with
  | some st =>
    apply (applyIndexEntries_holds hc hat hp).mono
    · intro _ c1 ⟨ws, hws, hbuf⟩
      refine ⟨ws, fun w hw => ?_, hbuf⟩
      obtain ⟨n, v, -, rfl⟩ := (hws.mem_iff w).mp hw
      exact Or.inr ⟨n, v, rfl⟩
    · exact fun _ _ _ => trivial
  | none =>
    apply stageUniqueCheck_holds hc
    intro c1 hbuf
    exact ⟨[], by simp, hbuf⟩

/-- What a statement on one table has added when it returns. -/
def AddsCovered (schema : Schema G) (id : UInt64) (catalog : Option (ColumnCatalog G))
    (c c' : Conn G) : Prop :=
  ∃ ws, Adds c c' ws ∧ Covers schema id catalog ws

theorem AddsCovered.trans (h : AddsCovered schema id catalog c c')
    (h' : AddsCovered schema id catalog c' c'') : AddsCovered schema id catalog c c'' := by
  obtain ⟨ws, hadds, hcovers⟩ := h
  obtain ⟨ws', hadds', hcovers'⟩ := h'
  exact ⟨ws ++ ws', hadds.trans hadds', hcovers.append hcovers'⟩

theorem AddsCovered.refl (hc : c.txn.isSome = true) : AddsCovered schema id catalog c c :=
  ⟨[], (Buffered.refl hc).adds, covers_nil⟩

theorem AddsCovered.tableAt (h : AddsCovered schema id catalog c c')
    (hat : TableAt c.view t schema id catalog) : TableAt c'.view t schema id catalog := by
  obtain ⟨ws, hadds, hcovers⟩ := h
  rw [hadds.view]
  exact hat.commit hcovers.isData

theorem AddsCovered.isSome (h : AddsCovered schema id catalog c c') : c'.txn.isSome = true := by
  obtain ⟨ws, hadds, -⟩ := h
  exact hadds.isSome

theorem insertRow_covers {key : G.Key} {row : DataRow G.Value} (hc : c.txn.isSome = true)
    (hat : TableAt c.view t schema id catalog)
    (hrow : toLogical catalog (toPhysical catalog row) = row) :
    Holds (insertRow t id catalog key row) c
      (fun _ c' => AddsCovered schema id catalog c c') (fun _ _ => True) := by
  unfold insertRow
  rw [Holds.bind_iff]
  apply holds_ofExcept
  · intro p hp
    rw [Holds.bind_iff]
    apply (retireRow_touches hc hat hp).mono
    · intro _ c1 ⟨old, hold, hbuf⟩
      have hat1 : TableAt c1.view t schema id catalog := by
        rw [hbuf.view]
        apply hat.commit
        intro w hw
        rcases hold w hw with hkey | ⟨n, v, hkey⟩
        · rw [hkey]
          trivial
        · rw [hkey]
          trivial
      apply (putRow_holds hbuf.isSome hat1 hp).mono
      · intro _ c2 ⟨new, hnew, hbuf2⟩
        exact ⟨_, (hbuf.trans hbuf2).adds, covers_row hold hnew hp hrow⟩
      · exact fun _ _ _ => trivial
    · exact fun _ _ _ => trivial
  · exact fun _ _ => trivial

theorem appendRows_covers {rows : List (DataRow G.Value)} {next : ℤ} (hc : c.txn.isSome = true)
    (hat : TableAt c.view t schema id catalog)
    (hrows : ∀ row ∈ rows, toLogical catalog (toPhysical catalog row) = row) :
    Holds (appendRows t id catalog next rows) c
      (fun _ c' => AddsCovered schema id catalog c c') (fun _ _ => True) := by
  induction rows generalizing c next with
  | nil => exact AddsCovered.refl hc
  | cons row rows ih =>
    rw [appendRows, Holds.bind_iff]
    apply (appendRow_holds hc hat).mono
    · rintro _ c1 ⟨p, new, hp, hnew, hbuf⟩
      have h1 : AddsCovered schema id catalog c c1 :=
        ⟨_, hbuf.adds, covers_row (fun w (hw : w ∈ ([] : Batch G)) => absurd hw List.not_mem_nil)
          hnew hp (hrows row (by simp))⟩
      apply (ih h1.isSome (h1.tableAt hat) fun r hr => hrows r (List.mem_cons_of_mem _ hr)).mono
      · intro _ c2 h2
        exact h1.trans h2
      · exact fun _ _ _ => trivial
    · exact fun _ _ _ => trivial

theorem insertData_covers {rows : List (G.Key × DataRow G.Value)} (hc : c.txn.isSome = true)
    (hat : TableAt c.view t schema id catalog)
    (hrows : ∀ q ∈ rows, toLogical catalog (toPhysical catalog q.2) = q.2) :
    Holds (insertData t rows) c (fun _ c' => AddsCovered schema id catalog c c')
      (fun _ _ => True) := by
  unfold insertData
  rw [Holds.bind_iff, Holds.get_iff]
  dsimp only
  rw [hat.tableId, Holds.bind_iff, Holds.ofExcept_ok, hat.catalog]
  apply Holds.forM (AddsCovered schema id catalog c) rows (AddsCovered.refl hc)
  intro q hq c1 h1
  apply (insertRow_covers h1.isSome (h1.tableAt hat) (hrows q hq)).mono
  · intro _ c2 h2
    exact h1.trans h2
  · exact fun _ _ _ => trivial

theorem allocateKeys_adds (hc : c.txn.isSome = true) (count : ℕ) :
    Holds (allocateKeys t count) c (fun _ c' => Adds c c' []) (fun _ _ => True) := by
  unfold allocateKeys
  rw [Holds.bind_iff, Holds.get_iff, Holds.bind_iff]
  apply holds_ofExcept
  · intro id _
    dsimp only
    split_ifs with hlimit
    · exact (Buffered.refl hc).adds
    · trivial
  · exact fun _ _ => trivial

theorem appendData_covers {rows : List (DataRow G.Value)} (hc : c.txn.isSome = true)
    (hat : TableAt c.view t schema id catalog)
    (hrows : ∀ row ∈ rows, toLogical catalog (toPhysical catalog row) = row) :
    Holds (appendData t rows) c (fun _ c' => AddsCovered schema id catalog c c')
      (fun _ _ => True) := by
  unfold appendData
  split_ifs with hnil
  · exact AddsCovered.refl hc
  · rw [Holds.bind_iff]
    apply (allocateKeys_adds hc rows.length).mono
    · intro next c1 hadds
      have h1 : AddsCovered schema id catalog c c1 := ⟨[], hadds, covers_nil⟩
      have hat1 := h1.tableAt hat
      rw [Holds.bind_iff, Holds.get_iff]
      dsimp only
      rw [hat1.tableId, Holds.bind_iff, Holds.ofExcept_ok, hat1.catalog]
      apply (appendRows_covers h1.isSome hat1 hrows).mono
      · intro _ c2 h2
        exact h1.trans h2
      · exact fun _ _ _ => trivial
    · exact fun _ _ _ => trivial

theorem insertStmt_covers (hc : c.txn.isSome = true)
    (htables : ∀ schema, readSchema c.view t = some schema → ∃ id, resolveTableId c.view t =
      some id)
    (hfits : ∀ schema, readSchema c.view t = some schema → ∀ columns,
      schema.columnDefs = some columns → CatalogFits (readCatalog c.view t) columns.length)
    (rows : List (DataRow G.Value)) :
    Holds (insertStmt t rows) c (fun _ c' => ∃ schema id,
      TableAt c.view t schema id (readCatalog c.view t) ∧
        AddsCovered schema id (readCatalog c.view t) c c') (fun _ _ => True) := by
  unfold insertStmt
  rw [Holds.bind_iff, Holds.get_iff]
  dsimp only
  rw [Holds.bind_iff]
  apply holds_getSchema
  · intro schema hschema
    obtain ⟨id, hid⟩ := htables schema hschema
    have hat : TableAt c.view t schema id (readCatalog c.view t) := ⟨hschema, hid, rfl⟩
    rw [Holds.bind_iff]
    apply holds_checkRows
    · intro hrows
      have hround : ∀ row ∈ rows,
          toLogical (readCatalog c.view t) (toPhysical (readCatalog c.view t) row) = row :=
        fun row hrow => (toLogical_toPhysical_of_rowFits (hfits schema hschema) (hrows row hrow)).1
      cases primaryKeyIndex schema with
      | some i =>
        dsimp only
        rw [Holds.bind_iff]
        apply holds_ofExcept
        · intro keys _
          rw [Holds.bind_iff]
          apply holds_ofExcept
          · intro _ _
            apply (insertData_covers hc hat fun q hq => hround q.2 (List.of_mem_zip hq).2).mono
            · intro _ c1 h1
              exact ⟨schema, id, hat, h1⟩
            · exact fun _ _ _ => trivial
          · exact fun _ _ => trivial
        · exact fun _ _ => trivial
      | none =>
        apply (appendData_covers hc hat hround).mono
        · intro _ c1 h1
          exact ⟨schema, id, hat, h1⟩
        · exact fun _ _ _ => trivial
    · trivial
  · trivial

end Insert

/-- Every live row of every table has an entry in each of its indexes. -/
def Covered (s : Store G) : Prop :=
  ∀ t schema id, readSchema s t = some schema → resolveTableId s t = some id →
    ∀ p st, readRow s id p = some st → RowCovered s schema id (readCatalog s t) p st

/-- The tables of `s` are those of `s0`, up to their indexes. -/
structure SameTables (s0 s : Store G) : Prop where
  ids : ∀ t, resolveTableId s t = resolveTableId s0 t
  catalogs : ∀ t, readCatalog s t = readCatalog s0 t
  schemas : ∀ t schema, readSchema s t = some schema →
    ∃ schema0, readSchema s0 t = some schema0 ∧ schema.columnDefs = schema0.columnDefs
  kept : ∀ t id, resolveTableId s0 t = some id → (readSchema s t).isSome = true
  keyed : ∀ t id p st, resolveTableId s t = some id → readRow s id p = some st →
    keyBytes st.key = .ok p

section Commits

variable {s0 s snap : Store G}

theorem Integrity.sameTables (h : Integrity s0) : SameTables s0 s0 where
  ids _ := rfl
  catalogs _ := rfl
  schemas t schema hschema := ⟨schema, hschema, rfl⟩
  kept := h.ids
  keyed t id p st hid hst := by
    obtain ⟨schema, hschema⟩ := Option.isSome_iff_exists.mp (h.ids t id hid)
    exact ((h.tableOk ⟨hschema, hid, rfl⟩).row p st hst).key

theorem Integrity.covered (h : Integrity s) : Covered s := by
  intro t schema id hschema hid p st hst
  have hok := h.tableOk ⟨hschema, hid, rfl⟩
  have hrow := hok.row p st hst
  refine ⟨hst, hrow.key, fun i hi => ?_⟩
  obtain ⟨v, hv⟩ := hrow.evaluable i hi
  exact ⟨v, hv, (hok.entry i.name v p st.key).mpr ⟨st, hst, rfl, i, hi, rfl, hv⟩⟩

namespace SameTables

theorem exists_id (h0 : Integrity s0) (h : SameTables s0 s)
    (hschema : readSchema s t = some schema) :
    ∃ id, resolveTableId s t = some id := by
  obtain ⟨schema0, hschema0, -⟩ := h.schemas t schema hschema
  obtain ⟨-, id, hid, -⟩ := h0.table t schema0 hschema0
  exact ⟨id, (h.ids t).trans hid⟩

theorem catalogFits (h0 : Integrity s0) (h : SameTables s0 s)
    (hschema : readSchema s t = some schema) (columns : List (ColumnDef G))
    (hdefs : schema.columnDefs = some columns) : CatalogFits (readCatalog s t) columns.length := by
  obtain ⟨schema0, hschema0, hcolumns⟩ := h.schemas t schema hschema
  obtain ⟨-, id, -, hok⟩ := h0.table t schema0 hschema0
  rw [h.catalogs]
  exact hok.catalog_fits columns (hcolumns ▸ hdefs)

theorem ids_inj (h0 : Integrity s0) (h : SameTables s0 s) {t' : Name}
    (hid : resolveTableId s t = some id) (hid' : resolveTableId s t' = some id) : t = t' :=
  h0.ids_inj t t' id ((h.ids t).symm.trans hid) ((h.ids t').symm.trans hid')

end SameTables

theorem Covers.not_touches {ws : Batch G} (h : Covers schema id catalog ws) {id' : UInt64}
    (hid : id' ≠ id) (p : List UInt8) : ∀ w ∈ ws, ¬Touches id' p w.key := by
  intro w hw hk
  obtain ⟨q, hkey⟩ := h.only w hw
  rcases hk with hk | ⟨n, v, hk⟩ <;> rcases hkey with hkey | ⟨n', v', hkey⟩ <;>
    rw [hkey] at hk
  · exact hid (StorageKey.row.inj hk).1.symm
  · exact absurd hk (by simp)
  · exact absurd hk (by simp)
  · exact hid (StorageKey.indexEntry.inj hk).1.symm

theorem get_commit_of_covers {ws : Batch G} (h : Covers schema id catalog ws) {k : StorageKey}
    (hk : ¬k.IsData) : (s.commit ws).get k = s.get k := by
  apply Kv.get_commit_of_forall_ne
  intro w hw hkey
  exact hk (hkey ▸ h.isData w hw)

theorem insert_commit (h0 : Integrity s0) (hs : SameTables s0 s) (hcovered : Covered s)
    (hat : TableAt snap t schema id (readCatalog snap t)) (hsnap : SameTables s0 snap)
    (hsame : readSchema snap t = readSchema s t) {ws : Batch G}
    (hws : Covers schema id (readCatalog snap t) ws) :
    SameTables s0 (s.commit ws) ∧ Covered (s.commit ws) := by
  have hids : ∀ t', resolveTableId (s.commit ws) t' = resolveTableId s t' :=
    fun t' => get_commit_of_covers hws (k := .tableid t') not_false
  have hschemas : ∀ t', readSchema (s.commit ws) t' = readSchema s t' :=
    fun t' => get_commit_of_covers hws (k := .schema t') not_false
  have hcatalogs : ∀ t', readCatalog (s.commit ws) t' = readCatalog s t' :=
    fun t' => get_commit_of_covers hws (k := .colcat t') not_false
  have hid : resolveTableId s t = some id := by rw [hs.ids, ← hsnap.ids, hat.id]
  have hcatalog : readCatalog snap t = readCatalog s t := by rw [hsnap.catalogs, hs.catalogs]
  -- a row is either one of the batch, or untouched with its entries
  have hrow : ∀ t' schema' id' p st, readSchema s t' = some schema' →
      resolveTableId s t' = some id' → readRow (s.commit ws) id' p = some st →
        RowCovered (s.commit ws) schema' id' (readCatalog s t') p st := by
    intro t' schema' id' p st hschema' hid' hst
    have hold : (∀ w ∈ ws, ¬Touches id' p w.key) →
        RowCovered (s.commit ws) schema' id' (readCatalog s t') p st := by
      intro hnone
      apply RowCovered.commit _ hnone
      apply hcovered t' schema' id' hschema' hid' p st
      rw [← hst]
      symm
      apply Kv.get_commit_of_forall_ne
      intro w hw hkey
      exact hnone w hw (Or.inl hkey)
    by_cases hne : id' = id
    · subst id'
      obtain rfl := hs.ids_inj h0 hid hid'
      have hschema : schema' = schema := by
        rw [← hsame, hat.schema, Option.some.injEq] at hschema'
        exact hschema'.symm
      subst schema'
      rcases hws.rows p with hnone | ⟨st', hst'⟩
      · exact hold hnone
      · have hcov := hst' s
        obtain rfl : st' = st := Option.some.inj (hcov.row.symm.trans hst)
        rw [← hcatalog]
        exact hcov
    · exact hold (hws.not_touches hne p)
  constructor
  · constructor
    · intro t'
      rw [hids, hs.ids]
    · intro t'
      rw [hcatalogs, hs.catalogs]
    · intro t' schema' hschema'
      rw [hschemas] at hschema'
      exact hs.schemas t' schema' hschema'
    · intro t' id' hid'
      rw [hschemas]
      exact hs.kept t' id' hid'
    · intro t' id' p st hid' hst
      rw [hids] at hid'
      obtain ⟨schema', hschema'⟩ :=
        Option.isSome_iff_exists.mp (hs.kept t' id' ((hs.ids t').symm.trans hid'))
      exact (hrow t' schema' id' p st hschema' hid' hst).key
  · intro t' schema' id' hschema' hid' p st hst
    rw [hschemas] at hschema'
    rw [hids] at hid'
    rw [hcatalogs]
    exact hrow t' schema' id' p st hschema' hid' hst

theorem createIndex_commit (h0 : Integrity s0) (hs : SameTables s0 s) (hcovered : Covered s)
    {i : SchemaIndex G} {entries : Batch G} (hbatch : IndexBatch snap t schema id i entries)
    (hsnap : SameTables s0 snap) (hsame : readSchema snap t = readSchema s t)
    (hrows : scanData snap t = scanData s t) :
    SameTables s0 (s.commit (entries ++ [.put (.schema t) (withIndex schema i)])) ∧
      Covered (s.commit (entries ++ [.put (.schema t) (withIndex schema i)])) := by
  have hat := hbatch.table
  have hats : TableAt s t schema id (readCatalog snap t) :=
    ⟨hsame.symm.trans hat.schema, by rw [hs.ids, ← hsnap.ids, hat.id], by
      rw [hs.catalogs, hsnap.catalogs]⟩
  have hcommit : s.commit (entries ++ [.put (.schema t) (withIndex schema i)]) =
      (s.commit entries).write (.put (.schema t) (withIndex schema i)) := by
    rw [Kv.commit_append, Kv.commit_cons, Kv.commit_nil]
  rw [hcommit]
  have hget : ∀ k, k ≠ .schema t → (∀ v p, k ≠ .indexEntry id i.name v p) →
      ((s.commit entries).write (.put (.schema t) (withIndex schema i))).get k = s.get k := by
    intro k hk hentry
    rw [Kv.get_write_of_ne hk]
    apply Kv.get_commit_of_forall_ne
    intro w hw heq
    obtain ⟨q, -, v, p, -, -, rfl⟩ := (hbatch.entries.mem_iff w).mp hw
    exact hentry v p heq.symm
  -- every row of the table has its entry in the batch
  have hbackfill : ∀ p st, readRow s id p = some st → ∃ v,
      indexBytes (evalColumns schema) (toLogical (readCatalog snap t) st.row) i = .ok v ∧
        readEntry ((s.commit entries).write (.put (.schema t) (withIndex schema i))) id i.name v p =
          some st.key := by
    intro p st hst
    have hmem : (st.key, toLogical (readCatalog snap t) st.row) ∈
        logicalRows snap (readCatalog snap t) (scanTable snap id) := by
      rw [scanData_eq hat, scanData_eq hats, Except.ok.injEq] at hrows
      rw [hrows]
      exact mem_logicalRows_scanTable.mpr ⟨p, st, hst, rfl⟩
    have hp := hs.keyed t id p st hats.id hst
    obtain ⟨v, hv⟩ := hbatch.entries.evaluable _ hmem
    refine ⟨v, hv, ?_⟩
    have hwrite := (hbatch.entries.mem_iff (.put (.indexEntry id i.name v p) st.key)).mpr
      ⟨_, hmem, v, p, hv, hp, rfl⟩
    have huniq : ∀ w ∈ entries, w.key = .indexEntry id i.name v p →
        w = .put (.indexEntry id i.name v p) st.key := by
      intro w hw heq
      obtain ⟨q, hq, v', p', -, hp', rfl⟩ := (hbatch.entries.mem_iff w).mp hw
      obtain ⟨-, -, rfl, rfl⟩ := StorageKey.indexEntry.inj heq
      obtain ⟨p1, st1, hst1, rfl⟩ := mem_logicalRows_scanTable.mp hq
      obtain ⟨p2, st2, hst2, heq2⟩ := mem_logicalRows_scanTable.mp hmem
      obtain rfl : p1 = p' := Except.ok.inj ((hsnap.keyed t id p1 st1 hat.id hst1).symm.trans hp')
      have hkey2 : st.key = st2.key := (Prod.mk.inj heq2).1
      obtain rfl : p2 = p1 := Except.ok.inj
        ((hsnap.keyed t id p2 st2 hat.id hst2).symm.trans (hkey2 ▸ hp))
      obtain rfl : st1 = st2 := Option.some.inj (hst1.symm.trans hst2)
      rw [hkey2]
    have hentry : readEntry ((s.commit entries).write (.put (.schema t) (withIndex schema i))) id
        i.name v p = (s.commit entries).get (.indexEntry id i.name v p) :=
      Kv.get_write_of_ne (by simp)
    rw [hentry]
    exact Kv.get_commit_of_mem hwrite huniq
  have hids : ∀ t', resolveTableId ((s.commit entries).write
      (.put (.schema t) (withIndex schema i))) t' = resolveTableId s t' :=
    fun t' => hget (.tableid t') (by simp) (by simp)
  have hcatalogs : ∀ t', readCatalog ((s.commit entries).write
      (.put (.schema t) (withIndex schema i))) t' = readCatalog s t' :=
    fun t' => hget (.colcat t') (by simp) (by simp)
  have hrowsame : ∀ id' p, readRow ((s.commit entries).write
      (.put (.schema t) (withIndex schema i))) id' p = readRow s id' p :=
    fun id' p => hget (.row id' p) (by simp) (by simp)
  have hschema : readSchema ((s.commit entries).write
      (.put (.schema t) (withIndex schema i))) t = some (withIndex schema i) := Kv.get_write_put ..
  have hschemas : ∀ t', t' ≠ t → readSchema ((s.commit entries).write
      (.put (.schema t) (withIndex schema i))) t' = readSchema s t' :=
    fun t' ht' => hget (.schema t') (by simpa using ht') (by simp)
  constructor
  · constructor
    · intro t'
      rw [hids, hs.ids]
    · intro t'
      rw [hcatalogs, hs.catalogs]
    · intro t' schema' hschema'
      by_cases ht' : t' = t
      · subst t'
        rw [hschema, Option.some.injEq] at hschema'
        subst schema'
        exact hs.schemas t schema hats.schema
      · rw [hschemas t' ht'] at hschema'
        exact hs.schemas t' schema' hschema'
    · intro t' id' hid'
      by_cases ht' : t' = t
      · rw [ht', hschema]
        rfl
      · rw [hschemas t' ht']
        exact hs.kept t' id' hid'
    · intro t' id' p st hid' hst
      rw [hids] at hid'
      rw [hrowsame] at hst
      exact hs.keyed t' id' p st hid' hst
  · intro t' schema' id' hschema' hid' p st hst
    rw [hids] at hid'
    rw [hrowsame] at hst
    rw [hcatalogs]
    by_cases ht' : t' = t
    · subst t'
      rw [hschema, Option.some.injEq] at hschema'
      subst schema'
      obtain rfl : id' = id := Option.some.inj (hid'.symm.trans hats.id)
      have hold := hcovered t schema id' hats.schema hid' p st hst
      rw [hats.catalog] at hold ⊢
      refine ⟨(hrowsame id' p).trans hst, hold.key, fun j hj => ?_⟩
      rcases mem_withIndex.mp hj with hj | rfl
      · obtain ⟨v, hv, hentry⟩ := hold.entries j hj
        refine ⟨v, hv, ?_⟩
        rw [← hentry]
        apply hget (.indexEntry id' j.name v p) (by simp)
        intro v' p' heq
        exact hbatch.new j hj (StorageKey.indexEntry.inj heq).2.1
      · exact hbackfill p st hst
    · rw [hschemas t' ht'] at hschema'
      have hold := hcovered t' schema' id' hschema' hid' p st hst
      have hne : id' ≠ id := fun heq => ht' (hs.ids_inj h0 (heq ▸ hid') hats.id)
      refine ⟨(hrowsame id' p).trans hst, hold.key, fun j hj => ?_⟩
      obtain ⟨v, hv, hentry⟩ := hold.entries j hj
      refine ⟨v, hv, ?_⟩
      rw [← hentry]
      apply hget (.indexEntry id' j.name v p) (by simp)
      intro v' p' heq
      exact hne (StorageKey.indexEntry.inj heq).1

end Commits

/-- The statements that run beside each other. -/
def Stmt.IsIndexOrInsert : Stmt G → Prop
  | .insert _ _ => True
  | .createIndex _ _ _ _ => True
  | _ => False

instance : DecidablePred (Stmt.IsIndexOrInsert (G := G))
  | .insert _ _ | .createIndex _ _ _ _ => .isTrue trivial
  | .createTable _ _ | .dropTable _ | .dropIndex _ _ | .delete _ _ | .update _ _ | .addColumn _ _
  | .dropColumn _ _ _ | .renameColumn _ _ _ | .renameTable _ _ => .isFalse not_false

def Event.IsIndexOrInsert : Event G → Prop
  | .begin _ stmt => stmt.IsIndexOrInsert
  | _ => True

instance : DecidablePred (Event.IsIndexOrInsert (G := G))
  | .begin _ stmt => inferInstanceAs (Decidable stmt.IsIndexOrInsert)
  | .exec _ | .commit _ => .isTrue trivial

/-- What the commit of the statement does not check: that the committed store
still lists the indexes of the snapshot and, for a CREATE INDEX, still holds the
rows of the snapshot. -/
def Running.Current (r : Running G) (live : Store G) : Prop :=
  match r.stmt with
  | .insert t _ => readSchema r.txn.snapshot t = readSchema live t
  | .createIndex t _ _ _ => readSchema r.txn.snapshot t = readSchema live t ∧
      scanData r.txn.snapshot t = scanData live t
  | _ => True

instance (live : Store G) : DecidablePred fun r : Running G => r.Current live
  | ⟨.insert t _, txn, _⟩ =>
    inferInstanceAs (Decidable (readSchema txn.snapshot t = readSchema live t))
  | ⟨.createIndex t _ _ _, txn, _⟩ =>
    inferInstanceAs (Decidable (readSchema txn.snapshot t = readSchema live t ∧
      scanData txn.snapshot t = scanData live t))
  | ⟨.createTable _ _, _, _⟩ | ⟨.dropTable _, _, _⟩ | ⟨.dropIndex _ _, _, _⟩
  | ⟨.delete _ _, _, _⟩ | ⟨.update _ _, _, _⟩ | ⟨.addColumn _ _, _, _⟩
  | ⟨.dropColumn _ _ _, _, _⟩ | ⟨.renameColumn _ _ _, _, _⟩ | ⟨.renameTable _ _, _, _⟩ =>
    .isTrue trivial

namespace Server

def Admits (srv : Server G) : Event G → Prop
  | .commit i => ∀ r ∈ srv.running i, r.executed = true → r.Current srv.live
  | _ => True

instance (srv : Server G) : DecidablePred srv.Admits
  | .begin _ _ | .exec _ => .isTrue trivial
  | .commit i => inferInstanceAs
      (Decidable (∀ r ∈ srv.running i, r.executed = true → r.Current srv.live))

/-- Every commit of the run is over a current snapshot. -/
def Conforms : Server G → List (Event G) → Prop
  | _, [] => True
  | srv, e :: events => srv.Admits e ∧ (srv.step e).Conforms events

instance decidableConforms : (srv : Server G) → (events : List (Event G)) →
    Decidable (srv.Conforms events)
  | _, [] => .isTrue trivial
  | srv, e :: events =>
    have := decidableConforms (srv.step e) events
    inferInstanceAs (Decidable (srv.Admits e ∧ (srv.step e).Conforms events))

end Server

/-- What an executed statement has buffered over its snapshot. -/
def Running.Prepared (r : Running G) : Prop :=
  match r.stmt with
  | .insert t _ => ∃ schema id,
      TableAt r.txn.snapshot t schema id (readCatalog r.txn.snapshot t) ∧
        Covers schema id (readCatalog r.txn.snapshot t) r.txn.overlay
  | .createIndex t _ _ _ => ∃ schema id i entries,
      IndexBatch r.txn.snapshot t schema id i entries ∧
        r.txn.overlay = entries ++ [.put (.schema t) (withIndex schema i)]
  | _ => False

structure RunningOk (s0 : Store G) (r : Running G) : Prop where
  kind : r.stmt.IsIndexOrInsert
  snapshot : SameTables s0 r.txn.snapshot
  fresh : r.executed = false → r.txn.overlay = []
  prepared : r.executed = true → r.Prepared

structure ServerOk (s0 : Store G) (srv : Server G) : Prop where
  live : SameTables s0 srv.live
  covered : Covered srv.live
  running : ∀ i r, srv.running i = some r → RunningOk s0 r

section Server

variable {s0 : Store G} {srv : Server G}

theorem ServerOk.set (h : ServerOk s0 srv) {i : ℕ} {r : Option (Running G)} {live : Store G}
    {seq : UInt64 → Option ℤ} (hlive : SameTables s0 live) (hcovered : Covered live)
    (hr : ∀ r', r = some r' → RunningOk s0 r') :
    ServerOk s0
      { srv with live := live, seq := seq, running := Function.update srv.running i r } := by
  refine ⟨hlive, hcovered, fun j r' hj => ?_⟩
  by_cases hji : j = i
  · subst j
    simp only [Function.update_self] at hj
    exact hr r' hj
  · simp only [Function.update_of_ne hji] at hj
    exact h.running j r' hj

theorem ServerOk.exec (h0 : Integrity s0) (h : ServerOk s0 srv) (i : ℕ) :
    ServerOk s0 (srv.execStmt i) := by
  unfold Server.execStmt
  cases hi : srv.running i with
  | none => exact h
  | some r =>
    have hr := h.running i r hi
    dsimp only
    split_ifs with hexecuted
    · exact h
    · have hempty := hr.fresh (Bool.not_eq_true _ ▸ hexecuted)
      have hsnap : (srv.conn r.txn).view = r.txn.snapshot := by
        simp [Server.conn, Conn.view, hempty]
      have hlive := (runStmt_grows r.stmt).holds (srv.conn r.txn)
      unfold Holds at hlive
      cases hresult : runStmt r.stmt (srv.conn r.txn) with
      | error e c =>
        rw [hresult] at hlive
        have hsame : c.live = srv.live := (hlive rfl).live
        exact h.set (hsame ▸ h.live) (hsame ▸ h.covered) (by simp)
      | ok a c =>
        rw [hresult] at hlive
        have hsame : c.live = srv.live := (hlive rfl).live
        apply h.set (hsame ▸ h.live) (hsame ▸ h.covered)
        intro r' hr'
        obtain ⟨x, hx, rfl⟩ := Option.map_eq_some_iff.mp hr'
        have hadds : ∀ ws, Adds (srv.conn r.txn) c ws →
            x.snapshot = r.txn.snapshot ∧ x.overlay = ws := by
          rintro ws ⟨y, hy, y', hy', hsnap', hover⟩
          obtain rfl : r.txn = y := Option.some.inj hy
          obtain rfl : x = y' := Option.some.inj (hx.symm.trans hy')
          rw [hempty] at hover
          exact ⟨hsnap', hover⟩
        have hprepared : x.snapshot = r.txn.snapshot ∧
            Running.Prepared (⟨r.stmt, x, true⟩ : Running G) := by
          unfold Running.Prepared
          cases hstmt : r.stmt with
          | insert t rows =>
            have hcovers := insertStmt_covers (c := srv.conn r.txn) (t := t) rfl
              (hsnap ▸ fun schema hschema => hr.snapshot.exists_id h0 hschema)
              (hsnap ▸ fun schema hschema => hr.snapshot.catalogFits h0 hschema) rows
            rw [hstmt] at hresult
            unfold Holds at hcovers
            change insertStmt t rows (srv.conn r.txn) = .ok a c at hresult
            rw [hresult] at hcovers
            obtain ⟨schema, id, hat, ws, hws, hcov⟩ := hcovers
            rw [hsnap] at hat hcov
            obtain ⟨hsnap', hover⟩ := hadds ws hws
            dsimp only
            rw [hsnap', hover]
            exact ⟨rfl, schema, id, hat, hcov⟩
          | createIndex t index expr asc =>
            have hindex := createIndexStmt_indexed (c := srv.conn r.txn) (t := t) rfl index expr asc
            rw [hstmt] at hresult
            unfold Holds at hindex
            change createIndexStmt t index expr asc (srv.conn r.txn) = .ok a c at hresult
            rw [hresult] at hindex
            obtain ⟨schema, id, i', entries, -, hbatch, hbuf⟩ := hindex
            rw [hsnap] at hbatch
            obtain ⟨hsnap', hover⟩ := hadds _ hbuf.adds
            dsimp only
            rw [hsnap', hover]
            exact ⟨rfl, schema, id, i', entries, hbatch, rfl⟩
          | _ =>
            have hkind := hr.kind
            rw [hstmt] at hkind
            exact hkind.elim
        constructor
        · exact hr.kind
        · rw [hprepared.1]
          exact hr.snapshot
        · intro hfalse
          exact absurd hfalse (by simp)
        · intro _
          exact hprepared.2

theorem commit_cases {x : Txn G} (hc : c.txn = some x) :
    (∃ a c', Sql.commit c = .ok a c' ∧ c'.live = c.live.commit x.overlay) ∨
      ∃ e c', Sql.commit c = .error e c' ∧ c'.live = c.live := by
  unfold Sql.commit
  rw [hc]
  dsimp only
  split_ifs with hempty
  · left
    rw [hempty]
    exact ⟨_, _, rfl, rfl⟩
  · cases recheck c.live x with
    | error e => exact Or.inr ⟨_, _, rfl, rfl⟩
    | ok _ => exact Or.inl ⟨_, _, rfl, rfl⟩

theorem ServerOk.commit (h0 : Integrity s0) (h : ServerOk s0 srv) (i : ℕ)
    (hadmits : srv.Admits (.commit i)) : ServerOk s0 (srv.commitStmt i) := by
  unfold Server.commitStmt
  cases hi : srv.running i with
  | none => exact h
  | some r =>
    have hr := h.running i r hi
    dsimp only
    split_ifs with hexecuted
    · have hprepared := hr.prepared hexecuted
      have hcurrent := hadmits r hi hexecuted
      have hcommitted : SameTables s0 (srv.live.commit r.txn.overlay) ∧
          Covered (srv.live.commit r.txn.overlay) := by
        unfold Running.Prepared at hprepared
        unfold Running.Current at hcurrent
        cases hstmt : r.stmt with
        | insert t rows =>
          rw [hstmt] at hprepared hcurrent
          obtain ⟨schema, id, hat, hcovers⟩ := hprepared
          exact insert_commit h0 h.live h.covered hat hr.snapshot hcurrent hcovers
        | createIndex t index expr asc =>
          rw [hstmt] at hprepared hcurrent
          obtain ⟨schema, id, i', entries, hbatch, hover⟩ := hprepared
          rw [hover]
          exact createIndex_commit h0 h.live h.covered hbatch hr.snapshot hcurrent.1 hcurrent.2
        | _ =>
          rw [hstmt] at hprepared
          exact hprepared.elim
      rcases commit_cases (c := srv.conn r.txn) rfl with ⟨a, c, hc, hlive⟩ | ⟨e, c, hc, hlive⟩
      · rw [hc]
        have hsame : c.live = srv.live.commit r.txn.overlay := hlive
        exact h.set (hsame ▸ hcommitted.1) (hsame ▸ hcommitted.2) (by simp)
      · rw [hc]
        exact h.set h.live h.covered (by simp)
    · exact h

theorem ServerOk.step (h0 : Integrity s0) (h : ServerOk s0 srv) {e : Event G}
    (hkind : e.IsIndexOrInsert) (hadmits : srv.Admits e) : ServerOk s0 (srv.step e) := by
  cases e with
  | begin i stmt =>
    change ServerOk s0 (srv.beginStmt i stmt)
    unfold Server.beginStmt
    cases hi : srv.running i with
    | some r => exact h
    | none =>
      apply h.set h.live h.covered
      intro r hr
      rw [← Option.some.inj hr]
      exact ⟨hkind, h.live, fun _ => rfl, fun htrue => absurd htrue (by simp)⟩
  | exec i => exact h.exec h0 i
  | commit i => exact h.commit h0 i hadmits

theorem ServerOk.run (h0 : Integrity s0) (h : ServerOk s0 srv) {events : List (Event G)}
    (hkind : ∀ e ∈ events, e.IsIndexOrInsert) (hconforms : srv.Conforms events) :
    ServerOk s0 (srv.run events) := by
  induction events generalizing srv with
  | nil => exact h
  | cons e events ih =>
    exact ih (h.step h0 (hkind e (by simp)) hconforms.1)
      (fun e' he' => hkind e' (List.mem_cons_of_mem _ he')) hconforms.2

end Server

/-- No index entry is lost by INSERT and CREATE INDEX statements in any
interleaving in which every commit is over a current snapshot. -/
theorem covered_run (hG : Lawful G) (strict : Bool) (now : ℤ) (ops : List (Op G))
    (hops : (Session.init strict now).Conforms ops) (events : List (Event G))
    (hkind : ∀ e ∈ events, e.IsIndexOrInsert)
    (hconforms : (Server.idle (Sql.run (Conn.init strict now) ops)).Conforms events) :
    Covered ((Server.idle (Sql.run (Conn.init strict now) ops)).run events).live := by
  have h0 := integrity_run hG hops
  have hstart : ServerOk (Sql.run (Conn.init strict now) ops).live
      (Server.idle (Sql.run (Conn.init strict now) ops)) :=
    ⟨h0.sameTables, h0.covered, fun i r hi => absurd hi (by simp [Server.idle])⟩
  exact (hstart.run h0 hkind hconforms).covered

/-- An INSERT on either side of a CREATE INDEX. -/
def Ints.ordered : List (Event Ints.engine) :=
  [.begin 0 (Ints.insert [1, 10]), .exec 0, .commit 0, .begin 1 Ints.createIndex, .exec 1,
    .commit 1, .begin 0 (Ints.insert [2, 20]), .exec 0, .commit 0]

theorem covered_ordered :
    Covered ((Server.idle (run (Conn.init false 0) [.exec Ints.createTable])).run
      Ints.ordered).live := by
  apply covered_run Ints.lawful false 0 [.exec Ints.createTable] (by decide +kernel) Ints.ordered
  · decide +kernel
  · decide +kernel

def Ints.overtaken : List (Event Ints.engine) :=
  [.begin 0 (Ints.insert [1, 10]), .exec 0, .begin 1 Ints.createIndex, .exec 1, .commit 1,
    .commit 0]

theorem entry_lost :
    scanData ((Server.idle (run (Conn.init false 0) [.exec Ints.createTable])).run
        Ints.overtaken).live Ints.t = .ok [(Ints.Key.i64 1, Ints.row [1, 10])] ∧
      (indexDefs ((Server.idle (run (Conn.init false 0) [.exec Ints.createTable])).run
        Ints.overtaken).live Ints.t).map SchemaIndex.name = [Ints.x] ∧
      scanIndexedData ((Server.idle (run (Conn.init false 0) [.exec Ints.createTable])).run
        Ints.overtaken).live Ints.t Ints.x none none = .ok [] := by
  decide +kernel

end BlueDB.Sql
