import BlueDB.Sql.Alter

/-!
# Creating and dropping indexes

CREATE INDEX writes one entry for each row of the table before it adds the index
to the schema; DROP INDEX deletes every entry of the index. DROP COLUMN drops
the indexes that name the column first.
-/

namespace BlueDB.Sql

variable {G : Engine} {c c' : Conn G} {t : Name} {schema : Schema G} {id : UInt64}
  {catalog : Option (ColumnCatalog G)}

theorem deleteKeys_holds (keys : List StorageKey) (hc : c.txn.isSome = true)
    {fail : Error G → Conn G → Prop} :
    Holds (keys.forM deleteKey) c (fun _ c' => Buffered c c' (keys.map .delete)) fail := by
  induction keys generalizing c with
  | nil => exact Buffered.refl hc
  | cons k keys ih =>
    change Holds (deleteKey k >>= fun _ => keys.forM deleteKey) c _ _
    rw [Holds.bind_iff]
    apply holds_deleteKey hc
    intro c1 hbuf
    apply (ih hbuf.isSome).mono
    · intro _ c2 hbuf2
      exact hbuf.trans hbuf2
    · intro e c2 h
      exact h

def withoutIndex (schema : Schema G) (index : Name) : Schema G :=
  { schema with indexes := schema.indexes.filter fun i => i.name ≠ index }

theorem mem_withoutIndex {index : Name} {i : SchemaIndex G} :
    i ∈ (withoutIndex schema index).indexes ↔ i ∈ schema.indexes ∧ i.name ≠ index := by
  unfold withoutIndex
  rw [List.mem_filter, decide_eq_true_iff]

theorem TableOk.dropIndex {rows : List UInt8 → Option (StoredRow G)}
    {entries entries' : Name → List UInt8 → List UInt8 → Option G.Key}
    (h : TableOk schema catalog rows entries) {index : Name}
    (hdropped : ∀ v p, entries' index v p = none)
    (hother : ∀ n v p, n ≠ index → entries' n v p = entries n v p) :
    TableOk (withoutIndex schema index) catalog rows entries' := by
  constructor
  · exact h.columns_nodup
  · exact h.indexes_nodup.sublist (List.filter_sublist.map _)
  · intro i hi
    exact h.exprs i (mem_withoutIndex.mp hi).1
  · exact h.catalog_fits
  · intro p st hst
    have hrow := h.row p st hst
    exact ⟨hrow.key, hrow.fits, fun i hi => hrow.evaluable i (mem_withoutIndex.mp hi).1⟩
  · intro n v p k
    by_cases hn : n = index
    · subst n
      rw [hdropped]
      constructor
      · intro hk
        exact absurd hk (by simp)
      · intro ⟨st, _, _, i, hi, hname, _⟩
        exact absurd hname (mem_withoutIndex.mp hi).2
    · rw [hother n v p hn, h.entry]
      apply exists_congr
      intro st
      apply and_congr_right
      intro _
      apply and_congr_right
      intro _
      constructor
      · intro ⟨i, hi, hname, hv⟩
        exact ⟨i, mem_withoutIndex.mpr ⟨hi, hname ▸ hn⟩, hname, hv⟩
      · intro ⟨i, hi, hname, hv⟩
        exact ⟨i, (mem_withoutIndex.mp hi).1, hname, hv⟩

theorem forgetUniqueIndex_holds {index : Name} (hc : c.txn.isSome = true)
    {fail : Error G → Conn G → Prop} :
    Holds (forgetUniqueIndex t index) c
      (fun _ c' => (∃ ws, (∀ w ∈ ws, w.key = .uniqueidx t) ∧ Buffered c c' ws) ∧
        ∀ n, n ∈ readUniqueIndexes c'.view t ↔ n ∈ readUniqueIndexes c.view t ∧ n ≠ index)
      fail := by
  unfold forgetUniqueIndex
  rw [Holds.bind_iff, Holds.get_iff]
  dsimp only
  split_ifs with hindex
  · apply holds_writeKey hc
    intro c1 hbuf
    refine ⟨⟨_, by simp, hbuf⟩, fun n => ?_⟩
    have hget : c1.view.get (.uniqueidx t) =
        some ((readUniqueIndexes c.view t).filter (· ≠ index)) := by
      rw [hbuf.view]
      exact Kv.get_write_put ..
    have hread : readUniqueIndexes c1.view t =
        (readUniqueIndexes c.view t).filter (· ≠ index) :=
      congrArg (fun names : Option (List Name) => names.getD []) hget
    rw [hread, List.mem_filter, decide_eq_true_iff]
  · refine ⟨⟨[], by simp, Buffered.refl hc⟩, fun n => ?_⟩
    constructor
    · exact fun hn => ⟨hn, fun heq => hindex (heq ▸ hn)⟩
    · exact fun hn => hn.1

/-- The store without an index: its entries are gone, the schema does not list it. -/
structure IndexDropped (s s' : Store G) (t : Name) (schema : Schema G) (id : UInt64)
    (index : Name) : Prop where
  other : ∀ k, k ≠ .schema t → k ≠ .uniqueidx t → (∀ v p, k ≠ .indexEntry id index v p) →
    s'.get k = s.get k
  entries : ∀ v p, readEntry s' id index v p = none
  schema : readSchema s' t = some (withoutIndex schema index)

theorem indexDropped_commit {s : Store G} {index : Name} {ws : Batch G}
    (hws : ∀ w ∈ ws, w.key = .uniqueidx t) :
    IndexDropped s (s.commit ((scanRange s (indexPrefix id index)
      (prefixUpperBound (indexPrefix id index))).map .delete ++
        (.put (.schema t) (withoutIndex schema index) :: ws))) t schema id index := by
  rw [Kv.commit_append, Kv.commit_cons]
  have hget : ∀ k, k ≠ .uniqueidx t → ∀ s' : Store G, (s'.commit ws).get k = s'.get k := by
    intro k hk s'
    apply Kv.get_commit_of_forall_ne
    intro w hw hkey
    exact hk (hkey.symm.trans (hws w hw))
  constructor
  · intro k hk hunique hentry
    have hmem : k ∉ scanRange s (indexPrefix id index)
        (prefixUpperBound (indexPrefix id index)) := by
      intro hmem
      obtain ⟨v, p, rfl⟩ := indexPrefix_isPrefix.mp (mem_scanRange_prefixed.mp hmem).1
      exact hentry v p rfl
    rw [hget k hunique, Kv.get_write_of_ne hk, Kv.get_commit_deletes, if_neg hmem]
  · intro v p
    unfold readEntry
    rw [hget _ (by simp), Kv.get_write_of_ne (by simp), Kv.get_commit_deletes]
    split_ifs with hmem
    · rfl
    · cases hlive : s.get (.indexEntry id index v p) with
      | none => rfl
      | some k =>
        apply absurd _ hmem
        rw [mem_scanRange_prefixed, indexPrefix_isPrefix, hlive]
        exact ⟨⟨v, p, rfl⟩, rfl⟩
  · unfold readSchema
    rw [hget _ (by simp), Kv.get_write_put]

structure IndexForgotten (s s' : Store G) (t index : Name) (schema : Schema G) (id : UInt64) :
    Prop where
  table : TableAt s t schema id (readCatalog s t)
  dropped : IndexDropped s s' t schema id index
  registry : ∀ n, n ∈ readUniqueIndexes s' t ↔ n ∈ readUniqueIndexes s t ∧ n ≠ index

theorem dropIndex_forgotten (hc : c.txn.isSome = true) (hnamed : Named c.view) (index : Name) :
    Holds (dropIndex t index) c
      (fun _ c' => ∃ schema id, IndexForgotten c.view c'.view t index schema id ∧
        ∃ ws, Buffered c c' ws)
      (fun _ c' => c' = c) := by
  unfold dropIndex
  rw [Holds.bind_iff, Holds.get_iff]
  dsimp only
  cases hschema : readSchema c.view t with
  | none => rfl
  | some schema =>
    obtain ⟨id, hid⟩ := hnamed.id t schema hschema
    have hat : TableAt c.view t schema id (readCatalog c.view t) := ⟨hschema, hid, rfl⟩
    dsimp only
    split_ifs with hexists
    · rw [hat.tableId, Holds.bind_iff, Holds.ofExcept_ok, Holds.bind_iff]
      apply (deleteKeys_holds _ hc).mono
      · intro _ c1 hbuf1
        rw [Holds.bind_iff]
        apply holds_writeKey hbuf1.isSome
        intro c2 hbuf2
        apply (forgetUniqueIndex_holds hbuf2.isSome).mono
        · intro _ c3 ⟨⟨ws, hws, hbuf3⟩, hregistry⟩
          have hbuf := hbuf1.trans (hbuf2.trans hbuf3)
          have hkept : readUniqueIndexes c2.view t = readUniqueIndexes c.view t := by
            rw [hbuf2.view, hbuf1.view, Kv.commit_cons, Kv.commit_nil]
            apply congrArg fun names : Option (List Name) => names.getD []
            rw [Kv.get_write_of_ne (by simp), Kv.get_commit_deletes, if_neg]
            intro hmem
            obtain ⟨v, p, heq⟩ := indexPrefix_isPrefix.mp (mem_scanRange_prefixed.mp hmem).1
            exact absurd heq (by simp)
          refine ⟨schema, id, ⟨hat, ?_, ?_⟩, _, hbuf⟩
          · rw [hbuf.view]
            exact indexDropped_commit hws
          · rw [← hkept]
            exact hregistry
        · exact fun _ _ hfail => hfail
      · exact fun _ _ hfail => hfail
    · rfl

theorem ConnAt.dropIndex_holds (h : ConnAt c t schema id catalog) {index : Name} :
    Holds (dropIndex t index) c
      (fun _ c' => ConnAt c' t (withoutIndex schema index) id catalog) (fun _ c' => c' = c) := by
  apply (dropIndex_forgotten h.txn h.ok.view.named index).mono
  · intro _ c' ⟨schema', id', hforgotten, ws, hbuf⟩
    obtain rfl : schema = schema' :=
        Option.some.inj (h.table.schema.symm.trans hforgotten.table.schema)
    obtain rfl : id = id' := Option.some.inj (h.table.id.symm.trans hforgotten.table.id)
    have hdrop := hforgotten.dropped
    have hcatalog : readCatalog c'.view t = catalog :=
      (hdrop.other (.colcat t) (by simp) (by simp) (by simp)).trans h.table.catalog
    have hid : resolveTableId c'.view t = some id :=
      (hdrop.other (.tableid t) (by simp) (by simp) (by simp)).trans h.table.id
    have hrows : readRow c'.view id = readRow c.view id :=
      funext fun p => hdrop.other (.row id p) (by simp) (by simp) (by simp)
    have hok : TableOk (withoutIndex schema index) (readCatalog c'.view t)
        (readRow c'.view id) (readEntry c'.view id) := by
      rw [hcatalog, hrows]
      apply h.tableOk.dropIndex hdrop.entries
      intro n v p hn
      apply hdrop.other (.indexEntry id n v p) (by simp) (by simp)
      intro v' p' heq
      exact hn (StorageKey.indexEntry.inj heq).2.1
    have hframe : ∀ k, ¬Owned t id k → c'.view.get k = c.view.get k := by
      intro k hk
      apply hdrop.other k
      · exact fun heq => hk (heq ▸ rfl)
      · exact fun heq => hk (heq ▸ rfl)
      · exact fun v p heq => hk (heq ▸ rfl)
    have hname := h.ok.view.tableName h.table
    refine ⟨h.ok.of_table h.table hbuf hframe hdrop.schema hname hok ?_, hbuf.isSome,
      hdrop.schema, hid, hcatalog⟩
    intro hpk p st hst
    rw [hrows] at hst
    exact h.ok.viewKeys t schema id h.table.schema h.table.id hpk p st hst
  · exact fun _ _ hfail => hfail

theorem dropIndex_holds (h : InTxn c) (index : Name) :
    Holds (dropIndex t index) c (fun _ c' => InTxn c') (fun _ c' => c' = c) := by
  cases hschema : readSchema c.view t with
  | none =>
    unfold dropIndex
    rw [Holds.bind_iff, Holds.get_iff]
    dsimp only
    rw [hschema]
    rfl
  | some schema =>
    obtain ⟨id, hat⟩ := h.connAt hschema
    apply hat.dropIndex_holds.mono
    · intro _ c' h'
      exact h'.inTxn
    · intro e c' h'
      exact h'

theorem dropIndexes_holds (indexes : List (SchemaIndex G)) (h : InTxn c)
    (hschema : readSchema c.view t = some schema) :
    Holds (indexes.forM fun i => dropIndex t i.name) c
      (fun _ c' => InTxn c' ∧ ∃ schema', readSchema c'.view t = some schema' ∧
        ∀ i ∈ schema'.indexes, i ∈ schema.indexes ∧ i ∉ indexes)
      (fun _ c' => InTxn c') := by
  induction indexes generalizing c schema with
  | nil => exact ⟨h, schema, hschema, fun i hi => ⟨hi, List.not_mem_nil⟩⟩
  | cons j indexes ih =>
    obtain ⟨id, hat⟩ := h.connAt hschema
    change Holds (dropIndex t j.name >>= fun _ => indexes.forM fun i => dropIndex t i.name) c _ _
    rw [Holds.bind_iff]
    apply hat.dropIndex_holds.mono
    · intro _ c1 h1
      apply (ih h1.inTxn h1.table.schema).mono
      · intro _ c2 ⟨h2, schema', hschema', hall⟩
        refine ⟨h2, schema', hschema', ?_⟩
        intro i hi
        obtain ⟨hmem, hrest⟩ := hall i hi
        obtain ⟨hold, hname⟩ := mem_withoutIndex.mp hmem
        refine ⟨hold, ?_⟩
        rw [List.mem_cons, not_or]
        exact ⟨fun heq => hname (heq ▸ rfl), hrest⟩
      · intro e c2 h2
        exact h2
    · intro e c1 hsame
      exact hsame ▸ h

theorem dropColumnStmt_holds (hG : Lawful G) (h : InTxn c) (column : Name) (ifExists : Bool) :
    Holds (dropColumnStmt t column ifExists) c (fun _ c' => InTxn c') (fun _ c' => InTxn c') := by
  unfold dropColumnStmt
  rw [Holds.bind_iff, Holds.get_iff]
  dsimp only
  rw [Holds.bind_iff]
  have hfinish : ∀ c1 : Conn G, InTxn c1 → (∀ schema, readSchema c1.view t = some schema →
      ∀ i ∈ schema.indexes, column ∉ G.mentions i.expr) →
        Holds (dropColumn t column ifExists) c1 (fun _ c' => InTxn c') (fun _ c' => InTxn c') := by
    intro c1 h1 hunused
    apply (dropColumn_holds hG h1 hunused).mono
    · intro _ c2 h2
      exact h2
    · intro e c2 hsame
      exact hsame ▸ h1
  cases hschema : readSchema c.view t with
  | none =>
    have hnil : indexDefs c.view t = [] := by rw [indexDefs, hschema]
    rw [hnil]
    apply hfinish c h
    intro schema hsome
    rw [hschema] at hsome
    exact absurd hsome (by simp)
  | some schema =>
    have hdefs : indexDefs c.view t = schema.indexes := by rw [indexDefs, hschema]
    rw [hdefs]
    apply (dropIndexes_holds _ h hschema).mono
    · rintro _ c1 ⟨h1, schema', hschema', hall⟩
      apply hfinish c1 h1
      intro schema'' hsome i hi
      rw [hschema', Option.some.injEq] at hsome
      subst hsome
      obtain ⟨hold, hnot⟩ := hall i hi
      intro hmentions
      exact hnot (List.mem_filter.mpr ⟨hold, decide_eq_true hmentions⟩)
    · intro e c1 h1
      exact h1

def withIndex (schema : Schema G) (i : SchemaIndex G) : Schema G :=
  { schema with indexes := schema.indexes ++ [i] }

theorem mem_withIndex {i j : SchemaIndex G} :
    j ∈ (withIndex schema i).indexes ↔ j ∈ schema.indexes ∨ j = i := by
  unfold withIndex
  rw [List.mem_append, List.mem_singleton]

structure BackfillBatch (columns : Option (List Name)) (id : UInt64) (i : SchemaIndex G)
    (rows : List (G.Key × DataRow G.Value)) (ws : Batch G) : Prop where
  evaluable : ∀ q ∈ rows, ∃ v, indexBytes columns q.2 i = .ok v
  mem_iff : ∀ w, w ∈ ws ↔ ∃ q ∈ rows, ∃ v p, indexBytes columns q.2 i = .ok v ∧
    keyBytes q.1 = .ok p ∧ w = .put (.indexEntry id i.name v p) q.1

theorem backfill_holds {columns : Option (List Name)} {i : SchemaIndex G}
    {rows : List (G.Key × DataRow G.Value)} (hc : c.txn.isSome = true) :
    Holds (rows.forM (backfillEntry id i columns)) c
      (fun _ c' => ∃ ws, BackfillBatch columns id i rows ws ∧ Buffered c c' ws)
      (fun _ _ => True) := by
  have hround : ∀ q ∈ rows, ∀ c1 : Conn G, True → c1.txn.isSome = true →
      Holds (backfillEntry id i columns q) c1
        (fun _ c2 => True ∧ ∃ ws, (∃ v p, indexBytes columns q.2 i = .ok v ∧
          keyBytes q.1 = .ok p ∧ ws = [.put (.indexEntry id i.name v p) q.1]) ∧
            Buffered c1 c2 ws) (fun _ _ => True) := by
    intro q _ c1 _ hc1
    unfold backfillEntry
    rw [Holds.bind_iff]
    apply holds_ofExcept
    · intro value hvalue
      rw [Holds.bind_iff]
      apply holds_ofExcept
      · intro v hv
        rw [Holds.bind_iff]
        apply holds_ofExcept
        · intro p hp
          apply holds_writeKey hc1
          intro c2 hbuf
          exact ⟨trivial, _, ⟨v, p, indexBytes_eq_ok.mpr ⟨value, hvalue, hv⟩, hp, rfl⟩, hbuf⟩
        · exact fun _ _ => trivial
      · exact fun _ _ => trivial
    · exact fun _ _ => trivial
  apply (holds_forM_buffered rows hc trivial hround).mono
  · intro _ c1 ⟨_, ws, hrounds, hbuf⟩
    refine ⟨ws, ⟨?_, ?_⟩, hbuf⟩
    · intro q hq
      obtain ⟨_, ⟨v, _, hv, -⟩, -⟩ := hrounds.all q hq
      exact ⟨v, hv⟩
    · intro w
      constructor
      · intro hw
        obtain ⟨q, hq, _, ⟨v, p, hv, hp, rfl⟩, hmem⟩ := hrounds.only w hw
        exact ⟨q, hq, v, p, hv, hp, List.mem_singleton.mp hmem⟩
      · intro ⟨q, hq, v, p, hv, hp, hw⟩
        obtain ⟨_, ⟨v', p', hv', hp', rfl⟩, hsub⟩ := hrounds.all q hq
        obtain rfl : v' = v := Except.ok.inj (hv'.symm.trans hv)
        obtain rfl : p' = p := Except.ok.inj (hp'.symm.trans hp)
        rw [hw]
        exact hsub _ (by simp)
  · intro e c1 h
    exact h

theorem BackfillBatch.readEntry {s : Store G} {i : SchemaIndex G} {ws : Batch G}
    (h : BackfillBatch (evalColumns schema) id i (logicalRows s catalog (scanTable s id)) ws)
    (hok : TableOk schema catalog (readRow s id) (readEntry s id))
    (hnew : ∀ j ∈ schema.indexes, j.name ≠ i.name) (v p : List UInt8) (k : G.Key) :
    readEntry (s.commit ws) id i.name v p = some k ↔ ∃ st, readRow s id p = some st ∧ k = st.key ∧
      indexBytes (evalColumns schema) (toLogical catalog st.row) i = .ok v := by
  have hkey : ∀ q ∈ logicalRows s catalog (scanTable s id), ∀ p, keyBytes q.1 = .ok p →
      ∃ st, readRow s id p = some st ∧ q = (st.key, toLogical catalog st.row) := by
    intro q hq p hp
    obtain ⟨p', st, hst, rfl⟩ := mem_logicalRows_scanTable.mp hq
    obtain rfl : p' = p := Except.ok.inj ((hok.row p' st hst).key.symm.trans hp)
    exact ⟨st, hst, rfl⟩
  by_cases hex : ∃ st, readRow s id p = some st ∧
      indexBytes (evalColumns schema) (toLogical catalog st.row) i = .ok v
  · obtain ⟨st, hst, hv⟩ := hex
    have hmem := (h.mem_iff (.put (.indexEntry id i.name v p) st.key)).mpr
      ⟨_, mem_logicalRows_scanTable.mpr ⟨p, st, hst, rfl⟩, v, p, hv, (hok.row p st hst).key, rfl⟩
    have huniq : ∀ w' ∈ ws, w'.key = .indexEntry id i.name v p →
        w' = .put (.indexEntry id i.name v p) st.key := by
      intro w' hw' heq
      obtain ⟨q, hq, v', p', hv', hp', rfl⟩ := (h.mem_iff w').mp hw'
      obtain ⟨-, -, rfl, rfl⟩ := StorageKey.indexEntry.inj heq
      obtain ⟨st', hst', rfl⟩ := hkey q hq p' hp'
      obtain rfl : st = st' := Option.some.inj (hst.symm.trans hst')
      rfl
    have hget : Sql.readEntry (s.commit ws) id i.name v p = some st.key :=
      Kv.get_commit_of_mem hmem huniq
    rw [hget, Option.some.injEq]
    constructor
    · intro hk
      exact ⟨st, hst, hk.symm, hv⟩
    · intro ⟨st', hst', hk, _⟩
      obtain rfl : st = st' := Option.some.inj (hst.symm.trans hst')
      exact hk.symm
  · have hget : Sql.readEntry (s.commit ws) id i.name v p = Sql.readEntry s id i.name v p := by
      apply Kv.get_commit_of_forall_ne
      intro w hw heq
      obtain ⟨q, hq, v', p', hv', hp', rfl⟩ := (h.mem_iff w).mp hw
      obtain ⟨-, -, rfl, rfl⟩ := StorageKey.indexEntry.inj heq
      obtain ⟨st, hst, rfl⟩ := hkey q hq p' hp'
      exact hex ⟨st, hst, hv'⟩
    rw [hget, hok.entry]
    constructor
    · intro ⟨st, _, _, j, hj, hname, _⟩
      exact absurd hname (hnew j hj)
    · intro ⟨st, hst, _, hv⟩
      exact absurd ⟨st, hst, hv⟩ hex

theorem TableOk.createIndex {s : Store G} {i : SchemaIndex G} {ws : Batch G}
    (hok : TableOk schema catalog (readRow s id) (readEntry s id))
    (h : BackfillBatch (evalColumns schema) id i (logicalRows s catalog (scanTable s id)) ws)
    (hnew : ∀ j ∈ schema.indexes, j.name ≠ i.name) (hexpr : indexExprOk schema i.expr = true) :
    TableOk (withIndex schema i) catalog (readRow s id) (readEntry (s.commit ws) id) := by
  constructor
  · exact hok.columns_nodup
  · have hname : i.name ∉ schema.indexes.map SchemaIndex.name := by
      intro hmem
      obtain ⟨j, hj, hji⟩ := List.mem_map.mp hmem
      exact hnew j hj hji
    have hconcat := List.Nodup.concat hname hok.indexes_nodup
    rw [List.concat_eq_append] at hconcat
    simpa [withIndex] using hconcat
  · intro j hj
    rcases mem_withIndex.mp hj with hj | rfl
    · exact hok.exprs j hj
    · exact hexpr
  · exact hok.catalog_fits
  · intro p st hst
    have hrow := hok.row p st hst
    refine ⟨hrow.key, hrow.fits, ?_⟩
    intro j hj
    rcases mem_withIndex.mp hj with hj | rfl
    · exact hrow.evaluable j hj
    · exact h.evaluable (st.key, toLogical catalog st.row)
        (mem_logicalRows_scanTable.mpr ⟨p, st, hst, rfl⟩)
  · intro n v p k
    by_cases hn : n = i.name
    · subst n
      rw [h.readEntry hok hnew]
      apply exists_congr
      intro st
      apply and_congr_right
      intro _
      apply and_congr_right
      intro _
      constructor
      · intro hv
        exact ⟨i, mem_withIndex.mpr (Or.inr rfl), rfl, hv⟩
      · intro ⟨j, hj, hname, hv⟩
        rcases mem_withIndex.mp hj with hj | rfl
        · exact absurd hname (hnew j hj)
        · exact hv
    · have hget : readEntry (s.commit ws) id n v p = readEntry s id n v p := by
        apply Kv.get_commit_of_forall_ne
        intro w hw heq
        obtain ⟨q, hq, v', p', hv', hp', rfl⟩ := (h.mem_iff w).mp hw
        exact hn (StorageKey.indexEntry.inj heq).2.1.symm
      rw [hget, hok.entry]
      apply exists_congr
      intro st
      apply and_congr_right
      intro _
      apply and_congr_right
      intro _
      constructor
      · intro ⟨j, hj, hname, hv⟩
        exact ⟨j, mem_withIndex.mpr (Or.inl hj), hname, hv⟩
      · intro ⟨j, hj, hname, hv⟩
        rcases mem_withIndex.mp hj with hj | rfl
        · exact ⟨j, hj, hname, hv⟩
        · exact absurd hname.symm hn

/-- The entries of the rows of `s`, and a new index for the schema. -/
structure IndexBatch (s : Store G) (t : Name) (schema : Schema G) (id : UInt64)
    (i : SchemaIndex G) (entries : Batch G) : Prop where
  table : TableAt s t schema id (readCatalog s t)
  new : ∀ j ∈ schema.indexes, j.name ≠ i.name
  expr : indexExprOk schema i.expr = true
  entries : BackfillBatch (evalColumns schema) id i
    (logicalRows s (readCatalog s t) (scanTable s id)) entries

theorem createIndexStmt_indexed (hc : c.txn.isSome = true) (index : Name) (expr : G.Expr)
    (asc : Option Bool) :
    Holds (createIndexStmt t index expr asc) c (fun _ c' => ∃ schema id i entries,
      i = ⟨index, expr, indexOrd asc⟩ ∧ IndexBatch c.view t schema id i entries ∧
        Buffered c c' (entries ++ [.put (.schema t) (withIndex schema i)])) (fun _ _ => True) := by
  unfold createIndexStmt
  rw [Holds.bind_iff, Holds.get_iff, Holds.bind_iff]
  apply holds_getSchema
  · intro schema hschema
    split_ifs with hexpr
    · unfold createIndex
      rw [Holds.bind_iff, Holds.get_iff]
      dsimp only
      rw [hschema]
      dsimp only
      split_ifs with hexists
      · trivial
      · have hnew : ∀ j ∈ schema.indexes, j.name ≠ index := by
          intro j hj heq
          exact hexists (List.any_eq_true.mpr ⟨j, hj, decide_eq_true heq⟩)
        rw [Holds.bind_iff]
        apply holds_ofExcept
        · intro id hid
          have hid' : resolveTableId c.view t = some id := by
            unfold tableId at hid
            cases hresolve : resolveTableId c.view t with
            | none => simp [hresolve] at hid
            | some id' =>
              rw [hresolve] at hid
              rw [Except.ok.inj hid]
          have hat : TableAt c.view t schema id (readCatalog c.view t) := ⟨hschema, hid', rfl⟩
          have hcollect : collectRows c.view t = .ok
              (logicalRows c.view (readCatalog c.view t) (scanTable c.view id)) := scanData_eq hat
          rw [hcollect, Holds.bind_iff, Holds.ofExcept_ok, Holds.bind_iff]
          apply (backfill_holds hc).mono
          · intro _ c1 ⟨entries, hentries, hbuf⟩
            apply holds_writeKey hbuf.isSome
            intro c2 hbuf2
            exact ⟨schema, id, ⟨index, expr, indexOrd asc⟩, entries, rfl,
              ⟨hat, hnew, hexpr, hentries⟩, hbuf.trans hbuf2⟩
          · exact fun _ _ _ => trivial
        · exact fun _ _ => trivial
    · trivial
  · trivial

theorem createIndexStmt_holds (h : InTxn c) (index : Name) (expr : G.Expr) (asc : Option Bool) :
    Holds (createIndexStmt t index expr asc) c (fun _ c' => InTxn c') (fun _ _ => True) := by
  apply (createIndexStmt_indexed h.txn index expr asc).mono
  · intro _ c' ⟨schema, id, i, entries, _, hbatch, hbuf⟩
    have hat := hbatch.table
    have hok := h.ok.view.tableOk hat
    have hview : c'.view = (c.view.commit entries).write
        (.put (.schema t) (withIndex schema i)) := by
      rw [hbuf.view, Kv.commit_append]
      rfl
    have hget : ∀ k, k ≠ .schema t → (∀ v p, k ≠ .indexEntry id i.name v p) →
        c'.view.get k = c.view.get k := by
      intro k hk hentry
      rw [hview, Kv.get_write_of_ne hk]
      apply Kv.get_commit_of_forall_ne
      intro w hw heq
      obtain ⟨q, _, v, p, _, _, rfl⟩ := (hbatch.entries.mem_iff w).mp hw
      exact hentry v p heq.symm
    have hschema2 : readSchema c'.view t = some (withIndex schema i) := by
      rw [hview]
      exact Kv.get_write_put ..
    have hrows : readRow c'.view id = readRow c.view id :=
      funext fun p => hget (.row id p) (by simp) (by simp)
    have hentries : readEntry c'.view id = readEntry (c.view.commit entries) id := by
      funext n v p
      rw [hview]
      exact Kv.get_write_of_ne (by simp)
    have hcatalog : readCatalog c'.view t = readCatalog c.view t :=
      hget (.colcat t) (by simp) (by simp)
    have hok' : TableOk (withIndex schema i) (readCatalog c'.view t) (readRow c'.view id)
        (readEntry c'.view id) := by
      rw [hcatalog, hrows, hentries]
      exact hok.createIndex hbatch.entries hbatch.new hbatch.expr
    have hframe : ∀ k, ¬Owned t id k → c'.view.get k = c.view.get k := by
      intro k hk
      apply hget k
      · exact fun heq => hk (heq ▸ rfl)
      · exact fun v p heq => hk (heq ▸ rfl)
    have hname : schema.tableName = t := h.ok.view.tableName hat
    refine ⟨h.ok.of_table hat hbuf hframe hschema2 hname hok' ?_, hbuf.isSome⟩
    intro hpk p st hst
    rw [hrows] at hst
    exact h.ok.viewKeys t schema id hat.schema hat.id hpk p st hst
  · exact fun _ _ _ => trivial

end BlueDB.Sql
