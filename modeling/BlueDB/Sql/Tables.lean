import BlueDB.Sql.Indexes

/-!
# Creating, dropping and renaming tables

A new table gets an id that was never handed out, a dropped one leaves nothing
behind under its id, and a renamed one keeps its id and its rows.
-/

namespace BlueDB.Sql

variable {G : Engine} {c c' : Conn G} {s s' : Store G} {t : Name} {schema : Schema G}
  {id : UInt64} {catalog : Option (ColumnCatalog G)}

theorem Integrity.noId (hs : Integrity s) (h : readSchema s t = none) :
    resolveTableId s t = none := by
  rw [Option.eq_none_iff_forall_ne_some]
  intro id hid
  have hread := hs.ids t id hid
  rw [h] at hread
  exact absurd hread (by simp)

theorem Integrity.noCatalog (hs : Integrity s) (h : readSchema s t = none) :
    readCatalog s t = none := by
  rw [← Option.not_isSome_iff_eq_none]
  intro hsome
  have hread := hs.catalogs t hsome
  rw [h] at hread
  exact absurd hread (by simp)

theorem nextTableId_toNat {last : Option UInt64} {next : UInt64}
    (h : (nextTableId last : Except (Error G) UInt64) = .ok next) :
    ∀ l, last = some l → next.toNat = l.toNat + 1 := by
  intro l hl
  subst hl
  simp only [nextTableId] at h
  split_ifs at h with hlimit
  rw [← Except.ok.inj h, UInt64.toNat_add, UInt64.toNat_one]
  exact Nat.mod_eq_of_lt hlimit

/-- The store with a new table. -/
structure TableCreated (s s' : Store G) (schema : Schema G) (next : UInt64) : Prop where
  fresh : readSchema s schema.tableName = none
  allocated : (nextTableId (readTableIdSeq s) : Except (Error G) UInt64) = .ok next
  other : ∀ k, k ≠ .tableidSeq → k ≠ .tableid schema.tableName → k ≠ .schema schema.tableName →
    k ≠ .metadata schema.tableName → s'.get k = s.get k
  seq : readTableIdSeq s' = some next
  id : resolveTableId s' schema.tableName = some next
  schema : readSchema s' schema.tableName = some schema

namespace TableCreated

variable {next : UInt64}

theorem lt_next (h : TableCreated s s' schema next) (hs : Integrity s)
    (hid : resolveTableId s t = some id) : id.toNat < next.toNat := by
  obtain ⟨last, hlast, hle⟩ := hs.counter t id hid
  have := nextTableId_toNat h.allocated last hlast
  omega

theorem dead (h : TableCreated s s' schema next) (hs : Integrity s) :
    (∀ p, readRow s next p = none) ∧ ∀ n v p, readEntry s next n v p = none :=
  hs.dead next fun _ hid => (h.lt_next hs hid).false

theorem rows (h : TableCreated s s' schema next) (id : UInt64) : readRow s' id = readRow s id :=
  funext fun p => h.other (.row id p) (by simp) (by simp) (by simp) (by simp)

theorem entries (h : TableCreated s s' schema next) (id : UInt64) :
    readEntry s' id = readEntry s id :=
  funext fun n => funext fun v => funext fun p =>
    h.other (.indexEntry id n v p) (by simp) (by simp) (by simp) (by simp)

theorem ids (h : TableCreated s s' schema next) (ht : t ≠ schema.tableName) :
    resolveTableId s' t = resolveTableId s t :=
  h.other (.tableid t) (by simp) (by simpa using ht) (by simp) (by simp)

theorem schemas (h : TableCreated s s' schema next) (ht : t ≠ schema.tableName) :
    readSchema s' t = readSchema s t :=
  h.other (.schema t) (by simp) (by simp) (by simpa using ht) (by simp)

theorem catalogs (h : TableCreated s s' schema next) (t : Name) :
    readCatalog s' t = readCatalog s t :=
  h.other (.colcat t) (by simp) (by simp) (by simp) (by simp)

theorem integrity (h : TableCreated s s' schema next) (hs : Integrity s)
    (hindexes : schema.indexes = []) (hnodup : (schemaColumns schema).Nodup) : Integrity s' := by
  have hcat := hs.noCatalog h.fresh
  constructor
  · intro t schema' hread
    by_cases ht : t = schema.tableName
    · subst t
      rw [h.schema, Option.some.injEq] at hread
      subst schema'
      refine ⟨rfl, next, h.id, ?_⟩
      rw [h.rows, h.entries, h.catalogs, hcat]
      obtain ⟨hrows, hentries⟩ := h.dead hs
      constructor
      · exact hnodup
      · rw [hindexes]
        exact List.nodup_nil
      · simp [hindexes]
      · intro columns _ cat hsome
        exact absurd hsome (by simp)
      · intro p st hst
        rw [hrows] at hst
        exact absurd hst (by simp)
      · intro n v p k
        rw [hentries, hrows]
        simp
    · rw [h.schemas ht] at hread
      obtain ⟨hname, id', hid', hok⟩ := hs.table t schema' hread
      refine ⟨hname, id', (h.ids ht).trans hid', ?_⟩
      rw [h.rows, h.entries, h.catalogs]
      exact hok
  · intro t id' hid'
    by_cases ht : t = schema.tableName
    · rw [ht, h.schema]
      rfl
    · rw [h.schemas ht]
      exact hs.ids t id' ((h.ids ht).symm.trans hid')
  · have hne : ∀ t', t' ≠ schema.tableName → ∀ id', resolveTableId s' t' = some id' →
        id' ≠ next := by
      intro t' ht' id' hid' heq
      rw [h.ids ht'] at hid'
      exact (h.lt_next hs hid').ne (congrArg _ heq)
    intro t t' id' hid hid'
    by_cases ht : t = schema.tableName <;> by_cases ht' : t' = schema.tableName
    · exact ht.trans ht'.symm
    · rw [ht, h.id, Option.some.injEq] at hid
      exact absurd hid.symm (hne t' ht' id' hid')
    · rw [ht', h.id, Option.some.injEq] at hid'
      exact absurd hid'.symm (hne t ht id' hid)
    · exact hs.ids_inj t t' id' ((h.ids ht).symm.trans hid) ((h.ids ht').symm.trans hid')
  · intro t hsome
    rw [h.catalogs] at hsome
    have hold := hs.catalogs t hsome
    by_cases ht : t = schema.tableName
    · rw [ht, h.schema]
      rfl
    · rw [h.schemas ht]
      exact hold
  · intro t id' hid'
    refine ⟨next, h.seq, ?_⟩
    by_cases ht : t = schema.tableName
    · rw [ht, h.id, Option.some.injEq] at hid'
      rw [hid']
    · exact (h.lt_next hs ((h.ids ht).symm.trans hid')).le
  · intro id' hdead
    rw [h.rows, h.entries]
    apply hs.dead id'
    intro t hid
    by_cases ht : t = schema.tableName
    · have hread := hs.ids t id' hid
      rw [ht, h.fresh] at hread
      exact absurd hread (by simp)
    · exact hdead t ((h.ids ht).trans hid)

theorem appendKeys {live : Store G} {seq : UInt64 → Option ℤ} (h : TableCreated s s' schema next)
    (hs : Integrity s) (hkeys : AppendKeys live seq s) : AppendKeys live seq s' := by
  intro t schema' id' hread hid hpk p st hst
  rw [h.rows] at hst
  by_cases ht : t = schema.tableName
  · rw [ht, h.id, Option.some.injEq] at hid
    rw [← hid, (h.dead hs).1 p] at hst
    exact absurd hst (by simp)
  · rw [h.schemas ht] at hread
    rw [h.ids ht] at hid
    exact hkeys t schema' id' hread hid hpk p st hst

end TableCreated

theorem insertNewSchema_holds (h : InTxn c) (hfresh : readSchema c.view schema.tableName = none) :
    Holds (insertSchema schema) c
      (fun _ c' => ∃ ws next, TableCreated c.view c'.view schema next ∧ Buffered c c' ws)
      (fun _ c' => c' = c) := by
  have hnone := h.ok.view.noId hfresh
  unfold insertSchema
  rw [Holds.bind_iff]
  apply enforceStrict_holds.mono
  · intro _ c1 hsame
    subst c1
    have hensure : Holds (ensureTableId schema.tableName) c
        (fun _ c' => ∃ next, (nextTableId (readTableIdSeq c.view) : Except (Error G) UInt64) =
          .ok next ∧ Buffered c c' [.put .tableidSeq next, .put (.tableid schema.tableName) next])
        (fun _ c' => c' = c) := by
      unfold ensureTableId
      rw [Holds.bind_iff, Holds.get_iff]
      dsimp only
      rw [hnone]
      dsimp only
      rw [Holds.bind_iff]
      apply holds_ofExcept
      · intro next hnext
        rw [Holds.bind_iff]
        apply holds_writeKey h.txn
        intro c1 hbuf1
        rw [Holds.bind_iff]
        apply holds_writeKey hbuf1.isSome
        intro c2 hbuf2
        exact ⟨next, hnext, hbuf1.trans hbuf2⟩
      · intro e _
        rfl
    rw [Holds.bind_iff]
    apply hensure.mono
    · intro _ c1 ⟨next, hnext, hbuf1⟩
      apply (writeSchema_holds hbuf1.isSome).mono
      · intro _ c2 ⟨ws, hws, hbuf2⟩
        refine ⟨_, next, ?_, hbuf1.trans hbuf2⟩
        rw [hbuf1.view] at hws
        constructor
        · exact hfresh
        · exact hnext
        · intro k hseq hid hschema hmeta
          rw [hbuf2.view, hbuf1.view, hws.other k hschema hmeta, Kv.commit_cons, Kv.commit_cons,
            Kv.commit_nil, Kv.get_write_of_ne hid, Kv.get_write_of_ne hseq]
        · rw [hbuf2.view, hbuf1.view, readTableIdSeq, hws.other _ (by simp) (by simp),
            Kv.commit_cons, Kv.commit_cons, Kv.commit_nil, Kv.get_write_of_ne (by simp),
            Kv.get_write_put]
        · rw [hbuf2.view, hbuf1.view, resolveTableId, hws.other _ (by simp) (by simp),
            Kv.commit_cons, Kv.commit_cons, Kv.commit_nil, Kv.get_write_put]
        · rw [hbuf2.view, hbuf1.view]
          exact hws.schema
      · intro e c2 hfail
        exact hfail
    · intro e c1 hfail
      exact hfail
  · intro e c1 hfail
    exact hfail.1

theorem createTableStmt_created (h : InTxn c) (columns : Option (List (ColumnDef G))) :
    Holds (createTableStmt t columns) c
      (fun _ c' => ((columns.getD []).map ColumnDef.name).Nodup ∧ ∃ ws next,
        TableCreated c.view c'.view ⟨t, columns, []⟩ next ∧ Buffered c c' ws)
      (fun _ c' => c' = c) := by
  unfold createTableStmt
  rw [Holds.bind_iff, Holds.get_iff]
  split_ifs with hexists hnodup
  · rfl
  · have hfresh : readSchema c.view t = none := by
      rw [← Option.not_isSome_iff_eq_none]
      exact hexists
    apply (insertNewSchema_holds h hfresh).mono
    · exact fun _ _ hcreated => ⟨hnodup, hcreated⟩
    · exact fun _ _ hfail => hfail
  · rfl

theorem createTableStmt_holds (h : InTxn c) (columns : Option (List (ColumnDef G))) :
    Holds (createTableStmt t columns) c (fun _ c' => InTxn c') (fun _ c' => c' = c) := by
  apply (createTableStmt_created h columns).mono
  · intro _ c1 ⟨hnodup, ws, next, hcreated, hbuf⟩
    have hview := hcreated.integrity h.ok.view rfl hnodup
    have hkeys := hcreated.appendKeys h.ok.view h.ok.viewKeys
    exact ⟨h.ok.buffered hbuf hview hkeys, hbuf.isSome⟩
  · exact fun _ _ hfail => hfail

/-- The store without a table: nothing is left under its id and its name. -/
structure TableDropped (s s' : Store G) (t : Name) (id : UInt64) : Prop where
  other : ∀ k, ¬Owned t id k → k ≠ .tableid t → s'.get k = s.get k
  rows : ∀ p, readRow s' id p = none
  entries : ∀ n v p, readEntry s' id n v p = none
  schema : readSchema s' t = none
  catalog : readCatalog s' t = none
  id : resolveTableId s' t = none

namespace TableDropped

theorem integrity (h : TableDropped s s' t id) (hs : Integrity s)
    (hid : resolveTableId s t = some id) : Integrity s' := by
  have hids : ∀ t', t' ≠ t → resolveTableId s' t' = resolveTableId s t' :=
    fun t' ht' => h.other (.tableid t') not_false (by simpa using ht')
  have hschemas : ∀ t', t' ≠ t → readSchema s' t' = readSchema s t' :=
    fun t' ht' => h.other (.schema t') ht' (by simp)
  have hcatalogs : ∀ t', t' ≠ t → readCatalog s' t' = readCatalog s t' :=
    fun t' ht' => h.other (.colcat t') ht' (by simp)
  have hrows : ∀ id', id' ≠ id → readRow s' id' = readRow s id' :=
    fun id' hne => funext fun p => h.other (.row id' p) hne (by simp)
  have hentries : ∀ id', id' ≠ id → readEntry s' id' = readEntry s id' :=
    fun id' hne => funext fun n => funext fun v => funext fun p =>
      h.other (.indexEntry id' n v p) hne (by simp)
  have hold : ∀ t' id', resolveTableId s' t' = some id' →
      t' ≠ t ∧ resolveTableId s t' = some id' := by
    intro t' id' hid'
    by_cases ht' : t' = t
    · rw [ht', h.id] at hid'
      exact absurd hid' (by simp)
    · exact ⟨ht', (hids t' ht').symm.trans hid'⟩
  constructor
  · intro t' schema' hread
    by_cases ht' : t' = t
    · rw [ht', h.schema] at hread
      exact absurd hread (by simp)
    · rw [hschemas t' ht'] at hread
      obtain ⟨hname, id', hid', hok⟩ := hs.table t' schema' hread
      have hne : id' ≠ id := fun heq => ht' (hs.ids_inj t' t id (heq ▸ hid') hid)
      refine ⟨hname, id', (hids t' ht').trans hid', ?_⟩
      rw [hcatalogs t' ht', hrows id' hne, hentries id' hne]
      exact hok
  · intro t' id' hid'
    obtain ⟨ht', hid''⟩ := hold t' id' hid'
    rw [hschemas t' ht']
    exact hs.ids t' id' hid''
  · intro t' t'' id' h' h''
    exact hs.ids_inj t' t'' id' (hold t' id' h').2 (hold t'' id' h'').2
  · intro t' hcat
    by_cases ht' : t' = t
    · rw [ht', h.catalog] at hcat
      exact absurd hcat (by simp)
    · rw [hcatalogs t' ht'] at hcat
      rw [hschemas t' ht']
      exact hs.catalogs t' hcat
  · intro t' id' hid'
    have hseq : readTableIdSeq s' = readTableIdSeq s := h.other .tableidSeq not_false (by simp)
    rw [hseq]
    exact hs.counter t' id' (hold t' id' hid').2
  · intro id' hdead
    by_cases hne : id' = id
    · subst id'
      exact ⟨h.rows, h.entries⟩
    · rw [hrows id' hne, hentries id' hne]
      apply hs.dead id'
      intro t' hid'
      by_cases ht' : t' = t
      · rw [ht', hid, Option.some.injEq] at hid'
        exact hne hid'.symm
      · exact hdead t' ((hids t' ht').trans hid')

theorem appendKeys {live : Store G} {seq : UInt64 → Option ℤ} (h : TableDropped s s' t id)
    (hkeys : AppendKeys live seq s) : AppendKeys live seq s' := by
  intro t' schema' id' hread hid' hpk p st hst
  by_cases ht' : t' = t
  · rw [ht', h.schema] at hread
    exact absurd hread (by simp)
  · have hne : id' ≠ id := by
      intro heq
      rw [heq, h.rows] at hst
      exact absurd hst (by simp)
    have hread' : readSchema s t' = some schema' :=
      (h.other (.schema t') ht' (by simp)).symm.trans hread
    have hid'' : resolveTableId s t' = some id' :=
      (h.other (.tableid t') not_false (by simpa using ht')).symm.trans hid'
    have hst' : readRow s id' p = some st := (h.other (.row id' p) hne (by simp)).symm.trans hst
    exact hkeys t' schema' id' hread' hid'' hpk p st hst'

end TableDropped

theorem get_commit_of_deletes {ws : Batch G} (h : ∀ w ∈ ws, w = .delete w.key) (k : StorageKey) :
    (s.commit ws).get k = if k ∈ ws.map Write.key then none else s.get k := by
  have hws : (ws.map Write.key).map Write.delete = ws := by
    rw [List.map_map]
    conv_rhs => rw [← List.map_id ws]
    apply List.map_congr_left
    intro w hw
    exact (h w hw).symm
  conv_lhs => rw [← hws]
  exact Kv.get_commit_deletes s _ k

/-- The records kept under the name of a table. -/
def nameKeys (t : Name) : List StorageKey :=
    [.schema t, .metadata t, .colcat t, .pkcat t, .tableid t]

structure DropBatch (schema : Schema G) (id : UInt64) (rows : List (G.Key × DataRow G.Value))
    (entries keys : Batch G) : Prop where
  entries : Rounds rows (fun q ws => ∃ p, keyBytes q.1 = .ok p ∧
    EntryBatch schema q.2 id p q.1 false ws) entries
  keys : Rounds rows (fun q ws => ∃ p, keyBytes q.1 = .ok p ∧ ws = [.delete (.row id p)]) keys

namespace DropBatch

variable {rows : List (G.Key × DataRow G.Value)} {entries keys : Batch G}

theorem mem_cases (h : DropBatch schema id rows entries keys) {w : Write (StorageKey.Value G)}
    (hw : w ∈ entries ++ (keys ++ (nameKeys t).map .delete)) : w = .delete w.key ∧
      ((∃ n v p, w.key = .indexEntry id n v p) ∨ (∃ p, w.key = .row id p) ∨
        w.key ∈ nameKeys t) := by
  rcases List.mem_append.mp hw with hw | hw
  · obtain ⟨q, -, ws, ⟨p, -, hbatch⟩, hmem⟩ := h.entries.only w hw
    obtain ⟨n, v, -, rfl⟩ := (hbatch.mem_iff w).mp hmem
    exact ⟨rfl, Or.inl ⟨n, v, p, rfl⟩⟩
  · rcases List.mem_append.mp hw with hw | hw
    · obtain ⟨q, -, ws, ⟨p, -, rfl⟩, hmem⟩ := h.keys.only w hw
      rw [List.mem_singleton.mp hmem]
      exact ⟨rfl, Or.inr (Or.inl ⟨p, rfl⟩)⟩
    · obtain ⟨k, hk, rfl⟩ := List.mem_map.mp hw
      exact ⟨rfl, Or.inr (Or.inr hk)⟩

theorem deletes (h : DropBatch schema id rows entries keys) :
    ∀ w ∈ entries ++ (keys ++ (nameKeys t).map .delete), w = .delete w.key :=
  fun _ hw => (h.mem_cases hw).1

theorem owned (h : DropBatch schema id rows entries keys) :
    ∀ w ∈ entries ++ (keys ++ (nameKeys t).map .delete), Owned t id w.key ∨ w.key = .tableid t := by
  intro w hw
  rcases (h.mem_cases hw).2 with ⟨n, v, p, hk⟩ | ⟨p, hk⟩ | hk
  · exact Or.inl (hk ▸ rfl)
  · exact Or.inl (hk ▸ rfl)
  · simp only [nameKeys, List.mem_cons, List.not_mem_nil, or_false] at hk
    rcases hk with hk | hk | hk | hk | hk <;> simp [hk, Owned]

theorem not_uniqueidx (h : DropBatch schema id rows entries keys) :
    ∀ w ∈ entries ++ (keys ++ (nameKeys t).map .delete), w.key ≠ .uniqueidx t := by
  intro w hw heq
  rcases (h.mem_cases hw).2 with ⟨n, v, p, hk⟩ | ⟨p, hk⟩ | hk
  · cases heq.symm.trans hk
  · cases heq.symm.trans hk
  · simp [nameKeys, heq] at hk

theorem tableDropped (h : DropBatch schema id (logicalRows s catalog (scanTable s id)) entries keys)
    (hok : TableOk schema catalog (readRow s id) (readEntry s id)) :
    TableDropped s (s.commit (entries ++ (keys ++ (nameKeys t).map .delete))) t id := by
  have hget := get_commit_of_deletes (s := s) (h.deletes (t := t))
  have hrow : ∀ p st, readRow s id p = some st → (st.key, toLogical catalog st.row) ∈
      logicalRows s catalog (scanTable s id) ∧ keyBytes st.key = .ok p :=
    fun p st hst => ⟨mem_logicalRows_scanTable.mpr ⟨p, st, hst, rfl⟩, (hok.row p st hst).key⟩
  have hname : ∀ k ∈ nameKeys t, (s.commit (entries ++ (keys ++ (nameKeys t).map .delete))).get k =
      none := by
    intro k hk
    rw [hget, if_pos]
    apply List.mem_map_of_mem (a := Write.delete k)
    exact List.mem_append_right _ (List.mem_append_right _ (List.mem_map_of_mem hk))
  constructor
  · intro k hk hid
    rw [hget, if_neg]
    intro hmem
    obtain ⟨w, hw, rfl⟩ := List.mem_map.mp hmem
    exact (h.owned w hw).elim hk hid
  · intro p
    unfold readRow
    rw [hget]
    split_ifs with hmem
    · rfl
    · rw [Option.eq_none_iff_forall_ne_some]
      intro st hst
      obtain ⟨hq, hp⟩ := hrow p st hst
      obtain ⟨_, ⟨p', hp', rfl⟩, hsub⟩ := h.keys.all _ hq
      obtain rfl : p' = p := Except.ok.inj (hp'.symm.trans hp)
      apply hmem
      apply List.mem_map_of_mem (a := Write.delete (StorageKey.row id p'))
      exact List.mem_append_right _ (List.mem_append_left _ (hsub _ (List.mem_singleton_self _)))
  · intro n v p
    unfold readEntry
    rw [hget]
    split_ifs with hmem
    · rfl
    · rw [Option.eq_none_iff_forall_ne_some]
      intro k hk
      obtain ⟨st, hst, -, hindexed⟩ := (hok.entry n v p k).mp hk
      obtain ⟨hq, hp⟩ := hrow p st hst
      obtain ⟨_, ⟨p', hp', hbatch⟩, hsub⟩ := h.entries.all _ hq
      obtain rfl : p' = p := Except.ok.inj (hp'.symm.trans hp)
      apply hmem
      apply List.mem_map_of_mem (a := entryWrite id n v p' st.key false)
      exact List.mem_append_left _ (hsub _ ((hbatch.mem_iff _).mpr ⟨n, v, hindexed, rfl⟩))
  · exact hname (.schema t) (by simp [nameKeys])
  · exact hname (.colcat t) (by simp [nameKeys])
  · exact hname (.tableid t) (by simp [nameKeys])

end DropBatch

theorem dropEntries_holds (h : ConnAt c t schema id catalog) :
    Holds ((logicalRows c.view catalog (scanTable c.view id)).forM
        fun q => applyIndexEntries t q.1 q.2 false) c
      (fun _ c' => ∃ ws, Rounds (logicalRows c.view catalog (scanTable c.view id))
        (fun q ws => ∃ p, keyBytes q.1 = .ok p ∧ EntryBatch schema q.2 id p q.1 false ws) ws ∧
          Buffered c c' ws) (fun _ _ => False) := by
  have hround : ∀ q ∈ logicalRows c.view catalog (scanTable c.view id), ∀ c1 : Conn G,
      TableAt c1.view t schema id catalog → c1.txn.isSome = true →
      Holds (applyIndexEntries t q.1 q.2 false) c1 (fun _ c2 =>
        TableAt c2.view t schema id catalog ∧
        ∃ ws, (∃ p, keyBytes q.1 = .ok p ∧ EntryBatch schema q.2 id p q.1 false ws) ∧
          Buffered c1 c2 ws) (fun _ _ => False) := by
    intro q hq c1 hat hc1
    obtain ⟨p, st, hst, rfl⟩ := mem_logicalRows_scanTable.mp hq
    have hrow := h.tableOk.row p st hst
    apply (applyIndexEntries_holds hc1 hat hrow.key).mono
    · intro _ c2 ⟨ws, hws, hbuf⟩
      refine ⟨?_, ws, ⟨p, hrow.key, hws⟩, hbuf⟩
      rw [hbuf.view]
      exact hat.commit hws.isData
    · intro e c2 ⟨_, hdelete⟩
      exact hdelete rfl hrow.evaluable
  apply (holds_forM_buffered _ h.txn h.table hround).mono
  · intro _ c1 ⟨_, hws⟩
    exact hws
  · exact fun _ _ hfail => hfail

theorem dropRows_holds {rows : List (G.Key × DataRow G.Value)} (hc : c.txn.isSome = true)
    (hrows : ∀ q ∈ rows, ∃ p, (keyBytes q.1 : Except (Error G) (List UInt8)) = .ok p) :
    Holds (rows.forM fun q => deleteRowKey id q.1) c
      (fun _ c' => ∃ ws, Rounds rows (fun q ws => ∃ p, keyBytes q.1 = .ok p ∧
        ws = [.delete (.row id p)]) ws ∧ Buffered c c' ws) (fun _ _ => False) := by
  have hround : ∀ q ∈ rows, ∀ c1 : Conn G, True → c1.txn.isSome = true →
      Holds (deleteRowKey id q.1) c1 (fun _ c2 => True ∧ ∃ ws, (∃ p, keyBytes q.1 = .ok p ∧
        ws = [.delete (.row id p)]) ∧ Buffered c1 c2 ws) (fun _ _ => False) := by
    intro q hq c1 _ hc1
    obtain ⟨p, hp⟩ := hrows q hq
    unfold deleteRowKey
    rw [hp, Holds.bind_iff, Holds.ofExcept_ok]
    apply holds_deleteKey hc1
    intro c2 hbuf
    exact ⟨trivial, _, ⟨p, rfl, rfl⟩, hbuf⟩
  apply (holds_forM_buffered rows hc trivial hround).mono
  · intro _ c1 ⟨_, hws⟩
    exact hws
  · exact fun _ _ hfail => hfail

theorem dropTableStmt_dropped (h : InTxn c) :
    Holds (dropTableStmt t) c
      (fun _ c' => ∃ schema id ws, TableAt c.view t schema id (readCatalog c.view t) ∧
        TableDropped c.view c'.view t id ∧
        c'.view.get (.uniqueidx t) = c.view.get (.uniqueidx t) ∧ Buffered c c' ws)
      (fun _ c' => c' = c) := by
  unfold dropTableStmt
  rw [Holds.bind_iff, Holds.get_iff]
  rw [Holds.bind_iff]
  apply holds_getSchema
  · intro schema hschema
    obtain ⟨id, hat⟩ := h.connAt hschema
    have hcollect : collectRows c.view t = .ok
        (logicalRows c.view (readCatalog c.view t) (scanTable c.view id)) := hat.scanData
    unfold deleteSchema
    rw [Holds.bind_iff, Holds.get_iff]
    dsimp only
    rw [hat.table.tableId, hcollect, Holds.bind_iff, Holds.ofExcept_ok, Holds.bind_iff,
      Holds.ofExcept_ok, Holds.bind_iff]
    apply (dropEntries_holds hat).mono
    · intro _ c1 ⟨entries, hentries, hbuf1⟩
      have hkeys : ∀ q ∈ logicalRows c.view (readCatalog c.view t) (scanTable c.view id),
          ∃ p, (keyBytes q.1 : Except (Error G) (List UInt8)) = .ok p := by
        intro q hq
        obtain ⟨p, st, hst, rfl⟩ := mem_logicalRows_scanTable.mp hq
        exact ⟨p, (hat.tableOk.row p st hst).key⟩
      rw [Holds.bind_iff]
      apply (dropRows_holds hbuf1.isSome hkeys).mono
      · intro _ c2 ⟨keys, hkeys, hbuf2⟩
        change Holds ((nameKeys t).forM deleteKey) c2 _ _
        apply (deleteKeys_holds (nameKeys t) hbuf2.isSome).mono
        · intro _ c3 hbuf3
          have hbuf := hbuf1.trans (hbuf2.trans hbuf3)
          have hbatch : DropBatch schema id
              (logicalRows c.view (readCatalog c.view t) (scanTable c.view id)) entries keys :=
            ⟨hentries, hkeys⟩
          refine ⟨schema, id, _, hat.table, ?_, ?_, hbuf⟩
          · rw [hbuf.view]
            exact hbatch.tableDropped hat.tableOk
          · rw [hbuf.view]
            apply Kv.get_commit_of_forall_ne
            exact fun w hw => hbatch.not_uniqueidx w hw
        · exact fun _ _ hfail => hfail
      · exact fun _ _ hfail => hfail.elim
    · exact fun _ _ hfail => hfail.elim
  · rfl

theorem dropTableStmt_holds (h : InTxn c) :
    Holds (dropTableStmt t) c (fun _ c' => InTxn c') (fun _ c' => c' = c) := by
  apply (dropTableStmt_dropped h).mono
  · intro _ c' ⟨schema, id, ws, hat, hdrop, _, hbuf⟩
    exact ⟨h.ok.buffered hbuf (hdrop.integrity h.ok.view hat.id)
      (hdrop.appendKeys h.ok.viewKeys), hbuf.isSome⟩
  · exact fun _ _ hfail => hfail

def withName (schema : Schema G) (new : Name) : Schema G := { schema with tableName := new }

/-- The record under `src`, if there is one, is under `dst`. -/
structure Moved (s s' : Store G) (src dst : StorageKey) (hkind : src.Value G = dst.Value G) :
    Prop where
  other : ∀ k, k ≠ src → k ≠ dst → s'.get k = s.get k
  gone : s'.get src = none
  moved : s'.get dst = ((s.get src).map (cast hkind)).or (s.get dst)

theorem moveKey_holds {src dst : StorageKey} {hkind : src.Value G = dst.Value G}
    (hc : c.txn.isSome = true) (hne : src ≠ dst) {fail : Error G → Conn G → Prop} :
    Holds (moveKey src dst hkind) c
      (fun _ c' => ∃ ws, Buffered c c' ws ∧ Moved c.view c'.view src dst hkind) fail := by
  unfold moveKey
  rw [Holds.bind_iff, Holds.get_iff]
  cases hsrc : c.view.get src with
  | none =>
    refine ⟨[], Buffered.refl hc, fun k _ _ => rfl, hsrc, ?_⟩
    rw [hsrc]
    rfl
  | some v =>
    dsimp only
    rw [Holds.bind_iff]
    apply holds_writeKey hc
    intro c1 hbuf1
    apply holds_deleteKey hbuf1.isSome
    intro c2 hbuf2
    refine ⟨_, hbuf1.trans hbuf2, ?_⟩
    rw [hbuf2.view, hbuf1.view, Kv.commit_cons, Kv.commit_cons, Kv.commit_nil, Kv.commit_nil]
    constructor
    · intro k hk hk'
      rw [Kv.get_write_of_ne hk, Kv.get_write_of_ne hk']
    · exact Kv.get_write_delete ..
    · rw [Kv.get_write_of_ne hne.symm, Kv.get_write_put, hsrc]
      rfl

/-- The store with the records of a table under another name. -/
structure TableRenamed (s s' : Store G) (t new : Name) (schema : Schema G) (id : UInt64) :
    Prop where
  fresh : resolveTableId s new = none
  other : ∀ k, k ∉ nameKeys t → k ∉ nameKeys new → s'.get k = s.get k
  schema : readSchema s' new = some (withName schema new)
  id : resolveTableId s' new = some id
  catalog : readCatalog s' new = readCatalog s t
  oldSchema : readSchema s' t = none
  oldId : resolveTableId s' t = none
  oldCatalog : readCatalog s' t = none

namespace TableRenamed

variable {new : Name}

theorem rows (h : TableRenamed s s' t new schema id) (id' : UInt64) :
    readRow s' id' = readRow s id' :=
  funext fun p => h.other (.row id' p) (by simp [nameKeys]) (by simp [nameKeys])

theorem entries (h : TableRenamed s s' t new schema id) (id' : UInt64) :
    readEntry s' id' = readEntry s id' :=
  funext fun n => funext fun v => funext fun p =>
    h.other (.indexEntry id' n v p) (by simp [nameKeys]) (by simp [nameKeys])

theorem schemas (h : TableRenamed s s' t new schema id) {t' : Name} (ht : t' ≠ t)
    (hnew : t' ≠ new) : readSchema s' t' = readSchema s t' :=
  h.other (.schema t') (by simpa [nameKeys] using ht) (by simpa [nameKeys] using hnew)

theorem ids (h : TableRenamed s s' t new schema id) {t' : Name} (ht : t' ≠ t)
    (hnew : t' ≠ new) : resolveTableId s' t' = resolveTableId s t' :=
  h.other (.tableid t') (by simpa [nameKeys] using ht) (by simpa [nameKeys] using hnew)

theorem catalogs (h : TableRenamed s s' t new schema id) {t' : Name} (ht : t' ≠ t)
    (hnew : t' ≠ new) : readCatalog s' t' = readCatalog s t' :=
  h.other (.colcat t') (by simpa [nameKeys] using ht) (by simpa [nameKeys] using hnew)

theorem before (h : TableRenamed s s' t new schema id) {t' : Name} {id' : UInt64}
    (hid' : resolveTableId s' t' = some id') :
    t' = new ∧ id' = id ∨ t' ≠ new ∧ t' ≠ t ∧ resolveTableId s t' = some id' := by
  by_cases hnew : t' = new
  · rw [hnew, h.id, Option.some.injEq] at hid'
    exact Or.inl ⟨hnew, hid'.symm⟩
  · by_cases ht : t' = t
    · rw [ht, h.oldId] at hid'
      exact absurd hid' (by simp)
    · exact Or.inr ⟨hnew, ht, (h.ids ht hnew).symm.trans hid'⟩

theorem integrity (h : TableRenamed s s' t new schema id) (hs : Integrity s)
    (hat : TableAt s t schema id (readCatalog s t)) : Integrity s' := by
  have hok := hs.tableOk hat
  constructor
  · intro t' schema' hread
    by_cases hnew : t' = new
    · subst t'
      rw [h.schema, Option.some.injEq] at hread
      subst schema'
      refine ⟨rfl, id, h.id, ?_⟩
      rw [h.rows, h.entries, h.catalog]
      exact { hok with row := fun p st hst => { hok.row p st hst with } }
    · by_cases ht : t' = t
      · rw [ht, h.oldSchema] at hread
        exact absurd hread (by simp)
      · rw [h.schemas ht hnew] at hread
        obtain ⟨hname, id', hid', hok'⟩ := hs.table t' schema' hread
        refine ⟨hname, id', (h.ids ht hnew).trans hid', ?_⟩
        rw [h.rows, h.entries, h.catalogs ht hnew]
        exact hok'
  · intro t' id' hid'
    rcases h.before hid' with ⟨rfl, -⟩ | ⟨hnew, ht, hid''⟩
    · rw [h.schema]
      rfl
    · rw [h.schemas ht hnew]
      exact hs.ids t' id' hid''
  · intro t' t'' id' hid' hid''
    rcases h.before hid' with ⟨hnew', hsame'⟩ | ⟨-, ht', hold'⟩ <;>
      rcases h.before hid'' with ⟨hnew'', hsame''⟩ | ⟨-, ht'', hold''⟩
    · exact hnew'.trans hnew''.symm
    · exact absurd (hs.ids_inj t'' t id (hsame' ▸ hold'') hat.id) ht''
    · exact absurd (hs.ids_inj t' t id (hsame'' ▸ hold') hat.id) ht'
    · exact hs.ids_inj t' t'' id' hold' hold''
  · intro t' hcat
    by_cases hnew : t' = new
    · rw [hnew, h.schema]
      rfl
    · by_cases ht : t' = t
      · rw [ht, h.oldCatalog] at hcat
        exact absurd hcat (by simp)
      · rw [h.catalogs ht hnew] at hcat
        rw [h.schemas ht hnew]
        exact hs.catalogs t' hcat
  · intro t' id' hid'
    have hseq : readTableIdSeq s' = readTableIdSeq s :=
      h.other .tableidSeq (by simp [nameKeys]) (by simp [nameKeys])
    rw [hseq]
    rcases h.before hid' with ⟨-, rfl⟩ | ⟨-, -, hid''⟩
    · exact hs.counter t id' hat.id
    · exact hs.counter t' id' hid''
  · intro id' hdead
    rw [h.rows, h.entries]
    have hne : id' ≠ id := fun heq => hdead new (heq ▸ h.id)
    apply hs.dead id'
    intro t' hid'
    by_cases ht : t' = t
    · rw [ht, hat.id, Option.some.injEq] at hid'
      exact hne hid'.symm
    · by_cases hnew : t' = new
      · rw [hnew, h.fresh] at hid'
        exact absurd hid' (by simp)
      · exact hdead t' ((h.ids ht hnew).trans hid')

theorem appendKeys {live : Store G} {seq : UInt64 → Option ℤ}
    (h : TableRenamed s s' t new schema id) (hat : TableAt s t schema id (readCatalog s t))
    (hkeys : AppendKeys live seq s) : AppendKeys live seq s' := by
  intro t' schema' id' hread hid' hpk p st hst
  rw [h.rows] at hst
  rcases h.before hid' with ⟨rfl, rfl⟩ | ⟨hnew, ht, hid''⟩
  · rw [h.schema, Option.some.injEq] at hread
    subst schema'
    exact hkeys t schema id' hat.schema hat.id hpk p st hst
  · rw [h.schemas ht hnew] at hread
    exact hkeys t' schema' id' hread hid'' hpk p st hst

end TableRenamed

def renamed (s : Store G) (t new : Name) (schema : Schema G) (id : UInt64) : Store G :=
  s.commit [.put (.schema new) (withName schema new), .delete (.schema t), .put (.tableid new) id,
    .delete (.tableid t)]

theorem tableRenamed_of_moves {s1 s2 s3 : Store G} {new : Name} (hnew : new ≠ t)
    (hnoid : resolveTableId s new = none) (hnocat : readCatalog s new = none)
    (hmeta : Moved (renamed s t new schema id) s1 (.metadata t) (.metadata new) rfl)
    (hcat : Moved s1 s2 (.colcat t) (.colcat new) rfl)
    (hpk : Moved s2 s3 (.pkcat t) (.pkcat new) rfl) : TableRenamed s s3 t new schema id := by
  have hother : ∀ k, k ∉ nameKeys t → k ∉ nameKeys new → s3.get k = s.get k := by
    intro k hk hk'
    simp only [nameKeys, List.mem_cons, List.not_mem_nil, or_false, not_or] at hk hk'
    obtain ⟨hs, hm, hc, hp, hi⟩ := hk
    obtain ⟨hs', hm', hc', hp', hi'⟩ := hk'
    rw [hpk.other k hp hp', hcat.other k hc hc', hmeta.other k hm hm', renamed, Kv.commit_cons,
      Kv.commit_cons, Kv.commit_cons, Kv.commit_cons, Kv.commit_nil, Kv.get_write_of_ne hi,
      Kv.get_write_of_ne hi', Kv.get_write_of_ne hs, Kv.get_write_of_ne hs']
  have hschemas : ∀ t', readSchema s3 t' = readSchema (renamed s t new schema id) t' := by
    intro t'
    unfold readSchema
    rw [hpk.other _ (by simp) (by simp), hcat.other _ (by simp) (by simp),
      hmeta.other _ (by simp) (by simp)]
  have hids : ∀ t', resolveTableId s3 t' = resolveTableId (renamed s t new schema id) t' := by
    intro t'
    unfold resolveTableId
    rw [hpk.other _ (by simp) (by simp), hcat.other _ (by simp) (by simp),
      hmeta.other _ (by simp) (by simp)]
  have hcatalogs : ∀ t', readCatalog s1 t' = readCatalog s t' := by
    intro t'
    unfold readCatalog
    rw [hmeta.other _ (by simp) (by simp), renamed]
    apply Kv.get_commit_of_forall_ne
    simp
  constructor
  · exact hnoid
  · exact hother
  · rw [hschemas, readSchema, renamed, Kv.commit_cons, Kv.commit_cons, Kv.commit_cons,
      Kv.commit_cons, Kv.commit_nil, Kv.get_write_of_ne (by simp), Kv.get_write_of_ne (by simp),
      Kv.get_write_of_ne (by simpa using hnew), Kv.get_write_put]
  · rw [hids, resolveTableId, renamed, Kv.commit_cons, Kv.commit_cons, Kv.commit_cons,
      Kv.commit_cons, Kv.commit_nil, Kv.get_write_of_ne (by simpa using hnew), Kv.get_write_put]
  · have hmoved : readCatalog s2 new = ((readCatalog s1 t).map fun cat => cat).or
        (readCatalog s1 new) := hcat.moved
    have hkept : readCatalog s3 new = readCatalog s2 new := hpk.other _ (by simp) (by simp)
    rw [hkept, hmoved, hcatalogs, hcatalogs, hnocat, Option.map_id', Option.or_none]
  · rw [hschemas, readSchema, renamed, Kv.commit_cons, Kv.commit_cons, Kv.commit_cons,
      Kv.commit_cons, Kv.commit_nil, Kv.get_write_of_ne (by simp), Kv.get_write_of_ne (by simp),
      Kv.get_write_delete]
  · rw [hids, resolveTableId, renamed, Kv.commit_cons, Kv.commit_cons, Kv.commit_cons,
      Kv.commit_cons, Kv.commit_nil, Kv.get_write_delete]
  · have hkept : readCatalog s3 t = readCatalog s2 t := hpk.other _ (by simp) (by simp)
    rw [hkept]
    exact hcat.gone

theorem renameSchema_renamed (h : InTxn c) {new : Name}
    (hfresh : (readSchema c.view t).isSome = true → readSchema c.view new = none) :
    Holds (renameSchema t new) c
      (fun _ c' => ∃ schema id ws, TableAt c.view t schema id (readCatalog c.view t) ∧
        TableRenamed c.view c'.view t new schema id ∧ Buffered c c' ws)
      (fun _ c' => c' = c) := by
  unfold renameSchema
  rw [Holds.bind_iff, Holds.get_iff]
  dsimp only
  cases hschema : readSchema c.view t with
  | none => rfl
  | some schema =>
    obtain ⟨id, hat⟩ := h.connAt hschema
    have hnone : readSchema c.view new = none := hfresh (by rw [hschema]; rfl)
    have hnew : new ≠ t := by
      intro heq
      rw [heq, hschema] at hnone
      exact absurd hnone (by simp)
    dsimp only
    rw [hat.table.tableId, Holds.bind_iff, Holds.ofExcept_ok, Holds.bind_iff]
    apply holds_writeKey h.txn
    intro c1 hbuf1
    rw [Holds.bind_iff]
    apply holds_deleteKey hbuf1.isSome
    intro c2 hbuf2
    rw [Holds.bind_iff]
    apply holds_writeKey hbuf2.isSome
    intro c3 hbuf3
    rw [Holds.bind_iff]
    apply holds_deleteKey hbuf3.isSome
    intro c4 hbuf4
    have hview4 : c4.view = renamed c.view t new schema id := by
      rw [hbuf4.view, hbuf3.view, hbuf2.view, hbuf1.view]
      rfl
    rw [Holds.bind_iff]
    apply (moveKey_holds hbuf4.isSome (by simpa using hnew.symm)).mono
    · intro _ c5 ⟨ws5, hbuf5, hmeta⟩
      rw [Holds.bind_iff]
      apply (moveKey_holds hbuf5.isSome (by simpa using hnew.symm)).mono
      · intro _ c6 ⟨ws6, hbuf6, hcat⟩
        apply (moveKey_holds hbuf6.isSome (by simpa using hnew.symm)).mono
        · intro _ c7 ⟨ws7, hbuf7, hpk⟩
          rw [hview4] at hmeta
          have hbuf := hbuf1.trans (hbuf2.trans (hbuf3.trans (hbuf4.trans
            (hbuf5.trans (hbuf6.trans hbuf7)))))
          have hrenamed := tableRenamed_of_moves hnew (h.ok.view.noId hnone)
            (h.ok.view.noCatalog hnone) hmeta hcat hpk
          exact ⟨schema, id, _, hat.table, hrenamed, hbuf⟩
        · exact fun _ _ hfail => hfail
      · exact fun _ _ hfail => hfail
    · exact fun _ _ hfail => hfail

theorem renameSchema_holds (h : InTxn c) {new : Name}
    (hfresh : (readSchema c.view t).isSome = true → readSchema c.view new = none) :
    Holds (renameSchema t new) c (fun _ c' => InTxn c') (fun _ c' => c' = c) := by
  apply (renameSchema_renamed h hfresh).mono
  · intro _ c' ⟨schema, id, ws, hat, hrenamed, hbuf⟩
    exact ⟨h.ok.buffered hbuf (hrenamed.integrity h.ok.view hat)
      (hrenamed.appendKeys hat h.ok.viewKeys), hbuf.isSome⟩
  · exact fun _ _ hfail => hfail

end BlueDB.Sql
