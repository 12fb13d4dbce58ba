import BlueDB.Sql.RowSteps
import BlueDB.Sql.Tables

/-!
# Unique indexes of a store

The names of the unique indexes of a table are a record beside its schema. The
store is in order for the indexes declared unique when, of the indexes a schema
lists, these are registered and no others, and when each of them has one row at
most for a value. Rows are checked against the entries before they are stored,
so a statement that writes rows keeps the store in order.
-/

namespace BlueDB.Sql

variable {G : Engine} {s s' s'' : Store G} {t : Name} {schema : Schema G} {id : UInt64}
  {catalog : Option (ColumnCatalog G)} {declared : List (Name × Name)}

def NullApart (G : Engine) : Prop :=
  ∀ key b, G.toCmpBeBytes G.noneKey = .ok b → G.toCmpBeBytes key = .ok b → key = G.noneKey

def NonNull (G : Engine) (v : List UInt8) : Prop :=
  ∃ value : G.Key, value ≠ G.noneKey ∧ keyBytes value = .ok v

theorem NullApart.ne_noneKey (hnull : NullApart G) {v : List UInt8} (hv : NonNull G v)
    {value : G.Key} (hvalue : keyBytes value = .ok v) : value ≠ G.noneKey := by
  obtain ⟨value', hne, hv'⟩ := hv
  intro heq
  rw [heq, keyBytes_eq_ok] at hvalue
  exact hne (hnull value' v hvalue (keyBytes_eq_ok.mp hv'))

def indexNames (s : Store G) (t : Name) : List Name := (indexDefs s t).map SchemaIndex.name

theorem indexNames_eq (h : readSchema s t = some schema) :
    indexNames s t = schema.indexes.map SchemaIndex.name := by
  rw [indexNames, indexDefs, h]

theorem indexNames_of_none (h : readSchema s t = none) : indexNames s t = [] := by
  rw [indexNames, indexDefs, h]
  rfl

theorem indexNames_congr (h : readSchema s' t = readSchema s t) :
    indexNames s' t = indexNames s t := by
  rw [indexNames, indexNames, indexDefs, indexDefs, h]

theorem readUniqueIndexes_congr (h : s'.get (.uniqueidx t) = s.get (.uniqueidx t)) :
    readUniqueIndexes s' t = readUniqueIndexes s t :=
  congrArg (fun names : Option (List Name) => names.getD []) h

/-- One row at most has an entry for a value that is not null. -/
def EntriesDistinct (s : Store G) (t n : Name) : Prop :=
  ∀ id v p p', resolveTableId s t = some id → NonNull G v →
    (readEntry s id n v p).isSome = true → (readEntry s id n v p').isSome = true → p = p'

structure UniqueOk (s : Store G) (declared : List (Name × Name)) : Prop where
  listed : ∀ q ∈ declared, q.2 ∈ indexNames s q.1
  registry : ∀ t, ∀ n ∈ indexNames s t, n ∈ readUniqueIndexes s t ↔ (t, n) ∈ declared
  distinct : ∀ q ∈ declared, EntriesDistinct s q.1 q.2

theorem uniqueOk_empty : UniqueOk (Kv.empty : Store G) [] where
  listed q hq := absurd hq List.not_mem_nil
  registry t n hn := by
    rw [indexNames_of_none rfl] at hn
    exact absurd hn List.not_mem_nil
  distinct q hq := absurd hq List.not_mem_nil

/-- The indexes a schema still lists. -/
def stillListed (s : Store G) (declared : List (Name × Name)) : List (Name × Name) :=
  declared.filter fun q => q.2 ∈ indexNames s q.1

theorem mem_stillListed {q : Name × Name} :
    q ∈ stillListed s declared ↔ q ∈ declared ∧ q.2 ∈ indexNames s q.1 := by
  rw [stillListed, List.mem_filter, decide_eq_true_iff]

structure Shrinks (s s' : Store G) : Prop where
  names : ∀ t, ∀ n ∈ indexNames s' t, n ∈ indexNames s t
  registry : ∀ t, ∀ n ∈ indexNames s' t, n ∈ readUniqueIndexes s' t ↔ n ∈ readUniqueIndexes s t
  entry : ∀ t id n v p, n ∈ indexNames s' t → resolveTableId s' t = some id →
    (readEntry s' id n v p).isSome = true →
      resolveTableId s t = some id ∧ (readEntry s id n v p).isSome = true

theorem Shrinks.refl (s : Store G) : Shrinks s s :=
  ⟨fun _ _ h => h, fun _ _ _ => Iff.rfl, fun _ _ _ _ _ _ hid h => ⟨hid, h⟩⟩

theorem Shrinks.trans (h : Shrinks s s') (h' : Shrinks s' s'') : Shrinks s s'' := by
  constructor
  · exact fun t n hn => h.names t n (h'.names t n hn)
  · exact fun t n hn => (h'.registry t n hn).trans (h.registry t n (h'.names t n hn))
  · intro t id n v p hn hid hentry
    obtain ⟨hid', hentry'⟩ := h'.entry t id n v p hn hid hentry
    exact h.entry t id n v p (h'.names t n hn) hid' hentry'

theorem UniqueOk.shrinks (h : UniqueOk s declared) (hs : Shrinks s s') :
    UniqueOk s' (stillListed s' declared) := by
  constructor
  · exact fun q hq => (mem_stillListed.mp hq).2
  · intro t n hn
    rw [hs.registry t n hn, h.registry t n (hs.names t n hn), mem_stillListed]
    exact (and_iff_left hn).symm
  · intro q hq id v p p' hid hv hp hp'
    obtain ⟨hdeclared, hn⟩ := mem_stillListed.mp hq
    obtain ⟨hid0, hp0⟩ := hs.entry q.1 id q.2 v p hn hid hp
    exact h.distinct q hdeclared id v p p' hid0 hv hp0 (hs.entry q.1 id q.2 v p' hn hid hp').2

theorem Shrinks.of_frame (hschema : ∀ t, readSchema s' t = readSchema s t)
    (hregistry : ∀ t, s'.get (.uniqueidx t) = s.get (.uniqueidx t))
    (hid : ∀ t, resolveTableId s' t = resolveTableId s t)
    (hentry : ∀ id n v p, (readEntry s' id n v p).isSome = true →
      (readEntry s id n v p).isSome = true) : Shrinks s s' := by
  constructor
  · intro t n hn
    rw [indexNames_congr (hschema t)] at hn
    exact hn
  · intro t n _
    rw [readUniqueIndexes_congr (hregistry t)]
  · intro t id n v p _ hid' hentry'
    exact ⟨hid t ▸ hid', hentry id n v p hentry'⟩

theorem RowGone.shrinks {p : List UInt8} (h : RowGone s s' id p) : Shrinks s s' := by
  apply Shrinks.of_frame
  · exact fun t => h.other (.schema t) (by simp) (by simp)
  · exact fun t => h.other (.uniqueidx t) (by simp) (by simp)
  · exact fun t => h.other (.tableid t) (by simp) (by simp)
  · intro id' n v p' hentry
    by_cases hkey : ∃ n' v', StorageKey.indexEntry id' n v p' = .indexEntry id n' v' p
    · obtain ⟨n', v', heq⟩ := hkey
      obtain ⟨rfl, rfl, rfl, rfl⟩ := StorageKey.indexEntry.inj heq
      obtain ⟨k, hk⟩ := Option.isSome_iff_exists.mp hentry
      rw [h.entry n v k hk]
      rfl
    · have hget : readEntry s' id' n v p' = readEntry s id' n v p' :=
        h.other (.indexEntry id' n v p') (by simp) fun n' v' heq => hkey ⟨n', v', heq⟩
      rw [← hget]
      exact hentry

theorem Altered.shrinks {schema' : Schema G} {catalog' : Option (ColumnCatalog G)}
    (h : Altered s s' t schema' catalog') (hschema : readSchema s t = some schema)
    (hindexes : schema'.indexes = schema.indexes) : Shrinks s s' := by
  have hnames : ∀ t', indexNames s' t' = indexNames s t' := by
    intro t'
    by_cases ht : t' = t
    · rw [ht, indexNames_eq h.schema, indexNames_eq hschema, hindexes]
    · exact indexNames_congr (h.other (.schema t') (by simpa using ht) (by simp) (by simp))
  constructor
  · exact fun t' n hn => hnames t' ▸ hn
  · intro t' n _
    rw [readUniqueIndexes_congr (h.other (.uniqueidx t') (by simp) (by simp) (by simp))]
  · intro t' id' n v p _ hid hentry
    have hids : resolveTableId s' t' = resolveTableId s t' :=
      h.other (.tableid t') (by simp) (by simp) (by simp)
    have hget : readEntry s' id' n v p = readEntry s id' n v p :=
      h.other (.indexEntry id' n v p) (by simp) (by simp) (by simp)
    exact ⟨hids ▸ hid, hget ▸ hentry⟩

theorem IndexForgotten.shrinks {index : Name} (h : IndexForgotten s s' t index schema id) :
    Shrinks s s' := by
  have hdrop := h.dropped
  have hother : ∀ t', t' ≠ t → indexNames s' t' = indexNames s t' := fun t' ht =>
    indexNames_congr (hdrop.other (.schema t') (by simpa using ht) (by simp) (by simp))
  have hself : ∀ n, n ∈ indexNames s' t → n ∈ indexNames s t ∧ n ≠ index := by
    intro n hn
    rw [indexNames_eq hdrop.schema] at hn
    obtain ⟨i, hi, hname⟩ := List.mem_map.mp hn
    obtain ⟨hi', hne⟩ := mem_withoutIndex.mp hi
    rw [indexNames_eq h.table.schema]
    exact ⟨List.mem_map.mpr ⟨i, hi', hname⟩, hname ▸ hne⟩
  constructor
  · intro t' n hn
    by_cases ht : t' = t
    · subst t'
      exact (hself n hn).1
    · exact hother t' ht ▸ hn
  · intro t' n hn
    by_cases ht : t' = t
    · subst t'
      rw [h.registry]
      exact and_iff_left (hself n hn).2
    · rw [readUniqueIndexes_congr (hdrop.other (.uniqueidx t') (by simp) (by simpa using ht)
        (by simp))]
  · intro t' id' n v p _ hid hentry
    have hids : resolveTableId s' t' = resolveTableId s t' :=
      hdrop.other (.tableid t') (by simp) (by simp) (by simp)
    refine ⟨hids ▸ hid, ?_⟩
    by_cases hkey : id' = id ∧ n = index
    · obtain ⟨rfl, rfl⟩ := hkey
      rw [hdrop.entries] at hentry
      exact absurd hentry (by simp)
    · have hget : readEntry s' id' n v p = readEntry s id' n v p := by
        apply hdrop.other (.indexEntry id' n v p) (by simp) (by simp)
        intro v' p' heq
        obtain ⟨hid', hn, -, -⟩ := StorageKey.indexEntry.inj heq
        exact hkey ⟨hid', hn⟩
      rw [← hget]
      exact hentry

theorem TableCreated.shrinks {next : UInt64} (h : TableCreated s s' schema next)
    (hindexes : schema.indexes = []) : Shrinks s s' := by
  have hnames : ∀ t, indexNames s' t = indexNames s t := by
    intro t
    by_cases ht : t = schema.tableName
    · rw [ht, indexNames_eq h.schema, indexNames_of_none h.fresh, hindexes]
      rfl
    · exact indexNames_congr (h.schemas ht)
  constructor
  · exact fun t n hn => hnames t ▸ hn
  · intro t n _
    rw [readUniqueIndexes_congr (h.other (.uniqueidx t) (by simp) (by simp) (by simp) (by simp))]
  · intro t id n v p hn hid hentry
    have ht : t ≠ schema.tableName := by
      intro heq
      rw [heq, indexNames_eq h.schema, hindexes] at hn
      exact absurd hn List.not_mem_nil
    exact ⟨h.ids ht ▸ hid, h.entries id ▸ hentry⟩

theorem TableDropped.shrinks (h : TableDropped s s' t id) : Shrinks s s' := by
  have hne : ∀ t' n, n ∈ indexNames s' t' → t' ≠ t := by
    intro t' n hn heq
    rw [heq, indexNames_of_none h.schema] at hn
    exact absurd hn List.not_mem_nil
  constructor
  · intro t' n hn
    rw [indexNames_congr (h.other (.schema t') (hne t' n hn) (by simp))] at hn
    exact hn
  · intro t' n hn
    rw [readUniqueIndexes_congr (h.other (.uniqueidx t') (hne t' n hn) (by simp))]
  · intro t' id' n v p hn hid hentry
    have hids : resolveTableId s' t' = resolveTableId s t' :=
      h.other (.tableid t') not_false (by simpa using hne t' n hn)
    refine ⟨hids ▸ hid, ?_⟩
    by_cases hid' : id' = id
    · rw [hid', h.entries] at hentry
      exact absurd hentry (by simp)
    · have hget : readEntry s' id' n v p = readEntry s id' n v p :=
        h.other (.indexEntry id' n v p) hid' (by simp)
      exact hget ▸ hentry

/-- The entries of a table hold the keys of the rows they are stored for. -/
def EntriesKeyed (s : Store G) (id : UInt64) : Prop :=
  ∀ n v p k, readEntry s id n v p = some k → keyBytes k = .ok p

theorem TableOk.entriesKeyed (h : TableOk schema catalog (readRow s id) (readEntry s id)) :
    EntriesKeyed s id := by
  intro n v p k hk
  obtain ⟨st, hst, rfl, -⟩ := (h.entry n v p k).mp hk
  exact (h.row p st hst).key

/-- A table whose rows are checked before they are stored. -/
structure Enforced (s : Store G) (t : Name) (schema : Schema G) (id : UInt64)
    (catalog : Option (ColumnCatalog G)) (declared : List (Name × Name)) : Prop where
  ok : UniqueOk s declared
  table : TableAt s t schema id catalog
  keyed : EntriesKeyed s id
  alone : ∀ t', resolveTableId s t' = some id → t' = t

/-- The row is checked for the unique indexes of the table and found free, so it adds no
second entry for a value. -/
theorem RowPut.enforced {p : List UInt8} {key : G.Key} {row : DataRow G.Value}
    (hput : RowPut s s' schema id catalog (readUniqueIndexes s t) p key row) (hnull : NullApart G)
    (h : Enforced s t schema id catalog declared) : Enforced s' t schema id catalog declared := by
  have hschemas : ∀ t', readSchema s' t' = readSchema s t' :=
    fun t' => hput.other (.schema t') (by simp) (by simp)
  have hids : ∀ t', resolveTableId s' t' = resolveTableId s t' :=
    fun t' => hput.other (.tableid t') (by simp) (by simp)
  have hentries : ∀ id' n v p', id' ≠ id ∨ p' ≠ p →
      readEntry s' id' n v p' = readEntry s id' n v p' := by
    intro id' n v p' hne
    apply hput.other (.indexEntry id' n v p') (by simp)
    intro n' v' heq
    obtain ⟨hid', -, -, hp'⟩ := StorageKey.indexEntry.inj heq
    rcases hne with hne | hne
    · exact hne hid'
    · exact hne hp'
  -- a new entry of a declared index belongs to a value that no other row holds
  have hnew : ∀ n v p', (t, n) ∈ declared → NonNull G v → p' ≠ p →
      (readEntry s' id n v p).isSome = true → (readEntry s' id n v p').isSome = true →
        (readEntry s id n v p).isSome = true := by
    intro n v p' hdeclared hv hp' hentry hother
    obtain ⟨k, hk⟩ := Option.isSome_iff_exists.mp hentry
    rcases hput.entry n v k hk with hold | ⟨-, i, hi, hname, hbytes⟩
    · rw [hold]
      rfl
    · obtain ⟨value, hvalue, hvbytes⟩ := indexBytes_eq_ok.mp hbytes
      have hlisted : n ∈ indexNames s t := by
        rw [indexNames_eq h.table.schema]
        exact List.mem_map.mpr ⟨i, hi, hname⟩
      have hunique : n ∈ readUniqueIndexes s t := (h.ok.registry t n hlisted).mpr hdeclared
      rw [hentries id n v p' (Or.inr hp')] at hother
      obtain ⟨k', hk'⟩ := Option.isSome_iff_exists.mp hother
      have hsame := hput.free n value v
        ⟨i, hi, hname, hunique, hvalue, hnull.ne_noneKey hv hvbytes⟩ hvbytes p' k' hp' hk'
      rw [hsame] at hk'
      exact absurd (Except.ok.inj ((h.keyed n v p' key hk').symm.trans hput.bytes)) hp'
  constructor
  · constructor
    · intro q hq
      rw [indexNames_congr (hschemas q.1)]
      exact h.ok.listed q hq
    · intro t' n hn
      rw [indexNames_congr (hschemas t')] at hn
      rw [readUniqueIndexes_congr (hput.other (.uniqueidx t') (by simp) (by simp))]
      exact h.ok.registry t' n hn
    · intro q hq id' v p1 p2 hid' hv h1 h2
      rw [hids] at hid'
      by_cases hid : id' = id
      · subst id'
        obtain rfl := h.alone q.1 hid'
        by_contra hne
        have hold1 : (readEntry s id q.2 v p1).isSome = true := by
          by_cases hp1 : p1 = p
          · subst p1
            exact hnew q.2 v p2 hq hv (Ne.symm hne) h1 h2
          · exact hentries id q.2 v p1 (Or.inr hp1) ▸ h1
        have hold2 : (readEntry s id q.2 v p2).isSome = true := by
          by_cases hp2 : p2 = p
          · subst p2
            exact hnew q.2 v p1 hq hv hne h2 h1
          · exact hentries id q.2 v p2 (Or.inr hp2) ▸ h2
        exact hne (h.ok.distinct q hq id v p1 p2 hid' hv hold1 hold2)
      · rw [hentries id' q.2 v p1 (Or.inl hid)] at h1
        rw [hentries id' q.2 v p2 (Or.inl hid)] at h2
        exact h.ok.distinct q hq id' v p1 p2 hid' hv h1 h2
  · constructor
    · exact (hschemas t).trans h.table.schema
    · exact (hids t).trans h.table.id
    · exact (hput.other (.colcat t) (by simp) (by simp)).trans h.table.catalog
  · intro n v p' k hk
    by_cases hp' : p' = p
    · subst p'
      rcases hput.entry n v k hk with hold | ⟨rfl, -⟩
      · exact h.keyed n v p k hold
      · exact hput.bytes
    · rw [hentries id n v p' (Or.inr hp')] at hk
      exact h.keyed n v p' k hk
  · exact fun t' hid' => h.alone t' ((hids t').symm.trans hid')

theorem Integrity.enforced (h : Integrity s) (hok : UniqueOk s declared)
    (hat : TableAt s t schema id catalog) : Enforced s t schema id catalog declared :=
  ⟨hok, hat, (h.tableOk hat).entriesKeyed, fun t' hid => h.ids_inj t' t id hid hat.id⟩

structure IndexAdded (s s' : Store G) (t : Name) (schema : Schema G) (id : UInt64)
    (i : SchemaIndex G) : Prop where
  table : TableAt s t schema id (readCatalog s t)
  new : ∀ j ∈ schema.indexes, j.name ≠ i.name
  after : readSchema s' t = some (withIndex schema i)
  other : ∀ k, k ≠ .schema t → (∀ v p, k ≠ .indexEntry id i.name v p) → s'.get k = s.get k
  entry : ∀ v p k, readEntry s' id i.name v p = some k ↔ ∃ st, readRow s id p = some st ∧
    k = st.key ∧ indexBytes (evalColumns schema) (toLogical (readCatalog s t) st.row) i = .ok v

theorem IndexBatch.added {i : SchemaIndex G} {entries : Batch G}
    (h : IndexBatch s t schema id i entries) (hs : Integrity s) :
    IndexAdded s (s.commit (entries ++ [.put (.schema t) (withIndex schema i)])) t schema id i := by
  rw [Kv.commit_append, Kv.commit_cons, Kv.commit_nil]
  constructor
  · exact h.table
  · exact h.new
  · exact Kv.get_write_put ..
  · intro k hk hentry
    rw [Kv.get_write_of_ne hk]
    apply Kv.get_commit_of_forall_ne
    intro w hw heq
    obtain ⟨q, _, v, p, _, _, rfl⟩ := (h.entries.mem_iff w).mp hw
    exact hentry v p heq.symm
  · intro v p k
    rw [← h.entries.readEntry (hs.tableOk h.table) h.new]
    have hget : readEntry ((s.commit entries).write (.put (.schema t) (withIndex schema i))) id
        i.name v p = readEntry (s.commit entries) id i.name v p := Kv.get_write_of_ne (by simp)
    rw [hget]

namespace IndexAdded

variable {i : SchemaIndex G}

theorem names (h : IndexAdded s s' t schema id i) {n : Name} :
    n ∈ indexNames s' t ↔ n ∈ indexNames s t ∨ n = i.name := by
  rw [indexNames_eq h.after, indexNames_eq h.table.schema, withIndex, List.map_append,
    List.mem_append, List.map_singleton, List.mem_singleton]

theorem fresh (h : IndexAdded s s' t schema id i) : i.name ∉ indexNames s t := by
  rw [indexNames_eq h.table.schema]
  intro hmem
  obtain ⟨j, hj, hname⟩ := List.mem_map.mp hmem
  exact h.new j hj hname

theorem other_names (h : IndexAdded s s' t schema id i) {t' : Name} (ht : t' ≠ t) :
    indexNames s' t' = indexNames s t' :=
  indexNames_congr (h.other (.schema t') (by simpa using ht) (by simp))

theorem registry (h : IndexAdded s s' t schema id i) (t' : Name) :
    readUniqueIndexes s' t' = readUniqueIndexes s t' :=
  readUniqueIndexes_congr (h.other (.uniqueidx t') (by simp) (by simp))

theorem distinct (h : IndexAdded s s' t schema id i)
    (halone : ∀ t', resolveTableId s t' = some id → t' = t)
    {q : Name × Name} (hq : q ≠ (t, i.name)) (hdistinct : EntriesDistinct s q.1 q.2) :
    EntriesDistinct s' q.1 q.2 := by
  intro id' v p p' hid hv hp hp'
  have hids : resolveTableId s' q.1 = resolveTableId s q.1 :=
    h.other (.tableid q.1) (by simp) (by simp)
  rw [hids] at hid
  have hentry : ∀ p, readEntry s' id' q.2 v p = readEntry s id' q.2 v p := by
    intro p
    apply h.other (.indexEntry id' q.2 v p) (by simp)
    intro v' p' heq
    obtain ⟨hid', hn, -, -⟩ := StorageKey.indexEntry.inj heq
    exact hq (Prod.ext (halone q.1 (hid' ▸ hid)) hn)
  exact hdistinct id' v p p' hid hv (hentry p ▸ hp) (hentry p' ▸ hp')

theorem listed (h : IndexAdded s s' t schema id i) {q : Name × Name}
    (hmem : q.2 ∈ indexNames s q.1) : q.2 ∈ indexNames s' q.1 := by
  by_cases ht : q.1 = t
  · rw [ht] at hmem ⊢
    exact h.names.mpr (Or.inl hmem)
  · rwa [h.other_names ht]

theorem uniqueOk_plain (h : IndexAdded s s' t schema id i)
    (halone : ∀ t', resolveTableId s t' = some id → t' = t) (hok : UniqueOk s declared)
    (hplain : i.name ∉ readUniqueIndexes s t) : UniqueOk s' declared := by
  have hnew : (t, i.name) ∉ declared := fun hmem => h.fresh (hok.listed _ hmem)
  constructor
  · exact fun q hq => h.listed (hok.listed q hq)
  · intro t' n hn
    rw [h.registry]
    by_cases ht : t' = t
    · subst t'
      rcases h.names.mp hn with hn | rfl
      · exact hok.registry t n hn
      · exact iff_of_false hplain hnew
    · exact hok.registry t' n (h.other_names ht ▸ hn)
  · intro q hq
    exact h.distinct halone (fun heq => hnew (heq ▸ hq)) (hok.distinct q hq)

theorem uniqueOk_unique (h : IndexAdded s s' t schema id i)
    (halone : ∀ t', resolveTableId s t' = some id → t' = t) (hok : UniqueOk s declared)
    (hunique : i.name ∈ readUniqueIndexes s t) (hdistinct : EntriesDistinct s' t i.name) :
    UniqueOk s' ((t, i.name) :: declared) := by
  have hnew : (t, i.name) ∉ declared := fun hmem => h.fresh (hok.listed _ hmem)
  constructor
  · intro q hq
    rcases List.mem_cons.mp hq with rfl | hq
    · exact h.names.mpr (Or.inr rfl)
    · exact h.listed (hok.listed q hq)
  · intro t' n hn
    rw [h.registry, List.mem_cons]
    by_cases ht : t' = t
    · subst t'
      rcases h.names.mp hn with hn | rfl
      · rw [hok.registry _ n hn]
        refine (or_iff_right fun heq => ?_).symm
        rw [(Prod.mk.inj heq).2] at hn
        exact h.fresh hn
      · exact iff_of_true hunique (Or.inl rfl)
    · rw [hok.registry t' n (h.other_names ht ▸ hn)]
      exact (or_iff_right fun heq => ht (Prod.mk.inj heq).1).symm
  · intro q hq
    rcases List.mem_cons.mp hq with rfl | hq
    · exact hdistinct
    · exact h.distinct halone (fun heq => hnew (heq ▸ hq)) (hok.distinct q hq)

end IndexAdded

def uniqueValue (i : SchemaIndex G) (columns : Option (List Name)) (row : DataRow G.Value) :
    Option G.Key :=
  match indexValue i columns row with
  | .ok value => if value = G.noneKey then none else some value
  | .error _ => none

theorem uniqueValue_eq_some {i : SchemaIndex G} {columns : Option (List Name)}
    {row : DataRow G.Value} {value : G.Key} : uniqueValue i columns row = some value ↔
      indexValue i columns row = .ok value ∧ value ≠ G.noneKey := by
  unfold uniqueValue
  cases indexValue i columns row with
  | error e => simp
  | ok value' =>
    dsimp only
    split_ifs with hnone
    · simp [hnone, eq_comm]
    · rw [Option.some.injEq, Except.ok.injEq]
      exact ⟨fun heq => ⟨heq, heq ▸ hnone⟩, fun h => h.1⟩

/-- The bytes of that value. -/
def uniqueBytes (i : SchemaIndex G) (columns : Option (List Name)) (row : DataRow G.Value) :
    Option (List UInt8) :=
  (uniqueValue i columns row).bind fun value => (keyBytes value).toOption

theorem uniqueBytes_eq_some {i : SchemaIndex G} {columns : Option (List Name)}
    {row : DataRow G.Value} {value : G.Key} {v : List UInt8}
    (hvalue : indexValue i columns row = .ok value) (hne : value ≠ G.noneKey)
    (hv : keyBytes value = .ok v) : uniqueBytes i columns row = some v := by
  rw [uniqueBytes, uniqueValue_eq_some.mpr ⟨hvalue, hne⟩, Option.bind_some, hv]
  rfl

/-- The rows have no value in common but null, as far as bytes tell them apart. -/
def Unrepeated (i : SchemaIndex G) (columns : Option (List Name))
    (rows : List (G.Key × DataRow G.Value)) : Prop :=
  (rows.filterMap fun q => uniqueBytes i columns q.2).Nodup

instance (i : SchemaIndex G) (columns : Option (List Name))
    (rows : List (G.Key × DataRow G.Value)) :
    Decidable (Unrepeated i columns rows) :=
  inferInstanceAs (Decidable (List.Nodup _))

theorem Unrepeated.row_eq {i : SchemaIndex G} {columns : Option (List Name)}
    (h : Unrepeated i columns (logicalRows s catalog (scanTable s id))) {p p' v : List UInt8}
    {st st' : StoredRow G} (hst : readRow s id p = some st) (hst' : readRow s id p' = some st')
    (hv : uniqueBytes i columns (toLogical catalog st.row) = some v)
    (hv' : uniqueBytes i columns (toLogical catalog st'.row) = some v) : p = p' := by
  by_contra hne
  unfold Unrepeated logicalRows at h
  rw [List.filterMap_filterMap, List.Nodup, List.pairwise_filterMap] at h
  have hsymm : Std.Symm fun k k' : StorageKey => ∀ b ∈ ((storedRow s k).map fun stored =>
      (stored.key, toLogical catalog stored.row)).bind fun q => uniqueBytes i columns q.2,
      ∀ b' ∈ ((storedRow s k').map fun stored =>
        (stored.key, toLogical catalog stored.row)).bind fun q => uniqueBytes i columns q.2,
        b ≠ b' := ⟨fun k k' hkk b hb b' hb' heq => hkk b' hb' b hb heq.symm⟩
  have hmem : ∀ {p st}, readRow s id p = some st → StorageKey.row id p ∈ scanTable s id := by
    intro p st hst
    exact mem_scanTable.mpr ⟨p, rfl, by rw [hst]; rfl⟩
  refine h.forall (hmem hst) (hmem hst') (by simpa using hne) v ?_ v ?_ rfl
  · change v ∈ ((readRow s id p).map _).bind _
    rw [hst]
    exact hv
  · change v ∈ ((readRow s id p').map _).bind _
    rw [hst']
    exact hv'

theorem IndexAdded.entriesDistinct {i : SchemaIndex G} (h : IndexAdded s s' t schema id i)
    (hnull : NullApart G) (hrows : Unrepeated i (evalColumns schema)
      (logicalRows s (readCatalog s t) (scanTable s id))) : EntriesDistinct s' t i.name := by
  intro id' v p p' hid hv hp hp'
  have hids : resolveTableId s' t = resolveTableId s t := h.other (.tableid t) (by simp) (by simp)
  obtain rfl : id = id' := Option.some.inj (h.table.id.symm.trans (hids.symm.trans hid))
  have hrow : ∀ p, (readEntry s' id i.name v p).isSome = true → ∃ st, readRow s id p = some st ∧
      uniqueBytes i (evalColumns schema) (toLogical (readCatalog s t) st.row) = some v := by
    intro p hp
    obtain ⟨k, hk⟩ := Option.isSome_iff_exists.mp hp
    obtain ⟨st, hst, -, hbytes⟩ := (h.entry v p k).mp hk
    obtain ⟨value, hvalue, hvbytes⟩ := indexBytes_eq_ok.mp hbytes
    exact ⟨st, hst, uniqueBytes_eq_some hvalue (hnull.ne_noneKey hv hvbytes) hvbytes⟩
  obtain ⟨st, hst, hst_v⟩ := hrow p hp
  obtain ⟨st', hst', hst_v'⟩ := hrow p' hp'
  exact hrows.row_eq hst hst' hst_v hst_v'

theorem UniqueOk.register {n : Name} (h : UniqueOk s declared)
    (hother : ∀ k, k ≠ .uniqueidx t → s'.get k = s.get k)
    (hself : ∀ m, m ∈ readUniqueIndexes s' t ↔ m ∈ readUniqueIndexes s t ∨ m = n)
    (hn : n ∈ indexNames s t → n ∈ readUniqueIndexes s t) : UniqueOk s' declared := by
  have hnames : ∀ t', indexNames s' t' = indexNames s t' :=
    fun t' => indexNames_congr (hother (.schema t') (by simp))
  constructor
  · exact fun q hq => hnames q.1 ▸ h.listed q hq
  · intro t' m hm
    rw [hnames] at hm
    rw [← h.registry t' m hm]
    by_cases ht : t' = t
    · subst t'
      rw [hself]
      exact or_iff_left_of_imp fun heq => heq ▸ hn (heq ▸ hm)
    · rw [readUniqueIndexes_congr (hother (.uniqueidx t') (by simpa using ht))]
  · intro q hq id v p p' hid hv hp hp'
    have hids : resolveTableId s' q.1 = resolveTableId s q.1 := hother (.tableid q.1) (by simp)
    have hentry : ∀ p, readEntry s' id q.2 v p = readEntry s id q.2 v p :=
      fun p => hother (.indexEntry id q.2 v p) (by simp)
    exact h.distinct q hq id v p p' (hids ▸ hid) hv (hentry p ▸ hp) (hentry p' ▸ hp')

theorem TableRenamed.uniqueOk {new : Name} (h : TableRenamed s s' t new schema id)
    (hat : TableAt s t schema id catalog) (hs : Integrity s) (hok : UniqueOk s declared)
    (hold : ∀ n ∈ indexNames s t, n ∉ readUniqueIndexes s t ∧ n ∉ readUniqueIndexes s new) :
    UniqueOk s' declared ∧ ∀ q ∈ declared, q.1 ≠ t := by
  have hnone : indexNames s new = [] := by
    apply indexNames_of_none
    rw [Option.eq_none_iff_forall_ne_some]
    intro schema' hschema'
    obtain ⟨id', hat'⟩ := hs.tableAt hschema'
    exact absurd (h.fresh.symm.trans hat'.id) (by simp)
  have hne : ∀ q ∈ declared, q.1 ≠ t ∧ q.1 ≠ new := by
    intro q hq
    have hlisted := hok.listed q hq
    constructor
    · intro heq
      rw [heq] at hlisted
      apply (hold q.2 hlisted).1
      rw [hok.registry t q.2 hlisted, ← heq]
      exact hq
    · intro heq
      rw [heq, hnone] at hlisted
      exact absurd hlisted List.not_mem_nil
  have hregistry : ∀ t', readUniqueIndexes s' t' = readUniqueIndexes s t' := fun t' =>
    readUniqueIndexes_congr (h.other (.uniqueidx t') (by simp [nameKeys]) (by simp [nameKeys]))
  refine ⟨⟨?_, ?_, ?_⟩, fun q hq => (hne q hq).1⟩
  · intro q hq
    rw [indexNames_congr (h.schemas (hne q hq).1 (hne q hq).2)]
    exact hok.listed q hq
  · intro t' n hn
    rw [hregistry]
    by_cases hnew : t' = new
    · subst t'
      have hnames : indexNames s' new = indexNames s t := by
        rw [indexNames_eq h.schema, indexNames_eq hat.schema]
        rfl
      rw [hnames] at hn
      refine iff_of_false (hold n hn).2 fun hmem => (hne _ hmem).2 rfl
    · by_cases ht : t' = t
      · rw [ht, indexNames_of_none h.oldSchema] at hn
        exact absurd hn List.not_mem_nil
      · rw [indexNames_congr (h.schemas ht hnew)] at hn
        exact hok.registry t' n hn
  · intro q hq id' v p p' hid hv hp hp'
    rw [h.ids (hne q hq).1 (hne q hq).2] at hid
    rw [h.entries] at hp hp'
    exact hok.distinct q hq id' v p p' hid hv hp hp'

/-- No two rows of the table have the same value of the index, unless it is null. -/
def UniqueIndex (s : Store G) (t n : Name) : Prop :=
  ∃ schema ∈ readSchema s t, ∃ rows ∈ (scanData s t).toOption, ∃ i ∈ schema.indexes, i.name = n ∧
    (rows.filterMap fun q => uniqueValue i (evalColumns schema) q.2).Nodup

instance (s : Store G) (t n : Name) : Decidable (UniqueIndex s t n) :=
  inferInstanceAs (Decidable (∃ schema ∈ readSchema s t, ∃ rows ∈ (scanData s t).toOption,
    ∃ i ∈ schema.indexes, i.name = n ∧
      (rows.filterMap fun q => uniqueValue i (evalColumns schema) q.2).Nodup))

theorem UniqueOk.uniqueIndex (h : UniqueOk s declared) (hs : Integrity s) {n : Name}
    (hdeclared : (t, n) ∈ declared) : UniqueIndex s t n := by
  have hlisted := h.listed _ hdeclared
  cases hschema : readSchema s t with
  | none =>
    rw [indexNames_of_none hschema] at hlisted
    exact absurd hlisted List.not_mem_nil
  | some schema =>
    rw [indexNames_eq hschema] at hlisted
    obtain ⟨i, hi, hname⟩ := List.mem_map.mp hlisted
    obtain ⟨id, hat⟩ := hs.tableAt hschema
    have hok := hs.tableOk hat
    refine ⟨schema, hschema, logicalRows s (readCatalog s t) (scanTable s id), ?_, i, hi, hname, ?_⟩
    · rw [scanData_eq hat]
      rfl
    · unfold logicalRows
      rw [List.filterMap_filterMap, List.Nodup, List.pairwise_filterMap]
      apply (scanRange_ascending ..).imp_of_mem
      intro k k' hk hk' hlt value hvalue value' hvalue' heq
      subst value'
      obtain ⟨p, rfl, -⟩ := mem_scanTable.mp hk
      obtain ⟨p', rfl, -⟩ := mem_scanTable.mp hk'
      have hentry : ∀ {p}, value ∈ ((storedRow s (.row id p)).map fun stored =>
          (stored.key, toLogical (readCatalog s t) stored.row)).bind (fun q =>
            uniqueValue i (evalColumns schema) q.2) → ∃ v, NonNull G v ∧ keyBytes value = .ok v ∧
              (readEntry s id n v p).isSome = true := by
        intro p hp
        obtain ⟨q, hq, hrow⟩ := Option.bind_eq_some_iff.mp hp
        obtain ⟨st, hst, rfl⟩ := Option.map_eq_some_iff.mp hq
        obtain ⟨hrow, hne⟩ := uniqueValue_eq_some.mp hrow
        obtain ⟨v, hv⟩ := (hok.row p st hst).evaluable i hi
        obtain ⟨value', hrow', hbytes⟩ := indexBytes_eq_ok.mp hv
        obtain rfl : value = value' := Except.ok.inj (hrow.symm.trans hrow')
        refine ⟨v, ⟨value, hne, hbytes⟩, hbytes, ?_⟩
        rw [(hok.entry n v p st.key).mpr ⟨st, hst, rfl, i, hi, hname, hv⟩]
        rfl
      obtain ⟨v, hnonnull, hbytes, hp⟩ := hentry hvalue
      obtain ⟨v', -, hbytes', hp'⟩ := hentry hvalue'
      obtain rfl : v = v' := Except.ok.inj (hbytes.symm.trans hbytes')
      obtain rfl := h.distinct _ hdeclared id v p p' hat.id hnonnull hp hp'
      exact lt_irrefl _ hlt

end BlueDB.Sql
