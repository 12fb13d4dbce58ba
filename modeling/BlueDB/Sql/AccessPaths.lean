import BlueDB.Sql.IndexIntegrity

/-!
# Access paths

A point fetch returns the row a full scan returns under its key. A scan of an
index returns the rows of a full scan that satisfy the comparison, ordered by
the indexed value and the key, if those rows are stored as they are read and no
null sorts above the value.
-/

namespace BlueDB.Sql

variable {G : Engine} {s : Store G} {t : Name} {schema : Schema G} {id : UInt64}
  {catalog : Option (ColumnCatalog G)}

/-- The key of an index on a row. -/
def indexKey (schema : Schema G) (i : SchemaIndex G) (row : DataRow G.Value) : Option G.Key :=
  match (indexValue i (evalColumns schema) row : Except (Error G) G.Key) with
  | .ok k => some k
  | .error _ => none

namespace KeyOrder

variable (O : KeyOrder G)

def satisfies (schema : Schema G) (i : SchemaIndex G) (op : IndexOperator) (c : G.Key)
    (row : DataRow G.Value) : Bool :=
  (indexKey schema i row).any fun k => (O.compare k c).any op.accepts

/-- Values in ascending order, nulls last. -/
def Below (a b : G.Key) : Prop := O.compare a b = some .lt ∨ a ≠ G.noneKey ∧ b = G.noneKey

def Before (schema : Schema G) (i : SchemaIndex G) (q q' : G.Key × DataRow G.Value) : Prop :=
  ∃ k k', indexKey schema i q.2 = some k ∧ indexKey schema i q'.2 = some k' ∧
    (O.Below k k' ∨ k = k' ∧ ∃ p p', G.toCmpBeBytes q.1 = .ok p ∧ G.toCmpBeBytes q'.1 = .ok p' ∧
      p < p')

/-- The rows of a full scan that satisfy the comparison, in order. -/
structure IndexScan (schema : Schema G) (i : SchemaIndex G) (asc : Option Bool)
    (op : IndexOperator) (c : G.Key) (rows out : List (G.Key × DataRow G.Value)) : Prop where
  perm : out.Perm (rows.filter fun q => O.satisfies schema i op c q.2)
  sorted : (reverseIf asc out).Pairwise (O.Before schema i)

/-- The indexed values are null or of one type, to which `c` belongs. -/
structure OfType (schema : Schema G) (i : SchemaIndex G)
    (rows : List (G.Key × DataRow G.Value)) (c : G.Key) : Prop where
  comparison : c ≠ G.noneKey
  values : ∀ q ∈ rows, ∀ k, indexKey schema i q.2 = some k → k ≠ G.noneKey →
    (O.compare k c).isSome = true

/-- The rows that satisfy the comparison are stored as they are read, and no null
sorts above the value. -/
structure ScanReady (s : Store G) (t : Name) (schema : Schema G) (i : SchemaIndex G)
    (op : IndexOperator) (c : G.Key) : Prop where
  stored : ∀ id p st, resolveTableId s t = some id → readRow s id p = some st →
    O.satisfies schema i op c (toLogical (readCatalog s t) st.row) = true →
      toLogical (readCatalog s t) st.row = st.row
  nulls : op.accepts .gt = true → ∀ id p st, resolveTableId s t = some id →
    readRow s id p = some st →
      indexKey schema i (toLogical (readCatalog s t) st.row) ≠ some G.noneKey

end KeyOrder

section Fetch

variable (O : KeyOrder G)

theorem fetchData_eq (hat : TableAt s t schema id catalog) {key : G.Key} {b : List UInt8}
    (hb : (keyBytes key : Except (Error G) (List UInt8)) = .ok b) :
    fetchData s t key =
      .ok ((readRow s id b).map fun stored => toLogical catalog stored.row) := by
  unfold fetchData
  rw [hat.tableId, hat.catalog, hb]
  rfl

theorem fetchData_iff (h : Integrity s) (hat : TableAt s t schema id catalog) {key : G.Key}
    {b : List UInt8} (hb : G.toCmpBeBytes key = .ok b)
    (htype : ∀ q ∈ logicalRows s catalog (scanTable s id), (O.compare q.1 key).isSome = true) :
    ∃ found, fetchData s t key = .ok found ∧
      ∀ row, found = some row ↔ (key, row) ∈ logicalRows s catalog (scanTable s id) := by
  have hok := h.tableOk hat
  refine ⟨_, fetchData_eq hat (keyBytes_eq_ok.mpr hb), fun row => ?_⟩
  constructor
  · intro hfound
    obtain ⟨st, hst, rfl⟩ := Option.map_eq_some_iff.mp hfound
    have hmem : (st.key, toLogical catalog st.row) ∈ logicalRows s catalog (scanTable s id) :=
      mem_logicalRows_scanTable.mpr ⟨b, st, hst, rfl⟩
    obtain ⟨o, ho⟩ := Option.isSome_iff_exists.mp (htype _ hmem)
    have hsame := O.compare_bytes ho (keyBytes_eq_ok.mp (hok.row b st hst).key) hb
    rw [compareBytes_eq_eq.mpr rfl] at hsame
    subst o
    rw [← O.eq_of_compare ho]
    exact hmem
  · intro hmem
    obtain ⟨p, st, hst, heq⟩ := mem_logicalRows_scanTable.mp hmem
    obtain ⟨rfl, rfl⟩ := Prod.mk.inj heq
    obtain rfl : p = b := Except.ok.inj ((hok.row p st hst).key.symm.trans (keyBytes_eq_ok.mpr hb))
    rw [hst]
    rfl

end Fetch

/-- The row an entry leads to. -/
def target (s : Store G) (id : UInt64) : StorageKey → Option (StoredRow G)
  | .indexEntry _ _ _ p => readRow s id p
  | _ => none

/-- The entries of an index whose value compares with `b` as the operator says. -/
def rangeEntries (s : Store G) (id : UInt64) (n : Name) (op : IndexOperator) (b : List UInt8) :
    List StorageKey :=
  scanRange s (indexRange id n op b).1 (indexRange id n op b).2

section Entries

variable {i : SchemaIndex G} {op : IndexOperator} {b : List UInt8}

structure EntryOf (s : Store G) (schema : Schema G) (id : UInt64)
    (catalog : Option (ColumnCatalog G)) (i : SchemaIndex G) (v p : List UInt8)
    (st : StoredRow G) (k : G.Key) : Prop where
  row : readRow s id p = some st
  key : G.toCmpBeBytes st.key = .ok p
  value : indexKey schema i (toLogical catalog st.row) = some k
  bytes : G.toCmpBeBytes k = .ok v

theorem indexKey_eq_some {row : DataRow G.Value} {k : G.Key} :
    indexKey schema i row = some k ↔
      (indexValue i (evalColumns schema) row : Except (Error G) G.Key) = .ok k := by
  unfold indexKey
  cases indexValue i (evalColumns schema) row <;> simp

theorem indexBytes_iff {row : DataRow G.Value} {v : List UInt8} :
    indexBytes (evalColumns schema) row i = .ok v ↔
      ∃ k, indexKey schema i row = some k ∧ G.toCmpBeBytes k = .ok v := by
  rw [indexBytes_eq_ok]
  simp only [indexKey_eq_some, keyBytes_eq_ok]

theorem readEntry_iff (hok : TableOk schema catalog (readRow s id) (readEntry s id))
    (hi : i ∈ schema.indexes) {v p : List UInt8} {k : G.Key} :
    readEntry s id i.name v p = some k ↔ ∃ st x, k = st.key ∧
      EntryOf s schema id catalog i v p st x := by
  rw [hok.entry]
  constructor
  · intro ⟨st, hst, hk, hindexed⟩
    obtain ⟨x, hx, hv⟩ := indexBytes_iff.mp ((indexed_iff hok.indexes_nodup hi).mp hindexed)
    exact ⟨st, x, hk, hst, keyBytes_eq_ok.mp (hok.row p st hst).key, hx, hv⟩
  · intro ⟨st, x, hk, hentry⟩
    exact ⟨st, hentry.row, hk, (indexed_iff hok.indexes_nodup hi).mpr
      (indexBytes_iff.mpr ⟨x, hentry.value, hentry.bytes⟩)⟩

theorem mem_rangeEntries (hok : TableOk schema catalog (readRow s id) (readEntry s id))
    (hi : i ∈ schema.indexes) {k : StorageKey} :
    k ∈ rangeEntries s id i.name op b ↔ ∃ v p st x, k = .indexEntry id i.name v p ∧
      EntryOf s schema id catalog i v p st x ∧ op.accepts (compareBytes v b) = true := by
  rw [rangeEntries, mem_scanRange, inRange_index_iff]
  constructor
  · intro ⟨⟨v, p, hk, haccepts⟩, hlive⟩
    subst k
    obtain ⟨y, hy⟩ := Option.isSome_iff_exists.mp hlive
    obtain ⟨st, x, -, hentry⟩ := (readEntry_iff hok hi).mp hy
    exact ⟨v, p, st, x, rfl, hentry, haccepts⟩
  · intro ⟨v, p, st, x, hk, hentry, haccepts⟩
    subst k
    refine ⟨⟨v, p, rfl, haccepts⟩, ?_⟩
    have hread := (readEntry_iff hok hi (k := st.key)).mpr ⟨st, x, rfl, hentry⟩
    exact Option.isSome_iff_exists.mpr ⟨_, hread⟩

/-- The rows the entries lead to, in the order of the entries. -/
def rangeRows (s : Store G) (id : UInt64) (f : StoredRow G → DataRow G.Value)
    (entries : List StorageKey) : List (G.Key × DataRow G.Value) :=
  entries.filterMap fun k => (target s id k).map fun st => (st.key, f st)

theorem mapM_entryRow {entries : List StorageKey}
    (h : ∀ k ∈ entries, ∃ st p, target s id k = some st ∧ entryPk s k = some st.key ∧
      G.toCmpBeBytes st.key = .ok p ∧ readRow s id p = some st) :
    ((entries.filterMap (entryPk s)).mapM (entryRow s id) :
      Except (Error G) (List (Option (G.Key × DataRow G.Value)))) =
        .ok (entries.map fun k => (target s id k).map fun st => (st.key, st.row)) := by
  induction entries with
  | nil => rfl
  | cons k entries ih =>
    obtain ⟨st, p, htarget, hpk, hp, hrow⟩ := h k (by simp)
    have hentry : (entryRow s id st.key : Except (Error G) _) = .ok (some (st.key, st.row)) := by
      unfold entryRow
      rw [keyBytes_eq_ok.mpr hp]
      simp only [bind, Except.bind, pure, Except.pure, hrow, Option.map_some]
    rw [List.filterMap_cons, hpk, List.mapM_cons, hentry,
      ih fun k' hk' => h k' (List.mem_cons_of_mem _ hk'), List.map_cons, htarget]
    rfl

theorem scanIndexedData_eq (hat : TableAt s t schema id catalog)
    (hok : TableOk schema catalog (readRow s id) (readEntry s id)) (hi : i ∈ schema.indexes)
    (hname : i.name ≠ pkPseudoIndex) {value : G.Value} {c : G.Key} (hc : G.keyOf value = .ok c)
    (hb : G.toCmpBeBytes c = .ok b) (asc : Option Bool) :
    scanIndexedData s t i.name asc (some (op, value)) =
      .ok (reverseIf asc (rangeRows s id StoredRow.row (rangeEntries s id i.name op b))) := by
  have hcmp : (cmpRange (indexPrefix id i.name) (indexRange id i.name) (some (op, value)) :
      Except (Error G) _) = .ok (indexRange id i.name op b) := by
    simp only [cmpRange, cmpBytes, hc, keyBytes_eq_ok.mpr hb, Except.mapError, bind, Except.bind,
      Except.map]
  have htargets : ∀ k ∈ rangeEntries s id i.name op b, ∃ st p, target s id k = some st ∧
      entryPk s k = some st.key ∧ G.toCmpBeBytes st.key = .ok p ∧ readRow s id p = some st := by
    intro k hk
    obtain ⟨v, p, st, x, rfl, hentry, -⟩ := (mem_rangeEntries hok hi).mp hk
    exact ⟨st, p, hentry.row, (readEntry_iff hok hi).mpr ⟨st, x, rfl, hentry⟩, hentry.key,
      hentry.row⟩
  have hrows := mapM_entryRow htargets
  unfold scanIndexedData
  rw [if_neg hname, hat.tableId]
  simp only [bind, Except.bind]
  rw [hcmp]
  dsimp only
  rw [show scanRange s (indexRange id i.name op b).1 (indexRange id i.name op b).2 =
    rangeEntries s id i.name op b from rfl, hrows]
  delta List.reduceOption
  simp only [pure, Except.pure, List.filterMap_map, rangeRows, Function.comp_def, id_eq]

end Entries

section Order

variable {i : SchemaIndex G} {op : IndexOperator} {b : List UInt8}

theorem mem_rangeRows (hok : TableOk schema catalog (readRow s id) (readEntry s id))
    (hi : i ∈ schema.indexes) {f : StoredRow G → DataRow G.Value} {q : G.Key × DataRow G.Value} :
    q ∈ rangeRows s id f (rangeEntries s id i.name op b) ↔ ∃ v p st x,
      EntryOf s schema id catalog i v p st x ∧ op.accepts (compareBytes v b) = true ∧
        q = (st.key, f st) := by
  rw [rangeRows, List.mem_filterMap]
  constructor
  · intro ⟨k, hk, hq⟩
    obtain ⟨v, p, st, x, rfl, hentry, haccepts⟩ := (mem_rangeEntries hok hi).mp hk
    simp only [target, hentry.row, Option.map_some, Option.some.injEq] at hq
    exact ⟨v, p, st, x, hentry, haccepts, hq.symm⟩
  · intro ⟨v, p, st, x, hentry, haccepts, hq⟩
    refine ⟨_, (mem_rangeEntries hok hi).mpr ⟨v, p, st, x, rfl, hentry, haccepts⟩, ?_⟩
    simp only [target, hentry.row, Option.map_some, hq]

theorem rangeRows_pairwise (hok : TableOk schema catalog (readRow s id) (readEntry s id))
    (hi : i ∈ schema.indexes) {f : StoredRow G → DataRow G.Value}
    {R : G.Key × DataRow G.Value → G.Key × DataRow G.Value → Prop}
    (h : ∀ v p st x v' p' st' x', EntryOf s schema id catalog i v p st x →
      EntryOf s schema id catalog i v' p' st' x' → v < v' ∨ v = v' ∧ p < p' →
        R (st.key, f st) (st'.key, f st')) :
    (rangeRows s id f (rangeEntries s id i.name op b)).Pairwise R := by
  unfold rangeRows
  rw [List.pairwise_filterMap]
  apply (scanRange_ascending s _ _).imp_of_mem
  intro k k' hk hk' hlt q hq q' hq'
  obtain ⟨v, p, st, x, rfl, hentry, -⟩ := (mem_rangeEntries hok hi).mp hk
  obtain ⟨v', p', st', x', rfl, hentry', -⟩ := (mem_rangeEntries hok hi).mp hk'
  simp only [target, hentry.row, Option.map_some, Option.some.injEq] at hq
  simp only [target, hentry'.row, Option.map_some, Option.some.injEq] at hq'
  rw [← hq, ← hq']
  exact h v p st x v' p' st' x' hentry hentry' (indexEntry_lt_indexEntry.mp hlt)

theorem EntryOf.unique {v v' p p' : List UInt8} {st st' : StoredRow G} {x x' : G.Key}
    (h : EntryOf s schema id catalog i v p st x) (h' : EntryOf s schema id catalog i v' p' st' x')
    (hkey : st.key = st'.key) : v = v' ∧ p = p' ∧ st = st' := by
  obtain rfl : p = p' := Except.ok.inj (h.key.symm.trans (hkey ▸ h'.key))
  obtain rfl : st = st' := Option.some.inj (h.row.symm.trans h'.row)
  obtain rfl : x = x' := Option.some.inj (h.value.symm.trans h'.value)
  exact ⟨Except.ok.inj (h.bytes.symm.trans h'.bytes), rfl, rfl⟩

theorem rangeRows_nodup (hok : TableOk schema catalog (readRow s id) (readEntry s id))
    (hi : i ∈ schema.indexes) (f : StoredRow G → DataRow G.Value) :
    (rangeRows s id f (rangeEntries s id i.name op b)).Nodup := by
  apply rangeRows_pairwise hok hi
  intro v p st x v' p' st' x' hentry hentry' hlt heq
  obtain ⟨rfl, rfl, -⟩ := hentry.unique hentry' (Prod.mk.inj heq).1
  rcases hlt with hlt | ⟨-, hlt⟩
  · exact lt_irrefl v hlt
  · exact lt_irrefl p hlt

theorem logicalRows_nodup (hok : TableOk schema catalog (readRow s id) (readEntry s id)) :
    (logicalRows s catalog (scanTable s id)).Nodup := by
  unfold logicalRows scanTable
  rw [List.Nodup, List.pairwise_filterMap]
  apply (scanRange_ascending s _ _).imp_of_mem
  intro k k' hk hk' hlt q hq q' hq' heq
  obtain ⟨p, rfl, -⟩ := mem_scanTable.mp hk
  obtain ⟨p', rfl, -⟩ := mem_scanTable.mp hk'
  obtain ⟨st, hst, rfl⟩ := Option.map_eq_some_iff.mp hq
  obtain ⟨st', hst', rfl⟩ := Option.map_eq_some_iff.mp hq'
  have hkey : st.key = st'.key := (Prod.mk.inj heq).1
  have hp := (hok.row p st hst).key
  rw [hkey] at hp
  obtain rfl : p = p' := Except.ok.inj (hp.symm.trans (hok.row p' st' hst').key)
  exact lt_irrefl _ hlt

variable {O : KeyOrder G} {c : G.Key}

theorem EntryOf.mem_logicalRows {v p : List UInt8} {st : StoredRow G} {x : G.Key}
    (h : EntryOf s schema id catalog i v p st x) :
    (st.key, toLogical catalog st.row) ∈ logicalRows s catalog (scanTable s id) :=
  mem_logicalRows_scanTable.mpr ⟨p, st, h.row, rfl⟩

/-- The bytes of the value say what the operators of the engine say, but for nulls. -/
theorem EntryOf.accepts_iff {v p : List UInt8} {st : StoredRow G} {x : G.Key}
    (h : EntryOf s schema id catalog i v p st x) (hb : G.toCmpBeBytes c = .ok b)
    (htype : O.OfType schema i (logicalRows s catalog (scanTable s id)) c) :
    op.accepts (compareBytes v b) = true ↔
      O.satisfies schema i op c (toLogical catalog st.row) = true ∨
        x = G.noneKey ∧ op.accepts .gt = true := by
  have hsat : O.satisfies schema i op c (toLogical catalog st.row) =
      (O.compare x c).any op.accepts := by
    rw [KeyOrder.satisfies, h.value, Option.any_some]
  rw [hsat]
  by_cases hnull : x = G.noneKey
  · have hlast := O.none_last htype.comparison hb (hnull ▸ h.bytes)
    rw [compareBytes_eq_gt.mpr hlast, hnull, O.compare_none]
    simp
  · obtain ⟨o, ho⟩ := Option.isSome_iff_exists.mp
      (htype.values _ h.mem_logicalRows x h.value hnull)
    rw [O.compare_bytes ho h.bytes hb, ho, Option.any_some]
    simp [hnull]

/-- Entries in ascending order of bytes have their values in ascending order. -/
theorem EntryOf.before {v p v' p' : List UInt8} {st st' : StoredRow G} {x x' : G.Key}
    (h : EntryOf s schema id catalog i v p st x) (h' : EntryOf s schema id catalog i v' p' st' x')
    (htype : O.OfType schema i (logicalRows s catalog (scanTable s id)) c)
    (hlt : v < v' ∨ v = v' ∧ p < p') :
    O.Before schema i (st.key, toLogical catalog st.row) (st'.key, toLogical catalog st'.row) := by
  refine ⟨x, x', h.value, h'.value, ?_⟩
  by_cases hnull : x = G.noneKey <;> by_cases hnull' : x' = G.noneKey
  · have hsame : v = v' := Except.ok.inj ((hnull ▸ h.bytes).symm.trans (hnull' ▸ h'.bytes))
    rcases hlt with hlt | ⟨-, hlt⟩
    · exact absurd hlt (hsame ▸ lt_irrefl v)
    · exact Or.inr ⟨hnull.trans hnull'.symm, p, p', h.key, h'.key, hlt⟩
  · have hlast := O.none_last hnull' h'.bytes (hnull ▸ h.bytes)
    rcases hlt with hlt | ⟨hsame, -⟩
    · exact absurd hlt hlast.not_gt
    · exact absurd hsame hlast.ne'
  · exact Or.inl (Or.inr ⟨hnull, hnull'⟩)
  · obtain ⟨o, ho⟩ := Option.isSome_iff_exists.mp (O.comparable_trans
      (htype.values _ h.mem_logicalRows x h.value hnull)
      (htype.values _ h'.mem_logicalRows x' h'.value hnull'))
    have hbytes := O.compare_bytes ho h.bytes h'.bytes
    rcases hlt with hlt | ⟨hsame, hlt⟩
    · rw [compareBytes_eq_lt.mpr hlt] at hbytes
      exact Or.inl (Or.inl (hbytes ▸ ho))
    · rw [compareBytes_eq_eq.mpr hsame] at hbytes
      exact Or.inr ⟨O.eq_of_compare (hbytes ▸ ho), p, p', h.key, h'.key, hlt⟩

end Order

theorem reverseIf_reverseIf (asc : Option Bool) {α : Type} (l : List α) :
    reverseIf asc (reverseIf asc l) = l := by
  unfold reverseIf
  split_ifs
  · exact List.reverse_reverse l
  · rfl

theorem reverseIf_perm (asc : Option Bool) {α : Type} (l : List α) : (reverseIf asc l).Perm l := by
  unfold reverseIf
  split_ifs
  · exact List.reverse_perm l
  · exact List.Perm.refl l

section IndexScan

variable {O : KeyOrder G} {i : SchemaIndex G} {op : IndexOperator} {c : G.Key} {b : List UInt8}

theorem TableOk.entryOf (hok : TableOk schema catalog (readRow s id) (readEntry s id))
    (hi : i ∈ schema.indexes) {p : List UInt8} {st : StoredRow G} (hst : readRow s id p = some st) :
    ∃ v x, EntryOf s schema id catalog i v p st x := by
  obtain ⟨v, hv⟩ := (hok.row p st hst).evaluable i hi
  obtain ⟨x, hx, hbytes⟩ := indexBytes_iff.mp hv
  exact ⟨v, x, hst, keyBytes_eq_ok.mp (hok.row p st hst).key, hx, hbytes⟩

theorem scanReady_of_indexScan (hat : TableAt s t schema id catalog)
    (hok : TableOk schema catalog (readRow s id) (readEntry s id)) (hi : i ∈ schema.indexes)
    (hb : G.toCmpBeBytes c = .ok b)
    (htype : O.OfType schema i (logicalRows s catalog (scanTable s id)) c)
    (h : ∀ q ∈ rangeRows s id StoredRow.row (rangeEntries s id i.name op b),
      q ∈ (logicalRows s catalog (scanTable s id)).filter fun q => O.satisfies schema i op c q.2) :
    O.ScanReady s t schema i op c := by
  -- a row in the range is returned as it is stored, so it satisfies the comparison as it is read
  have hrow : ∀ v p st x, EntryOf s schema id catalog i v p st x →
      op.accepts (compareBytes v b) = true → toLogical catalog st.row = st.row ∧
        O.satisfies schema i op c (toLogical catalog st.row) = true := by
    intro v p st x hentry haccepts
    obtain ⟨hmem, hsat⟩ := List.mem_filter.mp
      (h _ ((mem_rangeRows hok hi).mpr ⟨v, p, st, x, hentry, haccepts, rfl⟩))
    obtain ⟨p', st', hst', heq⟩ := mem_logicalRows_scanTable.mp hmem
    obtain ⟨hkey, hlogical⟩ := Prod.mk.inj heq
    obtain ⟨v', x', hentry'⟩ := hok.entryOf hi hst'
    obtain ⟨-, -, rfl⟩ := hentry.unique hentry' hkey
    refine ⟨hlogical.symm, ?_⟩
    rw [← hlogical]
    exact hsat
  constructor
  · intro id' p st hid hst hsat
    rw [hat.id, Option.some.injEq] at hid
    subst id'
    rw [hat.catalog] at hsat ⊢
    obtain ⟨v, x, hentry⟩ := hok.entryOf hi hst
    exact (hrow v p st x hentry ((hentry.accepts_iff hb htype).mpr (Or.inl hsat))).1
  · intro habove id' p st hid hst hnull
    rw [hat.id, Option.some.injEq] at hid
    subst id'
    rw [hat.catalog] at hnull
    obtain ⟨v, x, hentry⟩ := hok.entryOf hi hst
    obtain rfl : x = G.noneKey := Option.some.inj (hentry.value.symm.trans hnull)
    have hsat := (hrow v p st _ hentry
      ((hentry.accepts_iff hb htype).mpr (Or.inr ⟨rfl, habove⟩))).2
    simp [KeyOrder.satisfies, hnull, O.compare_none] at hsat

theorem indexScan_of_scanReady (hat : TableAt s t schema id catalog)
    (hok : TableOk schema catalog (readRow s id) (readEntry s id)) (hi : i ∈ schema.indexes)
    (hb : G.toCmpBeBytes c = .ok b)
    (htype : O.OfType schema i (logicalRows s catalog (scanTable s id)) c)
    (hready : O.ScanReady s t schema i op c) (asc : Option Bool) :
    O.IndexScan schema i asc op c (logicalRows s catalog (scanTable s id))
      (reverseIf asc (rangeRows s id StoredRow.row (rangeEntries s id i.name op b))) := by
  have haccepts : ∀ v p st x, EntryOf s schema id catalog i v p st x →
      (op.accepts (compareBytes v b) = true ↔
        O.satisfies schema i op c (toLogical catalog st.row) = true) := by
    intro v p st x hentry
    rw [hentry.accepts_iff hb htype]
    constructor
    · intro hor
      apply hor.resolve_right
      intro ⟨hnull, habove⟩
      apply hready.nulls habove id p st hat.id hentry.row
      rw [hat.catalog, hentry.value, hnull]
    · exact Or.inl
  have hrows : rangeRows s id StoredRow.row (rangeEntries s id i.name op b) =
      rangeRows s id (fun st => toLogical catalog st.row) (rangeEntries s id i.name op b) := by
    unfold rangeRows
    apply List.filterMap_congr
    intro k hk
    obtain ⟨v, p, st, x, rfl, hentry, hin⟩ := (mem_rangeEntries hok hi).mp hk
    have hstored := hready.stored id p st hat.id hentry.row
    rw [hat.catalog] at hstored
    simp only [target, hentry.row, Option.map_some, hstored ((haccepts v p st x hentry).mp hin)]
  rw [hrows]
  constructor
  · apply (reverseIf_perm asc _).trans
    rw [List.perm_ext_iff_of_nodup (rangeRows_nodup hok hi _) ((logicalRows_nodup hok).filter _)]
    intro q
    rw [mem_rangeRows hok hi, List.mem_filter]
    constructor
    · intro ⟨v, p, st, x, hentry, hin, hq⟩
      subst q
      exact ⟨hentry.mem_logicalRows, (haccepts v p st x hentry).mp hin⟩
    · intro ⟨hmem, hsat⟩
      obtain ⟨p, st, hst, rfl⟩ := mem_logicalRows_scanTable.mp hmem
      obtain ⟨v, x, hentry⟩ := hok.entryOf hi hst
      exact ⟨v, p, st, x, hentry, (haccepts v p st x hentry).mpr hsat, rfl⟩
  · rw [reverseIf_reverseIf]
    apply rangeRows_pairwise hok hi
    intro v p st x v' p' st' x' hentry hentry' hlt
    exact hentry.before hentry' htype hlt

/-- A scan of an index is what it should be exactly when the rows it returns are
stored as they are read and no null sorts above the value. -/
theorem indexScan_iff (h : Integrity s) (hat : TableAt s t schema id catalog)
    (hi : i ∈ schema.indexes) (hname : i.name ≠ pkPseudoIndex) {value : G.Value}
    (hc : G.keyOf value = .ok c) (hb : G.toCmpBeBytes c = .ok b)
    (htype : O.OfType schema i (logicalRows s catalog (scanTable s id)) c) (asc : Option Bool) :
    (∃ out, scanIndexedData s t i.name asc (some (op, value)) = .ok out ∧
      O.IndexScan schema i asc op c (logicalRows s catalog (scanTable s id)) out) ↔
        O.ScanReady s t schema i op c := by
  have hok := h.tableOk hat
  have hscan : scanIndexedData s t i.name asc (some (op, value)) =
      .ok (reverseIf asc (rangeRows s id StoredRow.row (rangeEntries s id i.name op b))) :=
    scanIndexedData_eq hat hok hi hname hc hb asc
  constructor
  · intro ⟨out, hout, hscans⟩
    rw [hscan, Except.ok.injEq] at hout
    subst out
    apply scanReady_of_indexScan hat hok hi hb htype
    intro q hq
    exact hscans.perm.subset ((reverseIf_perm asc _).symm.subset hq)
  · intro hready
    exact ⟨_, hscan, indexScan_of_scanReady hat hok hi hb htype hready asc⟩

end IndexScan

structure AccessPathsAgree (O : KeyOrder G) (s : Store G) : Prop where
  fetch : ∀ t rows key b, scanData s t = .ok rows → G.toCmpBeBytes key = .ok b →
    (∀ q ∈ rows, (O.compare q.1 key).isSome = true) →
      ∃ found, fetchData s t key = .ok found ∧ ∀ row, found = some row ↔ (key, row) ∈ rows
  scan : ∀ t schema rows i op value c b asc, readSchema s t = some schema →
    scanData s t = .ok rows → i ∈ schema.indexes → i.name ≠ pkPseudoIndex →
      G.keyOf value = .ok c → G.toCmpBeBytes c = .ok b → O.OfType schema i rows c →
        ((∃ out, scanIndexedData s t i.name asc (some (op, value)) = .ok out ∧
          O.IndexScan schema i asc op c rows out) ↔ O.ScanReady s t schema i op c)

theorem Integrity.accessPathsAgree (h : Integrity s) (O : KeyOrder G) : AccessPathsAgree O s := by
  constructor
  · intro t rows key b hrows hb htype
    have hid : ∃ id, resolveTableId s t = some id := by
      cases hid : resolveTableId s t with
      | none => simp [scanData, collectRows, tableId, hid, bind, Except.bind] at hrows
      | some id => exact ⟨id, rfl⟩
    obtain ⟨id, hid⟩ := hid
    obtain ⟨schema, hschema⟩ := Option.isSome_iff_exists.mp (h.ids t id hid)
    have hat : TableAt s t schema id (readCatalog s t) := ⟨hschema, hid, rfl⟩
    rw [scanData_eq hat, Except.ok.injEq] at hrows
    subst rows
    exact fetchData_iff O h hat hb htype
  · intro t schema rows i op value c b asc hschema hrows hi hname hc hb htype
    obtain ⟨id, hat⟩ := h.tableAt hschema
    rw [scanData_eq hat, Except.ok.injEq] at hrows
    subst rows
    exact indexScan_iff h hat hi hname hc hb htype asc

end BlueDB.Sql
