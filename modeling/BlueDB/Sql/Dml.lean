import BlueDB.Sql.Integrity

/-!
# Rows in and out

INSERT, UPDATE and DELETE keep the invariant. A table without a primary key gets
its keys from the allocator, which is ahead of every key in use, so that an
appended row never meets an old one. A statement fails with an evaluation error
only over one of its own new rows.
-/

namespace BlueDB.Sql

variable {G : Engine}

/-- A key of a table without a primary key: not above the allocator or, before
the first allocation, the key of a committed row. -/
def KeyAllocated (live : Store G) (seq : UInt64 → Option ℤ) (id : UInt64) (p : List UInt8)
    (key : G.Key) : Prop :=
  ∃ m, key = G.i64 m ∧ IsI64 m ∧
    match seq id with
    | some last => m ≤ last
    | none => ∃ st, readRow live id p = some st ∧ st.key = key

def AppendKeys (live : Store G) (seq : UInt64 → Option ℤ) (s : Store G) : Prop :=
  ∀ t schema id, readSchema s t = some schema → resolveTableId s t = some id →
    primaryKeyIndex schema = none → ∀ p st, readRow s id p = some st →
      KeyAllocated live seq id p st.key

/-- What holds of a connection that is alone on its store. -/
structure ConnOk (c : Conn G) : Prop where
  live : Integrity c.live
  liveKeys : AppendKeys c.live c.seq c.live
  view : Integrity c.view
  viewKeys : AppendKeys c.live c.seq c.view
  seq : ∀ id last, c.seq id = some last → 0 ≤ last
  snapshot : ∀ x, c.txn = some x → x.snapshot = c.live

/-- A transaction of such a connection, with the records of one table. -/
structure ConnAt (c : Conn G) (t : Name) (schema : Schema G) (id : UInt64)
    (catalog : Option (ColumnCatalog G)) : Prop where
  ok : ConnOk c
  txn : c.txn.isSome = true
  table : TableAt c.view t schema id catalog

theorem AppendKeys.of_table {live s s' : Store G} {seq : UInt64 → Option ℤ} {t : Name}
    {schema' : Schema G} {id : UInt64} (h : AppendKeys live seq s) (hs : Integrity s)
    (hid : resolveTableId s t = some id) (hframe : ∀ k, ¬Owned t id k → s'.get k = s.get k)
    (hschema : readSchema s' t = some schema')
    (hkeys : primaryKeyIndex schema' = none → ∀ p st, readRow s' id p = some st →
      KeyAllocated live seq id p st.key) : AppendKeys live seq s' := by
  have hids : ∀ t', resolveTableId s' t' = resolveTableId s t' :=
    fun t' => hframe (.tableid t') not_false
  intro t' schema id' hread hid' hpk p st hst
  rw [hids] at hid'
  by_cases ht' : t' = t
  · subst t'
    rw [hschema, Option.some.injEq] at hread
    rw [hid, Option.some.injEq] at hid'
    subst hread hid'
    exact hkeys hpk p st hst
  · have hne : id' ≠ id := fun heq => ht' (hs.ids_inj t' t id (heq ▸ hid') hid)
    have hread' : readSchema s t' = some schema :=
      (hframe (.schema t') ht').symm.trans hread
    have hst' : readRow s id' p = some st := (hframe (.row id' p) hne).symm.trans hst
    exact h t' schema id' hread' hid' hpk p st hst'

namespace ConnOk

variable {c c' : Conn G} {ws : Batch G}

theorem buffered (h : ConnOk c) (hbuf : Buffered c c' ws) (hview : Integrity c'.view)
    (hkeys : AppendKeys c.live c.seq c'.view) : ConnOk c' := by
  constructor
  · rw [hbuf.live]
    exact h.live
  · rw [hbuf.live, hbuf.seq]
    exact h.liveKeys
  · exact hview
  · rw [hbuf.live, hbuf.seq]
    exact hkeys
  · rw [hbuf.seq]
    exact h.seq
  · intro x' hx'
    obtain ⟨y, hy, y', hy', hsnap, -⟩ := hbuf.txn
    rw [hbuf.live, ← h.snapshot y hy, ← hsnap]
    rw [Option.mem_def, hx', Option.some.injEq] at hy'
    rw [hy']

theorem of_table {t : Name} {schema schema' : Schema G} {id : UInt64}
    {catalog : Option (ColumnCatalog G)} (h : ConnOk c) (hat : TableAt c.view t schema id catalog)
    (hbuf : Buffered c c' ws) (hframe : ∀ k, ¬Owned t id k → c'.view.get k = c.view.get k)
    (hschema : readSchema c'.view t = some schema') (hname : schema'.tableName = t)
    (hok : TableOk schema' (readCatalog c'.view t) (readRow c'.view id) (readEntry c'.view id))
    (hkeys : primaryKeyIndex schema' = none → ∀ p st, readRow c'.view id p = some st →
      KeyAllocated c.live c.seq id p st.key) : ConnOk c' :=
  h.buffered hbuf (h.view.of_table hat.id hframe hschema hname hok)
    (h.viewKeys.of_table h.view hat.id hframe hschema hkeys)

end ConnOk

namespace ConnAt

variable {c c' : Conn G} {ws : Batch G} {t : Name} {schema : Schema G} {id : UInt64}
  {catalog : Option (ColumnCatalog G)} {p : List UInt8} {new : Option (StoredRow G)}

theorem tableOk (h : ConnAt c t schema id catalog) :
    TableOk schema catalog (readRow c.view id) (readEntry c.view id) :=
  h.ok.view.tableOk h.table

theorem rowSet (h : ConnAt c t schema id catalog) (hbuf : Buffered c c' ws)
    (hset : RowSet schema catalog c.view c'.view id p new)
    (hnew : ∀ x, new = some x → RowOk schema catalog p x)
    (hkeys : primaryKeyIndex schema = none → ∀ x, new = some x →
      KeyAllocated c.live c.seq id p x.key) : ConnAt c' t schema id catalog := by
  have hat := hset.tableAt h.table
  refine ⟨h.ok.buffered hbuf (hset.integrity h.ok.view h.table hnew) ?_, hbuf.isSome, hat⟩
  apply h.ok.viewKeys.of_table h.ok.view h.table.id _ hat.schema
  · intro hpk q st hst
    by_cases hq : q = p
    · rw [hq, hset.row] at hst
      rw [hq]
      exact hkeys hpk st hst
    · have hold : readRow c.view id q = some st := by
        rw [← hst]
        exact (hset.other (.row id q) (fun heq => hq (StorageKey.row.inj heq).2) (by simp)).symm
      exact h.ok.viewKeys t schema id h.table.schema h.table.id hpk q st hold
  · intro k hk
    apply hset.other k
    · intro hkey
      exact hk (hkey ▸ rfl)
    · intro n v hkey
      exact hk (hkey ▸ rfl)

end ConnAt

section Keyed

variable {c : Conn G} {t : Name} {schema : Schema G} {id : UInt64}
  {catalog : Option (ColumnCatalog G)}

theorem ConnAt.insertRow_holds (h : ConnAt c t schema id catalog) {key : G.Key}
    {row : DataRow G.Value} (hfits : rowFits schema row = true)
    (hkeys : primaryKeyIndex schema = none → ∀ p, keyBytes key = .ok p →
      KeyAllocated c.live c.seq id p key) :
    Holds (insertRow t id catalog key row) c
      (fun _ c' => ConnAt c' t schema id catalog ∧ c'.live = c.live ∧ c'.seq = c.seq)
      (fun e _ => e.IsIndexEval → RowFails schema row e) := by
  have hok := h.tableOk
  obtain ⟨hround, hstored⟩ := toLogical_toPhysical_of_rowFits hok.catalog_fits hfits
  apply (Sql.insertRow_holds h.txn h.table (h.ok.view.allEvaluable h.table)).mono
  · intro _ c' ⟨p, old, new, hp, hold, hnew, hbuf⟩
    refine ⟨?_, hbuf.live, hbuf.seq⟩
    have hset := rowSet_insert hok hold hnew hround
    rw [← hbuf.view] at hset
    apply h.rowSet hbuf hset
    · intro x hx
      rw [← Option.some.inj hx]
      refine ⟨hp, hstored, ?_⟩
      rw [hround]
      exact hnew.evaluable
    · intro hpk x hx
      rw [← Option.some.inj hx]
      exact hkeys hpk p hp
  · intro e c' hfail
    exact hfail

theorem insertData_holds (h : ConnAt c t schema id catalog) {rows : List (G.Key × DataRow G.Value)}
    (hfits : ∀ q ∈ rows, rowFits schema q.2 = true)
    (hkeys : primaryKeyIndex schema = none → ∀ q ∈ rows, ∀ p, keyBytes q.1 = .ok p →
      KeyAllocated c.live c.seq id p q.1) :
    Holds (insertData t rows) c (fun _ c' => ConnAt c' t schema id catalog)
      (fun e _ => e.IsIndexEval → ∃ q ∈ rows, RowFails schema q.2 e) := by
  unfold insertData
  rw [Holds.bind_iff, Holds.get_iff]
  dsimp only
  rw [h.table.tableId, Holds.bind_iff, Holds.ofExcept_ok, h.table.catalog]
  have hround : ∀ q ∈ rows, ∀ c1 : Conn G,
      (ConnAt c1 t schema id catalog ∧ c1.live = c.live ∧ c1.seq = c.seq) →
      Holds (insertRow t id catalog q.1 q.2) c1
        (fun _ c2 => ConnAt c2 t schema id catalog ∧ c2.live = c.live ∧ c2.seq = c.seq)
        (fun e _ => e.IsIndexEval → ∃ q ∈ rows, RowFails schema q.2 e) := by
    intro q hq c1 ⟨h1, hlive, hseq⟩
    have hkeys1 : primaryKeyIndex schema = none → ∀ p, keyBytes q.1 = .ok p →
        KeyAllocated c1.live c1.seq id p q.1 := by
      rw [hlive, hseq]
      exact fun hpk => hkeys hpk q hq
    apply (h1.insertRow_holds (hfits q hq) hkeys1).mono
    · intro _ c2 ⟨h2, hlive2, hseq2⟩
      exact ⟨h2, hlive2.trans hlive, hseq2.trans hseq⟩
    · intro e c2 hfail heval
      exact ⟨q, hq, hfail heval⟩
  apply (Holds.forM _ rows ⟨h, rfl, rfl⟩ hround).mono
  · intro _ c' hinv
    exact hinv.1
  · intro e c' hfail
    exact hfail

theorem ConnAt.deleteRow_holds (h : ConnAt c t schema id catalog) {key : G.Key} :
    Holds (deleteRow t id catalog key) c (fun _ c' => ConnAt c' t schema id catalog)
      (fun e c' => c' = c ∧ ¬e.IsIndexEval) := by
  apply (Sql.deleteRow_holds h.txn h.table (h.ok.view.allEvaluable h.table)).mono
  · intro _ c' ⟨p, old, hp, hold, hbuf⟩
    have hset := rowSet_delete h.tableOk hold
    rw [← hbuf.view] at hset
    apply h.rowSet hbuf hset
    · simp
    · simp
  · intro e c' ⟨hsame, he⟩
    exact ⟨hsame, keyBytes_not_indexEval he⟩

theorem deleteData_holds (h : ConnAt c t schema id catalog) (keys : List G.Key) :
    Holds (deleteData t keys) c (fun _ c' => ConnAt c' t schema id catalog)
      (fun e c' => ConnAt c' t schema id catalog ∧ ¬e.IsIndexEval) := by
  unfold deleteData
  rw [Holds.bind_iff, Holds.get_iff]
  dsimp only
  rw [h.table.tableId, Holds.bind_iff, Holds.ofExcept_ok, h.table.catalog]
  apply Holds.forM (fun c' => ConnAt c' t schema id catalog) keys h
  intro key _ c1 h1
  apply h1.deleteRow_holds.mono
  · intro _ c2 h2
    exact h2
  · intro e c2 ⟨hsame, he⟩
    exact ⟨hsame ▸ h1, he⟩

end Keyed

/-- Every row of the table has an integer key below `next`. -/
def KeysBelow (s : Store G) (id : UInt64) (next : ℤ) : Prop :=
  ∀ p st, readRow s id p = some st → ∃ m, st.key = G.i64 m ∧ IsI64 m ∧ m < next

theorem le_foldl_max (l : List ℤ) (a : ℤ) : a ≤ l.foldl max a ∧ ∀ m ∈ l, m ≤ l.foldl max a := by
  induction l generalizing a with
  | nil => simp
  | cons b l ih =>
    obtain ⟨hmax, hall⟩ := ih (max a b)
    rw [List.foldl_cons]
    constructor
    · exact (le_max_left a b).trans hmax
    · intro m hm
      rcases List.mem_cons.mp hm with rfl | hm
      · exact (le_max_right a m).trans hmax
      · exact hall m hm

theorem le_liveMaxI64Key (hG : Lawful G) {live : Store G} {id : UInt64} {p : List UInt8}
    {st : StoredRow G} {m : ℤ} (hst : readRow live id p = some st) (hkey : st.key = G.i64 m)
    (hm : IsI64 m) : m ≤ liveMaxI64Key live id := by
  apply (le_foldl_max _ 0).2
  rw [List.mem_filterMap]
  refine ⟨st, List.mem_filterMap.mpr ⟨.row id p, ?_, hst⟩, ?_⟩
  · exact mem_scanTable.mpr ⟨p, rfl, by rw [hst]; rfl⟩
  · rw [hkey, hG.asI64_i64 hm]

section Append

variable {c : Conn G} {t : Name} {schema : Schema G} {id : UInt64}
  {catalog : Option (ColumnCatalog G)}

theorem KeyAllocated.le (hG : Lawful G) {live : Store G} {seq : UInt64 → Option ℤ} {p : List UInt8}
    {key : G.Key} (h : KeyAllocated live seq id p key) :
    ∃ m, key = G.i64 m ∧ IsI64 m ∧ m ≤ (seq id).getD (liveMaxI64Key live id) := by
  obtain ⟨m, hkey, hm, hle⟩ := h
  refine ⟨m, hkey, hm, ?_⟩
  cases hseq : seq id with
  | some last =>
    rw [hseq] at hle
    exact hle
  | none =>
    rw [hseq] at hle
    obtain ⟨st, hst, hst'⟩ := hle
    exact le_liveMaxI64Key hG hst (hst'.trans hkey) hm

theorem KeyAllocated.raise (hG : Lawful G) {live : Store G} {seq : UInt64 → Option ℤ}
    {id' : UInt64} {p : List UInt8} {key : G.Key} {last : ℤ}
    (h : KeyAllocated live seq id' p key) (hlast : (seq id).getD (liveMaxI64Key live id) ≤ last) :
    KeyAllocated live (Function.update seq id (some last)) id' p key := by
  by_cases hid : id' = id
  · subst id'
    obtain ⟨m, hkey, hm, hle⟩ := h.le hG
    refine ⟨m, hkey, hm, ?_⟩
    rw [Function.update_self]
    exact hle.trans hlast
  · unfold KeyAllocated
    rw [Function.update_of_ne hid]
    exact h

/-- What the allocation of `count` keys from `start` on leaves behind. -/
structure Allocated (c c' : Conn G) (t : Name) (schema : Schema G) (id : UInt64)
    (catalog : Option (ColumnCatalog G)) (start : ℤ) (count : ℕ) : Prop where
  conn : ConnAt c' t schema id catalog
  view : c'.view = c.view
  nonneg : 0 ≤ start
  seq : c'.seq id = some (start + count - 1)
  limit : start + count ≤ 2 ^ 63
  below : primaryKeyIndex schema = none → KeysBelow c'.view id start

theorem ConnAt.allocateKeys_holds (hG : Lawful G) (h : ConnAt c t schema id catalog) (count : ℕ) :
    Holds (allocateKeys t count) c
      (fun start c' => Allocated c c' t schema id catalog start count)
      (fun e _ => ¬e.IsIndexEval) := by
  unfold allocateKeys
  rw [Holds.bind_iff, Holds.get_iff]
  dsimp only
  rw [h.table.tableId, Holds.bind_iff, Holds.ofExcept_ok]
  split_ifs with hlimit
  · rw [Holds.bind_iff, Holds.modify_iff, Holds.pure_iff]
    have hnonneg : 0 ≤ (c.seq id).getD (liveMaxI64Key c.live id) := by
      cases hseq : c.seq id with
      | some last => exact h.ok.seq id last hseq
      | none => exact (le_foldl_max _ 0).1
    have hraise : ∀ s, AppendKeys c.live c.seq s → AppendKeys c.live (Function.update c.seq id
        (some ((c.seq id).getD (liveMaxI64Key c.live id) + count))) s := by
      intro s hs t' schema' id' hschema' hid' hpk p st hst
      exact (hs t' schema' id' hschema' hid' hpk p st hst).raise hG (by omega)
    constructor
    · refine ⟨⟨h.ok.live, hraise _ h.ok.liveKeys, h.ok.view, hraise _ h.ok.viewKeys, ?_,
        h.ok.snapshot⟩, h.txn, h.table⟩
      intro id' last hlast
      by_cases hid : id' = id
      · subst id'
        simp only [Function.update_self, Option.some.injEq] at hlast
        omega
      · simp only [Function.update_of_ne hid] at hlast
        exact h.ok.seq id' last hlast
    · rfl
    · omega
    · simp only [Function.update_self, Option.some.injEq]
      omega
    · omega
    · intro hpk p st hst
      obtain ⟨m, hkey, hm, hle⟩ :=
        (h.ok.viewKeys t schema id h.table.schema h.table.id hpk p st hst).le hG
      exact ⟨m, hkey, hm, by omega⟩
  · exact not_false

theorem ConnAt.appendRow_holds (hG : Lawful G) (h : ConnAt c t schema id catalog) {next last : ℤ}
    {row : DataRow G.Value} (hfits : rowFits schema row = true) (hnext : IsI64 next)
    (hseq : c.seq id = some last) (hle : next ≤ last) (hbelow : KeysBelow c.view id next) :
    Holds (appendRow t id catalog next row) c
      (fun _ c' => ConnAt c' t schema id catalog ∧ c'.seq = c.seq ∧ KeysBelow c'.view id (next + 1))
      (fun e _ => e.IsIndexEval → RowFails schema row e) := by
  have hok := h.tableOk
  obtain ⟨hround, hstored⟩ := toLogical_toPhysical_of_rowFits hok.catalog_fits hfits
  apply (Sql.appendRow_holds h.txn h.table).mono
  · intro _ c' ⟨p, ws, hp, hws, hbuf⟩
    have hfresh : readRow c.view id p = none := by
      rw [Option.eq_none_iff_forall_ne_some]
      intro st hst
      obtain ⟨m, hkey, hm, hlt⟩ := hbelow p st hst
      have hbytes := (hok.row p st hst).key
      rw [hkey] at hbytes
      have heq := hG.i64_bytes_inj hm hnext (keyBytes_eq_ok.mp hbytes) (keyBytes_eq_ok.mp hp)
      exact hlt.ne heq
    have hretired : Retired c.view schema id catalog p (G.i64 next) [] :=
      ⟨by simp [hfresh], fun _ => rfl⟩
    have hset := rowSet_insert hok hretired hws hround
    rw [List.nil_append, ← hbuf.view] at hset
    refine ⟨?_, hbuf.seq, ?_⟩
    · apply h.rowSet hbuf hset
      · intro x hx
        rw [← Option.some.inj hx]
        refine ⟨hp, hstored, ?_⟩
        rw [hround]
        exact hws.evaluable
      · intro _ x hx
        rw [← Option.some.inj hx]
        refine ⟨next, rfl, hnext, ?_⟩
        rw [hseq]
        exact hle
    · intro q st hst
      by_cases hq : q = p
      · rw [hq, hset.row, Option.some.injEq] at hst
        rw [← hst]
        exact ⟨next, rfl, hnext, by omega⟩
      · have hold : readRow c.view id q = some st := by
          rw [← hst]
          exact (hset.other (.row id q) (fun heq => hq (StorageKey.row.inj heq).2) (by simp)).symm
        obtain ⟨m, hkey, hm, hlt⟩ := hbelow q st hold
        exact ⟨m, hkey, hm, by omega⟩
  · intro e c' hfail
    exact hfail

theorem ConnAt.appendRows_holds (hG : Lawful G) {rows : List (DataRow G.Value)} {next last : ℤ}
    (h : ConnAt c t schema id catalog) (hfits : ∀ row ∈ rows, rowFits schema row = true)
    (hnext : 0 ≤ next) (hseq : c.seq id = some last) (hle : next + rows.length ≤ last + 1)
    (hlast : last < 2 ^ 63) (hbelow : KeysBelow c.view id next) :
    Holds (appendRows t id catalog next rows) c (fun _ c' => ConnAt c' t schema id catalog)
      (fun e _ => e.IsIndexEval → ∃ row ∈ rows, RowFails schema row e) := by
  induction rows generalizing c next with
  | nil => exact h
  | cons row rows ih =>
    rw [List.length_cons] at hle
    have hi64 : IsI64 next := ⟨by omega, by omega⟩
    rw [appendRows, Holds.bind_iff]
    apply (h.appendRow_holds hG (hfits row (by simp)) hi64 hseq (by omega) hbelow).mono
    · intro _ c1 ⟨h1, hseq1, hbelow1⟩
      apply (ih h1 (fun r hr => hfits r (List.mem_cons_of_mem _ hr)) (by omega)
        (hseq1 ▸ hseq) (by omega) hbelow1).mono
      · intro _ c2 h2
        exact h2
      · intro e c2 hfail heval
        obtain ⟨r, hr, hrow⟩ := hfail heval
        exact ⟨r, List.mem_cons_of_mem _ hr, hrow⟩
    · intro e c1 hfail heval
      exact ⟨row, by simp, hfail heval⟩

theorem appendData_holds (hG : Lawful G) (h : ConnAt c t schema id catalog)
    (hpk : primaryKeyIndex schema = none) {rows : List (DataRow G.Value)}
    (hfits : ∀ row ∈ rows, rowFits schema row = true) :
    Holds (appendData t rows) c (fun _ c' => ConnAt c' t schema id catalog)
      (fun e _ => e.IsIndexEval → ∃ row ∈ rows, RowFails schema row e) := by
  unfold appendData
  split_ifs with hnil
  · exact h
  · rw [Holds.bind_iff]
    apply (h.allocateKeys_holds hG rows.length).mono
    · intro start c1 h1
      rw [Holds.bind_iff, Holds.get_iff]
      dsimp only
      rw [h1.conn.table.tableId, Holds.bind_iff, Holds.ofExcept_ok, h1.conn.table.catalog]
      have hlimit := h1.limit
      exact h1.conn.appendRows_holds hG hfits h1.nonneg h1.seq (by omega) (by omega) (h1.below hpk)
    · intro e c1 he heval
      exact absurd heval he

end Append

section Statements

variable {c : Conn G} {t : Name} {schema : Schema G} {id : UInt64}
  {catalog : Option (ColumnCatalog G)}

/-- A connection in a transaction, with the invariant. -/
structure InTxn (c : Conn G) : Prop where
  ok : ConnOk c
  txn : c.txn.isSome = true

theorem ConnAt.inTxn (h : ConnAt c t schema id catalog) : InTxn c := ⟨h.ok, h.txn⟩

theorem InTxn.connAt (h : InTxn c) (hschema : readSchema c.view t = some schema) :
    ∃ id, ConnAt c t schema id (readCatalog c.view t) := by
  obtain ⟨id, hat⟩ := h.ok.view.tableAt hschema
  exact ⟨id, h.ok, h.txn, hat⟩

theorem holds_getSchema {post : Schema G → Conn G → Prop} {fail : Error G → Conn G → Prop}
    (hok : ∀ schema, readSchema c.view t = some schema → post schema c)
    (herr : fail (.tableNotFound t) c) : Holds (ofExcept (getSchema c.view t)) c post fail := by
  unfold getSchema
  cases hschema : readSchema c.view t with
  | some schema => exact hok schema hschema
  | none => exact herr

theorem holds_checkRows {rows : List (DataRow G.Value)} {post : Unit → Conn G → Prop}
    {fail : Error G → Conn G → Prop} (hok : (∀ row ∈ rows, rowFits schema row = true) → post () c)
    (herr : fail (.rowRejected t) c) : Holds (checkRows t schema rows) c post fail := by
  unfold checkRows
  split_ifs with hall
  · exact hok (List.all_eq_true.mp hall)
  · exact herr

theorem mapM_error {α β : Type} {f : α → Except (Error G) β} {P : Error G → Prop}
    (hf : ∀ a e, f a = .error e → P e) {l : List α} {e : Error G} (h : l.mapM f = .error e) :
    P e := by
  induction l with
  | nil => exact absurd h (by simp [pure, Except.pure])
  | cons a l ih =>
    rw [List.mapM_cons] at h
    cases hfa : f a with
    | error e' =>
      rw [hfa] at h
      obtain rfl : e' = e := Except.error.inj h
      exact hf a e' hfa
    | ok b =>
      cases hl : l.mapM f with
      | error e' =>
        rw [hfa, hl] at h
        obtain rfl : e' = e := Except.error.inj h
        exact ih hl
      | ok bs =>
        rw [hfa, hl] at h
        exact absurd h (by simp [bind, Except.bind, pure, Except.pure])

theorem rowPrimaryKey_not_indexEval {i : ℕ} {row : DataRow G.Value} {e : Error G}
    (h : rowPrimaryKey t i row = .error e) : ¬e.IsIndexEval := by
  cases row with
  | map entries =>
    rw [← Except.error.inj h]
    exact not_false
  | vec values =>
    simp only [rowPrimaryKey] at h
    cases hvalue : values[i]? with
    | none =>
      rw [hvalue] at h
      rw [← Except.error.inj h]
      exact not_false
    | some value =>
      rw [hvalue] at h
      dsimp only at h
      cases hkey : G.keyOf value with
      | ok key =>
        rw [hkey] at h
        exact absurd h (by simp [Except.mapError])
      | error reason =>
        rw [hkey] at h
        rw [← Except.error.inj h]
        exact not_false

theorem checkFresh_not_indexEval {s : Store G} (hid : tableId s t = .ok id) {keys : List G.Key}
    {e : Error G} (h : checkFresh s t keys = .error e) : ¬e.IsIndexEval := by
  induction keys with
  | nil => exact absurd h (by simp [checkFresh])
  | cons key rest ih =>
    unfold checkFresh fetchData at h
    rw [hid] at h
    cases hbytes : keyBytes key with
    | error e' =>
      rw [hbytes] at h
      obtain rfl : e' = e := Except.error.inj h
      exact keyBytes_not_indexEval hbytes
    | ok bytes =>
      rw [hbytes] at h
      simp only [bind, Except.bind, pure, Except.pure] at h
      split_ifs at h with hfresh
      · exact ih h
      · rw [← Except.error.inj h]
        exact not_false

theorem insertStmt_holds (hG : Lawful G) (h : InTxn c) (rows : List (DataRow G.Value)) :
    Holds (insertStmt t rows) c (fun _ c' => InTxn c')
      (fun e _ => e.IsIndexEval → ∃ schema, readSchema c.view t = some schema ∧
        ∃ row ∈ rows, RowFails schema row e) := by
  unfold insertStmt
  rw [Holds.bind_iff, Holds.get_iff]
  dsimp only
  rw [Holds.bind_iff]
  apply holds_getSchema
  · intro schema hschema
    obtain ⟨id, hat⟩ := h.connAt hschema
    rw [Holds.bind_iff]
    apply holds_checkRows
    · intro hfits
      cases hpk : primaryKeyIndex schema with
      | some i =>
        dsimp only
        rw [Holds.bind_iff]
        apply holds_ofExcept
        · intro keys _
          rw [Holds.bind_iff]
          apply holds_ofExcept
          · intro _ _
            apply (insertData_holds hat (fun q hq => hfits q.2 (List.of_mem_zip hq).2)
              (fun hnone => absurd hnone (by simp [hpk]))).mono
            · intro _ c' h'
              exact h'.inTxn
            · intro e c' hfail heval
              obtain ⟨q, hq, hrow⟩ := hfail heval
              exact ⟨schema, hschema, q.2, (List.of_mem_zip hq).2, hrow⟩
          · intro e he heval
            exact absurd heval (checkFresh_not_indexEval hat.table.tableId he)
        · intro e he heval
          exact absurd heval (mapM_error (P := fun e => ¬e.IsIndexEval)
            (fun _ _ => rowPrimaryKey_not_indexEval) he)
      | none =>
        apply (appendData_holds hG hat hpk hfits).mono
        · intro _ c' h'
          exact h'.inTxn
        · intro e c' hfail heval
          exact ⟨schema, hschema, hfail heval⟩
    · exact fun heval => heval.elim
  · exact fun heval => heval.elim

theorem ConnAt.scanData (h : ConnAt c t schema id catalog) :
    scanData c.view t = .ok (logicalRows c.view catalog (scanTable c.view id)) :=
  scanData_eq h.table

theorem updateStmt_holds (h : InTxn c)
    (assign : G.Key × DataRow G.Value → Option (DataRow G.Value)) :
    Holds (updateStmt t assign) c (fun _ c' => InTxn c')
      (fun e _ => e.IsIndexEval → ∃ schema, readSchema c.view t = some schema ∧
        ∃ rows, scanData c.view t = .ok rows ∧
          ∃ q ∈ rows, ∃ row, assign q = some row ∧ RowFails schema row e) := by
  unfold updateStmt
  rw [Holds.bind_iff, Holds.get_iff]
  dsimp only
  rw [Holds.bind_iff]
  apply holds_getSchema
  · intro schema hschema
    obtain ⟨id, hat⟩ := h.connAt hschema
    rw [hat.scanData, Holds.bind_iff, Holds.ofExcept_ok, Holds.bind_iff]
    apply holds_checkRows
    · intro hfits
      have hkeys : primaryKeyIndex schema = none →
          ∀ q ∈ (logicalRows c.view (readCatalog c.view t) (scanTable c.view id)).filterMap
            (fun q => (assign q).map fun row => (q.1, row)),
          ∀ p, keyBytes q.1 = .ok p → KeyAllocated c.live c.seq id p q.1 := by
        intro hpk q hq p hp
        obtain ⟨q0, hq0, hmap⟩ := List.mem_filterMap.mp hq
        obtain ⟨row, -, rfl⟩ := Option.map_eq_some_iff.mp hmap
        obtain ⟨p', st, hst, rfl⟩ := mem_logicalRows_scanTable.mp hq0
        have hp' := (hat.tableOk.row p' st hst).key
        obtain rfl : p' = p := Except.ok.inj (hp'.symm.trans hp)
        exact h.ok.viewKeys t schema id hschema hat.table.id hpk p' st hst
      apply (insertData_holds hat
        (fun q hq => hfits q.2 (List.mem_map_of_mem hq)) hkeys).mono
      · intro _ c' h'
        exact h'.inTxn
      · intro e c' hfail heval
        obtain ⟨q, hq, hrow⟩ := hfail heval
        obtain ⟨q0, hq0, hmap⟩ := List.mem_filterMap.mp hq
        obtain ⟨row, hassign, rfl⟩ := Option.map_eq_some_iff.mp hmap
        exact ⟨schema, hschema, _, rfl, q0, hq0, row, hassign, hrow⟩
    · exact fun heval => heval.elim
  · exact fun heval => heval.elim

/-- A DELETE keeps the invariant whether it returns or fails. -/
theorem deleteStmt_holds (h : InTxn c) (selects : G.Key × DataRow G.Value → Bool) :
    Holds (deleteStmt t selects) c (fun _ c' => InTxn c')
      (fun e c' => InTxn c' ∧ ¬e.IsIndexEval) := by
  unfold deleteStmt
  rw [Holds.bind_iff, Holds.get_iff]
  dsimp only
  rw [Holds.bind_iff]
  apply holds_getSchema
  · intro schema hschema
    obtain ⟨id, hat⟩ := h.connAt hschema
    rw [hat.scanData, Holds.bind_iff, Holds.ofExcept_ok]
    apply (deleteData_holds hat _).mono
    · intro _ c' h'
      exact h'.inTxn
    · intro e c' ⟨h', he⟩
      exact ⟨h'.inTxn, he⟩
  · exact ⟨h, not_false⟩

end Statements

end BlueDB.Sql
