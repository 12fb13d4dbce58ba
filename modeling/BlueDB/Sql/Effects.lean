import BlueDB.Sql.Database

/-!
# What the methods buffer

Inside a transaction a method only appends writes to the overlay. Each method
has one statement of the writes it buffers when it returns and of the errors it
can fail with; what the writes do to the store is a matter of the store alone.
-/

namespace BlueDB.Sql

variable {G : Engine} {c c' c'' : Conn G}

abbrev Batch (G : Engine) := List (Write (StorageKey.Value G))

/-- The connection `c'` is `c` with the writes `ws` buffered. -/
structure Buffered (c c' : Conn G) (ws : Batch G) : Prop where
  txn : ∃ x ∈ c.txn, ∃ x' ∈ c'.txn, x'.snapshot = x.snapshot ∧ x'.overlay = x.overlay ++ ws
  live : c'.live = c.live
  seq : c'.seq = c.seq
  strict : c'.strict = c.strict
  now : c'.now = c.now

namespace Buffered

variable {ws ws' : Batch G}

theorem isSome (h : Buffered c c' ws) : c'.txn.isSome = true := by
  obtain ⟨-, -, x', hx', -⟩ := h.txn
  rw [Option.mem_def.mp hx']
  rfl

theorem view (h : Buffered c c' ws) : c'.view = c.view.commit ws := by
  obtain ⟨x, hx, x', hx', hsnap, hover⟩ := h.txn
  simp only [Conn.view, Option.mem_def.mp hx, Option.mem_def.mp hx', hsnap, hover,
    Kv.commit_append]

theorem refl (hc : c.txn.isSome = true) : Buffered c c [] := by
  obtain ⟨x, hx⟩ := Option.isSome_iff_exists.mp hc
  exact ⟨⟨x, hx, x, hx, rfl, by simp⟩, rfl, rfl, rfl, rfl⟩

theorem trans (h : Buffered c c' ws) (h' : Buffered c' c'' ws') : Buffered c c'' (ws ++ ws') := by
  obtain ⟨x, hx, x', hx', hsnap, hover⟩ := h.txn
  obtain ⟨y, hy, y', hy', hsnap', hover'⟩ := h'.txn
  obtain rfl : x' = y := Option.some.inj (hx'.symm.trans hy)
  constructor
  · exact ⟨x, hx, y', hy', hsnap'.trans hsnap, by rw [hover', hover, List.append_assoc]⟩
  · exact h'.live.trans h.live
  · exact h'.seq.trans h.seq
  · exact h'.strict.trans h.strict
  · exact h'.now.trans h.now

end Buffered

theorem buffered_write (hc : c.txn.isSome = true) (w : Write (StorageKey.Value G)) :
    Buffered c (c.write w) [w] := by
  obtain ⟨x, hx⟩ := Option.isSome_iff_exists.mp hc
  unfold Conn.write
  rw [hx]
  exact ⟨⟨x, hx, _, rfl, rfl, rfl⟩, rfl, rfl, rfl, rfl⟩

section Rules

variable {α β : Type} {post : Unit → Conn G → Prop} {fail : Error G → Conn G → Prop}

theorem holds_writeKey {k : StorageKey} {v : k.Value G} (hc : c.txn.isSome = true)
    (h : ∀ c', Buffered c c' [.put k v] → post () c') : Holds (writeKey k v) c post fail :=
  h _ (buffered_write hc _)

theorem holds_deleteKey {k : StorageKey} (hc : c.txn.isSome = true)
    (h : ∀ c', Buffered c c' [.delete k] → post () c') : Holds (deleteKey k) c post fail :=
  h _ (buffered_write hc _)

/-- A computation without state either fails or hands on its result. -/
theorem holds_ofExcept {x : Except (Error G) α} {post : α → Conn G → Prop}
    (hok : ∀ a, x = .ok a → post a c) (herr : ∀ e, x = .error e → fail e c) :
    Holds (ofExcept x) c post fail := by
  cases x with
  | ok a => exact hok a rfl
  | error e => exact herr e rfl

/-- The batch `ws` is put together from one batch for each member of `l`. -/
structure Rounds {β : Type} (l : List β) (g : β → Batch G → Prop) (ws : Batch G) : Prop where
  all : ∀ b ∈ l, ∃ part, g b part ∧ ∀ w ∈ part, w ∈ ws
  only : ∀ w ∈ ws, ∃ b ∈ l, ∃ part, g b part ∧ w ∈ part

theorem Rounds.cons {b : β} {l : List β} {g : β → Batch G → Prop} {part ws : Batch G}
    (hb : g b part) (h : Rounds l g ws) : Rounds (b :: l) g (part ++ ws) := by
  constructor
  · intro b' hb'
    rcases List.mem_cons.mp hb' with rfl | hb'
    · exact ⟨part, hb, fun w hw => List.mem_append_left _ hw⟩
    · obtain ⟨part', hg, hsub⟩ := h.all b' hb'
      exact ⟨part', hg, fun w hw => List.mem_append_right _ (hsub w hw)⟩
  · intro w hw
    rcases List.mem_append.mp hw with hw | hw
    · exact ⟨b, by simp, part, hb, hw⟩
    · obtain ⟨b', hb', part', hg, hmem⟩ := h.only w hw
      exact ⟨b', List.mem_cons_of_mem _ hb', part', hg, hmem⟩

theorem holds_forM_buffered {f : β → Exec G Unit} {J : Conn G → Prop} {g : β → Batch G → Prop}
    (l : List β) (hc : c.txn.isSome = true) (hJ : J c)
    (hstep : ∀ b ∈ l, ∀ c', J c' → c'.txn.isSome = true →
      Holds (f b) c' (fun _ c'' => J c'' ∧ ∃ ws, g b ws ∧ Buffered c' c'' ws) fail) :
    Holds (l.forM f) c
      (fun _ c' => J c' ∧ ∃ ws, Rounds l g ws ∧ Buffered c c' ws) fail := by
  induction l generalizing c with
  | nil => exact ⟨hJ, [], ⟨by simp, by simp⟩, Buffered.refl hc⟩
  | cons b l ih =>
    change Holds (f b >>= fun _ => l.forM f) c _ _
    rw [Holds.bind_iff]
    apply (hstep b (by simp) c hJ hc).mono
    · intro _ c1 ⟨hJ1, ws, hg, hws⟩
      apply (ih hws.isSome hJ1 fun b' hb' => hstep b' (List.mem_cons_of_mem _ hb')).mono
      · intro _ c2 ⟨hJ2, ws', hrounds, hws'⟩
        exact ⟨hJ2, ws ++ ws', hrounds.cons hg, hws.trans hws'⟩
      · intro e c2 h
        exact h
    · intro e c1 h
      exact h

end Rules

def indexBytes (columns : Option (List Name)) (row : DataRow G.Value) (index : SchemaIndex G) :
    Except (Error G) (List UInt8) := do
  let value ← indexValue index columns row
  keyBytes value

theorem indexBytes_eq_ok {columns : Option (List Name)} {row : DataRow G.Value}
    {index : SchemaIndex G} {v : List UInt8} : indexBytes columns row index = .ok v ↔
      ∃ value, indexValue index columns row = .ok value ∧ keyBytes value = .ok v := by
  unfold indexBytes
  cases indexValue index columns row with
  | ok value =>
    constructor
    · intro h
      exact ⟨value, rfl, h⟩
    · intro ⟨value', hvalue, h⟩
      rw [← Except.ok.inj hvalue] at h
      exact h
  | error e =>
    constructor
    · intro h
      exact absurd h (by simp [bind, Except.bind])
    · intro ⟨value', hvalue, h⟩
      exact absurd hvalue (by simp)

def entryWrite (id : UInt64) (index : Name) (v p : List UInt8) (pk : G.Key) (insert : Bool) :
    Write (StorageKey.Value G) :=
  if insert then .put (.indexEntry id index v p) pk else .delete (.indexEntry id index v p)

theorem keyBytes_eq_ok {key : G.Key} {b : List UInt8} :
    keyBytes key = .ok b ↔ G.toCmpBeBytes key = .ok b := by
  unfold keyBytes
  cases G.toCmpBeBytes key <;> simp [Except.mapError]

theorem keyBytes_not_indexEval {key : G.Key} {e : Error G} (h : keyBytes key = .error e) :
    ¬e.IsIndexEval := by
  unfold keyBytes at h
  cases hbytes : G.toCmpBeBytes key with
  | ok b =>
    rw [hbytes] at h
    exact absurd h (by simp [Except.mapError])
  | error reason =>
    rw [hbytes] at h
    rw [← Except.error.inj h]
    exact id

theorem stage_holds {check : UniqueIndexCheck G} {post : Unit → Conn G → Prop}
    {fail : Error G → Conn G → Prop} (hc : c.txn.isSome = true)
    (h : ∀ c', Buffered c c' [] → post () c') :
      Holds (stageUniqueIndexCheck check) c post fail := by
  obtain ⟨x, hx⟩ := Option.isSome_iff_exists.mp hc
  apply h
  constructor
  · exact ⟨x, hx, { x with uniqueIndexChecks := x.uniqueIndexChecks ++ [check] }, by simp [hx], rfl,
      by simp⟩
  all_goals rfl

theorem stageUniqueCheck_holds {k : StorageKey} {post : Unit → Conn G → Prop}
    {fail : Error G → Conn G → Prop} (hc : c.txn.isSome = true)
    (h : ∀ c', Buffered c c' [] → post () c') : Holds (stageUniqueCheck k) c post fail := by
  obtain ⟨x, hx⟩ := Option.isSome_iff_exists.mp hc
  apply h
  constructor
  · exact ⟨x, hx, { x with uniqueChecks := x.uniqueChecks ++ [k] }, by simp [hx], rfl, by simp⟩
  all_goals rfl

theorem enforceUniqueIndex_holds {id : UInt64} {index : Name} {value pk : G.Key}
    (hc : c.txn.isSome = true) :
    Holds (enforceUniqueIndex id index value pk) c (fun _ c' => Buffered c c' [])
      (fun e _ => ¬e.IsIndexEval) := by
  unfold enforceUniqueIndex
  rw [Holds.bind_iff]
  apply holds_ofExcept
  · intro bytes _
    rw [Holds.bind_iff, Holds.get_iff]
    dsimp only
    split_ifs with howners
    · exact Buffered.refl hc
    · exact not_false
  · intro e he
    exact keyBytes_not_indexEval he

theorem checkUnique_holds {t : Name} {id : UInt64} {unique : List Name} {index : Name}
    {value pk : G.Key} (hc : c.txn.isSome = true) :
    Holds (checkUnique t id unique index value pk) c (fun _ c' => Buffered c c' [])
      (fun e _ => ¬e.IsIndexEval ∧ unique ≠ []) := by
  unfold checkUnique
  split_ifs with hunique
  · have hne : unique ≠ [] := List.ne_nil_of_mem hunique.1
    rw [Holds.bind_iff]
    apply (enforceUniqueIndex_holds hc).mono
    · intro _ c1 h1
      rw [Holds.bind_iff]
      apply holds_ofExcept
      · intro bytes _
        apply stage_holds h1.isSome
        intro c2 h2
        exact h1.trans h2
      · intro e he
        exact ⟨keyBytes_not_indexEval he, hne⟩
    · intro e c1 h
      exact ⟨h, hne⟩
  · exact Buffered.refl hc

def IndexFails (columns : Option (List Name)) (row : DataRow G.Value) (index : SchemaIndex G)
    (e : Error G) : Prop :=
  indexValue index columns row = .error e

theorem applyIndexEntry_holds {t : Name} {id : UInt64} {columns : Option (List Name)}
    {unique : List Name} {pk : G.Key} {row : DataRow G.Value} {insert : Bool}
    {index : SchemaIndex G} (hc : c.txn.isSome = true) :
    Holds (applyIndexEntry t id columns unique pk row insert index) c
      (fun _ c' => ∃ v p, indexBytes columns row index = .ok v ∧ keyBytes pk = .ok p ∧
        Buffered c c' [entryWrite id index.name v p pk insert])
      (fun e _ => (e.IsIndexEval → IndexFails columns row index e) ∧
        (insert = false → ∀ v p, indexBytes columns row index = .ok v → keyBytes pk ≠ .ok p)) := by
  unfold applyIndexEntry
  rw [Holds.bind_iff]
  apply holds_ofExcept
  · intro value hvalue
    rw [Holds.bind_iff]
    apply (checkUnique_holds hc).mono
    · intro _ c1 h1
      rw [Holds.bind_iff]
      apply holds_ofExcept
      · intro v hv
        have hbytes := indexBytes_eq_ok.mpr ⟨value, hvalue, hv⟩
        rw [Holds.bind_iff]
        apply holds_ofExcept
        · intro p hp
          cases insert with
          | true =>
            apply holds_writeKey h1.isSome
            intro c2 h2
            exact ⟨v, p, hbytes, hp, h1.trans h2⟩
          | false =>
            apply holds_deleteKey h1.isSome
            intro c2 h2
            exact ⟨v, p, hbytes, hp, h1.trans h2⟩
        · intro e he
          refine ⟨fun h => absurd h (keyBytes_not_indexEval he), ?_⟩
          intro _ v' p _ hp
          rw [he] at hp
          exact absurd hp (by simp)
      · intro e he
        refine ⟨fun h => absurd h (keyBytes_not_indexEval he), ?_⟩
        intro _ v' p hv' _
        obtain ⟨value', hvalue', hbytes'⟩ := indexBytes_eq_ok.mp hv'
        rw [hvalue, Except.ok.injEq] at hvalue'
        rw [← hvalue', he] at hbytes'
        exact absurd hbytes' (by simp)
    · intro e c1 ⟨heval, hne⟩
      refine ⟨fun h => absurd h heval, ?_⟩
      intro hfalse
      simp [hfalse] at hne
  · intro e he
    refine ⟨fun _ => he, ?_⟩
    intro _ v p hv _
    obtain ⟨value, hvalue, -⟩ := indexBytes_eq_ok.mp hv
    rw [he] at hvalue
    exact absurd hvalue (by simp)

/-- The records of a table. -/
structure TableAt (s : Store G) (t : Name) (schema : Schema G) (id : UInt64)
    (catalog : Option (ColumnCatalog G)) : Prop where
  schema : readSchema s t = some schema
  id : resolveTableId s t = some id
  catalog : readCatalog s t = catalog

namespace TableAt

variable {s : Store G} {t : Name} {schema : Schema G} {id : UInt64}
  {catalog : Option (ColumnCatalog G)}

theorem tableId (h : TableAt s t schema id catalog) : tableId s t = .ok id := by
  rw [Sql.tableId, h.id]

theorem indexDefs (h : TableAt s t schema id catalog) : indexDefs s t = schema.indexes := by
  rw [Sql.indexDefs, h.schema]

end TableAt

theorem scanData_eq {s : Store G} {t : Name} {schema : Schema G} {id : UInt64}
    {catalog : Option (ColumnCatalog G)} (hat : TableAt s t schema id catalog) :
    scanData s t = .ok (logicalRows s catalog (scanTable s id)) := by
  unfold scanData collectRows
  rw [hat.tableId, hat.catalog]
  rfl

def evalColumns (schema : Schema G) : Option (List Name) := contextColumns (schemaColumns schema)

/-- Some index of the schema has the value `v` on the row, under the name `n`. -/
def Indexed (schema : Schema G) (row : DataRow G.Value) (n : Name) (v : List UInt8) : Prop :=
  ∃ i ∈ schema.indexes, i.name = n ∧ indexBytes (evalColumns schema) row i = .ok v

def Evaluable (schema : Schema G) (row : DataRow G.Value) : Prop :=
  ∀ i ∈ schema.indexes, ∃ v, indexBytes (evalColumns schema) row i = .ok v

/-- The error comes from an index expression of the table on the row. -/
def RowFails (schema : Schema G) (row : DataRow G.Value) (e : Error G) : Prop :=
  ∃ i ∈ schema.indexes, IndexFails (evalColumns schema) row i e

structure EntryBatch (schema : Schema G) (row : DataRow G.Value) (id : UInt64) (p : List UInt8)
    (pk : G.Key) (insert : Bool) (ws : Batch G) : Prop where
  evaluable : Evaluable schema row
  mem_iff : ∀ w, w ∈ ws ↔ ∃ n v, Indexed schema row n v ∧ w = entryWrite id n v p pk insert

theorem applyIndexEntries_holds {t : Name} {schema : Schema G} {id : UInt64}
    {catalog : Option (ColumnCatalog G)} {pk : G.Key} {row : DataRow G.Value} {insert : Bool}
    {p : List UInt8} (hc : c.txn.isSome = true) (hat : TableAt c.view t schema id catalog)
    (hp : keyBytes pk = .ok p) :
    Holds (applyIndexEntries t pk row insert) c
      (fun _ c' => ∃ ws, EntryBatch schema row id p pk insert ws ∧ Buffered c c' ws)
      (fun e _ => (e.IsIndexEval → RowFails schema row e) ∧
        (insert = false → ¬Evaluable schema row)) := by
  unfold applyIndexEntries
  rw [Holds.bind_iff, Holds.get_iff]
  dsimp only
  rw [hat.indexDefs, hat.tableId, hat.schema]
  split_ifs with hnil
  · refine ⟨[], ⟨?_, ?_⟩, Buffered.refl hc⟩
    · intro i hi
      simp [hnil] at hi
    · intro w
      simp [Indexed, hnil]
  · rw [Holds.bind_iff, Holds.ofExcept_ok]
    change Holds (schema.indexes.forM (applyIndexEntry t id (evalColumns schema)
      (readUniqueIndexes c.view t) pk row insert)) c _ _
    have hround : ∀ i ∈ schema.indexes, ∀ c1 : Conn G, True → c1.txn.isSome = true →
        Holds (applyIndexEntry t id (evalColumns schema)
          (readUniqueIndexes c.view t) pk row insert i)
          c1 (fun _ c2 => True ∧ ∃ ws, (∃ v, indexBytes (evalColumns schema) row i = .ok v ∧
            ws = [entryWrite id i.name v p pk insert]) ∧ Buffered c1 c2 ws)
          (fun e _ => (e.IsIndexEval → RowFails schema row e) ∧
            (insert = false → ¬Evaluable schema row)) := by
      intro i hi c1 _ hc1
      apply (applyIndexEntry_holds hc1).mono
      · intro _ c2 ⟨v, p', hv, hp', hbuf⟩
        rw [hp, Except.ok.injEq] at hp'
        subst p'
        exact ⟨trivial, _, ⟨v, hv, rfl⟩, hbuf⟩
      · intro e c2 ⟨heval, hdelete⟩
        refine ⟨fun h => ⟨i, hi, heval h⟩, fun hfalse hall => ?_⟩
        obtain ⟨v, hv⟩ := hall i hi
        exact hdelete hfalse v p hv hp
    apply (holds_forM_buffered schema.indexes hc trivial hround).mono
    · intro _ c1 ⟨_, ws, hrounds, hbuf⟩
      refine ⟨ws, ⟨?_, ?_⟩, hbuf⟩
      · intro i hi
        obtain ⟨_, ⟨v, hv, -⟩, -⟩ := hrounds.all i hi
        exact ⟨v, hv⟩
      · intro w
        constructor
        · intro hw
          obtain ⟨i, hi, _, ⟨v, hv, rfl⟩, hmem⟩ := hrounds.only w hw
          exact ⟨i.name, v, ⟨i, hi, rfl, hv⟩, List.mem_singleton.mp hmem⟩
        · intro ⟨n, v, ⟨i, hi, hn, hv⟩, hw⟩
          obtain ⟨_, ⟨v', hv', rfl⟩, hsub⟩ := hrounds.all i hi
          obtain rfl : v' = v := Except.ok.inj (hv'.symm.trans hv)
          rw [hw, ← hn]
          exact hsub _ (by simp)
    · intro e c1 h
      exact h

theorem entryWrite_key (id : UInt64) (n : Name) (v p : List UInt8) (pk : G.Key) (insert : Bool) :
    (entryWrite id n v p pk insert).key = .indexEntry id n v p := by
  cases insert <;> rfl

theorem EntryBatch.get_of_ne {schema : Schema G} {row : DataRow G.Value} {id : UInt64}
    {p : List UInt8} {pk : G.Key} {insert : Bool} {ws : Batch G}
    (h : EntryBatch schema row id p pk insert ws) (s : Store G) {k : StorageKey}
    (hk : ∀ n v, Indexed schema row n v → k ≠ .indexEntry id n v p) :
    (s.commit ws).get k = s.get k := by
  apply Kv.get_commit_of_forall_ne
  intro w hw hkey
  obtain ⟨n, v, hindexed, rfl⟩ := (h.mem_iff w).mp hw
  rw [entryWrite_key] at hkey
  exact hk n v hindexed hkey.symm

theorem EntryBatch.readEntry {schema : Schema G} {row : DataRow G.Value} {id : UInt64}
    {p : List UInt8} {pk : G.Key} {insert : Bool} {ws : Batch G}
    (h : EntryBatch schema row id p pk insert ws) (s : Store G) {n : Name} {v : List UInt8}
    (hindexed : Indexed schema row n v) :
    readEntry (s.commit ws) id n v p = if insert then some pk else none := by
  have hmem := (h.mem_iff _).mpr ⟨n, v, hindexed, rfl⟩
  have huniq : ∀ w' ∈ ws, w'.key = (entryWrite id n v p pk insert).key →
      w' = entryWrite id n v p pk insert := by
    intro w' hw' hkey
    obtain ⟨n', v', -, rfl⟩ := (h.mem_iff w').mp hw'
    rw [entryWrite_key, entryWrite_key] at hkey
    injection hkey with _ hn hv _
    rw [hn, hv]
  have hget := Kv.get_commit_of_mem (s := s) hmem huniq
  unfold Sql.readEntry
  cases insert with
  | true => exact hget
  | false => exact hget

def StorageKey.IsData : StorageKey → Prop
  | .row _ _ => True
  | .indexEntry _ _ _ _ => True
  | _ => False

theorem TableAt.commit {s : Store G} {t : Name} {schema : Schema G} {id : UInt64}
    {catalog : Option (ColumnCatalog G)} (h : TableAt s t schema id catalog) {ws : Batch G}
    (hws : ∀ w ∈ ws, w.key.IsData) : TableAt (s.commit ws) t schema id catalog := by
  have hget : ∀ k : StorageKey, ¬k.IsData → (s.commit ws).get k = s.get k := by
    intro k hk
    apply Kv.get_commit_of_forall_ne
    intro w hw hkey
    exact hk (hkey ▸ hws w hw)
  constructor
  · exact (hget (.schema t) not_false).trans h.schema
  · exact (hget (.tableid t) not_false).trans h.id
  · exact (hget (.colcat t) not_false).trans h.catalog

theorem EntryBatch.isData {schema : Schema G} {row : DataRow G.Value} {id : UInt64}
    {p : List UInt8} {pk : G.Key} {insert : Bool} {ws : Batch G}
    (h : EntryBatch schema row id p pk insert ws) : ∀ w ∈ ws, w.key.IsData := by
  intro w hw
  obtain ⟨n, v, -, rfl⟩ := (h.mem_iff w).mp hw
  rw [entryWrite_key]
  trivial

/-- The writes that take the entries of the row under `p` away. -/
structure Retired (s : Store G) (schema : Schema G) (id : UInt64)
    (catalog : Option (ColumnCatalog G)) (p : List UInt8) (key : G.Key) (ws : Batch G) : Prop where
  stored : ∀ st, readRow s id p = some st →
    EntryBatch schema (toLogical catalog st.row) id p key false ws
  missing : readRow s id p = none → ws = []

theorem Retired.isData {s : Store G} {schema : Schema G} {id : UInt64}
    {catalog : Option (ColumnCatalog G)} {p : List UInt8} {key : G.Key} {ws : Batch G}
    (h : Retired s schema id catalog p key ws) : ∀ w ∈ ws, w.key.IsData := by
  intro w hw
  cases hrow : readRow s id p with
  | none =>
    rw [h.missing hrow] at hw
    exact absurd hw List.not_mem_nil
  | some st => exact (h.stored st hrow).isData w hw

section RowMethods

variable {t : Name} {schema : Schema G} {id : UInt64} {catalog : Option (ColumnCatalog G)}
  {p : List UInt8} {key : G.Key} {row : DataRow G.Value}

/-- Every stored row of the table has its index values. -/
def AllEvaluable (s : Store G) (schema : Schema G) (id : UInt64)
    (catalog : Option (ColumnCatalog G)) : Prop :=
  ∀ p st, readRow s id p = some st → Evaluable schema (toLogical catalog st.row)

theorem removeStored_holds (hc : c.txn.isSome = true) (hat : TableAt c.view t schema id catalog)
    (hp : keyBytes key = .ok p) (heval : AllEvaluable c.view schema id catalog)
    {st : StoredRow G} (hst : readRow c.view id p = some st) :
    Holds (applyIndexEntries t key (toLogical catalog st.row) false) c
      (fun _ c' => ∃ ws, Retired c.view schema id catalog p key ws ∧ Buffered c c' ws)
      (fun _ _ => False) := by
  apply (applyIndexEntries_holds hc hat hp).mono
  · intro _ c1 ⟨ws, hws, hbuf⟩
    refine ⟨ws, ⟨?_, ?_⟩, hbuf⟩
    · intro st' hst'
      rw [hst, Option.some.injEq] at hst'
      exact hst' ▸ hws
    · intro hnone
      rw [hst] at hnone
      exact absurd hnone (by simp)
  · intro e c1 ⟨_, hdelete⟩
    exact hdelete rfl (heval p st hst)

theorem retireRow_holds (hc : c.txn.isSome = true) (hat : TableAt c.view t schema id catalog)
    (hp : keyBytes key = .ok p) (heval : AllEvaluable c.view schema id catalog) :
    Holds (retireRow t id catalog p key) c
      (fun _ c' => ∃ ws, Retired c.view schema id catalog p key ws ∧ Buffered c c' ws)
      (fun _ _ => False) := by
  unfold retireRow
  rw [Holds.bind_iff, Holds.get_iff]
  cases hrow : readRow c.view id p with
  | some st => exact removeStored_holds hc hat hp heval hrow
  | none =>
    apply stageUniqueCheck_holds hc
    intro c1 hbuf
    exact ⟨[], ⟨by simp [hrow], fun _ => rfl⟩, hbuf⟩

theorem removeEntries_holds (hc : c.txn.isSome = true) (hat : TableAt c.view t schema id catalog)
    (hp : keyBytes key = .ok p) (heval : AllEvaluable c.view schema id catalog) :
    Holds (removeEntries t id catalog p key) c
      (fun _ c' => ∃ ws, Retired c.view schema id catalog p key ws ∧ Buffered c c' ws)
      (fun _ _ => False) := by
  unfold removeEntries
  rw [Holds.bind_iff, Holds.get_iff]
  cases hrow : readRow c.view id p with
  | some st => exact removeStored_holds hc hat hp heval hrow
  | none => exact ⟨[], ⟨by simp [hrow], fun _ => rfl⟩, Buffered.refl hc⟩

theorem putRow_holds (hc : c.txn.isSome = true) (hat : TableAt c.view t schema id catalog)
    (hp : keyBytes key = .ok p) :
    Holds (putRow t id catalog p key row) c
      (fun _ c' => ∃ ws, EntryBatch schema row id p key true ws ∧
        Buffered c c' (ws ++ [.put (.row id p) ⟨key, toPhysical catalog row⟩]))
      (fun e _ => e.IsIndexEval → RowFails schema row e) := by
  unfold putRow
  rw [Holds.bind_iff]
  apply (applyIndexEntries_holds hc hat hp).mono
  · intro _ c1 ⟨ws, hws, hbuf⟩
    apply holds_writeKey hbuf.isSome
    intro c2 hbuf2
    exact ⟨ws, hws, hbuf.trans hbuf2⟩
  · intro e c1 h
    exact h.1

theorem insertRow_holds (hc : c.txn.isSome = true) (hat : TableAt c.view t schema id catalog)
    (heval : AllEvaluable c.view schema id catalog) :
    Holds (insertRow t id catalog key row) c
      (fun _ c' => ∃ p old new, keyBytes key = .ok p ∧
        Retired c.view schema id catalog p key old ∧ EntryBatch schema row id p key true new ∧
        Buffered c c' (old ++ (new ++ [.put (.row id p) ⟨key, toPhysical catalog row⟩])))
      (fun e _ => e.IsIndexEval → RowFails schema row e) := by
  unfold insertRow
  rw [Holds.bind_iff]
  apply holds_ofExcept
  · intro p hp
    rw [Holds.bind_iff]
    apply (retireRow_holds hc hat hp heval).mono
    · intro _ c1 ⟨old, hold, hbuf⟩
      have hat1 : TableAt c1.view t schema id catalog := by
        rw [hbuf.view]
        exact hat.commit hold.isData
      apply (putRow_holds hbuf.isSome hat1 hp).mono
      · intro _ c2 ⟨new, hnew, hbuf2⟩
        exact ⟨p, old, new, hp, hold, hnew, hbuf.trans hbuf2⟩
      · intro e c2 h
        exact h
    · intro e c1 h
      exact h.elim
  · intro e he h
    exact absurd h (keyBytes_not_indexEval he)

theorem appendRow_holds {next : ℤ} (hc : c.txn.isSome = true)
    (hat : TableAt c.view t schema id catalog) :
    Holds (appendRow t id catalog next row) c
      (fun _ c' => ∃ p ws, keyBytes (G.i64 next) = .ok p ∧
        EntryBatch schema row id p (G.i64 next) true ws ∧
        Buffered c c' (ws ++ [.put (.row id p) ⟨G.i64 next, toPhysical catalog row⟩]))
      (fun e _ => e.IsIndexEval → RowFails schema row e) := by
  unfold appendRow
  rw [Holds.bind_iff]
  apply holds_ofExcept
  · intro p hp
    apply (putRow_holds hc hat hp).mono
    · intro _ c1 ⟨ws, hws, hbuf⟩
      exact ⟨p, ws, hp, hws, hbuf⟩
    · intro e c1 h
      exact h
  · intro e he h
    exact absurd h (keyBytes_not_indexEval he)

theorem deleteRow_holds (hc : c.txn.isSome = true) (hat : TableAt c.view t schema id catalog)
    (heval : AllEvaluable c.view schema id catalog) :
    Holds (deleteRow t id catalog key) c
      (fun _ c' => ∃ p old, keyBytes key = .ok p ∧
        Retired c.view schema id catalog p key old ∧
        Buffered c c' (old ++ [.delete (.row id p)]))
      (fun e c' => c' = c ∧ keyBytes key = .error e) := by
  unfold deleteRow
  rw [Holds.bind_iff]
  apply holds_ofExcept
  · intro p hp
    rw [Holds.bind_iff]
    apply (removeEntries_holds hc hat hp heval).mono
    · intro _ c1 ⟨old, hold, hbuf⟩
      apply holds_deleteKey hbuf.isSome
      intro c2 hbuf2
      exact ⟨p, old, hp, hold, hbuf.trans hbuf2⟩
    · intro e c1 h
      exact h.elim
  · intro e he
    exact ⟨rfl, he⟩

end RowMethods

end BlueDB.Sql
