import BlueDB.Sql.Staging

/-!
# Statements row by row

An INSERT, an UPDATE or a DELETE is a loop over rows. What holds of the rows so
far and the connection after each of them holds of all rows after the statement.
-/

namespace BlueDB.Sql

variable {G : Engine} {c : Conn G} {t : Name} {schema : Schema G} {id : UInt64}
  {catalog : Option (ColumnCatalog G)} {fail : Error G → Conn G → Prop}

section Rules

variable {J : List (G.Key × DataRow G.Value) → Conn G → Prop}

theorem insertData_rule (hat : TableAt c.view t schema id catalog)
    {rows : List (G.Key × DataRow G.Value)} (hJ : J [] c)
    (hstep : ∀ done q c', q ∈ rows → J done c' →
      Holds (insertRow t id catalog q.1 q.2) c' (fun _ => J (done ++ [q])) fail) :
    Holds (insertData t rows) c (fun _ => J rows) fail := by
  unfold insertData
  rw [Holds.bind_iff, Holds.get_iff]
  dsimp only
  rw [hat.tableId, Holds.bind_iff, Holds.ofExcept_ok, hat.catalog]
  apply Holds.forM_log J rows hJ
  intro done q rest hsplit c' h
  exact hstep done q c' (by simp [hsplit]) h

/-- Rows with consecutive keys. -/
def numbered (next : ℤ) : List (DataRow G.Value) → List (G.Key × DataRow G.Value)
  | [] => []
  | row :: rows => (G.i64 next, row) :: numbered (next + 1) rows

theorem appendRows_rule {rows : List (DataRow G.Value)} {next : ℤ}
    {done : List (G.Key × DataRow G.Value)} (hJ : J done c)
    (hstep : ∀ done row m c', row ∈ rows → next ≤ m → m < next + rows.length → J done c' →
      Holds (appendRow t id catalog m row) c' (fun _ => J (done ++ [(G.i64 m, row)])) fail) :
    Holds (appendRows t id catalog next rows) c (fun _ => J (done ++ numbered next rows)) fail := by
  induction rows generalizing c next done with
  | nil =>
    rw [numbered, List.append_nil]
    exact hJ
  | cons row rows ih =>
    rw [appendRows, Holds.bind_iff]
    apply (hstep done row next c (by simp) le_rfl (by simp) hJ).mono
    · intro _ c1 h1
      have hrest : Holds (appendRows t id catalog (next + 1) rows) c1
          (fun _ => J ((done ++ [(G.i64 next, row)]) ++ numbered (next + 1) rows)) fail := by
        apply ih h1
        intro done' row' m c' hrow hle hlt h'
        apply hstep done' row' m c' (List.mem_cons_of_mem _ hrow) (by omega) _ h'
        rw [List.length_cons]
        omega
      rw [List.append_assoc, List.singleton_append] at hrest
      exact hrest
    · exact fun _ _ h => h

/-- The last key the allocator has handed out for a table. -/
def lastKey (c : Conn G) (id : UInt64) : ℤ := (c.seq id).getD (liveMaxI64Key c.live id)

theorem allocateKeys_rule (hat : TableAt c.view t schema id catalog) {count : ℕ}
    {post : ℤ → Conn G → Prop}
    (hok : lastKey c id + count < 2 ^ 63 → post (lastKey c id + 1)
      { c with seq := Function.update c.seq id (some (lastKey c id + count)) })
    (herr : fail .counterOverflow c) : Holds (allocateKeys t count) c post fail := by
  unfold allocateKeys
  rw [Holds.bind_iff, Holds.get_iff]
  dsimp only
  rw [hat.tableId, Holds.bind_iff, Holds.ofExcept_ok]
  change Holds (if lastKey c id + count < 2 ^ 63 then _ else _) c post fail
  split_ifs with hlimit
  · exact hok hlimit
  · exact herr

theorem appendData_rule (hat : TableAt c.view t schema id catalog)
    {rows : List (DataRow G.Value)} (hJ : ∀ seq, J [] { c with seq := seq })
    (hstep : ∀ done row m c', row ∈ rows → lastKey c id < m → m < 2 ^ 63 → J done c' →
      Holds (appendRow t id catalog m row) c' (fun _ => J (done ++ [(G.i64 m, row)])) fail)
    (herr : fail .counterOverflow c) :
    Holds (appendData t rows) c (fun _ => J (numbered (lastKey c id + 1) rows)) fail := by
  unfold appendData
  split_ifs with hnil
  · subst rows
    exact hJ c.seq
  · rw [Holds.bind_iff]
    apply allocateKeys_rule hat
    · intro hlimit
      rw [Holds.bind_iff, Holds.get_iff]
      change Holds (ofExcept (tableId c.view t) >>= fun id' =>
        appendRows t id' (readCatalog c.view t) (lastKey c id + 1) rows) _ _ _
      rw [hat.tableId, Holds.bind_iff, Holds.ofExcept_ok, hat.catalog]
      have hrows : Holds (appendRows t id catalog (lastKey c id + 1) rows)
          { c with seq := Function.update c.seq id (some (lastKey c id + rows.length)) }
          (fun _ => J ([] ++ numbered (lastKey c id + 1) rows)) fail := by
        apply appendRows_rule (hJ _)
        intro done row m c' hrow hle hlt h'
        exact hstep done row m c' hrow (by omega) (by omega) h'
      rw [List.nil_append] at hrows
      exact hrows
    · exact herr

end Rules

theorem checkFresh_ok {s : Store G} {keys : List G.Key} (h : checkFresh s t keys = .ok ()) :
    ∀ key ∈ keys, fetchData s t key = .ok none := by
  induction keys with
  | nil => simp
  | cons key rest ih =>
    unfold checkFresh at h
    cases hfetch : fetchData s t key with
    | error e =>
      rw [hfetch] at h
      exact absurd h (by simp [bind, Except.bind])
    | ok stored =>
      rw [hfetch] at h
      simp only [bind, Except.bind] at h
      split_ifs at h with hfresh
      intro key' hmem
      rcases List.mem_cons.mp hmem with rfl | hmem
      · rw [hfetch, hfresh.1]
      · exact ih h key' hmem

theorem tableId_plain (s : Store G) (t : Name) : Plain (tableId s t) := by
  unfold tableId
  split
  · exact Plain.ok _
  · exact Plain.error not_false

theorem checkFresh_plain (s : Store G) (t : Name) (keys : List G.Key) :
    Plain (checkFresh s t keys) := by
  induction keys with
  | nil => exact Plain.ok ()
  | cons key rest ih =>
    unfold checkFresh fetchData
    apply Plain.bind
    · apply Plain.bind (tableId_plain s t)
      intro id
      apply Plain.bind (keyBytes_plain key)
      intro bytes
      exact Plain.ok _
    · intro stored
      split_ifs with hfresh
      · exact ih
      · exact Plain.error not_false

theorem rowPrimaryKey_plain (t : Name) (i : ℕ) (row : DataRow G.Value) :
    Plain (rowPrimaryKey t i row) := by
  cases row with
  | map entries => exact Plain.error not_false
  | vec values =>
    simp only [rowPrimaryKey]
    split
    · exact Plain.mapError (f := Error.evaluation) fun _ => not_false
    · exact Plain.error not_false

theorem mapM_ok {α β : Type} {f : α → Except (Error G) β} {l : List α} {bs : List β}
    (h : l.mapM f = .ok bs) : bs.length = l.length ∧ ∀ q ∈ bs.zip l, f q.2 = .ok q.1 := by
  induction l generalizing bs with
  | nil =>
    obtain rfl : [] = bs := Except.ok.inj h
    simp
  | cons a l ih =>
    rw [List.mapM_cons] at h
    cases hfa : f a with
    | error e =>
      rw [hfa] at h
      exact absurd h (by simp [bind, Except.bind])
    | ok b =>
      cases hl : l.mapM f with
      | error e =>
        rw [hfa, hl] at h
        exact absurd h (by simp [bind, Except.bind])
      | ok rest =>
        rw [hfa, hl] at h
        obtain rfl : b :: rest = bs := Except.ok.inj h
        obtain ⟨hlen, hall⟩ := ih hl
        constructor
        · rw [List.length_cons, List.length_cons, hlen]
        · intro q hq
          rw [List.zip_cons_cons] at hq
          rcases List.mem_cons.mp hq with rfl | hq
          · exact hfa
          · exact hall q hq

structure Inserts (s : Store G) (t : Name) (schema : Schema G) (rows : List (DataRow G.Value))
    (key : G.Key) (row : DataRow G.Value) : Prop where
  mem : row ∈ rows
  fits : rowFits schema row = true
  primary : ∃ i, primaryKeyIndex schema = some i ∧ rowPrimaryKey t i row = .ok key
  fresh : fetchData s t key = .ok none

/-- A row of an INSERT into a table without one, under the key `m`. -/
structure Appends (c : Conn G) (schema : Schema G) (id : UInt64) (rows : List (DataRow G.Value))
    (m : ℤ) (row : DataRow G.Value) : Prop where
  mem : row ∈ rows
  fits : rowFits schema row = true
  keyless : primaryKeyIndex schema = none
  above : lastKey c id < m
  below : m < 2 ^ 63

def insertedRows (c : Conn G) (t : Name) (schema : Schema G) (id : UInt64)
    (rows : List (DataRow G.Value)) : List (G.Key × DataRow G.Value) :=
  match primaryKeyIndex schema with
  | some i => rows.filterMap fun row =>
    match rowPrimaryKey t i row with
    | .ok key => some (key, row)
    | .error _ => none
  | none => numbered (lastKey c id + 1) rows

theorem insertedRows_primary {i : ℕ} (hpk : primaryKeyIndex schema = some i) {keys : List G.Key}
    {rows : List (DataRow G.Value)} (hkeys : rows.mapM (rowPrimaryKey t i) = .ok keys) :
    insertedRows c t schema id rows = keys.zip rows := by
  unfold insertedRows
  rw [hpk]
  dsimp only
  induction rows generalizing keys with
  | nil => rw [List.zip_nil_right, List.filterMap_nil]
  | cons row rows ih =>
    obtain ⟨hlen, hall⟩ := mapM_ok hkeys
    cases keys with
    | nil => exact absurd hlen (by simp)
    | cons key keys =>
      rw [List.mapM_cons] at hkeys
      have hkey : rowPrimaryKey t i row = .ok key := hall (key, row) (by simp)
      rw [hkey] at hkeys
      cases hrest : rows.mapM (rowPrimaryKey t i) with
      | error e =>
        rw [hrest] at hkeys
        exact absurd hkeys (by simp [bind, Except.bind])
      | ok keys' =>
        rw [hrest] at hkeys
        obtain ⟨-, rfl⟩ := List.cons.inj (Except.ok.inj hkeys)
        rw [List.filterMap_cons, hkey, List.zip_cons_cons, ih hrest]

section Rules

variable {J : List (G.Key × DataRow G.Value) → Conn G → Prop}

theorem insertStmt_rule (hat : TableAt c.view t schema id catalog)
    {rows : List (DataRow G.Value)} (hJ : ∀ seq, J [] { c with seq := seq })
    (hinsert : ∀ done key row c', Inserts c.view t schema rows key row → J done c' →
      Holds (insertRow t id catalog key row) c' (fun _ => J (done ++ [(key, row)])) fail)
    (happend : ∀ done m row c', Appends c schema id rows m row → J done c' →
      Holds (appendRow t id catalog m row) c' (fun _ => J (done ++ [(G.i64 m, row)])) fail)
    (herr : ∀ e, ¬e.IsUniqueViolation → fail e c) :
    Holds (insertStmt t rows) c (fun _ => J (insertedRows c t schema id rows)) fail := by
  unfold insertStmt
  rw [Holds.bind_iff, Holds.get_iff]
  dsimp only
  rw [Holds.bind_iff]
  apply holds_getSchema
  · intro schema' hschema
    obtain rfl : schema = schema' := Option.some.inj (hat.schema.symm.trans hschema)
    rw [Holds.bind_iff]
    apply holds_checkRows
    · intro hfits
      cases hpk : primaryKeyIndex schema with
      | some i =>
        dsimp only
        rw [Holds.bind_iff]
        apply holds_ofExcept
        · intro keys hkeys
          obtain ⟨hlen, hprimary⟩ := mapM_ok hkeys
          rw [Holds.bind_iff]
          apply holds_ofExcept
          · intro _ hfresh
            rw [insertedRows_primary hpk hkeys]
            apply insertData_rule hat (hJ c.seq)
            intro done q c' hq
            obtain ⟨hkey, hrow⟩ := List.of_mem_zip hq
            apply hinsert done q.1 q.2 c'
            exact ⟨hrow, hfits q.2 hrow, ⟨i, hpk, hprimary q hq⟩, checkFresh_ok hfresh q.1 hkey⟩
          · exact fun e he => herr e (checkFresh_plain _ _ _ e he)
        · intro e he
          exact herr e (Plain.mapM (rowPrimaryKey_plain t i) rows e he)
      | none =>
        have happended : insertedRows c t schema id rows = numbered (lastKey c id + 1) rows := by
          rw [insertedRows, hpk]
        rw [happended]
        exact appendData_rule hat hJ (fun done row m c' hrow habove hbelow =>
          happend done m row c' ⟨hrow, hfits row hrow, hpk, habove, hbelow⟩) (herr _ not_false)
    · exact herr _ not_false
  · exact herr _ not_false

/-- A row of an UPDATE: `old` becomes `row`. -/
structure Updates (s : Store G) (schema : Schema G) (id : UInt64)
    (catalog : Option (ColumnCatalog G))
    (assign : G.Key × DataRow G.Value → Option (DataRow G.Value)) (key : G.Key)
    (row : DataRow G.Value) : Prop where
  stored : ∃ old, (key, old) ∈ logicalRows s catalog (scanTable s id) ∧ assign (key, old) = some row
  fits : rowFits schema row = true

def changedRows (assign : G.Key × DataRow G.Value → Option (DataRow G.Value))
    (rows : List (G.Key × DataRow G.Value)) : List (G.Key × DataRow G.Value) :=
  rows.filterMap fun p => (assign p).map fun row => (p.1, row)

theorem mem_changedRows {assign : G.Key × DataRow G.Value → Option (DataRow G.Value)}
    {rows : List (G.Key × DataRow G.Value)} {q : G.Key × DataRow G.Value} :
    q ∈ changedRows assign rows ↔ ∃ old, (q.1, old) ∈ rows ∧ assign (q.1, old) = some q.2 := by
  unfold changedRows
  rw [List.mem_filterMap]
  constructor
  · intro ⟨p, hp, hmap⟩
    obtain ⟨row, hassign, rfl⟩ := Option.map_eq_some_iff.mp hmap
    exact ⟨p.2, hp, hassign⟩
  · intro ⟨old, hold, hassign⟩
    exact ⟨(q.1, old), hold, by rw [hassign]; rfl⟩

theorem updateStmt_rule (hat : TableAt c.view t schema id catalog)
    {assign : G.Key × DataRow G.Value → Option (DataRow G.Value)} (hJ : J [] c)
    (hinsert : ∀ done key row c', Updates c.view schema id catalog assign key row → J done c' →
      Holds (insertRow t id catalog key row) c' (fun _ => J (done ++ [(key, row)])) fail)
    (herr : ∀ e, ¬e.IsUniqueViolation → fail e c) :
    Holds (updateStmt t assign) c
      (fun _ => J (changedRows assign
        (logicalRows c.view catalog (scanTable c.view id)))) fail := by
  unfold updateStmt
  rw [Holds.bind_iff, Holds.get_iff]
  dsimp only
  rw [Holds.bind_iff]
  apply holds_getSchema
  · intro schema' hschema
    obtain rfl : schema = schema' := Option.some.inj (hat.schema.symm.trans hschema)
    rw [scanData_eq hat, Holds.bind_iff, Holds.ofExcept_ok, Holds.bind_iff]
    apply holds_checkRows
    · intro hfits
      apply insertData_rule hat hJ
      intro done q c' hq
      apply hinsert done q.1 q.2 c'
      exact ⟨mem_changedRows.mp hq, hfits q.2 (List.mem_map_of_mem hq)⟩
    · exact herr _ not_false
  · exact herr _ not_false

end Rules

def deletedKeys (selects : G.Key × DataRow G.Value → Bool) (rows : List (G.Key × DataRow G.Value)) :
    List G.Key :=
  (rows.filter selects).map Prod.fst

theorem deleteStmt_rule {J : List G.Key → Conn G → Prop}
    (hat : TableAt c.view t schema id catalog) {selects : G.Key × DataRow G.Value → Bool}
    (hJ : J [] c)
    (hdelete : ∀ done key c', J done c' →
      Holds (deleteRow t id catalog key) c' (fun _ => J (done ++ [key])) fail)
    (herr : ∀ e, ¬e.IsUniqueViolation → fail e c) :
    Holds (deleteStmt t selects) c
      (fun _ => J (deletedKeys selects
        (logicalRows c.view catalog (scanTable c.view id)))) fail := by
  unfold deleteStmt
  rw [Holds.bind_iff, Holds.get_iff]
  dsimp only
  rw [Holds.bind_iff]
  apply holds_getSchema
  · intro schema' _
    rw [scanData_eq hat, Holds.bind_iff, Holds.ofExcept_ok]
    unfold deleteData
    rw [Holds.bind_iff, Holds.get_iff]
    dsimp only
    rw [hat.tableId, Holds.bind_iff, Holds.ofExcept_ok, hat.catalog]
    apply Holds.forM_log J _ hJ
    intro done key rest _ c' h
    exact hdelete done key c' h
  · exact herr _ not_false

end BlueDB.Sql
