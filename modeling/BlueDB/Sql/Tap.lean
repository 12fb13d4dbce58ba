import BlueDB.Sql.Isolation
import BlueDB.Sql.Overlay

/-!
# The commit tap

INSERT, UPDATE and DELETE offer every row they write to the transaction, which
buffers it when an observer or the mirror wants the changes of the table. With
the tap left out, a statement is the one of `Sql.Database`.
-/

namespace BlueDB.Sql

open Overlay (RowChange)

variable {G : Engine} {α β : Type}

/-- A row that a statement writes, under its storage key; no row for a delete. -/
structure TappedRow (G : Engine) where
  change : RowChange G
  id : UInt64
  bytes : List UInt8
  appended : Bool

/-- A connection with what the tap has buffered of its transaction. `written` is
every row written so far and whether its change was wanted; no method reads it. -/
structure Tapped (G : Engine) where
  conn : Conn G
  observed : Bool
  cdc : Option (Name → Bool)
  changes : List (RowChange G)
  hadDataWrite : Bool
  written : List (TappedRow G × Bool)

abbrev TapExec (G : Engine) := EStateM (Error G) (Tapped G)

def Tapped.wantsChanges (s : Tapped G) (table : Name) : Bool :=
  s.observed || s.cdc.any fun isEnabled => isEnabled table

/-- A change is buffered in an open transaction, and marks it. -/
def Tapped.recordChange (s : Tapped G) (change : RowChange G) : Tapped G :=
  if s.conn.txn.isNone then s
  else if s.wantsChanges change.table then
    { s with hadDataWrite := true, changes := s.changes ++ [change] }
  else { s with hadDataWrite := true }

/-- The tap of one row: the call is skipped when nobody wants the changes. -/
def Tapped.tap (s : Tapped G) (w : TappedRow G) : Tapped G :=
  let s := { s with written := s.written ++ [(w, s.wantsChanges w.change.table)] }
  if s.wantsChanges w.change.table then s.recordChange w.change else s

namespace Tap

/-- A storage method, on a connection with a tap. -/
def lift (x : Exec G α) : TapExec G α := fun s =>
  match x s.conn with
  | .ok a c => .ok a { s with conn := c }
  | .error e c => .error e { s with conn := c }

def view : TapExec G (Store G) := do return (← get).conn.view

def putRow (t : Name) (id : UInt64) (catalog : Option (ColumnCatalog G)) (bytes : List UInt8)
    (key : G.Key) (row : DataRow G.Value) (appended : Bool) : TapExec G Unit := do
  lift (applyIndexEntries t key row true)
  modify (·.tap ⟨⟨t, key, some row⟩, id, bytes, appended⟩)
  lift (writeKey (.row id bytes) (⟨key, toPhysical catalog row⟩ : StoredRow G))

def appendRow (t : Name) (id : UInt64) (catalog : Option (ColumnCatalog G)) (next : ℤ)
    (row : DataRow G.Value) : TapExec G Unit := do
  let bytes ← ofExcept (keyBytes (G.i64 next))
  putRow t id catalog bytes (G.i64 next) row true

def appendRows (t : Name) (id : UInt64) (catalog : Option (ColumnCatalog G)) :
    ℤ → List (DataRow G.Value) → TapExec G Unit
  | _, [] => pure ()
  | next, row :: rows => do
    appendRow t id catalog next row
    appendRows t id catalog (next + 1) rows

def appendData (t : Name) (rows : List (DataRow G.Value)) : TapExec G Unit := do
  if rows = [] then pure ()
  else
    let next ← lift (allocateKeys t rows.length)
    let s ← view
    let id ← ofExcept (tableId s t)
    appendRows t id (readCatalog s t) next rows

def insertRow (t : Name) (id : UInt64) (catalog : Option (ColumnCatalog G)) (key : G.Key)
    (row : DataRow G.Value) : TapExec G Unit := do
  let bytes ← ofExcept (keyBytes key)
  lift (retireRow t id catalog bytes key)
  putRow t id catalog bytes key row false

def insertData (t : Name) (rows : List (G.Key × DataRow G.Value)) : TapExec G Unit := do
  let s ← view
  let id ← ofExcept (tableId s t)
  rows.forM fun p => insertRow t id (readCatalog s t) p.1 p.2

def deleteRow (t : Name) (id : UInt64) (catalog : Option (ColumnCatalog G)) (key : G.Key) :
    TapExec G Unit := do
  let bytes ← ofExcept (keyBytes key)
  lift (removeEntries t id catalog bytes key)
  modify (·.tap ⟨⟨t, key, none⟩, id, bytes, false⟩)
  lift (deleteKey (.row id bytes))

def deleteData (t : Name) (keys : List G.Key) : TapExec G Unit := do
  let s ← view
  let id ← ofExcept (tableId s t)
  keys.forM (deleteRow t id (readCatalog s t))

def insertStmt (t : Name) (rows : List (DataRow G.Value)) : TapExec G Unit := do
  let s ← view
  let schema ← ofExcept (getSchema s t)
  lift (checkRows t schema rows)
  match primaryKeyIndex schema with
  | some i =>
    let keys ← ofExcept (rows.mapM (rowPrimaryKey t i))
    ofExcept (checkFresh s t keys)
    insertData t (keys.zip rows)
  | none => appendData t rows

def updateStmt (t : Name) (assign : G.Key × DataRow G.Value → Option (DataRow G.Value)) :
    TapExec G Unit := do
  let s ← view
  let schema ← ofExcept (getSchema s t)
  let rows ← ofExcept (scanData s t)
  let changed := rows.filterMap fun p => (assign p).map fun row => (p.1, row)
  lift (checkRows t schema (changed.map Prod.snd))
  insertData t changed

def deleteStmt (t : Name) (selects : G.Key × DataRow G.Value → Bool) : TapExec G Unit := do
  let s ← view
  let _ ← ofExcept (getSchema s t)
  let rows ← ofExcept (scanData s t)
  deleteData t ((rows.filter selects).map Prod.fst)

/-- Statements other than INSERT, UPDATE and DELETE do not touch the tap. -/
def runStmt : Stmt G → TapExec G Unit
  | .insert t rows => insertStmt t rows
  | .update t assign => updateStmt t assign
  | .delete t selects => deleteStmt t selects
  | stmt => lift (Sql.runStmt stmt)

end Tap

/-- A result without the tap. -/
def untapped : EStateM.Result (Error G) (Tapped G) α → EStateM.Result (Error G) (Conn G) α
  | .ok a s => .ok a s.conn
  | .error e s => .error e s.conn

/-- With the tap left out, `x` is `y`. -/
structure Projects (x : TapExec G α) (y : Exec G α) : Prop where
  eq : ∀ s, untapped (x s) = y s.conn

theorem holds_view {f : Store G → TapExec G β} {s : Tapped G} {post : β → Tapped G → Prop}
    {fail : Error G → Tapped G → Prop} :
    Holds (Tap.view >>= f) s post fail ↔ Holds (f s.conn.view) s post fail :=
  Iff.rfl

namespace Projects

theorem lift (x : Exec G α) : Projects (Tap.lift x) x := by
  constructor
  intro s
  unfold Tap.lift
  cases x s.conn <;> rfl

theorem pure (a : α) : Projects (pure a : TapExec G α) (pure a) := ⟨fun _ => rfl⟩

theorem ofExcept (x : Except (Error G) α) : Projects (ofExcept x) (ofExcept x) := by
  cases x <;> exact ⟨fun _ => rfl⟩

theorem bind {x : TapExec G α} {y : Exec G α} {f : α → TapExec G β} {g : α → Exec G β}
    (hx : Projects x y) (hf : ∀ a, Projects (f a) (g a)) : Projects (x >>= f) (y >>= g) := by
  constructor
  intro s
  change untapped (EStateM.bind x f s) = EStateM.bind y g s.conn
  unfold EStateM.bind
  rw [← hx.eq s]
  cases x s with
  | ok a s' => exact (hf a).eq s'
  | error e s' => rfl

theorem tap_bind {w : TappedRow G} {f : PUnit → TapExec G β} {y : Exec G β}
    (hf : Projects (f ⟨⟩) y) : Projects (modify (·.tap w) >>= f) y := by
  constructor
  intro s
  have hconn : (s.tap w).conn = s.conn := by
    unfold Tapped.tap Tapped.recordChange
    dsimp only
    split_ifs <;> rfl
  change untapped (f ⟨⟩ (s.tap w)) = y s.conn
  rw [hf.eq, hconn]

theorem view_bind {f : Store G → TapExec G β} {g : Conn G → Exec G β}
    (hf : ∀ c : Conn G, Projects (f c.view) (g c)) : Projects (Tap.view >>= f) (get >>= g) :=
  ⟨fun s => (hf s.conn).eq s⟩

theorem forM {f : α → TapExec G Unit} {g : α → Exec G Unit} (l : List α)
    (hf : ∀ a, Projects (f a) (g a)) : Projects (l.forM f) (l.forM g) := by
  induction l with
  | nil => exact pure ()
  | cons a l ih => exact bind (hf a) fun _ => ih

theorem putRow (t : Name) (id : UInt64) (catalog : Option (ColumnCatalog G)) (bytes : List UInt8)
    (key : G.Key) (row : DataRow G.Value) (appended : Bool) :
    Projects (Tap.putRow t id catalog bytes key row appended)
      (Sql.putRow t id catalog bytes key row) := by
  apply bind (lift _)
  intro _
  exact tap_bind (lift _)

theorem appendRows (t : Name) (id : UInt64) (catalog : Option (ColumnCatalog G)) (next : ℤ)
    (rows : List (DataRow G.Value)) :
    Projects (Tap.appendRows t id catalog next rows) (Sql.appendRows t id catalog next rows) := by
  induction rows generalizing next with
  | nil => exact pure ()
  | cons row rows ih =>
    unfold Tap.appendRows Sql.appendRows Tap.appendRow Sql.appendRow
    apply bind
    · apply bind (ofExcept _)
      intro bytes
      exact putRow ..
    · intro _
      exact ih _

theorem appendData (t : Name) (rows : List (DataRow G.Value)) :
    Projects (Tap.appendData t rows) (Sql.appendData t rows) := by
  unfold Tap.appendData Sql.appendData
  split_ifs with hnil
  · exact pure ()
  · apply bind (lift _)
    intro next
    apply view_bind
    intro s
    apply bind (ofExcept _)
    intro id
    exact appendRows ..

theorem insertData (t : Name) (rows : List (G.Key × DataRow G.Value)) :
    Projects (Tap.insertData t rows) (Sql.insertData t rows) := by
  unfold Tap.insertData Sql.insertData
  apply view_bind
  intro s
  apply bind (ofExcept _)
  intro id
  apply forM
  intro p
  unfold Tap.insertRow Sql.insertRow
  apply bind (ofExcept _)
  intro bytes
  apply bind (lift _)
  intro _
  exact putRow ..

theorem deleteData (t : Name) (keys : List G.Key) :
    Projects (Tap.deleteData t keys) (Sql.deleteData t keys) := by
  unfold Tap.deleteData Sql.deleteData
  apply view_bind
  intro s
  apply bind (ofExcept _)
  intro id
  apply forM
  intro key
  unfold Tap.deleteRow Sql.deleteRow
  apply bind (ofExcept _)
  intro bytes
  apply bind (lift _)
  intro _
  exact tap_bind (lift _)

/-- A statement does to the connection what it does without a tap. -/
theorem runStmt (stmt : Stmt G) : Projects (Tap.runStmt stmt) (Sql.runStmt stmt) := by
  cases stmt with
  | insert t rows =>
    apply view_bind
    intro s
    apply bind (ofExcept _)
    intro schema
    apply bind (lift _)
    intro _
    cases primaryKeyIndex schema with
    | some i =>
      apply bind (ofExcept _)
      intro keys
      apply bind (ofExcept _)
      intro _
      exact insertData ..
    | none => exact appendData ..
  | update t assign =>
    apply view_bind
    intro s
    apply bind (ofExcept _)
    intro schema
    apply bind (ofExcept _)
    intro rows
    apply bind (lift _)
    intro _
    exact insertData ..
  | delete t selects =>
    apply view_bind
    intro s
    apply bind (ofExcept _)
    intro _
    apply bind (ofExcept _)
    intro rows
    exact deleteData ..
  | createTable t columns | dropTable t | createIndex t index expr asc | dropIndex t index
  | addColumn t column | dropColumn t column ifExists | renameColumn t old new
  | renameTable t new => exact lift _

end Projects

/-- The program only buffers writes, stages checks and allocates keys. -/
structure Silent (x : Exec G α) : Prop where
  along : ∀ {R : Conn G → Conn G → Prop}, Bufferwise R → Along R (fun _ => R) x

theorem silent_runStmt (stmt : Stmt G) : Silent (Sql.runStmt stmt) := ⟨fun h => h.runStmt stmt⟩

theorem silent_applyIndexEntries (t : Name) (pk : G.Key) (row : DataRow G.Value) (insert : Bool) :
    Silent (applyIndexEntries t pk row insert) :=
  ⟨fun h => h.applyIndexEntries t pk row insert⟩

theorem silent_allocateKeys (t : Name) (count : ℕ) : Silent (allocateKeys t count : Exec G ℤ) :=
  ⟨fun h => h.allocate t count⟩

theorem silent_checkRows (t : Name) (schema : Schema G) (rows : List (DataRow G.Value)) :
    Silent (checkRows t schema rows) := ⟨fun h => h.stepwise.checkRows t schema rows⟩

theorem silent_retireRow (t : Name) (id : UInt64) (catalog : Option (ColumnCatalog G))
    (bytes : List UInt8) (key : G.Key) : Silent (retireRow t id catalog bytes key) := by
  constructor
  intro R h
  unfold retireRow
  apply Along.bind h.tracks (Along.get h.tracks)
  intro c
  split
  · exact h.applyIndexEntries ..
  · exact h.stageKey _

theorem silent_removeEntries (t : Name) (id : UInt64) (catalog : Option (ColumnCatalog G))
    (bytes : List UInt8) (key : G.Key) : Silent (removeEntries t id catalog bytes key) := by
  constructor
  intro R h
  unfold removeEntries
  apply Along.bind h.tracks (Along.get h.tracks)
  intro c
  split
  · exact h.applyIndexEntries ..
  · exact Along.pure h.tracks _

def tapWrite (w : TappedRow G) (value : Option (StoredRow G)) : TapExec G Unit := do
  modify (·.tap w)
  Tap.lift (modify (·.write ⟨.row w.id w.bytes, value⟩))

/-- A relation that the steps of a tapped statement keep. -/
structure Tapwise (R : Tapped G → Tapped G → Prop) : Prop where
  refl : ∀ s, R s s
  trans : ∀ {s s' s''}, R s s' → R s' s'' → R s s''
  lift : ∀ {α : Type} {x : Exec G α}, Silent x → Along R (fun _ => R) (Tap.lift x)
  write : ∀ w value, w.appended = false → Along R (fun _ => R) (tapWrite w value)
  append : ∀ t rows, Along R (fun _ => R) (Tap.appendData t rows)

section Tapwise

variable {R : Tapped G → Tapped G → Prop}

theorem Along.view {F : Error G → Tapped G → Tapped G → Prop} (h : Tracks R F) :
    Along R F (Tap.view : TapExec G (Store G)) := ⟨fun s => h.refl s⟩

theorem Along.tapPutRow (htracks : Tracks R fun _ : Error G => R)
    (hlift : ∀ {α : Type} {x : Exec G α}, Silent x → Along R (fun _ => R) (Tap.lift x)) (t : Name)
    (id : UInt64) (catalog : Option (ColumnCatalog G)) (bytes : List UInt8) (key : G.Key)
    (row : DataRow G.Value) (appended : Bool)
    (hwrite : ∀ value, Along R (fun _ => R)
      (tapWrite ⟨⟨t, key, some row⟩, id, bytes, appended⟩ value)) :
    Along R (fun _ => R) (Tap.putRow t id catalog bytes key row appended) := by
  unfold Tap.putRow
  apply Along.bind htracks (hlift (silent_applyIndexEntries ..))
  intro _
  exact hwrite _

namespace Tapwise

variable (h : Tapwise R)
include h

theorem tracks : Tracks R fun _ : Error G => R where
  __ := h
  fail := h.trans

theorem except (x : Except (Error G) α) : Along R (fun _ => R) (ofExcept x) :=
  Along.ofExcept h.tracks fun _ _ => h.refl

theorem insertData (t : Name) (rows : List (G.Key × DataRow G.Value)) :
    Along R (fun _ => R) (Tap.insertData t rows) := by
  unfold Tap.insertData
  apply Along.bind h.tracks (Along.view h.tracks)
  intro s
  apply Along.bind h.tracks (h.except _)
  intro id
  apply Along.forM h.tracks
  intro p _
  unfold Tap.insertRow
  apply Along.bind h.tracks (h.except _)
  intro bytes
  apply Along.bind h.tracks (h.lift (silent_retireRow ..))
  intro _
  exact Along.tapPutRow h.tracks h.lift _ _ _ _ _ _ _ fun value => h.write _ value rfl

theorem deleteData (t : Name) (keys : List G.Key) :
    Along R (fun _ => R) (Tap.deleteData t keys) := by
  unfold Tap.deleteData
  apply Along.bind h.tracks (Along.view h.tracks)
  intro s
  apply Along.bind h.tracks (h.except _)
  intro id
  apply Along.forM h.tracks
  intro key _
  unfold Tap.deleteRow
  apply Along.bind h.tracks (h.except _)
  intro bytes
  apply Along.bind h.tracks (h.lift (silent_removeEntries ..))
  intro _
  exact h.write ⟨⟨t, key, none⟩, id, bytes, false⟩ none rfl

/-- A statement keeps such a relation, whether it returns or fails. -/
theorem runStmt (stmt : Stmt G) : Along R (fun _ => R) (Tap.runStmt stmt) := by
  cases stmt with
  | insert t rows =>
    apply Along.bind h.tracks (Along.view h.tracks)
    intro s
    apply Along.bind h.tracks (h.except _)
    intro schema
    apply Along.bind h.tracks (h.lift (silent_checkRows ..))
    intro _
    cases primaryKeyIndex schema with
    | some i =>
      apply Along.bind h.tracks (h.except _)
      intro keys
      apply Along.bind h.tracks (h.except _)
      intro _
      exact h.insertData ..
    | none => exact h.append ..
  | update t assign =>
    apply Along.bind h.tracks (Along.view h.tracks)
    intro s
    apply Along.bind h.tracks (h.except _)
    intro schema
    apply Along.bind h.tracks (h.except _)
    intro rows
    apply Along.bind h.tracks (h.lift (silent_checkRows ..))
    intro _
    exact h.insertData ..
  | delete t selects =>
    apply Along.bind h.tracks (Along.view h.tracks)
    intro s
    apply Along.bind h.tracks (h.except _)
    intro _
    apply Along.bind h.tracks (h.except _)
    intro rows
    exact h.deleteData ..
  | createTable t columns | dropTable t | createIndex t index expr asc | dropIndex t index
  | addColumn t column | dropColumn t column ifExists | renameColumn t old new
  | renameTable t new => exact h.lift (silent_runStmt _)

end Tapwise

theorem Along.tapAppendRows (htracks : Tracks R fun _ : Error G => R)
    (hlift : ∀ {α : Type} {x : Exec G α}, Silent x → Along R (fun _ => R) (Tap.lift x))
    (hwrite : ∀ w value, Along R (fun _ => R) (tapWrite w value)) (t : Name) (id : UInt64)
    (catalog : Option (ColumnCatalog G)) (next : ℤ) (rows : List (DataRow G.Value)) :
    Along R (fun _ => R) (Tap.appendRows t id catalog next rows) := by
  induction rows generalizing next with
  | nil => exact Along.pure htracks _
  | cons row rows ih =>
    unfold Tap.appendRows Tap.appendRow
    apply Along.bind htracks
    · apply Along.bind htracks (Along.ofExcept htracks fun _ _ => htracks.refl)
      intro bytes
      exact Along.tapPutRow htracks hlift _ _ _ _ _ _ _ fun value => hwrite _ value
    · intro _
      exact ih _

/-- Appended rows are written like any others once their keys are allocated. -/
theorem Along.tapAppendData (htracks : Tracks R fun _ : Error G => R)
    (hlift : ∀ {α : Type} {x : Exec G α}, Silent x → Along R (fun _ => R) (Tap.lift x))
    (hwrite : ∀ w value, Along R (fun _ => R) (tapWrite w value)) (t : Name)
    (rows : List (DataRow G.Value)) : Along R (fun _ => R) (Tap.appendData t rows) := by
  unfold Tap.appendData
  split_ifs with hnil
  · exact Along.pure htracks _
  · apply Along.bind htracks (hlift (silent_allocateKeys ..))
    intro next
    apply Along.bind htracks (Along.view htracks)
    intro s
    apply Along.bind htracks (Along.ofExcept htracks fun _ _ => htracks.refl)
    intro id
    exact Along.tapAppendRows htracks hlift hwrite ..

end Tapwise

end BlueDB.Sql
