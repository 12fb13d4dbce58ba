import BlueDB.Lakehouse.Iceberg
import BlueDB.Lakehouse.Lake

/-!
# A tenant with its Iceberg tables

Statements run one after the other, each in a transaction of its own, and seals
between them. A seal publishes the collapsed changes of one table after the other
and then deletes the entries it has read. It ends at the first table that fails,
and it may also stop anywhere before its end: what it has written by then stays.
-/

namespace BlueDB.Lakehouse

open Sql

variable {G : Engine}

structure Site (G : Engine) where
  writer : Writer Unit G
  mirrored : Name → Bool
  tables : Name → Option TableMetadata

abbrev SealM (G : Engine) := EStateM LakehouseError (Site G)

/-- A statement in a transaction of its own: the steps of one connection. -/
def autocommit (srv : Writer Unit G) (isEnabled : Name → Bool) (stmt : Stmt G) : Writer Unit G :=
  let begun := srv.step isEnabled (.begin ())
  match begun.phase () with
  | .running x =>
    let ran := begun.step isEnabled (.exec () stmt)
    match Tap.runStmt stmt (begun.tapped isEnabled () x) with
    | .ok _ s =>
      let events : List (WriterEvent Unit G) :=
        .commit () :: s.changes.map (fun _ => .stamp ()) ++ [.write ()]
      events.foldl (Writer.step · isEnabled) ran
    | .error _ _ => ran.step isEnabled (.rollback ())
  | _ => srv

def changesOf (entries : List (CdcEntry G)) (t : Name) :
    List (G.Key × Option (DataRow G.Value)) :=
  (((entries.filter fun p => p.2.table = t).map fun p => p.2.key).dedup).filterMap fun k =>
    (collapseLww entries (t, k)).map fun image => (k, image)

def upserts (changes : List (G.Key × Option (DataRow G.Value))) : List (G.Key × DataRow G.Value) :=
  changes.filterMap fun p => p.2.map fun row => (p.1, row)

def deletes (changes : List (G.Key × Option (DataRow G.Value))) : List G.Key :=
  (changes.filter fun p => p.2.isNone).map Prod.fst

namespace Site

variable (C : Crates) (R : Reading G)

def setTable (site : Site G) (t : Name) (table : TableMetadata) : Site G :=
  { site with tables := Function.update site.tables t (some table) }

def fetchSchema (site : Site G) (t : Name) : Except LakehouseError (Schema G) :=
  match readSchema site.writer.live t with
  | some schema => .ok schema
  | none => .error (.tableNotFound t)

/-- The slots of the columns, none for a table that was never altered. -/
def columnSlots (site : Site G) (t : Name) : Option (List ℕ) :=
  (readCatalog site.writer.live t).map ColumnCatalog.slots

/-- The fields that a new table is sorted by: the components of the key. -/
def sortFieldIds (site : Site G) (t : Name) (columns : List (ColumnDef G)) (pkFieldId : ℕ) :
    List ℕ :=
  match readPkCatalog site.writer.live t with
  | none => [pkFieldId]
  | some components => components.filterMap fun c =>
    (columns.findIdx? fun d => d.name = c).map (fieldIdOf (site.columnSlots t))

def writerFor (t : Name) (schema : Schema G) (samples : List (DataRow G.Value)) :
    SealM G LakehouseWriter := do
  let site ← get
  let iceberg ← ofExcept (tableToIceberg C R schema samples (site.columnSlots t))
  let sortFieldIds := site.sortFieldIds t (schema.columnDefs.getD []) iceberg.2
  let w ← ofExcept (LakehouseWriter.openTable C (site.tables t) iceberg.1 iceberg.2 sortFieldIds)
  modify (·.setTable t w.metadata)
  return w

def sealTable (t : Name) (changes : List (G.Key × Option (DataRow G.Value))) (watermark : ℕ) :
    SealM G Unit := do
  if changes = [] then return
  let schema ← ofExcept ((← get).fetchSchema t)
  let w ← writerFor C R t schema ((upserts changes).map Prod.snd)
  let w ← ofExcept (w.upsert C R (upserts changes))
  let w ← ofExcept (w.delete C R (deletes changes))
  modify (·.setTable t (w.commitSnapshot watermark).metadata)

/-- The entries up to the watermark are deleted. -/
def gcCdc (site : Site G) (through : ℕ) : Site G :=
  let numbers := ((scanCdc site.writer.log 0).filter (·.1 ≤ through)).map Prod.fst
  { site with writer := { site.writer with log := site.writer.log.eraseAll numbers } }

/-- The tables in the order of a hash map: `order` first. -/
def sealOrder (order ts : List Name) : List Name :=
  (order.filter (· ∈ ts)).dedup ++ ts.filter (· ∉ order)

def sealAll (order : List Name) : SealM G Unit := do
  let entries := scanCdc (← get).writer.log 0
  if entries = [] then return
  (sealOrder order (Lakehouse.tables entries)).forM fun t =>
    sealTable C R t (changesOf entries t) (watermark entries)
  modify (·.gcCdc (watermark entries))

/-- A seal that stops once it has published `done` and has opened the next table. -/
def stoppedSeal (done : List Name) (next : Option Name) : SealM G Unit := do
  let entries := scanCdc (← get).writer.log 0
  done.forM fun t => sealTable C R t (changesOf entries t) (watermark entries)
  match next with
  | some t =>
    if changesOf entries t = [] then return
    let schema ← ofExcept ((← get).fetchSchema t)
    let _ ← writerFor C R t schema ((upserts (changesOf entries t)).map Prod.snd)
  | none => return

/-- The rows that a table has when its mirror is enabled are published. -/
def backfill (t : Name) : SealM G Unit := do
  let site ← get
  match readSchema site.writer.live t with
  | none => return
  | some schema =>
    let rows ← ofExcept ((scanData site.writer.live t).mapError fun _ => .sql)
    if rows = [] then return
    let w ← writerFor C R t schema (rows.map Prod.snd)
    let w ← ofExcept (w.upsert C R rows)
    modify (·.setTable t (w.commitSnapshot (watermark (scanCdc site.writer.log 0))).metadata)

def enableTable (t : Name) : SealM G Unit := do
  modify fun site => { site with mirrored := Function.update site.mirrored t true }
  backfill C R t

end Site

inductive SiteEvent (G : Engine)
  | exec (stmt : Stmt G)
  | enable (t : Name)
  | sealAll (order : List Name)
  | stop (done : List Name) (next : Option Name)
  | restart

namespace Site

variable (C : Crates) (R : Reading G)

def step (site : Site G) : SiteEvent G → Site G
  | .exec stmt => { site with writer := autocommit site.writer site.mirrored stmt }
  | .enable t => stateAfter (enableTable C R t site)
  | .sealAll order => stateAfter (sealAll C R order site)
  | .stop done next => stateAfter (stoppedSeal C R done next site)
  | .restart => { site with writer := site.writer.restart }

def run (site : Site G) (events : List (SiteEvent G)) : Site G := events.foldl (step C R) site

def opened (live : Store G) (now : ℤ) (strict : Bool) : Site G where
  writer := .opened live .empty now fun _ => ⟨strict, false, true⟩
  mirrored _ := false
  tables _ := none

end Site

end BlueDB.Lakehouse
