import BlueDB.Fts.Trigram

/-!
# The engine of the full-text indexes

One engine has the declared indexes of all tables. Every commit is shown to it. A seal
takes what a live segment has collected into the durable tier, and a registry has the
declarations, so that the engine can be opened again.
-/

namespace BlueDB.Fts

inductive GValue
  | str (s : String)
  | other (text : String)
  deriving DecidableEq

inductive DataRow
  | vec (values : List GValue)
  | map

inductive Key
  | i64 (n : ℤ)
  | other

structure RowChange where
  table : String
  key : Key
  row : Option DataRow

/-- A table with an integer primary key. -/
structure Table where
  columns : List String
  pkColumn : String
  rows : OrderedMap ℤ (List GValue)

/-- The text in a place of a row. -/
def textAt (values : List GValue) (ordinal : ℕ) : Option String :=
  match values[ordinal]? with
  | some (.str text) => some text
  | _ => none

namespace Table

def ordinal (t : Table) (column : String) : Option ℕ := t.columns.findIdx? (· == column)

/-- The text of a column in a row. -/
def cell (t : Table) (column : String) (values : List GValue) : Option String :=
  (t.ordinal column).bind (textAt values)

def text (t : Table) (column : String) (pk : ℤ) : Option String :=
  (t.rows.get pk).bind (t.cell column)

/-- A row that is inserted or updated, or deleted. -/
def change (t : Table) : ℤ × Option (List GValue) → Option Table
  | (pk, some values) =>
    if values.length = t.columns.length then some { t with rows := t.rows.insert pk values }
    else none
  | (pk, none) => (t.rows.get pk).map fun _ => { t with rows := t.rows.erase pk }

def commit (t : Table) (changes : List (ℤ × Option (List GValue))) : Option Table :=
  changes.foldlM change t

/-- The key column stays. -/
def dropColumn (t : Table) (column : String) : Option Table :=
  if column = t.pkColumn then none
  else (t.ordinal column).map fun i =>
    { t with
      columns := t.columns.eraseIdx i
      rows := t.rows.mapValues fun values => values.eraseIdx i }

end Table

/-- What the commit tap reports of a change. -/
def rowChange (table : String) (c : ℤ × Option (List GValue)) : RowChange :=
  ⟨table, .i64 c.1, c.2.map .vec⟩

namespace LiveTier

def empty : LiveTier := ⟨[], ∅, ∅⟩

def index (live : LiveTier) (pk : ℤ) (text : String) : LiveTier :=
  { live with
    docs := (live.docs.filter fun d => d.1 != pk) ++ [(pk, text)]
    covered := insert pk live.covered }

def tombstone (live : LiveTier) (pk : ℤ) : LiveTier where
  docs := live.docs.filter fun d => d.1 != pk
  tombstones := insert pk live.tombstones
  covered := insert pk live.covered

end LiveTier

structure SealSnapshot where
  docs : List (ℤ × String)
  tombs : Finset ℤ

def LiveTier.snapshotForSeal (live : LiveTier) : SealSnapshot :=
  ⟨live.docs.filter fun d => decide (d.1 ∉ live.tombstones), live.tombstones⟩

/-- The documents take the place of those under their keys. -/
def updateSteps (schema : Schema) (docs : List (ℤ × String)) : List (Blobs → List Write) :=
  if docs.isEmpty then [] else
    [update schema (docs.map fun d => d.1.repr) (docs.map fun d => keyDoc d.1 d.2)]

def deleteSteps (tombs : Finset ℤ) : List (Blobs → List Write) :=
  if tombs = ∅ then [] else [delete ((tombs.sort (· ≤ ·)).map Int.repr)]

/-- The durable steps of a seal. -/
def SealSnapshot.steps (schema : Schema) (snapshot : SealSnapshot) : List (Blobs → List Write) :=
  updateSteps schema snapshot.docs ++ deleteSteps snapshot.tombs

def Blobs.play (b : Blobs) (steps : List (Blobs → List Write)) : Blobs :=
  steps.foldl (fun b step => b.writeAll (step b)) b

/-- A seal whose durable steps fail aborts, after some of them have taken effect. -/
inductive SealOutcome
  | finished
  | aborted (after : ℕ)

structure IndexName where
  table : String
  column : String
  kind : IndexKind
  deriving DecidableEq

structure PersistedDef where
  table : String
  column : String
  columnOrdinal : ℕ
  pkColumn : String
  analyzer : String
  kind : IndexKind

/-- A declaration with its live segment. -/
structure InstalledDef extends PersistedDef where
  segment : LiveTier

def effectiveAnalyzer (kind : IndexKind) (analyzer : String) : String :=
  match kind with
  | .fulltext => analyzer
  | .trigram => "whitespace"

def idPrefix : IndexKind → String
  | .fulltext => "fts"
  | .trigram => "trgm"

def analyzerForConfig (u : Unicode) (config : String) : FieldKind :=
  match String.ofList (u.lower config.toList) with
  | "english" | "en" | "english_stem" => .text .english
  | "simple" | "default" => .text .standard
  | "whitespace" | "ws" => .text .whitespace
  | "raw" | "keyword" | "exact" => .keyword
  | _ => .text .standard

/-- What is indexed of a text. -/
def indexedText (u : Unicode) (kind : IndexKind) (text : String) : String :=
  match kind with
  | .fulltext => text
  | .trigram => trigramize u text

namespace PersistedDef

def name (d : PersistedDef) : IndexName := ⟨d.table, d.column, d.kind⟩

def indexId (d : PersistedDef) : String := idPrefix d.kind ++ "/" ++ d.table ++ "/" ++ d.column

def body (u : Unicode) (d : PersistedDef) : FieldKind :=
  analyzerForConfig u (effectiveAnalyzer d.kind d.analyzer)

/-- The durable tier connects to the splits that are there. -/
def build (d : PersistedDef) : InstalledDef := { d with segment := .empty }

end PersistedDef

/-- Replaces the index of the name. -/
def install (indexes : List InstalledDef) (d : InstalledDef) : List InstalledDef :=
  (indexes.filter fun d' => d'.name != d.name) ++ [d]

/-- The indexes in the order they were installed in, and what is persisted: the registry,
and the durable tier of each id. -/
structure FtsEngine where
  indexes : List InstalledDef
  registry : List PersistedDef
  blobs : String → Blobs

/-- An index is shown a change. -/
def InstalledDef.observe (u : Unicode) (d : InstalledDef) (ch : RowChange) : InstalledDef :=
  if ch.table = d.table then
    match ch.key, ch.row with
    | .other, _ => d
    | .i64 pk, some (.vec values) => match textAt values d.columnOrdinal with
      | some text => { d with segment := d.segment.index pk (indexedText u d.kind text) }
      | none => d
    | .i64 _, some .map => d
    | .i64 pk, none => { d with segment := d.segment.tombstone pk }
  else d

namespace FtsEngine

def new : FtsEngine := ⟨[], [], fun _ => .empty⟩

def find (e : FtsEngine) (name : IndexName) : Option InstalledDef :=
  e.indexes.find? fun d => d.name == name

/-- The index as a query sees it. -/
def asIndexDef (u : Unicode) (e : FtsEngine) (d : InstalledDef) : IndexDef :=
  ⟨d.column, d.pkColumn, d.kind, d.body u, d.segment, some (e.blobs d.indexId)⟩

def indexesOf (u : Unicode) (e : FtsEngine) (table : String) : List IndexDef :=
  (e.indexes.filter fun d => d.table == table).map (e.asIndexDef u)

def installDef (e : FtsEngine) (d : InstalledDef) : FtsEngine :=
  let indexes := install e.indexes d
  { e with indexes := indexes, registry := indexes.map InstalledDef.toPersistedDef }

/-- The ordinal of the column is looked up once. -/
def createIndex (e : FtsEngine) (t : Table) (table column analyzer : String) (kind : IndexKind) :
    Option FtsEngine :=
  (t.ordinal column).map fun ordinal => e.installDef (PersistedDef.build
    ⟨table, column, ordinal, t.pkColumn, effectiveAnalyzer kind analyzer, kind⟩)

/-- The engine over what is persisted. -/
def reopen (e : FtsEngine) : FtsEngine :=
  { e with indexes := e.registry.foldl (fun indexes d => install indexes d.build) [] }

def onCommit (u : Unicode) (e : FtsEngine) (changes : List RowChange) : FtsEngine :=
  changes.foldl (fun e ch => { e with indexes := e.indexes.map fun d => d.observe u ch }) e

def setSegment (e : FtsEngine) (name : IndexName) (live : LiveTier) : FtsEngine :=
  { e with indexes := e.indexes.map fun d => if d.name = name then { d with segment :=
      live } else d }

def setBlobs (e : FtsEngine) (id : String) (b : Blobs) : FtsEngine :=
  { e with blobs := Function.update e.blobs id b }

/-- A seal of one index. -/
def sealIndex (u : Unicode) (e : FtsEngine) (d : InstalledDef) (outcome : SealOutcome) :
    FtsEngine :=
  let steps := d.segment.snapshotForSeal.steps (bodySchema (d.body u))
  match outcome with
  | .finished => (e.setBlobs d.indexId ((e.blobs d.indexId).play steps)).setSegment d.name .empty
  | .aborted after => e.setBlobs d.indexId ((e.blobs d.indexId).play (steps.take after))

/-- A compaction of one index. One that fails has written nothing. -/
def compactIndex (u : Unicode) (e : FtsEngine) (d : InstalledDef) : FtsEngine :=
  let b := e.blobs d.indexId
  e.setBlobs d.indexId (b.writeAll ((maybeCompact (bodySchema (d.body u)) b).getD []))

end FtsEngine

inductive TableOp
  | create (columns : List String) (pkColumn : String)
  | drop
  | dropColumn (column : String)
  | commit (changes : List (ℤ × Option (List GValue)))
  | createIndex (column analyzer : String) (kind : IndexKind)

inductive EngineOp
  | sealIndex (index : IndexName) (outcome : SealOutcome)
  | compactIndex (index : IndexName)
  | reopen

def FtsEngine.run (u : Unicode) (e : FtsEngine) : EngineOp → FtsEngine
  | .sealIndex index outcome => match e.find index with
    | some d => e.sealIndex u d outcome
    | none => e
  | .compactIndex index => match e.find index with
    | some d => e.compactIndex u d
    | none => e
  | .reopen => e.reopen

/-- A table of a name and the engine. -/
structure Site where
  table : Option Table
  engine : FtsEngine

/-- A statement that is refused has no effect. The engine hears of committed rows and of
CREATE INDEX only. -/
def Site.run (u : Unicode) (name : String) (s : Site) : TableOp → Site
  | .create columns pkColumn =>
    if s.table.isNone ∧ columns.Nodup ∧ pkColumn ∈ columns then
      { s with table := some ⟨columns, pkColumn, .empty⟩ }
    else s
  | .drop => { s with table := none }
  | .dropColumn column => { s with table := s.table.map fun t => (t.dropColumn column).getD t }
  | .commit changes => match s.table.bind fun t => t.commit changes with
    | some t => ⟨some t, s.engine.onCommit u (changes.map (rowChange name))⟩
    | none => s
  | .createIndex column analyzer kind =>
    match s.table.bind fun t => s.engine.createIndex t name column analyzer kind with
    | some e => { s with engine := e }
    | none => s

end BlueDB.Fts
