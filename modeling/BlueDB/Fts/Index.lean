import BlueDB.Lib.Generations
import BlueDB.Lib.OrderedMap
import BlueDB.Lib.TopK
import Mathlib.Data.String.Basic

/-!
# Full-text indexes

An index is a manifest of immutable splits, and tombstones for deleted ids. A split has
the generation it was written in, and a tombstone hides the documents of its id in the
splits up to its generation. All three are blobs, which every operation reads anew.
-/

namespace BlueDB.Fts

instance lawfulBEqChars : LawfulBEq (List Char) := inferInstance

instance lawfulBEqNumber : LawfulBEq (Option ℤ) := inferInstance

inductive TextAnalyzer
  | english
  | standard
  | whitespace
  deriving DecidableEq

inductive FieldKind
  | text (analyzer : TextAnalyzer)
  | keyword
  | integer
  deriving DecidableEq

/-- The fields next to the id field. A field is known by its place. -/
abbrev Schema := List (String × FieldKind)

inductive FieldValue
  | str (s : String)
  | i64 (n : ℤ)
  deriving DecidableEq

structure TantivyDocument where
  id : String
  values : List (ℕ × FieldValue)
  deriving DecidableEq

def FieldKind.takes : FieldKind → FieldValue → Bool
  | .integer, .i64 _ => true
  | .integer, .str _ => false
  | _, .str _ => true
  | _, .i64 _ => false

def wellTyped (schema : Schema) (d : TantivyDocument) : Bool :=
  d.values.all fun v => match schema[v.1]? with
    | some field => field.2.takes v.2
    | none => false

/-- The values of the fields of the schema, in the order of the fields. -/
def reproject (schema : Schema) (d : TantivyDocument) : TantivyDocument :=
  { d with values := (List.range schema.length).flatMap fun i => d.values.filter (·.1 == i) }

/-- The number that a document is sorted by. -/
def fastValue (schema : Schema) (name : String) (d : TantivyDocument) : Option ℤ :=
  (schema.findIdx? (·.1 == name)).bind fun i =>
    (d.values.find? (·.1 == i)).bind fun v => match v.2 with
      | .i64 n => some n
      | .str _ => none

structure Split where
  schema : Schema
  docs : List TantivyDocument

/-- What the search library decides. The score of a document depends on its whole split. -/
structure Tantivy (Query Score : Type) where
  isMatch : Query → Schema → TantivyDocument → Bool
  score : Query → Split → ℕ → Score
  /-- The score that goes with a sorted document. -/
  noScore : Score
  /-- The collector puts documents without the number first when it sorts ascending. -/
  missingFirst : Bool

/-- `split-000007` or `compacted-000007` -/
inductive SplitId
  | split (n : ℕ)
  | compacted (generation : ℕ)
  deriving DecidableEq

def SplitId.next : SplitId → Option ℕ
  | .split n => some (n + 1)
  | .compacted _ => none

structure SplitMeta where
  splitId : SplitId
  numDocs : ℕ
  generation : ℕ

abbrev Manifest := List SplitMeta

/-- An absent manifest is an empty one, and absent tombstones are none. -/
structure Blobs where
  manifest : Manifest
  tombstones : OrderedMap String ℕ
  splits : SplitId → Option Split

def Blobs.empty : Blobs := ⟨[], .empty, fun _ => none⟩

inductive Write
  | putSplit (id : SplitId) (split : Split)
  | putManifest (manifest : Manifest)
  | putTombstones (tombstones : OrderedMap String ℕ)
  | deleteSplit (id : SplitId)

def Blobs.write (b : Blobs) : Write → Blobs
  | .putSplit id split => { b with splits := Function.update b.splits id (some split) }
  | .putManifest manifest => { b with manifest := manifest }
  | .putTombstones tombstones => { b with tombstones := tombstones }
  | .deleteSplit id => { b with splits := Function.update b.splits id none }

def Blobs.writeAll (b : Blobs) (writes : List Write) : Blobs := writes.foldl Blobs.write b

def maxGeneration (m : Manifest) : ℕ := Generations.maxOf (m.map SplitMeta.generation)

/-- One more than the highest number in use. -/
def mintSplitId (m : Manifest) : SplitId :=
  .split (Generations.maxOf (m.filterMap fun s => s.splitId.next))

def deleteDocAt (tombstones : OrderedMap String ℕ) (id : String) (generation : ℕ) :
    OrderedMap String ℕ :=
  tombstones.insert id (match tombstones.get id with
    | some cur => max cur generation
    | none => generation)

def deleteDocsAt (tombstones : OrderedMap String ℕ) (ids : List String) (generation : ℕ) :
    OrderedMap String ℕ := ids.foldl (fun t id => deleteDocAt t id generation) tombstones

def isDeletedAt (tombstones : OrderedMap String ℕ) (id : String) (generation : ℕ) : Bool :=
  Generations.hidden tombstones.get generation id

def append (schema : Schema) (docs : List TantivyDocument) (b : Blobs) : List Write :=
  let id := mintSplitId b.manifest
  [.putSplit id ⟨schema, docs⟩,
    .putManifest (b.manifest ++ [⟨id, docs.length, maxGeneration b.manifest + 1⟩])]

def update (schema : Schema) (ids : List String) (docs : List TantivyDocument) (b : Blobs) :
    List Write :=
  append schema docs b ++
    [.putTombstones (deleteDocsAt b.tombstones ids (maxGeneration b.manifest))]

def delete (ids : List String) (b : Blobs) : List Write :=
  [.putTombstones (deleteDocsAt b.tombstones ids (maxGeneration b.manifest))]

structure Opened where
  splitId : SplitId
  generation : ℕ
  split : Split

def openSplit (b : Blobs) (m : SplitMeta) : Option Opened :=
  (b.splits m.splitId).map fun split => ⟨m.splitId, m.generation, split⟩

def openSplits (b : Blobs) (m : Manifest) : Option (List Opened) := m.mapM (openSplit b)

def numDocs (m : Manifest) : ℕ := (m.map SplitMeta.numDocs).sum

/-- There are more than eight splits, or more than 30 tombstones for 100 documents. -/
def shouldCompact (m : Manifest) (tombstones : OrderedMap String ℕ) : Bool :=
  decide (2 ≤ m.length) &&
    (decide (8 < m.length) || decide (3 * numDocs m < 10 * tombstones.entries.length))

def planCompaction (m : Manifest) : List SplitId := m.map SplitMeta.splitId

/-- Makes one split of the live documents of the opened ones. -/
def compact (schema : Schema) (opened : List Opened) (b : Blobs) : Option (List Write) :=
  let inputs := opened.map Opened.splitId
  let deleted (o : Opened) (d : TantivyDocument) := isDeletedAt b.tombstones d.id o.generation
  let kept := opened.flatMap fun o => o.split.docs.filter fun d => !deleted o d
  let dropped := opened.flatMap fun o => o.split.docs.filter fun d => deleted o d
  let docs := kept.map (reproject schema)
  if docs.all (wellTyped schema) then
    let generation := maxGeneration b.manifest + 1
    let id := SplitId.compacted generation
    let rest := b.manifest.filter fun m => decide (m.splitId ∉ inputs)
    -- a tombstone of an id with a copy that was kept stays
    let gone := (dropped.map (·.id)).filter fun id => decide (id ∉ kept.map (·.id))
    let tombstones := if rest.isEmpty then gone.foldl OrderedMap.erase b.tombstones
      else b.tombstones
    some ([.putSplit id ⟨schema, docs⟩, .putManifest (rest ++ [⟨id, docs.length, generation⟩]),
      .putTombstones tombstones] ++
      (b.manifest.filter fun m => decide (m.splitId ∈ inputs)).map fun m => .deleteSplit m.splitId)
  else none

def maybeCompact (schema : Schema) (b : Blobs) : Option (List Write) :=
  if shouldCompact b.manifest b.tombstones then
    let plan := planCompaction b.manifest
    (openSplits b (b.manifest.filter fun m => decide (m.splitId ∈ plan))).bind fun opened =>
      compact schema opened b
  else some []

inductive FtsError
  | missingSplit
  /-- The collector takes no limit of zero. -/
  | zeroLimit
  deriving DecidableEq

structure Hit (Score : Type) where
  score : Score
  splitOrd : ℕ
  address : ℕ
  id : String
  generation : ℕ
  value : Option ℤ
  deriving DecidableEq

variable {Query Score : Type} [LinearOrder Score]

/-- The matches of a split, with the number of a field. -/
def splitHits (T : Tantivy Query Score) (q : Query) (name : String) (ord : ℕ) (o : Opened) :
    List (Hit Score) :=
  (o.split.docs.zipIdx.filter fun d => T.isMatch q o.split.schema d.1).map fun d =>
    ⟨T.score q o.split d.2, ord, d.2, d.1.id, o.generation,
      fastValue o.split.schema name d.1⟩

/-- Where a hit is. -/
def Hit.place (h : Hit Score) : ℕ ×ₗ ℕ := toLex (h.splitOrd, h.address)

/-- By falling score. -/
def byScore (h : Hit Score) : Scoreᵒᵈ ×ₗ (ℕ ×ₗ ℕ) := toLex (OrderDual.toDual h.score, h.place)

/-- The place of a number among the others, with what stands for no number. -/
def numberRank (descending : Bool) (missing : ℤ) : Option ℤ → ℤ ×ₗ ℤ
  | some n => toLex (0, if descending then -n else n)
  | none => toLex (missing, 0)

def byNumber (descending : Bool) (missing : ℤ) (h : Hit Score) : (ℤ ×ₗ ℤ) ×ₗ (ℕ ×ₗ ℕ) :=
  toLex (numberRank descending missing h.value, h.place)

/-- The order of the collector of a split. -/
def collected (T : Tantivy Query Score) (descending : Bool) (h : Hit Score) :
    (ℤ ×ₗ ℤ) ×ₗ (ℕ ×ₗ ℕ) :=
  byNumber descending (if T.missingFirst && !descending then -1 else 1) h

def live (tombstones : OrderedMap String ℕ) (h : Hit Score) : Bool :=
  !isDeletedAt tombstones h.id h.generation

def bestById (wins : Hit Score → Hit Score → Bool) (all : List (Hit Score × ℕ)) :
    OrderedMap String (Hit Score × ℕ) :=
  all.foldl (fun best c => match best.get c.1.id with
    | some cur => if wins c.1 cur.1 then best.insert c.1.id c else best
    | none => best.insert c.1.id c) .empty

def dedup (wins : Hit Score → Hit Score → Bool) (all : List (Hit Score)) : List (Hit Score) :=
  (all.zipIdx.filter fun c =>
    decide (((bestById wins all.zipIdx).get c.1.id).map Prod.snd = some c.2)).map Prod.fst

def candidates {κ : Type} [LinearOrder κ] (T : Tantivy Query Score) (collector : Hit Score → κ)
    (q : Query) (name : String) (limit : ℕ) (tombstones : OrderedMap String ℕ)
    (opened : List Opened) : List (Hit Score) :=
  opened.zipIdx.flatMap fun o =>
    ((TopK.sortBy collector (splitHits T q name o.2 o.1)).take limit).filter (live tombstones)

def newerCopy (c cur : Hit Score) : Bool :=
  decide (cur.generation < c.generation) ||
    (c.generation == cur.generation && (decide (cur.splitOrd < c.splitOrd) ||
      (c.splitOrd == cur.splitOrd && decide (cur.score < c.score))))

def searchBy {κ κ' : Type} [LinearOrder κ] [LinearOrder κ'] (T : Tantivy Query Score)
    (collector : Hit Score → κ) (rank : Hit Score → κ') (wins : Hit Score → Hit Score → Bool)
    (q : Query) (name : String) (limit : ℕ) (b : Blobs) : Except FtsError (List (Hit Score)) :=
  match openSplits b b.manifest with
  | none => .error .missingSplit
  | some opened =>
    let perSplit := limit + b.tombstones.entries.length
    if perSplit = 0 ∧ opened ≠ [] then .error .zeroLimit
    else
      let all := candidates T collector q name perSplit b.tombstones opened
      .ok ((TopK.sortBy rank (dedup wins all)).take limit)

def searchQueryIds (T : Tantivy Query Score) (q : Query) (limit : ℕ) (b : Blobs) :
    Except FtsError (List (String × Score)) :=
  (searchBy T byScore byScore newerCopy q "" limit b).map fun hits =>
    hits.map fun h => (h.id, h.score)

def countCap : ℕ := 100000

end BlueDB.Fts
