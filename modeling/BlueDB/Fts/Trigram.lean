import BlueDB.Fts.Index

/-!
# LIKE with a trigram index

A trigram index holds, for each key, the trigrams of a text. A statement with
`column LIKE '%literal%'` asks the index for the keys whose texts have all trigrams of the
literal, and gets the condition that its rows are among them.
-/

namespace BlueDB.Fts

/-- The character tables of the standard library. Lowercasing looks at a whole text. -/
structure Unicode where
  lower : List Char → List Char
  isWhitespace : Char → Bool

/-- The contiguous runs of three. -/
def windows : List Char → List (List Char)
  | a :: b :: c :: rest => [a, b, c] :: windows (b :: c :: rest)
  | _ => []

def trigramize (u : Unicode) (s : String) : String :=
  let chars := u.lower s.toList
  if chars.length < 3 then "" else String.ofList (List.intercalate [' '] (windows chars))

def isMeta (c : Char) : Bool :=
  decide (c ∈ ['&', '|', '!', '(', ')', ':', '*', '"', '+', '-', '^', '~'])

def splitWhitespace (u : Unicode) (s : List Char) : List (List Char) :=
  (s.splitOnP u.isWhitespace).filter fun token => !token.isEmpty

/-- `translate_query` of a bag of literal terms. -/
def translatePlain (u : Unicode) (query : String) : String :=
  let cleaned := query.toList.map fun c => if isMeta c then ' ' else c
  String.ofList (List.intercalate " AND ".toList ((splitWhitespace u cleaned).map u.lower))

inductive BinaryOperator
  | and
  | or
  | atAt
  | other (name : String)

/-- A plain argument of a function. -/
inductive FunctionArg
  | string (s : String)
  | placeholder (p : String)
  | column (name : String)
  | other

/-- An expression, as far as the rewrite looks into it. A column stands for its last
name. -/
inductive Expr
  | column (name : String)
  | string (s : String)
  | like (negated any : Bool) (e pattern : Expr)
  | binary (op : BinaryOperator) (left right : Expr)
  | nested (e : Expr)
  /-- Without a number for NULL. -/
  | inList (e : Expr) (list : List (Option ℤ))
  | unary (op : String) (e : Expr)
  /-- A function by its last name. -/
  | function (name : String) (args : List FunctionArg)
  | caseOf (operand : Expr) (conditions results : List ℤ) (elseResult : ℤ)
  | other (text : String)

inductive TableFactor
  | table (name : String)
  | other

structure TableWithJoins where
  relation : TableFactor
  joins : ℕ

/-- FROM and WHERE. The other clauses read the rows that the WHERE keeps. -/
structure Select where
  tables : List TableWithJoins
  selection : Option Expr

inductive Statement
  | select (s : Select)
  | other

structure LikePredicate where
  table : String
  column : String
  literal : String

def Expr.asIdentifier : Expr → Option String
  | column name => some name
  | _ => none

def Expr.asStringLiteral : Expr → Option String
  | string s => some s
  | _ => none

def findLike : Expr → Option (String × String)
  | .like false false e pattern => e.asIdentifier.bind fun column =>
      pattern.asStringLiteral.map fun p => (column, p)
  | .binary _ left right => (findLike left).or (findLike right)
  | .nested e => findLike e
  | _ => none

def stripPrefix : List Char → List Char
  | '%' :: rest => rest
  | s => s

def stripSuffix (s : List Char) : List Char := if s.getLast? = some '%' then s.dropLast else s

def cleanInfixCore (pattern : String) : Option String :=
  let core := stripSuffix (stripPrefix pattern.toList)
  if core.length < 3 then none
  else if '%' ∈ core ∨ '_' ∈ core then none
  else some (String.ofList core)

def extractLikePredicate : List Statement → Option LikePredicate
  | [.select ⟨[⟨.table table, 0⟩], some selection⟩] => (findLike selection).bind fun like =>
      (cleanInfixCore like.2).map fun literal => ⟨table, like.1, literal⟩
  | _ => none

/-- The WHERE with the condition that the key is one of the candidates. -/
def prefiltered (pkColumn : String) (candidates : List ℤ) (selection : Expr) : Expr :=
  let list := if candidates.isEmpty then [none] else candidates.map some
  .binary .and (.inList (.column pkColumn) list) (.nested selection)

def rewriteLikeQuery (stmts : List Statement) (pkColumn : String) (candidates : List ℤ) :
    Option Select :=
  match stmts with
  | .select ⟨tables, some selection⟩ :: _ =>
    some ⟨tables, some (prefiltered pkColumn candidates selection)⟩
  | _ => none

inductive IndexKind
  | fulltext
  | trigram
  deriving DecidableEq

/-- The in-memory tier, with its documents in the order of their addresses. -/
structure LiveTier where
  docs : List (ℤ × String)
  tombstones : Finset ℤ
  covered : Finset ℤ

/-- A declared index. The analyzer is that of its body, in both tiers. -/
structure IndexDef where
  column : String
  pkColumn : String
  kind : IndexKind
  analyzer : FieldKind
  segment : LiveTier
  durable : Option Blobs

inductive EngineError
  | rejected (message : String)
  | durable (e : FtsError)

structure FtsHit (Score : Type) where
  pk : ℤ
  score : Score

def unionLimit : ℕ := 100

/-- The schema of both tiers, next to the key. -/
def bodySchema (analyzer : FieldKind) : Schema := [("body", analyzer)]

def IndexDef.schema (d : IndexDef) : Schema := bodySchema d.analyzer

/-- `durable_doc` -/
def keyDoc (pk : ℤ) (body : String) : TantivyDocument := ⟨pk.repr, [(0, .str body)]⟩

def LiveTier.opened (schema : Schema) (live : LiveTier) : Opened :=
  ⟨.split 0, 0, schema, live.docs.map fun d => keyDoc d.1 d.2⟩

variable {Query Score : Type} [LinearOrder Score]

def Hit.asFtsHit (h : Hit Score) : Option (FtsHit Score) := h.id.toInt?.map (⟨·, h.score⟩)

def liveSearch (T : Tantivy Query Score) (q : Query) (limit : ℕ) (schema : Schema)
    (live : LiveTier) : List (FtsHit Score) :=
  let raw := (TopK.sortBy byScore (splitHits T q "" 0 (live.opened schema))).take
    (limit + live.tombstones.card)
  ((raw.filterMap Hit.asFtsHit).filter fun h => decide (h.pk ∉ live.tombstones)).take limit

/-- The search in the durable tier, without the keys that the live tier covers. -/
def durableHits (T : Tantivy Query Score) (q : Query) (d : IndexDef) :
    Except FtsError (List (FtsHit Score)) :=
  match d.durable with
  | none => .ok []
  | some b => (searchQueryIds T q unionLimit b).map fun hits =>
    (hits.filterMap fun h => h.1.toInt?.map (⟨·, h.2⟩)).filter fun h =>
      decide (h.pk ∉ d.segment.covered)

def unionHits (T : Tantivy Query Score) (parse : String → Except String Query) (d : IndexDef)
    (query : String) : Except EngineError (List (FtsHit Score)) :=
  match parse query with
  | .error message => .error (.rejected message)
  | .ok q => match durableHits T q d with
    | .error e => .error (.durable e)
    | .ok durable =>
      let hits := liveSearch T q unionLimit d.schema d.segment ++ durable
      .ok ((TopK.sortBy (fun h => OrderDual.toDual h.score) hits).take unionLimit)

/-- The index that a predicate is looked up in. -/
def trigramDef (indexes : String → List IndexDef) (pred : LikePredicate) : Option IndexDef :=
  (indexes pred.table).find? fun d => d.column == pred.column && d.kind == .trigram

/-- What the literal is searched as. -/
def queryText (u : Unicode) (literal : String) : String := translatePlain u (trigramize u literal)

def rewriteLike (u : Unicode) (T : Tantivy Query Score) (parse : String → Except String Query)
    (indexes : String → List IndexDef) (stmts : List Statement) :
    Except EngineError (Option Select) :=
  match extractLikePredicate stmts with
  | none => .ok none
  | some pred => match trigramDef indexes pred with
    | none => .ok none
    | some d => match unionHits T parse d (queryText u pred.literal) with
      | .error e => .error e
      | .ok merged => .ok (rewriteLikeQuery stmts d.pkColumn (merged.map FtsHit.pk))

/-- What the engine makes of a WHERE that fails on no row. -/
structure Sql (Row : Type) where
  number : String → Row → Option ℤ
  text : String → Row → Option String
  keeps : Expr → Row → Bool
  keeps_and : ∀ left right row,
    keeps (.binary .and left right) row = (keeps left row && keeps right row)
  keeps_nested : ∀ e row, keeps (.nested e) row = keeps e row
  keeps_inList : ∀ name list row, keeps (.inList (.column name) list) row = true ↔
    ∃ n, number name row = some n ∧ some n ∈ list

variable {Row : Type}

def selected (sql : Sql Row) (rows : List Row) (s : Select) : List Row :=
  match s.selection with
  | none => rows
  | some e => rows.filter (sql.keeps e)

end BlueDB.Fts
