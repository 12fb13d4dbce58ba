import BlueDB.Fts.Engine

/-!
# Text matches

A statement with `to_tsvector(config, column) @@ to_tsquery(query)` asks the full-text index
of the column for the keys of the rows that match, and gets them in the place of the
match. Ranks in its ORDER BY become the places of the keys among the hits.
-/

namespace BlueDB.Fts

structure OrderByExpr where
  expr : Expr
  asc : Option Bool

structure FtsQuery where
  body : Select
  orderBy : List OrderByExpr

inductive FtsStatement
  | query (q : FtsQuery)
  | other

/-- Without the ORDER BY. -/
def FtsStatement.plain : FtsStatement → Statement
  | query q => .select q.body
  | other => .other

inductive TsQueryKind
  | toTsQuery
  | plain
  | websearch

structure FtsPredicate where
  table : String
  column : String
  config : String
  query : String
  kind : TsQueryKind

/-- A lexeme without its weight. -/
def stripWeight (token : List Char) : List Char := token.takeWhile (· != ':')

/-- A token of a query with operators. -/
def tsQueryToken (token : List Char) : Option (List Char) :=
  if token = ['&'] then some "AND".toList
  else if token = ['|'] then some "OR".toList
  else
    let trimmed := token.dropWhile (· == '!')
    let lexeme := stripWeight trimmed
    if lexeme.isEmpty then none
    else if trimmed.length = token.length then some lexeme
    else some ('-' :: lexeme)

def websearchToken (token : List Char) : List Char :=
  if token.map Char.toLower = "or".toList then "OR".toList else token

def translateQuery (u : Unicode) (query : String) : TsQueryKind → String
  | .plain => translatePlain u query
  | .toTsQuery =>
    let spaced := query.toList.flatMap fun c => if c = '&' ∨ c = '|' then [' ', c, ' '] else [c]
    String.ofList (List.intercalate [' '] ((splitWhitespace u spaced).filterMap tsQueryToken))
  | .websearch =>
    String.ofList (List.intercalate [' '] ((splitWhitespace u query.toList).map websearchToken))

/-- The number of a placeholder, with or without a plus sign. -/
def placeholderNumber (p : String) : Option ℕ :=
  match p.toList with
  | '$' :: rest =>
    let digits := match rest with
      | '+' :: digits => digits
      | digits => digits
    if !digits.isEmpty && digits.all Char.isDigit then
      some (digits.foldl (fun n c => 10 * n + (c.toNat - '0'.toNat)) 0)
    else none
  | _ => none

def FunctionArg.asQueryText (params : List (Option String)) : FunctionArg → Option String
  | string s => some s
  | placeholder p => (placeholderNumber p).bind fun n =>
    if n = 0 then none else (params[n - 1]?).join
  | _ => none

def parseTsvector (u : Unicode) : Expr → Option (String × String)
  | .function name [.string config, .column column] =>
    if String.ofList (u.lower name.toList) = "to_tsvector" then some (config, column) else none
  | _ => none

def tsQueryKind (u : Unicode) (name : String) : Option TsQueryKind :=
  match String.ofList (u.lower name.toList) with
  | "to_tsquery" => some .toTsQuery
  | "plainto_tsquery" => some .plain
  | "websearch_to_tsquery" => some .websearch
  | _ => none

def parseTsquery (u : Unicode) (params : List (Option String)) :
    Expr → Option (TsQueryKind × String)
  | .function name [arg] => (tsQueryKind u name).bind fun kind =>
    (arg.asQueryText params).map fun query => (kind, query)
  | _ => none

/-- The first `@@`, with its sides. -/
def findAtAt : Expr → Option (Expr × Expr)
  | .binary .atAt left right => some (left, right)
  | .binary _ left right => (findAtAt left).or (findAtAt right)
  | .nested e => findAtAt e
  | _ => none

def unsupported (what : String) : EngineError := .rejected ("unsupported FTS query shape: " ++ what)

/-- A statement that cannot be searched is refused when it has `@@`. -/
def extractFtsPredicate (u : Unicode) (params : List (Option String)) :
    List FtsStatement → Except EngineError (Option FtsPredicate)
  | [.other] => .ok none
  | [.query q] => match q.body.selection.bind findAtAt with
    | none => .ok none
    | some (left, right) => match q.body.tables with
      | [⟨relation, joins⟩] =>
        if joins ≠ 0 then .error (unsupported "JOINs not supported with @@")
        else match relation with
          | .other => .error (unsupported "FROM must be a plain table")
          | .table table => match parseTsvector u left, parseTsquery u params right with
            | none, _ => .error (unsupported "@@ LHS must be to_tsvector(config, col)")
            | some _, none => .error (unsupported
              "@@ RHS must be to_tsquery/plainto_tsquery/websearch_to_tsquery(q)")
            | some (config, column), some (kind, query) =>
              .ok (some ⟨table, column, config, query, kind⟩)
      | tables => .error (unsupported
        ("expected exactly 1 FROM table, got " ++ toString tables.length))
  | stmts => .error (.rejected ("expected exactly 1 statement, got " ++ toString stmts.length))

/-- The expression with another one for its first `@@`, if it has one. -/
def replaceAtAt (replacement : Expr) : Expr → Option Expr
  | .binary .atAt _ _ => some replacement
  | .binary op left right => match replaceAtAt replacement left with
    | some left' => some (.binary op left' right)
    | none => (replaceAtAt replacement right).map fun right' => .binary op left right'
  | .nested e => (replaceAtAt replacement e).map .nested
  | _ => none

def isTsRank (u : Unicode) : Expr → Bool
  | .function name _ => String.ofList (u.lower name.toList) == "ts_rank"
  | _ => false

def rankByPlace (u : Unicode) (pkColumn : String) (hits : List ℤ) (o : OrderByExpr) :
    OrderByExpr :=
  if isTsRank u o.expr then
    ⟨.caseOf (.column pkColumn) hits ((List.range hits.length).map Int.ofNat) hits.length,
      some true⟩
  else o

def rewriteFtsQuery (u : Unicode) (q : FtsQuery) (pkColumn : String) (hits : List ℤ) : FtsQuery :=
  let list := if hits.isEmpty then [none] else hits.map some
  let replacement := Expr.inList (.column pkColumn) list
  ⟨⟨q.body.tables, q.body.selection.map fun e => (replaceAtAt replacement e).getD e⟩,
    q.orderBy.map (rankByPlace u pkColumn hits)⟩

variable {Query Score : Type} [LinearOrder Score]

/-- The index of a column that answers `@@`. -/
def fulltextDef (indexes : String → List IndexDef) (pred : FtsPredicate) : Option IndexDef :=
  (indexes pred.table).find? fun d => d.column == pred.column && d.kind == .fulltext

/-- The rewrite of `@@`. The parser takes the words of a query apart as the analyzer of the
index does. -/
def rewriteAtAt (u : Unicode) (T : Tantivy Query Score)
    (parse : FieldKind → String → Except String Query) (indexes : String → List IndexDef)
    (params : List (Option String)) (stmts : List FtsStatement) :
    Except EngineError (Option FtsQuery) :=
  match extractFtsPredicate u params stmts with
  | .error e => .error e
  | .ok none => .ok none
  | .ok (some pred) => match fulltextDef indexes pred with
    | none => .error (.rejected ("no fulltext index on " ++ pred.table ++ "." ++ pred.column))
    | some d => match unionHits T (parse d.analyzer) d (translateQuery u pred.query pred.kind) with
      | .error e => .error e
      | .ok merged => .ok (match stmts with
        | .query q :: _ => some (rewriteFtsQuery u q d.pkColumn (merged.map FtsHit.pk))
        | _ => none)

/-- The rewrite of LIKE leaves the ORDER BY alone. -/
def reorder (stmts : List FtsStatement) (s : Select) : FtsQuery :=
  match stmts with
  | .query q :: _ => ⟨s, q.orderBy⟩
  | _ => ⟨s, []⟩

/-- A statement with `@@`, or else one with a LIKE. -/
def rewriteFor (u : Unicode) (T : Tantivy Query Score)
    (parse : FieldKind → String → Except String Query) (indexes : String → List IndexDef)
    (params : List (Option String)) (stmts : List FtsStatement) :
    Except EngineError (Option FtsQuery) :=
  match rewriteAtAt u T parse indexes params stmts with
  | .error e => .error e
  | .ok (some q) => .ok (some q)
  | .ok none =>
    (rewriteLike u T (parse (.text .whitespace)) indexes (stmts.map FtsStatement.plain)).map
      (Option.map (reorder stmts))

/-- The tables of a FROM clause. -/
def FtsStatement.tableNames : FtsStatement → List String
  | query q => q.body.tables.filterMap fun t => match t.relation with
    | .table name => some name
    | .other => none
  | other => []

def mentioned (stmts : List FtsStatement) : List String := stmts.flatMap FtsStatement.tableNames

theorem mem_mentioned {q : FtsQuery} {table : String} {joins : ℕ}
    (h : q.body.tables = [⟨.table table, joins⟩]) : table ∈ mentioned [.query q] := by
  unfold mentioned
  rw [List.flatMap_singleton]
  unfold FtsStatement.tableNames
  dsimp only
  rw [h]
  exact List.mem_singleton_self table

theorem extractFtsPredicate_table {u : Unicode} {params : List (Option String)}
    {stmts : List FtsStatement} {pred : FtsPredicate}
    (h : extractFtsPredicate u params stmts = .ok (some pred)) : pred.table ∈ mentioned stmts := by
  unfold extractFtsPredicate at h
  split at h
  · cases h
  · split at h
    · cases h
    · split at h
      · rename_i htables
        split_ifs at h
        split at h
        · cases h
        · split at h
          · cases h
          · cases h
          · obtain rfl := Option.some.inj (Except.ok.inj h)
            exact mem_mentioned htables
      · cases h
  · cases h

theorem extractLikePredicate_table {stmts : List FtsStatement} {pred : LikePredicate}
    (h : extractLikePredicate (stmts.map FtsStatement.plain) = some pred) :
    pred.table ∈ mentioned stmts := by
  unfold extractLikePredicate at h
  split at h
  · rename_i hstmts
    obtain ⟨stmt, rest, rfl, hstmt, hrest⟩ := List.map_eq_cons_iff.mp hstmts
    obtain rfl := List.map_eq_nil_iff.mp hrest
    obtain ⟨like, -, hpred⟩ := Option.bind_eq_some_iff.mp h
    obtain ⟨literal, -, rfl⟩ := Option.map_eq_some_iff.mp hpred
    cases stmt with
    | query q =>
      have hbody := Statement.select.inj hstmt
      exact mem_mentioned (congrArg Select.tables hbody)
    | other => cases hstmt
  · cases h

theorem rewriteFor_congr {u : Unicode} {T : Tantivy Query Score}
    {parse : FieldKind → String → Except String Query} {indexes indexes' : String → List IndexDef}
    {params : List (Option String)} {stmts : List FtsStatement}
    (h : ∀ table ∈ mentioned stmts, indexes table = indexes' table) :
    rewriteFor u T parse indexes params stmts = rewriteFor u T parse indexes' params stmts := by
  have hatAt : rewriteAtAt u T parse indexes params stmts =
      rewriteAtAt u T parse indexes' params stmts := by
    unfold rewriteAtAt fulltextDef
    cases hextract : extractFtsPredicate u params stmts with
    | error e => rfl
    | ok pred => cases pred with
      | none => rfl
      | some pred =>
        dsimp only
        rw [h _ (extractFtsPredicate_table hextract)]
  have hlike : rewriteLike u T (parse (.text .whitespace)) indexes (stmts.map FtsStatement.plain) =
      rewriteLike u T (parse (.text .whitespace)) indexes' (stmts.map FtsStatement.plain) := by
    unfold rewriteLike trigramDef
    cases hextract : extractLikePredicate (stmts.map FtsStatement.plain) with
    | none => rfl
    | some pred =>
      dsimp only
      rw [h _ (extractLikePredicate_table hextract)]
  unfold rewriteFor
  rw [hatAt, hlike]

end BlueDB.Fts
