import BlueDB.Fts.Match
import BlueDB.Fts.Words

/-!
# Queries with operators

An expression is a sequence of literals with `&` and `|` between them. The translation reads
one token for each lexeme, and of the marks before it only the one that it stands right after.
-/

namespace BlueDB.Fts

variable {u : Unicode}

inductive TsOp
  | and
  | or

/-- Literals that `and` binds tighter than `or`. -/
def clausesOf {α : Type} (first : α) : List (TsOp × α) → List (List α)
  | [] => [[first]]
  | (.or, a) :: rest => [first] :: clausesOf a rest
  | (.and, a) :: rest => match clausesOf a rest with
    | clause :: clauses => (first :: clause) :: clauses
    | [] => [[first]]

/-- Some clause has all of its literals. -/
def denotes {α : Type} (holds : α → Bool) (clauses : List (List α)) : Bool :=
  clauses.any fun clause => clause.all holds

theorem clausesOf_map {α β : Type} (f : α → β) (first : α) (rest : List (TsOp × α)) :
    clausesOf (f first) (rest.map (Prod.map id f)) = (clausesOf first rest).map (List.map f) := by
  induction rest generalizing first with
  | nil => rfl
  | cons x rest ih =>
    obtain ⟨op, a⟩ := x
    cases op with
    | or => simp [clausesOf, ih]
    | and =>
      simp only [List.map_cons, Prod.map_apply, id_eq, clausesOf, ih]
      cases clausesOf a rest <;> rfl

theorem clausesOf_flatten {α : Type} (first : α) (rest : List (TsOp × α)) :
    (clausesOf first rest).flatten = first :: rest.map Prod.snd ∧
      [] ∉ clausesOf first rest := by
  induction rest generalizing first with
  | nil => simp [clausesOf]
  | cons x rest ih =>
    obtain ⟨op, a⟩ := x
    obtain ⟨hflatten, hnil⟩ := ih a
    cases op with
    | or => simp [clausesOf, hflatten, hnil]
    | and =>
      cases hclauses : clausesOf a rest with
      | nil => simp [hclauses] at hflatten
      | cons clause clauses =>
        rw [hclauses] at hflatten hnil
        simp_all [clausesOf]

/-- A lexeme with the marks before it, each with the white space after it. -/
structure TsLiteral where
  before : List Char
  marks : List (List Char)
  lexeme : List Char
  weight : Option (List Char)
  after : List Char

namespace TsLiteral

def core (l : TsLiteral) : List Char :=
  l.lexeme ++ match l.weight with
    | some weight => ':' :: weight
    | none => []

def text (l : TsLiteral) : List Char :=
  l.before ++ (l.marks.flatMap (fun sp => '!' :: sp) ++ l.core) ++ l.after

/-- Two marks cancel each other. -/
def negated (l : TsLiteral) : Bool := l.marks.length % 2 == 1

/-- A mark stands right before the lexeme. -/
def attached (l : TsLiteral) : Bool := l.marks.getLast? == some []

/-- A lexeme has no white space and none of the characters that queries give a meaning. -/
structure Plain (u : Unicode) (l : TsLiteral) : Prop where
  spaces : ∀ c ∈ l.before ++ l.marks.flatten ++ l.after, u.isWhitespace c = true
  nonempty : l.lexeme ≠ []
  lexeme : ∀ c ∈ l.lexeme, u.isWhitespace c = false ∧ isMeta c = false
  weight : ∀ weight, l.weight = some weight → ∀ c ∈ weight, c ∈ "*ABCDabcd".toList

end TsLiteral

def TsOp.char : TsOp → Char
  | .and => '&'
  | .or => '|'

def renderTsQuery (first : TsLiteral) (rest : List (TsOp × TsLiteral)) : String :=
  String.ofList (first.text ++ rest.flatMap fun x => x.1.char :: x.2.text)

/-- The terms of a document decide an expression. -/
def tsMatches (has : List Char → Bool) (first : TsLiteral) (rest : List (TsOp × TsLiteral)) :
    Bool :=
  denotes (fun l => l.negated ^^ has l.lexeme) (clausesOf first rest)

/-- A word, with a minus before it if it is negated. -/
def readLiteral (token : List Char) : Option (Bool × List Char) :=
  let literal := match token with
    | '-' :: word => (true, word)
    | word => (false, word)
  if literal.2 ∈ reserved then none else some literal

def TsOp.word : TsOp → List Char
  | .and => "AND".toList
  | .or => "OR".toList

def readRest : List (List Char) → Option (List (TsOp × (Bool × List Char)))
  | [] => some []
  | [_] => none
  | op :: token :: rest =>
    (if op = TsOp.and.word then some TsOp.and else if op =
      TsOp.or.word then some .or else none).bind
      fun op => (readLiteral token).bind fun l => (readRest rest).map fun ls => (op, l) :: ls

def readQuery (u : Unicode) (query : String) : Option (List (List (Bool × List Char))) :=
  match splitWhitespace u query.toList with
  | [] => none
  | token :: rest => (readLiteral token).bind fun l => (readRest rest).map (clausesOf l)

def queryMatches (has : List Char → Bool) (clauses : List (List (Bool × List Char))) : Bool :=
  denotes (fun l => l.1 ^^ has l.2) clauses

/-- A text with its operators set apart. -/
def spaced (s : List Char) : List Char :=
  s.flatMap fun c => if c = '&' ∨ c = '|' then [' ', c, ' '] else [c]

def tsTokens (u : Unicode) (s : List Char) : List (List Char) :=
  (splitWhitespace u (spaced s)).filterMap tsQueryToken

theorem spaced_op (op : TsOp) (s s' : List Char) :
    spaced (s ++ op.char :: s') = spaced s ++ ' ' :: ([op.char] ++ ' ' :: spaced s') := by
  cases op <;> simp [spaced, TsOp.char]

theorem spaced_eq {s : List Char} (h : ∀ c ∈ s, c ≠ '&' ∧ c ≠ '|') : spaced s = s := by
  induction s with
  | nil => rfl
  | cons c s ih =>
    have hrest := ih fun c hc => h c (List.mem_cons_of_mem _ hc)
    have hc := h c List.mem_cons_self
    unfold spaced at hrest ⊢
    rw [List.flatMap_cons, hrest, if_neg (by tauto)]
    rfl

theorem tsTokens_op (hu : u.Documented) (op : TsOp) (s s' : List Char) :
    tsTokens u (s ++ op.char :: s') = tsTokens u s ++ op.word :: tsTokens u s' := by
  have hvisible : ∀ c ∈ [op.char], u.isWhitespace c = false := by
    intro c hc
    obtain rfl := List.mem_singleton.mp hc
    cases op <;> exact hu.visible _ (by decide) (by decide)
  have hword : tsQueryToken [op.char] = some op.word := by cases op <;> decide
  unfold tsTokens
  rw [spaced_op, splitWhitespace_append hu.space, splitWhitespace_append hu.space,
    splitWhitespace_word (by simp) hvisible]
  simp [hword]

namespace TsLiteral

variable {l : TsLiteral}

/-- The word that the translation makes of a literal. -/
def word (l : TsLiteral) : List Char := if l.attached then '-' :: l.lexeme else l.lexeme

theorem tsQueryToken_core (h : l.Plain u) (k : ℕ) :
    tsQueryToken (List.replicate k '!' ++ l.core) =
      some (if k = 0 then l.lexeme else '-' :: l.lexeme) := by
  have hmeta : ∀ c ∈ l.lexeme, c ≠ '!' ∧ c ≠ ':' ∧ c ≠ '&' ∧ c ≠ '|' := by
    intro c hc
    have hplain := (h.lexeme c hc).2
    refine ⟨?_, ?_, ?_, ?_⟩ <;> rintro rfl <;> exact absurd hplain (by decide)
  have hstrip : stripWeight l.core = l.lexeme := by
    unfold stripWeight core
    rw [List.takeWhile_append_of_pos fun c hc => by simpa using (hmeta c hc).2.1]
    cases l.weight <;> simp
  obtain ⟨c, cs, hlexeme⟩ := List.exists_cons_of_ne_nil h.nonempty
  have hc := hmeta c (by simp [hlexeme])
  have htrim : (List.replicate k '!' ++ l.core).dropWhile (· == '!') = l.core := by
    rw [List.dropWhile_append_of_pos fun c hc => by simpa using (List.mem_replicate.mp hc).2]
    simp [core, hlexeme, hc.1]
  have hop : ∀ o, c ≠ o → o ≠ '!' → List.replicate k '!' ++ l.core ≠ [o] := by
    intro o hne hmark heq
    cases k <;> simp_all [core, List.replicate_succ]
  have hlength : l.core.length = (List.replicate k '!' ++ l.core).length ↔ k = 0 := by
    simp
  unfold tsQueryToken
  rw [if_neg (hop _ hc.2.2.1 (by decide)), if_neg (hop _ hc.2.2.2 (by decide)), htrim]
  simp only [hstrip, List.isEmpty_iff, h.nonempty, if_false, hlength]
  split <;> rfl

theorem core_visible (hu : u.Documented) (h : l.Plain u) :
    ∀ c ∈ l.core, u.isWhitespace c = false ∧ c ≠ '&' ∧ c ≠ '|' := by
  intro c hc
  rcases List.mem_append.mp hc with hc | hc
  · obtain ⟨hspace, hmeta⟩ := h.lexeme c hc
    refine ⟨hspace, ?_, ?_⟩ <;> rintro rfl <;> exact absurd hmeta (by decide)
  · cases hweight : l.weight with
    | none => simp [hweight] at hc
    | some weight =>
      have hmem : c ∈ ":*ABCDabcd".toList := by
        rw [hweight] at hc
        rcases List.mem_cons.mp hc with rfl | hc
        · decide
        · exact List.mem_cons_of_mem _ (h.weight weight hweight c hc)
      have hall : ∀ c ∈ ":*ABCDabcd".toList, '!' ≤ c ∧ c ≤ '~' ∧ c ≠ '&' ∧ c ≠ '|' := by simp
      obtain ⟨hlow, hhigh, hand, hor⟩ := hall c hmem
      exact ⟨hu.visible c hlow hhigh, hand, hor⟩

/-- Of the marks only the last one makes a difference, and only when nothing follows it. -/
theorem tokens_marks (hu : u.Documented) (h : l.Plain u) {marks : List (List Char)}
    (hmarks : ∀ sp ∈ marks, ∀ c ∈ sp, u.isWhitespace c = true) (k : ℕ) :
    (splitWhitespace u (List.replicate k '!' ++ (marks.flatMap (fun sp => '!' :: sp) ++
      l.core))).filterMap tsQueryToken =
      [if marks = [] ∧ k ≠ 0 ∨ marks.getLast? = some [] then '-' :: l.lexeme else l.lexeme] := by
  have hmark : ∀ c ∈ List.replicate (k + 1) '!', u.isWhitespace c = false := by
    intro c hc
    rw [(List.mem_replicate.mp hc).2]
    exact hu.visible '!' (by decide) (by decide)
  induction marks generalizing k with
  | nil =>
    have hword : splitWhitespace u (List.replicate k '!' ++ l.core) =
        [List.replicate k '!' ++ l.core] := by
      apply splitWhitespace_word
      · simp [core, h.nonempty]
      · intro c hc
        rcases List.mem_append.mp hc with hc | hc
        · exact hmark c (List.replicate_succ ▸ List.mem_cons_of_mem _ hc)
        · exact (core_visible hu h c hc).1
    rw [List.flatMap_nil, List.nil_append, hword, List.filterMap_cons, tsQueryToken_core h]
    by_cases hk : k = 0 <;> simp [hk]
  | cons sp marks ih =>
    have hrest := fun sp' hsp => hmarks sp' (List.mem_cons_of_mem sp hsp)
    have hglue : List.replicate k '!' ++ ((sp :: marks).flatMap (fun sp => '!' :: sp) ++ l.core) =
        List.replicate (k + 1) '!' ++ (sp ++ (marks.flatMap (fun sp => '!' :: sp) ++ l.core)) := by
      simp [List.replicate_succ']
    rw [hglue]
    cases sp with
    | nil =>
      rw [List.nil_append, ih hrest (k + 1) _]
      · cases marks <;> simp
      · intro c hc
        rw [(List.mem_replicate.mp hc).2]
        exact hmark '!' (by simp)
    | cons c sp =>
      -- the marks up to here are a token of their own, without a lexeme
      have hc := hmarks _ List.mem_cons_self
      have hdropped : tsQueryToken (List.replicate (k + 1) '!') = none := by
        have htrim : (List.replicate (k + 1) '!').dropWhile (· == '!') = [] := by
          simp
        unfold tsQueryToken
        rw [htrim]
        simp [List.replicate_succ, stripWeight]
      rw [List.cons_append, splitWhitespace_append (hc c List.mem_cons_self),
        splitWhitespace_word (by simp) hmark,
        splitWhitespace_before fun c' hc' => hc c' (List.mem_cons_of_mem _ hc')]
      have hlast := ih hrest 0 (by simpa using hmark '!' (by simp))
      rw [List.replicate_zero, List.nil_append] at hlast
      rw [List.filterMap_append, hlast]
      cases marks <;> simp [hdropped]

theorem tsTokens_text (hu : u.Documented) (h : l.Plain u) : tsTokens u l.text = [l.word] := by
  have hspaces : ∀ c, u.isWhitespace c = true → c ≠ '&' ∧ c ≠ '|' := by
    intro c hc
    constructor
    · rintro rfl
      exact absurd hc (by rw [hu.visible '&' (by decide) (by decide)]; decide)
    · rintro rfl
      exact absurd hc (by rw [hu.visible '|' (by decide) (by decide)]; decide)
  have hmarks : ∀ sp ∈ l.marks, ∀ c ∈ sp, u.isWhitespace c = true := by
    intro sp hsp c hc
    apply h.spaces c
    simp only [List.mem_append, List.mem_flatten]
    exact .inl (.inr ⟨sp, hsp, hc⟩)
  have hspaced : spaced l.text = l.text := by
    apply spaced_eq
    intro c hc
    simp only [text, List.mem_append, List.mem_flatMap, List.mem_cons] at hc
    rcases hc with (hc | ⟨sp, hsp, rfl | hc⟩ | hc) | hc
    · exact hspaces c (h.spaces c (by simp [hc]))
    · decide
    · exact hspaces c (hmarks sp hsp c hc)
    · exact (core_visible hu h c hc).2
    · exact hspaces c (h.spaces c (by simp [hc]))
  have htokens := tokens_marks hu h hmarks 0
  unfold tsTokens
  rw [hspaced, text, splitWhitespace_after fun c hc => h.spaces c (by simp [hc]),
    splitWhitespace_before fun c hc => h.spaces c (by simp [hc])]
  simpa [word, attached] using htokens

theorem word_visible (hu : u.Documented) (h : l.Plain u) :
    l.word ≠ [] ∧ ∀ c ∈ l.word, u.isWhitespace c = false := by
  have hlexeme := fun c hc => (h.lexeme c hc).1
  unfold word
  split
  · exact ⟨by simp, List.forall_mem_cons.mpr ⟨hu.visible '-' (by decide) (by decide), hlexeme⟩⟩
  · exact ⟨h.nonempty, hlexeme⟩

theorem readLiteral_word (h : l.Plain u) : readLiteral l.word =
    if l.lexeme ∈ reserved then none else some (l.attached, l.lexeme) := by
  obtain ⟨c, cs, hlexeme⟩ := List.exists_cons_of_ne_nil h.nonempty
  have hc : c ≠ '-' := by
    rintro rfl
    exact absurd (h.lexeme '-' (by simp [hlexeme])).2 (by decide)
  unfold readLiteral word
  cases l.attached <;> simp [hlexeme, hc]

end TsLiteral

section Read

variable {α : Type} {word : α → List Char} {read : α → Bool × List Char} {first : α}
  {rest : List (TsOp × α)}

/-- Words with operators between them. -/
def tokensOf (word : α → List Char) (first : α) (rest : List (TsOp × α)) : List (List Char) :=
  word first :: rest.flatMap fun x => [x.1.word, word x.2]

theorem readRest_some (h : ∀ x ∈ rest, readLiteral (word x.2) = some (read x.2)) :
    readRest (rest.flatMap fun x => [x.1.word, word x.2]) = some (rest.map (Prod.map id read)) := by
  induction rest with
  | nil => rfl
  | cons x rest ih =>
    have hrest := ih fun x hx => h x (List.mem_cons_of_mem _ hx)
    rw [List.flatMap_cons, List.cons_append, List.singleton_append, readRest,
      h x List.mem_cons_self, hrest]
    obtain ⟨op, a⟩ := x
    cases op <;> rfl

theorem readRest_none (h : ∃ x ∈ rest, readLiteral (word x.2) = none) :
    readRest (rest.flatMap fun x => [x.1.word, word x.2]) = none := by
  induction rest with
  | nil => simp at h
  | cons x rest ih =>
    rw [List.flatMap_cons, List.cons_append, List.singleton_append, readRest]
    obtain ⟨y, hy, hnone⟩ := h
    rcases List.mem_cons.mp hy with rfl | hy
    · simp [hnone]
    · simp [ih ⟨y, hy, hnone⟩]

theorem TsOp.word_visible (hu : u.Documented) (op : TsOp) :
    op.word ≠ [] ∧ ∀ c ∈ op.word, u.isWhitespace c = false := by
  have hall : ∀ op : TsOp, op.word ≠ [] ∧ ∀ c ∈ op.word, '!' ≤ c ∧ c ≤ '~' := by
    intro op
    cases op <;> simp [TsOp.word]
  exact ⟨(hall op).1, fun c hc => hu.visible c ((hall op).2 c hc).1 ((hall op).2 c hc).2⟩

theorem readQuery_tokens (hu : u.Documented)
    (hvisible : ∀ a ∈ first :: rest.map Prod.snd, word a ≠ [] ∧
      ∀ c ∈ word a, u.isWhitespace c = false) :
    readQuery u (String.ofList (List.intercalate [' '] (tokensOf word first rest))) =
      (readLiteral (word first)).bind fun l =>
        (readRest (rest.flatMap fun x => [x.1.word, word x.2])).map (clausesOf l) := by
  have htokens : ∀ w ∈ tokensOf word first rest, w ≠ [] ∧ ∀ c ∈ w, u.isWhitespace c = false := by
    intro w hw
    simp only [tokensOf, List.mem_cons, List.mem_flatMap, List.not_mem_nil, or_false] at hw
    rcases hw with rfl | ⟨x, hx, rfl | rfl⟩
    · exact hvisible first List.mem_cons_self
    · exact x.1.word_visible hu
    · exact hvisible x.2 (List.mem_cons_of_mem _ (List.mem_map_of_mem hx))
  unfold readQuery
  rw [String.toList_ofList, splitWhitespace_intercalate hu.space htokens]
  rfl

end Read

/-- The translation of an expression is read as what the expression means. -/
def Preserved (u : Unicode) (first : TsLiteral) (rest : List (TsOp × TsLiteral)) : Prop :=
  ∃ clauses, readQuery u (translateQuery u (renderTsQuery first rest) .toTsQuery) = some clauses ∧
    ∀ has, queryMatches has clauses = tsMatches has first rest

theorem tsTokens_render (hu : u.Documented) {first : TsLiteral} {rest : List (TsOp × TsLiteral)}
    (h : ∀ l ∈ first :: rest.map Prod.snd, l.Plain u) :
    tsTokens u (first.text ++ rest.flatMap fun x => x.1.char :: x.2.text) =
      tokensOf TsLiteral.word first rest := by
  induction rest generalizing first with
  | nil => simpa [tokensOf] using TsLiteral.tsTokens_text hu (h first (by simp))
  | cons x rest ih =>
    have hrest := ih fun l hl => h l (List.mem_cons_of_mem _ hl)
    rw [List.flatMap_cons, List.cons_append, tsTokens_op hu, hrest,
      TsLiteral.tsTokens_text hu (h first (by simp))]
    rfl

theorem any_lexeme {ls : List TsLiteral} (hls : (ls.map TsLiteral.lexeme).Nodup)
    (f : TsLiteral → Bool) {l : TsLiteral} (hl : l ∈ ls) :
    (ls.any fun l' => l'.lexeme == l.lexeme && f l') = f l := by
  rw [Bool.eq_iff_iff, List.any_eq_true]
  constructor
  · rintro ⟨l', hl', h⟩
    rw [Bool.and_eq_true, beq_iff_eq] at h
    rw [← List.inj_on_of_nodup_map hls hl' hl h.1]
    exact h.2
  · intro h
    exact ⟨l, hl, by simp [h]⟩

/-- Clauses over different lexemes tell any two readings of their literals apart. -/
theorem denotes_ne {cs : List (List TsLiteral)} (hnil : [] ∉ cs)
    (hlexemes : (cs.flatten.map TsLiteral.lexeme).Nodup) {s t : TsLiteral → Bool}
    (hne : ∃ l ∈ cs.flatten, s l ≠ t l) : ∃ has : List Char → Bool,
      denotes (fun l => s l ^^ has l.lexeme) cs ≠ denotes (fun l => t l ^^ has l.lexeme) cs := by
  obtain ⟨l, hl, hsign⟩ := hne
  obtain ⟨c, hc, hlc⟩ := List.mem_flatten.mp hl
  obtain ⟨pre, post, rfl⟩ := List.append_of_mem hc
  have hperm : (pre ++ c :: post).flatten.Perm (c ++ (pre ++ post).flatten) :=
    List.perm_middle.flatten
  rw [(hperm.map _).nodup_iff, List.map_append, List.nodup_append] at hlexemes
  obtain ⟨hhere, helse, hapart⟩ := hlexemes
  -- the terms make the clause true in one reading, and all clauses false in the other
  let has (x : List Char) : Bool := (c.any fun l => l.lexeme == x && !s l) ||
    (pre ++ post).flatten.any fun l => l.lexeme == x && t l
  have hin : ∀ l' ∈ c, has l'.lexeme = !s l' := by
    intro l' hl'
    have hnone : ((pre ++ post).flatten.any fun l => l.lexeme == l'.lexeme && t l) = false := by
      rw [List.any_eq_false]
      intro l'' hl''
      have hlexeme := hapart _ (List.mem_map_of_mem hl') _ (List.mem_map_of_mem hl'')
      simp [Ne.symm hlexeme]
    simp only [has, hnone, Bool.or_false]
    exact any_lexeme hhere (fun l => !s l) hl'
  have hout : ∀ l' ∈ (pre ++ post).flatten, has l'.lexeme = t l' := by
    intro l' hl'
    have hnone : (c.any fun l => l.lexeme == l'.lexeme && !s l) = false := by
      rw [List.any_eq_false]
      intro l'' hl''
      have hlexeme := hapart _ (List.mem_map_of_mem hl'') _ (List.mem_map_of_mem hl')
      simp [hlexeme]
    simp only [has, hnone, Bool.false_or]
    exact any_lexeme helse t hl'
  refine ⟨has, fun heq => ?_⟩
  have htrue : denotes (fun l => s l ^^ has l.lexeme) (pre ++ c :: post) = true := by
    refine List.any_eq_true.mpr ⟨c, hc, List.all_eq_true.mpr fun l' hl' => ?_⟩
    rw [hin l' hl']
    cases s l' <;> rfl
  rw [heq] at htrue
  obtain ⟨c', hc', hall⟩ := List.any_eq_true.mp htrue
  rw [List.all_eq_true] at hall
  rcases List.mem_cons.mp (List.perm_middle.mem_iff.mp hc') with rfl | hmem
  · have hl' := hall l hlc
    rw [hin l hlc] at hl'
    revert hl' hsign
    cases s l <;> cases t l <;> decide
  · obtain ⟨l', hl'⟩ := List.exists_mem_of_ne_nil c' fun h => hnil (h ▸ hc')
    have hterm := hall l' hl'
    rw [hout l' (List.mem_flatten.mpr ⟨c', hmem, hl'⟩), Bool.xor_self] at hterm
    exact absurd hterm (by decide)

section Translation

variable {first : TsLiteral} {rest : List (TsOp × TsLiteral)}

/-- No lexeme is a word that the search parser keeps for itself. -/
def Unreserved (first : TsLiteral) (rest : List (TsOp × TsLiteral)) : Prop :=
  ∀ l ∈ first :: rest.map Prod.snd, l.lexeme ∉ reserved

theorem readQuery_translate (hu : u.Documented)
    (hplain : ∀ l ∈ first :: rest.map Prod.snd, l.Plain u) :
    readQuery u (translateQuery u (renderTsQuery first rest) .toTsQuery) =
      (readLiteral first.word).bind fun l =>
        (readRest (rest.flatMap fun x => [x.1.word, x.2.word])).map (clausesOf l) := by
  rw [← readQuery_tokens hu fun l hl => TsLiteral.word_visible hu (hplain l hl),
    ← tsTokens_render hu hplain, renderTsQuery]
  unfold translateQuery
  dsimp only
  rw [String.toList_ofList]
  rfl

theorem preserved_iff (hu : u.Documented)
    (hplain : ∀ l ∈ first :: rest.map Prod.snd, l.Plain u) :
    Preserved u first rest ↔ Unreserved first rest ∧
      ∀ has, denotes (fun l => l.attached ^^ has l.lexeme) (clausesOf first rest) =
        tsMatches has first rest := by
  have hread := fun l hl => TsLiteral.readLiteral_word (hplain l hl)
  unfold Preserved
  rw [readQuery_translate hu hplain]
  by_cases hfree : Unreserved first rest
  · have hrest : readRest (rest.flatMap fun x => [x.1.word, x.2.word]) =
        some (rest.map (Prod.map id fun l => (l.attached, l.lexeme))) := by
      apply readRest_some
      intro x hx
      have hmem := List.mem_cons_of_mem first (List.mem_map_of_mem (f := Prod.snd) hx)
      rw [hread _ hmem, if_neg (hfree _ hmem)]
    rw [hread first List.mem_cons_self, if_neg (hfree first List.mem_cons_self), hrest,
      Option.bind_some, Option.map_some, clausesOf_map fun l : TsLiteral => (l.attached, l.lexeme)]
    simp only [Option.some.injEq, exists_eq_left', hfree, true_and, queryMatches, denotes,
      List.any_map, List.all_map, Function.comp_def]
  · simp only [hfree, false_and, iff_false]
    rintro ⟨clauses, hsome, -⟩
    unfold Unreserved at hfree
    push Not at hfree
    obtain ⟨l, hl, hreserved⟩ := hfree
    have hnone : readLiteral l.word = none := by rw [hread l hl, if_pos hreserved]
    rcases List.mem_cons.mp hl with rfl | hmem
    · simp [hnone] at hsome
    · obtain ⟨x, hx, rfl⟩ := List.mem_map.mp hmem
      simp [readRest_none ⟨x, hx, hnone⟩] at hsome

theorem literalWords_read (hu : u.Documented) {query : String} {w : List Char}
    (hw : w ∈ literalWords u query) :
    (w ≠ [] ∧ ∀ c ∈ w, u.isWhitespace c = false) ∧ readLiteral w = some (false, w) := by
  obtain ⟨w', hw', rfl⟩ := List.mem_map.mp hw
  obtain ⟨hsplit, hne⟩ := List.mem_filter.mp hw'
  have hplain := fun c hc => Bool.or_eq_false_iff.mp (splitOnP_word hsplit c hc).1
  have hne' : u.lower w' ≠ [] := hu.lower_ne_nil w' (by simpa using hne)
  refine ⟨⟨hne', hu.lower_visible w' fun c hc => (hplain c hc).1⟩, ?_⟩
  have hreserved : u.lower w' ∉ reserved := not_reserved (hu.lower_upper w')
  have hminus : ∀ word, u.lower w' ≠ '-' :: word := by
    intro word heq
    have hmem := hu.lower_meta w' '-' (by simp [heq]) (by decide)
    exact absurd (hplain _ hmem).2 (by decide)
  unfold readLiteral
  split
  next word => simp_all
  next h => simp [hreserved]

theorem readQuery_plain (hu : u.Documented) {query : String} {word : List Char}
    {words : List (List Char)} (h : literalWords u query = word :: words) :
    readQuery u (translateQuery u query .plain) = some [(word :: words).map (false, ·)] := by
  have hmem : ∀ w ∈ word :: words,
      (w ≠ [] ∧ ∀ c ∈ w, u.isWhitespace c = false) ∧ readLiteral w = some (false, w) :=
    h ▸ fun w hw => literalWords_read hu hw
  have hjoin : ∀ (w : List Char) ws, List.intercalate " AND ".toList (w :: ws) =
      List.intercalate [' '] (tokensOf id w (ws.map (TsOp.and, ·))) := by
    intro w ws
    induction ws generalizing w with
    | nil => rfl
    | cons w' ws ih =>
      rw [List.intercalate_cons_cons, ih]
      simp [tokensOf, List.intercalate_cons_cons, TsOp.word]
  have hclauses : ∀ (l : Bool × List Char) ls, clausesOf l (ls.map (TsOp.and, ·)) = [l :: ls] := by
    intro l ls
    induction ls generalizing l with
    | nil => rfl
    | cons l' ls ih => simp [clausesOf, ih]
  have htokens : translateQuery u query .plain =
      String.ofList (List.intercalate [' '] (tokensOf id word (words.map (TsOp.and, ·)))) := by
    rw [← hjoin, ← h]
    exact translatePlain_words hu query
  have hrest : readRest ((words.map (TsOp.and, ·)).flatMap fun x => [x.1.word, id x.2]) =
      some ((words.map (TsOp.and, ·)).map (Prod.map id fun w => (false, w))) := by
    apply readRest_some
    intro x hx
    obtain ⟨w, hw, rfl⟩ := List.mem_map.mp hx
    exact (hmem w (List.mem_cons_of_mem _ hw)).2
  rw [htokens, readQuery_tokens hu, hrest, id_eq, (hmem word List.mem_cons_self).2]
  · simpa [Function.comp_def] using hclauses (false, word) (words.map (false, ·))
  · intro w hw
    exact (hmem w (by simpa [Function.comp_def] using hw)).1

theorem translateQuery_wordless (hu : u.Documented) {query : String}
    (h : literalWords u query = []) : translateQuery u query .plain = "" := by
  change translatePlain u query = ""
  rw [translatePlain_words hu, h]
  rfl

/-- A translated expression means what it says if and only if no lexeme is reserved and
turning the literals around whose last mark does not decide makes no difference: with
different lexemes, if there are none. A bag of words is read as their conjunction. -/
theorem translateQuery_preserves (hu : u.Documented) :
    (∀ first rest, (∀ l ∈ first :: rest.map Prod.snd, l.Plain u) →
      (Preserved u first rest ↔ Unreserved first rest ∧
        ∀ has, denotes (fun l => l.attached ^^ has l.lexeme) (clausesOf first rest) =
          tsMatches has first rest) ∧
      (((first :: rest.map Prod.snd).map TsLiteral.lexeme).Nodup →
        (Preserved u first rest ↔ Unreserved first rest ∧
          ∀ l ∈ first :: rest.map Prod.snd, l.attached = l.negated))) ∧
    ∀ query, (literalWords u query = [] → translateQuery u query .plain = "") ∧
      ∀ word words, literalWords u query = word :: words →
        readQuery u (translateQuery u query .plain) =
          some [(word :: words).map (false, ·)] := by
  refine ⟨fun first rest hplain => ⟨preserved_iff hu hplain, fun hlexemes => ?_⟩, ?_⟩
  · rw [preserved_iff hu hplain]
    apply and_congr_right
    intro _
    obtain ⟨hflatten, hnil⟩ := clausesOf_flatten first rest
    rw [← hflatten] at hlexemes ⊢
    constructor
    · intro hsame
      by_contra hne
      push Not at hne
      obtain ⟨has, hhas⟩ := denotes_ne hnil hlexemes hne
      exact hhas (hsame has)
    · intro hsign has
      unfold tsMatches denotes
      rw [Bool.eq_iff_iff, List.any_eq_true, List.any_eq_true]
      apply exists_congr
      intro c
      apply and_congr_right
      intro hc
      rw [List.all_eq_true, List.all_eq_true]
      apply forall₂_congr
      intro l hl
      rw [hsign l (List.mem_flatten.mpr ⟨c, hc, hl⟩)]
  · intro query
    exact ⟨translateQuery_wordless hu, fun word words h => readQuery_plain hu h⟩

end Translation

namespace TsExample

def literal (marks : List (List Char)) : TsLiteral := ⟨[], marks, "cat".toList, none, []⟩

theorem spaced_mark_lost : ¬ Preserved ascii (literal [[' ']]) [] := by
  rintro ⟨clauses, hread, hmeaning⟩
  have hlost : readQuery ascii (translateQuery ascii (renderTsQuery (literal [[' ']]) [])
      .toTsQuery) = some [[(false, "cat".toList)]] := by decide +kernel
  cases hlost.symm.trans hread
  exact absurd (hmeaning fun _ => true) (by decide)

/-- Of `!cat & dog:AB | bird`. -/
def rest : List (TsOp × TsLiteral) :=
  [(.and, ⟨[' '], [], "dog".toList, some "AB".toList, [' ']⟩),
    (.or, ⟨[' '], [], "bird".toList, none, []⟩)]

theorem query_preserved : Preserved ascii (literal [[]]) rest := by
  have hall : ∀ {p : Char → Prop} {cs : List Char}, cs.Forall p → ∀ c ∈ cs, p c :=
    List.forall_iff_forall_mem.mp
  have hplain : ∀ l ∈ literal [[]] :: rest.map Prod.snd, l.Plain ascii := by
    intro l hl
    simp only [rest, List.map_cons, List.map_nil, List.mem_cons, List.not_mem_nil, or_false] at hl
    rcases hl with rfl | rfl | rfl
    · exact ⟨hall (by decide), by decide, hall (by decide), fun _ h => nomatch h⟩
    · exact ⟨hall (by decide), by decide, hall (by decide),
        fun _ h => Option.some.inj h ▸ hall (by decide)⟩
    · exact ⟨hall (by decide), by decide, hall (by decide), fun _ h => nomatch h⟩
  have hread : ∀ l ∈ literal [[]] :: rest.map Prod.snd,
      l.lexeme ∉ reserved ∧ l.attached = l.negated := by decide
  exact (((translateQuery_preserves ascii_documented).1 _ _ hplain).2 (by decide)).mpr
    ⟨fun l hl => (hread l hl).1, fun l hl => (hread l hl).2⟩

end TsExample

end BlueDB.Fts
