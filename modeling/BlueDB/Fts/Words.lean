import BlueDB.Fts.Trigram
import Mathlib.Tactic

/-!
# Words of a text

A bag of words is cut at white space and at the characters that queries give a meaning. Of
the trigrams of a text it gives the parts between them.
-/

namespace BlueDB.Fts

variable {u : Unicode}

/-- White space and lower case as they are on ASCII text, and where else it matters here. -/
structure Unicode.Documented (u : Unicode) : Prop where
  space : u.isWhitespace ' ' = true
  visible : ∀ c : Char, '!' ≤ c → c ≤ '~' → u.isWhitespace c = false
  lower_ne_nil : ∀ s, s ≠ [] → u.lower s ≠ []
  lower_visible : ∀ s, (∀ c ∈ s, u.isWhitespace c = false) → ∀ c ∈ u.lower s, u.isWhitespace c =
      false
  lower_meta : ∀ s, ∀ c ∈ u.lower s, isMeta c = true → c ∈ s
  lower_upper : ∀ s, ∀ c ∈ u.lower s, ¬ ('A' ≤ c ∧ c ≤ 'Z')

/-- Each character is lowered by itself, but for those at the end of a word, and once. -/
structure Unicode.Cased (u : Unicode) : Prop extends u.Documented where
  lower_letter : ∀ c : Char, 'a' ≤ c → c ≤ 'z' → u.lower [c] = [c]
  lower_char : ∀ s, ∀ c ∈ u.lower s, u.lower [c] = [c]
  lower_fixed : ∀ s, (∀ c ∈ s, u.lower [c] = [c]) → u.lower s = s

theorem splitWhitespace_append {c : Char} (hc : u.isWhitespace c = true) (s s' : List Char) :
    splitWhitespace u (s ++ c :: s') = splitWhitespace u s ++ splitWhitespace u s' := by
  unfold splitWhitespace
  rw [List.splitOnP_append_cons _ _ hc, List.filter_append]

theorem splitWhitespace_nil : splitWhitespace u [] = [] := rfl

theorem splitWhitespace_word {w : List Char} (hw : w ≠ [])
    (hvisible : ∀ c ∈ w, u.isWhitespace c = false) : splitWhitespace u w = [w] := by
  unfold splitWhitespace
  rw [List.splitOnP_eq_singleton hvisible]
  simp [hw]

theorem splitWhitespace_before {sp : List Char} (hsp : ∀ c ∈ sp, u.isWhitespace c = true)
    (s : List Char) : splitWhitespace u (sp ++ s) = splitWhitespace u s := by
  induction sp with
  | nil => rfl
  | cons c sp ih =>
    have happend := splitWhitespace_append (hsp c List.mem_cons_self) [] (sp ++ s)
    rw [splitWhitespace_nil] at happend
    exact happend.trans (ih fun c hc => hsp c (List.mem_cons_of_mem _ hc))

theorem splitWhitespace_after {sp : List Char} (hsp : ∀ c ∈ sp, u.isWhitespace c = true)
    (s : List Char) : splitWhitespace u (s ++ sp) = splitWhitespace u s := by
  cases sp with
  | nil => rw [List.append_nil]
  | cons c sp =>
    have hrest := splitWhitespace_before (fun c hc => hsp c (List.mem_cons_of_mem _ hc)) []
    rw [List.append_nil, splitWhitespace_nil] at hrest
    rw [splitWhitespace_append (hsp c List.mem_cons_self), hrest, List.append_nil]

theorem splitWhitespace_intercalate (hu : u.isWhitespace ' ' = true) {ws : List (List Char)}
    (hws : ∀ w ∈ ws, w ≠ [] ∧ ∀ c ∈ w, u.isWhitespace c = false) :
    splitWhitespace u (List.intercalate [' '] ws) = ws := by
  induction ws with
  | nil => rfl
  | cons w ws ih =>
    obtain ⟨hne, hvisible⟩ := hws w List.mem_cons_self
    have hrest := ih fun w hw => hws w (List.mem_cons_of_mem _ hw)
    cases ws with
    | nil => simpa using splitWhitespace_word hne hvisible
    | cons w' ws =>
      rw [List.intercalate_cons_cons, List.append_assoc, List.singleton_append,
        splitWhitespace_append hu, splitWhitespace_word hne hvisible, hrest]
      rfl

def reserved : List (List Char) := ["AND".toList, "OR".toList, "NOT".toList, "IN".toList]

/-- The words of a text, in lower case. -/
def literalWords (u : Unicode) (query : String) : List (List Char) :=
  ((query.toList.splitOnP fun c => u.isWhitespace c || isMeta c).filter
    fun word => !word.isEmpty).map u.lower

theorem splitOnP_cleaned (hu : u.Documented) (s : List Char) :
    (s.map fun c => if isMeta c then ' ' else c).splitOnP u.isWhitespace =
      s.splitOnP fun c => u.isWhitespace c || isMeta c := by
  induction s with
  | nil => rfl
  | cons c s ih =>
    rw [List.map_cons, List.splitOnP_cons_eq_if_modifyHead, List.splitOnP_cons_eq_if_modifyHead, ih]
    cases hmeta : isMeta c <;> simp [hu.space]

theorem splitOnP_word {p : Char → Bool} {s w : List Char} (hw : w ∈ s.splitOnP p) :
    ∀ c ∈ w, p c = false ∧ c ∈ s := by
  induction s generalizing w with
  | nil => simp_all
  | cons c s ih =>
    have hlater : ∀ {w : List Char}, w ∈ s.splitOnP p → ∀ c' ∈ w, p c' = false ∧ c' ∈ c :: s :=
      fun hw c' hc' => (ih hw c' hc').imp_right (List.mem_cons_of_mem c)
    rw [List.splitOnP_cons_eq_if_modifyHead] at hw
    split at hw
    · rcases List.mem_cons.mp hw with rfl | hw
      · simp
      · exact hlater hw
    · next hc =>
      obtain ⟨w', ws, hws⟩ := List.exists_cons_of_ne_nil (List.splitOnP_ne_nil p s)
      rw [hws, List.modifyHead_cons] at hw
      rcases List.mem_cons.mp hw with rfl | hw
      · exact List.forall_mem_cons.mpr ⟨⟨by simpa using hc, List.mem_cons_self⟩,
          hlater (by simp [hws])⟩
      · exact hlater (by simp [hws, hw])

theorem translatePlain_words (hu : u.Documented) (query : String) :
    translatePlain u query =
      String.ofList (List.intercalate " AND ".toList (literalWords u query)) := by
  rw [literalWords, ← splitOnP_cleaned hu]
  rfl

theorem not_reserved {w : List Char} (hw : ∀ c ∈ w, ¬ ('A' ≤ c ∧ c ≤ 'Z')) : w ∉ reserved := by
  have hupper : ∀ r ∈ reserved, ∃ c ∈ r, 'A' ≤ c ∧ c ≤ 'Z' := by simp [reserved]
  intro hmem
  obtain ⟨c, hc, hc'⟩ := hupper w hmem
  exact hw c hc hc'

theorem mem_windows {s w : List Char} : w ∈ windows s ↔ w <:+: s ∧ w.length = 3 := by
  fun_induction windows s with
  | case1 a b c rest ih =>
    have hfirst : w <+: a :: b :: c :: rest ∧ w.length = 3 ↔ w = [a, b, c] := by
      constructor
      · rintro ⟨hstart, hlength⟩
        rw [List.prefix_iff_eq_take.mp hstart, hlength]
        rfl
      · rintro rfl
        exact ⟨⟨rest, rfl⟩, rfl⟩
    rw [List.mem_cons, ih, @List.infix_cons_iff _ _ a, or_and_right, hfirst]
  | case2 s hshort =>
    refine iff_of_false List.not_mem_nil ?_
    rintro ⟨hsub, hlength⟩
    have hle := hsub.length_le
    match s with
    | a :: b :: c :: rest => exact hshort a b c rest rfl
    | [] | [_] | [_, _] =>
      simp only [List.length_cons, List.length_nil] at hle
      omega

theorem trigramize_toList (u : Unicode) (s : String) :
    (trigramize u s).toList = List.intercalate [' '] (windows (u.lower s.toList)) := by
  unfold trigramize
  dsimp only
  split
  · next hshort =>
    have hnil : windows (u.lower s.toList) = [] := by
      refine List.eq_nil_iff_forall_not_mem.mpr fun w hw => ?_
      obtain ⟨hsub, hlength⟩ := mem_windows.mp hw
      have hle := hsub.length_le
      omega
    rw [hnil]
    rfl
  · exact String.toList_ofList

/-- A part of three characters that follow one another, between those that it is cut at. -/
def TrigramPart (cut : Char → Bool) (s p : List Char) : Prop :=
  p ≠ [] ∧ ∃ w, w <:+: s ∧ w.length = 3 ∧ p ∈ w.splitOnP cut

theorem TrigramPart.mem {cut : Char → Bool} {s p : List Char} (h : TrigramPart cut s p) :
    ∀ c ∈ p, cut c = false ∧ c ∈ s := by
  obtain ⟨-, w, hsub, -, hw⟩ := h
  exact fun c hc => (splitOnP_word hw c hc).imp_right fun hmem => hsub.subset hmem

theorem mem_splitOnP_joined {cut : Char → Bool} (hcut : cut ' ' = true) {ws : List (List Char)}
    {p : List Char} (hp : p ≠ []) :
    p ∈ (List.intercalate [' '] ws).splitOnP cut ↔ ∃ w ∈ ws, p ∈ w.splitOnP cut := by
  induction ws with
  | nil => simp [hp]
  | cons w ws ih =>
    cases ws with
    | nil => simp
    | cons w' ws =>
      rw [List.intercalate_cons_cons, List.append_assoc, List.singleton_append,
        List.splitOnP_append_cons _ _ hcut, List.mem_append, ih,
        List.exists_mem_cons_iff (a := w)]

/-- The joined trigrams are cut into the parts of each, which a map that leaves lowercased
characters alone does not change. -/
theorem mem_parts {cut : Char → Bool} (hcut : cut ' ' = true) {s : String} {p : List Char}
    {f : List Char → List Char} (hf : ∀ w, (∀ c ∈ w, c ∈ u.lower s.toList) → f w = w) :
    p ∈ (((trigramize u s).toList.splitOnP cut).filter fun w => !w.isEmpty).map f ↔
      TrigramPart cut (u.lower s.toList) p := by
  have hpart : ∀ w : List Char, w ∈ ((trigramize u s).toList.splitOnP cut).filter
      (fun w => !w.isEmpty) ↔ TrigramPart cut (u.lower s.toList) w := by
    intro w
    rw [List.mem_filter, trigramize_toList, and_comm, Bool.not_eq_true', List.isEmpty_eq_false_iff]
    refine and_congr_right fun hw => ?_
    simp only [mem_splitOnP_joined hcut hw, mem_windows, and_assoc]
  have hfixed : ∀ w, TrigramPart cut (u.lower s.toList) w → f w = w :=
    fun w hw => hf w fun c hc => (hw.mem c hc).2
  rw [List.mem_map]
  constructor
  · rintro ⟨w, hw, rfl⟩
    rw [hfixed w ((hpart w).mp hw)]
    exact (hpart w).mp hw
  · exact fun hp => ⟨p, (hpart p).mpr hp, hfixed p hp⟩

/-- White space and what has a meaning in queries. -/
def cutsQuery (u : Unicode) (c : Char) : Bool := u.isWhitespace c || isMeta c

theorem mem_literalWords (hu : u.Cased) {s : String} {p : List Char} :
    p ∈ literalWords u (trigramize u s) ↔ TrigramPart (cutsQuery u) (u.lower s.toList) p := by
  refine mem_parts (by simp [hu.space]) fun w hw => hu.lower_fixed w fun c hc => ?_
  exact hu.lower_char s.toList c (hw c hc)

/-- `char::is_ascii_whitespace` -/
def isAsciiWhitespace (c : Char) : Bool := decide (c ∈ [' ', '\t', '\n', '\x0c', '\r'])

/-- The tokens of the whitespace analyzer. -/
def whitespaceTokens (u : Unicode) (body : String) : List (List Char) :=
  ((body.toList.splitOnP isAsciiWhitespace).filter fun token => !token.isEmpty).map
    fun token => token.flatMap fun c => u.lower [c]

theorem flatMap_lower (hu : u.Cased) {s w : List Char} (hw : ∀ c ∈ w, c ∈ u.lower s) :
    (w.flatMap fun c => u.lower [c]) = w := by
  rw [List.flatMap_congr fun c hc => hu.lower_char s c (hw c hc)]
  exact List.flatMap_singleton' w

theorem mem_whitespaceTokens (hu : u.Cased) {s : String} {p : List Char} :
    p ∈ whitespaceTokens u (trigramize u s) ↔
      TrigramPart isAsciiWhitespace (u.lower s.toList) p :=
  mem_parts (by decide) fun _ hw => flatMap_lower hu hw

/-- The characters that queries give a meaning and that are not replaced. -/
def isSpecial (c : Char) : Bool :=
  decide (c ∈ ['`', '{', '}', '\'', '[', ']', '\\', '<', '>', '/'])

/-- A word that a query has no other meaning for. -/
structure Term (u : Unicode) (w : List Char) : Prop where
  nonempty : w ≠ []
  unreserved : w ∉ reserved
  plain : ∀ c ∈ w, cutsQuery u c = false ∧ isSpecial c = false

variable {Query Score : Type} {T : Tantivy Query Score} {parse : String → Except String Query}
  {q : Query}

/-- A conjunction of words finds the texts that have them all as tokens, and without a word
none. -/
structure ReadsTerms (u : Unicode) (T : Tantivy Query Score)
    (parse : String → Except String Query) : Prop where
  matches_iff : ∀ {words : List (List Char)} {q}, (∀ w ∈ words, Term u w) →
    parse (String.ofList (List.intercalate " AND ".toList words)) = .ok q → ∀ n body,
      (T.isMatch q (bodySchema (.text .whitespace)) (keyDoc n body) = true ↔ words ≠ [] ∧
        ∀ w ∈ words, (w.flatMap fun c => u.lower [c]) ∈ whitespaceTokens u body)

/-- The trigrams of the literal, cut where a query is, are parts of those of the text, and
there is one. -/
structure HasTrigrams (u : Unicode) (literal text : String) : Prop where
  some : ∃ p, TrigramPart (cutsQuery u) (u.lower literal.toList) p
  all : ∀ p, TrigramPart (cutsQuery u) (u.lower literal.toList) p →
    TrigramPart isAsciiWhitespace (u.lower text.toList) p

/-- What the literal is searched as finds the text. Where it has a special character, that
is the library's. -/
def Finds (u : Unicode) (T : Tantivy Query Score) (q : Query) (literal : String) (n : ℤ)
    (text : String) : Prop :=
  if (u.lower literal.toList).any isSpecial then
    T.isMatch q (bodySchema (.text .whitespace)) (keyDoc n (trigramize u text)) = true
  else HasTrigrams u literal text

theorem ReadsTerms.isMatch_iff (hreads : ReadsTerms u T parse) (hu : u.Cased)
    {literal text : String} (hparse : parse (queryText u literal) = .ok q) (n : ℤ) :
    T.isMatch q (bodySchema (.text .whitespace)) (keyDoc n (trigramize u text)) = true ↔
      Finds u T q literal n text := by
  unfold Finds
  split
  · exact Iff.rfl
  next hplain =>
  have hterm : ∀ w ∈ literalWords u (trigramize u literal), Term u w := by
    intro w hw
    have hpart := (mem_literalWords hu).mp hw
    refine ⟨hpart.1, not_reserved fun c hc => hu.lower_upper _ c (hpart.mem c hc).2, ?_⟩
    intro c hc
    refine ⟨(hpart.mem c hc).1, Bool.eq_false_iff.mpr fun hspecial => hplain ?_⟩
    exact List.any_eq_true.mpr ⟨c, (hpart.mem c hc).2, hspecial⟩
  have htoken : ∀ p, TrigramPart (cutsQuery u) (u.lower literal.toList) p →
      ((p.flatMap fun c => u.lower [c]) ∈ whitespaceTokens u (trigramize u text) ↔
        TrigramPart isAsciiWhitespace (u.lower text.toList) p) := by
    intro p hp
    rw [flatMap_lower hu fun c hc => (hp.mem c hc).2, mem_whitespaceTokens hu]
  rw [queryText, translatePlain_words hu.toDocumented] at hparse
  rw [hreads.matches_iff hterm hparse]
  constructor
  · rintro ⟨hne, hall⟩
    obtain ⟨w, hw⟩ := List.exists_mem_of_ne_nil _ hne
    refine ⟨⟨w, (mem_literalWords hu).mp hw⟩, fun p hp => ?_⟩
    exact (htoken p hp).mp (hall p ((mem_literalWords hu).mpr hp))
  · rintro ⟨⟨w, hw⟩, hall⟩
    refine ⟨List.ne_nil_of_mem ((mem_literalWords hu).mpr hw), fun p hp => ?_⟩
    have hpart := (mem_literalWords hu).mp hp
    exact (htoken p hpart).mpr (hall p hpart)

def ascii : Unicode := ⟨List.map Char.toLower, Char.isWhitespace⟩

theorem isWhitespace_visible {c : Char} (h : '!' ≤ c) : c.isWhitespace = false := by
  unfold Char.isWhitespace
  simp only [Bool.or_eq_false_iff, decide_eq_false_iff_not]
  refine ⟨⟨⟨?_, ?_⟩, ?_⟩, ?_⟩ <;> rintro rfl <;> exact absurd h (by decide)

theorem toLower_cases (c : Char) :
    c.toLower = c ∧ ¬ ('A' ≤ c ∧ c ≤ 'Z') ∨ 'a' ≤ c.toLower ∧ c.toLower ≤ 'z' := by
  unfold Char.toLower
  split
  · next h =>
    right
    simp only [ge_iff_le, Char.le_def, UInt32.le_iff_toNat_le] at h ⊢
    simp at h ⊢
    omega
  · next h => exact .inl ⟨rfl, h⟩

theorem toLower_letter {c : Char} (h : 'a' ≤ c) : c.toLower = c := by
  unfold Char.toLower
  split
  · next hupper => exact absurd (UInt32.le_trans (Char.le_def.mp h) hupper.2) (by decide)
  · rfl

theorem ascii_documented : ascii.Documented where
  space := rfl
  visible c hlow _ := isWhitespace_visible hlow
  lower_ne_nil s hs := by simpa [ascii] using hs
  lower_visible s hs c hc := by
    obtain ⟨c, hmem, rfl⟩ := List.mem_map.mp hc
    rcases toLower_cases c with ⟨heq, -⟩ | ⟨hlow, -⟩
    · rw [heq]
      exact hs c hmem
    · exact isWhitespace_visible (le_trans (by decide) hlow)
  lower_meta s c hc hmeta := by
    obtain ⟨c, hmem, rfl⟩ := List.mem_map.mp hc
    rcases toLower_cases c with ⟨heq, -⟩ | ⟨hlow, hhigh⟩
    · rwa [heq]
    · have hnone : ∀ c ∈ "&|!():*\"+-^~".toList, ¬ ('a' ≤ c ∧ c ≤ 'z') := by simp
      exact absurd ⟨hlow, hhigh⟩ (hnone _ (of_decide_eq_true hmeta))
  lower_upper s c hc := by
    obtain ⟨c, hmem, rfl⟩ := List.mem_map.mp hc
    rcases toLower_cases c with ⟨heq, hupper⟩ | ⟨hlow, -⟩
    · rwa [heq]
    · exact fun h => absurd (le_trans hlow h.2) (by decide)

theorem ascii_cased : ascii.Cased where
  toDocumented := ascii_documented
  lower_letter c hlow _ := congrArg (fun c => [c]) (toLower_letter hlow)
  lower_char s c hc := by
    obtain ⟨c, -, rfl⟩ := List.mem_map.mp hc
    refine congrArg (fun c => [c]) ?_
    rcases toLower_cases c with ⟨heq, -⟩ | ⟨hlow, -⟩
    · rw [heq, heq]
    · exact toLower_letter hlow
  lower_fixed s hs := by
    refine (List.map_congr_left fun c hc => ?_).trans (List.map_id s)
    exact List.singleton_inj.mp (hs c hc)

end BlueDB.Fts
