import BlueDB.Collections.Json
import Mathlib.Data.List.DropRight

/-!
# JSON paths

A path is written as the steps of the navigation subset, with blanks around it and inside
its brackets. The scanner of a bracket stops at the first `]`, also inside a quoted key, and
an index may have a plus sign.
-/

namespace BlueDB.Query

open Collections

/-- The classes of characters, which Unicode extends beyond ASCII. -/
structure CharTable where
  isWhitespace : Char → Bool
  isAlphanumeric : Char → Bool
  isWhitespace_ascii (c : Char) (h : c.toNat < 128) :
    isWhitespace c = decide (c ∈ [' ', '\t', '\n', '\x0b', '\x0c', '\r'])
  isAlphanumeric_ascii (c : Char) (h : c.toNat < 128) : isAlphanumeric c = c.isAlphanum
  disjoint (c : Char) (h : isAlphanumeric c = true) : isWhitespace c = false

/-- One navigation step. -/
inductive Step
  | key (key : String)
  | index (i : ℕ)
  | allValues
  | allElements
  deriving DecidableEq

def decimal (digits : List Char) : ℕ := digits.foldl (fun n c => 10 * n + (c.toNat - 48)) 0

/-- An integer may have a plus sign. -/
def unsigned (s : List Char) : List Char :=
  match s with
  | '+' :: digits => digits
  | digits => digits

/-- `parse::<usize>`. -/
def parseUsize (s : List Char) : Option ℕ :=
  if unsigned s ≠ [] ∧ (unsigned s).all Char.isDigit ∧ decimal (unsigned s) < 2 ^ 64 then
    some (decimal (unsigned s))
  else none

def quotedBy (quote : Char) (inner : List Char) : Bool :=
  inner.head? == some quote && inner.getLast? == some quote && decide (2 ≤ inner.length)

/-- What stands between brackets, trimmed. -/
def bracket (inner : List Char) : Option Step :=
  if inner = ['*'] then some .allElements
  else match parseUsize inner with
    | some n => some (.index n)
    | none =>
      if quotedBy '"' inner || quotedBy '\'' inner then
        some (.key (String.ofList inner.tail.dropLast))
      else none

section

variable (T : CharTable)

def trimStart (s : List Char) : List Char := s.dropWhile T.isWhitespace

def trim (s : List Char) : List Char := (trimStart T s).rdropWhile T.isWhitespace

/-- The leading mode word, which is ignored. -/
def skipMode (s : List Char) : List Char :=
  match s with
  | 's' :: 't' :: 'r' :: 'i' :: 'c' :: 't' :: ' ' :: rest => trimStart T rest
  | 'l' :: 'a' :: 'x' :: ' ' :: rest => trimStart T rest
  | s => s

def wordChar (c : Char) : Bool := T.isAlphanumeric c || c == '_'

def inWord (c : Char) : Bool := c != '.' && c != '['

/-- One turn of the loop. -/
def nextStep (chars : List Char) : Option (Step × List Char) :=
  match chars with
  | '.' :: '*' :: rest => some (.allValues, rest)
  | '.' :: rest =>
    if rest.takeWhile inWord ≠ [] ∧ (rest.takeWhile inWord).all (wordChar T) then
      some (.key (String.ofList (rest.takeWhile inWord)), rest.dropWhile inWord)
    else none
  | '[' :: rest =>
    match rest.dropWhile (· != ']') with
    | ']' :: after =>
      (bracket (trim T (rest.takeWhile (· != ']')))).map fun step => (step, after)
    | _ => none
  | _ => none

theorem dropWhile_length_le {p : Char → Bool} (l : List Char) :
    (l.dropWhile p).length ≤ l.length := (List.dropWhile_sublist p).length_le

theorem nextStep_length {chars rest : List Char} {step : Step}
    (h : nextStep T chars = some (step, rest)) : rest.length < chars.length := by
  unfold nextStep at h
  split at h
  · cases h
    simp
  · split at h
    · cases h
      exact Nat.lt_succ_of_le (dropWhile_length_le _)
    · cases h
  · next tail =>
    split at h
    · next after hafter =>
      obtain ⟨step', -, heq⟩ := Option.map_eq_some_iff.mp h
      cases heq
      have hle := dropWhile_length_le (p := (· != ']')) tail
      rw [hafter] at hle
      simp only [List.length_cons] at hle ⊢
      omega
    · cases h
  · cases h

def parseSteps (chars : List Char) : Option (List Step) :=
  if chars = [] then some []
  else match _h : nextStep T chars with
    | none => none
    | some (step, rest) => (parseSteps rest).map (step :: ·)
  termination_by chars.length
  decreasing_by exact nextStep_length T _h

def parsePath (raw : List Char) : Option (List Step) :=
  match skipMode T (trim T raw) with
  | '$' :: chars => parseSteps T chars
  | _ => none

end

variable {F : Type}

/-- What one step adds for one value. -/
def Step.next (step : Step) (v : Json F) : List (Json F) :=
  match step, v with
  | .key k, v => (v.get k).toList
  | .index i, .array items => items[i]?.toList
  | .allValues, .object fields => fields.map Prod.snd
  | .allElements, .array items => items
  | _, _ => []

def eval (root : Json F) (steps : List Step) : List (Json F) :=
  steps.foldl (fun current step => current.flatMap step.next) [root]

/-- The matches below a value: for each child that the first step leads to, in its order, the
matches of the other steps below that child. -/
def select : List Step → Json F → List (Json F)
  | [], v => [v]
  | .key k :: steps, .object fields => (fields.lookup k).elim [] (select steps)
  | .index i :: steps, .array items => items[i]?.elim [] (select steps)
  | .allValues :: steps, .object fields => fields.flatMap fun field => select steps field.2
  | .allElements :: steps, .array items => items.flatMap (select steps)
  | _ :: _, _ => []

theorem select_cons (step : Step) (steps : List Step) (v : Json F) :
    select (step :: steps) v = (step.next v).flatMap (select steps) := by
  have hchild : ∀ child : Option (Json F),
      child.elim [] (select steps) = child.toList.flatMap (select steps) := by
    rintro (_ | child) <;> simp
  cases step <;> cases v <;> simp [select, Step.next, Json.get, hchild, List.flatMap_map]

theorem foldl_next (steps : List Step) (current : List (Json F)) :
    steps.foldl (fun current step => current.flatMap step.next) current =
      current.flatMap (select steps) := by
  induction steps generalizing current with
  | nil => simp [select]
  | cons step steps ih =>
    rw [List.foldl_cons, ih, List.flatMap_assoc, funext (select_cons step steps)]

theorem eval_eq_select (root : Json F) (steps : List Step) : eval root steps =
    select steps root := by
  rw [eval, foldl_next]
  simp

/-- A step as it stands in a path: a plain word after a dot, or blanks and a quoted key, an
index or a star in brackets. -/
inductive PathPart
  | word (key : List Char)
  | quoted (before : List Char) (quote : Char) (key after : List Char)
  | allValues
  | index (before : List Char) (plus : Bool) (digits after : List Char)
  | allElements (before after : List Char)

def sign (plus : Bool) : List Char := if plus then ['+'] else []

namespace PathPart

def body : PathPart → List Char
  | word key => key
  | quoted _ quote key _ => quote :: key ++ [quote]
  | allValues => ['*']
  | index _ plus digits _ => sign plus ++ digits
  | allElements _ _ => ['*']

/-- The blanks around the body, within brackets. -/
def blanks : PathPart → Option (List Char × List Char)
  | quoted before _ _ after => some (before, after)
  | index before _ _ after => some (before, after)
  | allElements before after => some (before, after)
  | _ => none

def text (p : PathPart) : List Char :=
  match p.blanks with
  | some (before, after) => '[' :: (before ++ p.body ++ after) ++ [']']
  | none => '.' :: p.body

def step : PathPart → Step
  | word key => .key (String.ofList key)
  | quoted _ _ key _ => .key (String.ofList key)
  | allValues => .allValues
  | index _ _ digits _ => .index (decimal digits)
  | allElements _ _ => .allElements

def Blank (T : CharTable) (s : List Char) : Prop := ∀ c ∈ s, T.isWhitespace c = true

def BodyValid (T : CharTable) : PathPart → Prop
  | word key => key ≠ [] ∧ ∀ c ∈ key, wordChar T c = true
  | quoted _ quote _ _ => quote = '"' ∨ quote = '\''
  | index _ _ digits _ => digits ≠ [] ∧ (∀ c ∈ digits, c.isDigit = true) ∧ decimal digits < 2 ^ 64
  | _ => True

def Valid (T : CharTable) (p : PathPart) : Prop :=
  p.BodyValid T ∧ ∀ before after, p.blanks = some (before, after) → Blank T before ∧ Blank T after

/-- The index has a plus sign. -/
def Signed : PathPart → Prop
  | index _ plus _ _ => plus = true
  | _ => False

/-- A quoted key has a closing bracket in it. -/
def Cut : PathPart → Prop
  | quoted _ _ key _ => ']' ∈ key
  | _ => False

end PathPart

/-- A mode word with the blanks after it. -/
inductive Mode
  | none
  | strict (blanks : List Char)
  | lax (blanks : List Char)

def Mode.text : Mode → List Char
  | none => []
  | strict blanks => "strict ".toList ++ blanks
  | lax blanks => "lax ".toList ++ blanks

def Mode.blanks : Mode → List Char
  | none => []
  | strict blanks => blanks
  | lax blanks => blanks

structure Spelling where
  lead : List Char
  mode : Mode
  parts : List PathPart
  trail : List Char

namespace Spelling

def text (w : Spelling) : List Char :=
  w.lead ++ (w.mode.text ++ '$' :: w.parts.flatMap PathPart.text) ++ w.trail

def steps (w : Spelling) : List Step := w.parts.map PathPart.step

def Valid (T : CharTable) (w : Spelling) : Prop :=
  PathPart.Blank T w.lead ∧ PathPart.Blank T w.mode.blanks ∧ PathPart.Blank T w.trail ∧
    ∀ p ∈ w.parts, p.Valid T

def Signed (w : Spelling) : Prop := ∃ p ∈ w.parts, p.Signed

def Cut (w : Spelling) : Prop := ∃ p ∈ w.parts, p.Cut

end Spelling

/-- A path of the navigation subset, whatever its keys. -/
def Navigation (T : CharTable) (raw : List Char) : Prop :=
  ∃ w : Spelling, w.Valid T ∧ ¬ w.Signed ∧ w.text = raw

namespace CharTable

variable {T : CharTable}

theorem not_blank {c : Char} (h : c.toNat < 128)
    (hc : c ∉ [' ', '\t', '\n', '\x0b', '\x0c', '\r']) : T.isWhitespace c = false := by
  rw [T.isWhitespace_ascii c h, decide_eq_false hc]

theorem not_word {c : Char} (h : c.toNat < 128) (hc : c.isAlphanum = false) (hscore : c ≠ '_') :
    wordChar T c = false := by
  simp [wordChar, T.isAlphanumeric_ascii c h, hc, hscore]

theorem word_not_blank {c : Char} (h : wordChar T c = true) : T.isWhitespace c = false := by
  rcases Bool.or_eq_true_iff.mp h with halnum | hscore
  · exact T.disjoint c halnum
  · rw [beq_iff_eq.mp hscore]
    exact not_blank (by decide) (by decide)

end CharTable

open CharTable PathPart

variable {T : CharTable}

theorem takeWhile_stop {p : Char → Bool} {body rest : List Char} (hbody : ∀ c ∈ body, p c = true)
    (hrest : ∀ c, rest.head? = some c → p c = false) : (body ++ rest).takeWhile p = body := by
  rw [List.takeWhile_append_of_pos hbody]
  cases rest with
  | nil => simp
  | cons c rest => simp [hrest c rfl]

theorem dropWhile_stop {p : Char → Bool} {body rest : List Char} (hbody : ∀ c ∈ body, p c = true)
    (hrest : ∀ c, rest.head? = some c → p c = false) : (body ++ rest).dropWhile p = rest := by
  rw [List.dropWhile_append_of_pos hbody]
  cases rest with
  | nil => simp
  | cons c rest => simp [hrest c rfl]

theorem rdropWhile_stop {p : Char → Bool} {body rest : List Char} (hrest : ∀ c ∈ rest, p c = true)
    (hbody : ∀ c, body.getLast? = some c → p c = false) :
    (body ++ rest).rdropWhile p = body := by
  rw [List.rdropWhile, List.reverse_append, dropWhile_stop, List.reverse_reverse]
  · simpa using hrest
  · simpa using hbody

theorem trimStart_eq {before s : List Char} (hbefore : Blank T before)
    (hs : ∀ c, s.head? = some c → T.isWhitespace c = false) : trimStart T (before ++ s) = s :=
  dropWhile_stop hbefore hs

theorem trim_eq {before body after : List Char} (hbefore : Blank T before) (hafter : Blank T after)
    (hne : body ≠ []) (hhead : ∀ c, body.head? = some c → T.isWhitespace c = false)
    (hlast : ∀ c, body.getLast? = some c → T.isWhitespace c = false) :
    trim T (before ++ body ++ after) = body := by
  rw [trim, List.append_assoc, trimStart_eq hbefore]
  · exact rdropWhile_stop hafter hlast
  · intro c hc
    apply hhead
    rwa [List.head?_append_of_ne_nil _ hne] at hc

theorem trimStart_spec (s : List Char) :
    ∃ before, Blank T before ∧ s = before ++ trimStart T s :=
  ⟨s.takeWhile T.isWhitespace, fun _ hc => List.mem_takeWhile_imp hc,
    List.takeWhile_append_dropWhile.symm⟩

theorem trim_spec (s : List Char) :
    ∃ before after, Blank T before ∧ Blank T after ∧ s = before ++ trim T s ++ after := by
  obtain ⟨before, hbefore, hs⟩ := trimStart_spec (T := T) s
  refine ⟨before, (trimStart T s).rtakeWhile T.isWhitespace, hbefore, ?_, ?_⟩
  · intro c hc
    exact List.mem_rtakeWhile_imp hc
  · rw [trim, List.append_assoc, List.rdropWhile_append_rtakeWhile]
    exact hs

theorem unsigned_spec (s : List Char) : ∃ plus, s = sign plus ++ unsigned s := by
  unfold unsigned
  split
  · exact ⟨true, rfl⟩
  · exact ⟨false, rfl⟩

theorem unsigned_sign {digits : List Char} (h : ∀ c ∈ digits, c.isDigit = true) (plus : Bool) :
    unsigned (sign plus ++ digits) = digits := by
  cases plus with
  | true => rfl
  | false =>
    unfold unsigned
    split
    · next rest heq =>
      have hplus := h '+' (by simp [show digits = '+' :: rest from heq])
      exact absurd hplus (by decide)
    · rfl

theorem parseUsize_iff {s : List Char} {n : ℕ} :
    parseUsize s = some n ↔ ∃ plus digits, s = sign plus ++ digits ∧ digits ≠ [] ∧
      (∀ c ∈ digits, c.isDigit = true) ∧ decimal digits < 2 ^ 64 ∧ decimal digits = n := by
  constructor
  · intro h
    unfold parseUsize at h
    split at h
    · next hdigits =>
      obtain ⟨hne, hall, hlt⟩ := hdigits
      obtain ⟨plus, hs⟩ := unsigned_spec s
      exact ⟨plus, _, hs, hne, List.all_eq_true.mp hall, hlt, Option.some.inj h⟩
    · cases h
  · rintro ⟨plus, digits, rfl, hne, hall, hlt, rfl⟩
    rw [parseUsize, unsigned_sign hall, if_pos ⟨hne, List.all_eq_true.mpr hall, hlt⟩]

theorem quotedBy_iff {quote : Char} {inner : List Char} :
    quotedBy quote inner = true ↔ ∃ key, inner = quote :: key ++ [quote] := by
  constructor
  · intro h
    simp only [quotedBy, Bool.and_eq_true, beq_iff_eq, decide_eq_true_eq] at h
    obtain ⟨⟨hhead, hlast⟩, hlength⟩ := h
    cases inner with
    | nil => simp at hlength
    | cons c rest =>
      obtain rfl : c = quote := by simpa using hhead
      have hne : rest ≠ [] := by
        rintro rfl
        simp at hlength
      rw [List.getLast?_cons_of_ne_nil hne] at hlast
      obtain ⟨key, rfl⟩ := List.getLast?_eq_some_iff.mp hlast
      exact ⟨key, rfl⟩
  · rintro ⟨key, rfl⟩
    simp [quotedBy, List.getLast?_cons]

theorem bracket_sound {inner : List Char} {st : Step} (h : bracket inner = some st)
    (before after : List Char) :
    ∃ p : PathPart, p.BodyValid T ∧ p.blanks = some (before, after) ∧ p.body = inner ∧ p.step =
      st := by
  unfold bracket at h
  split at h
  · next hstar => exact ⟨.allElements before after, trivial, rfl, hstar.symm, Option.some.inj h⟩
  · split at h
    · next n hn =>
      obtain ⟨plus, digits, rfl, hne, hall, hlt, rfl⟩ := parseUsize_iff.mp hn
      exact ⟨.index before plus digits after, ⟨hne, hall, hlt⟩, rfl, rfl, Option.some.inj h⟩
    · split at h
      · next hquoted =>
        rcases Bool.or_eq_true_iff.mp hquoted with hquote | hquote
        · obtain ⟨key, rfl⟩ := quotedBy_iff.mp hquote
          refine ⟨.quoted before '"' key after, .inl rfl, rfl, rfl, ?_⟩
          simpa [PathPart.step] using Option.some.inj h
        · obtain ⟨key, rfl⟩ := quotedBy_iff.mp hquote
          refine ⟨.quoted before '\'' key after, .inr rfl, rfl, rfl, ?_⟩
          simpa [PathPart.step] using Option.some.inj h
      · cases h

theorem parseUsize_quoted {quote : Char} (hquote : quote = '"' ∨ quote = '\'') (rest : List Char) :
    parseUsize (quote :: rest) = none := by
  have hdigit : unsigned (quote :: rest) = quote :: rest ∧ quote.isDigit = false := by
    rcases hquote with rfl | rfl
    · exact ⟨rfl, rfl⟩
    · exact ⟨rfl, rfl⟩
  rw [parseUsize, hdigit.1]
  simp [hdigit.2]

theorem bracket_complete {p : PathPart} (hp : p.BodyValid T) (hblanks : p.blanks.isSome) :
    bracket p.body = some p.step := by
  cases p with
  | word key => cases hblanks
  | allValues => cases hblanks
  | allElements before after => rfl
  | index before plus digits after =>
    obtain ⟨hne, hall, hlt⟩ := hp
    have hn : parseUsize (sign plus ++ digits) = some (decimal digits) :=
      parseUsize_iff.mpr ⟨plus, digits, rfl, hne, hall, hlt, rfl⟩
    have hstar : sign plus ++ digits ≠ ['*'] := by
      intro heq
      have hnone : parseUsize ['*'] = none := by decide
      rw [heq, hnone] at hn
      cases hn
    simp only [bracket, PathPart.body, if_neg hstar, hn, PathPart.step]
  | quoted before quote key after =>
    have hquote : quote = '"' ∨ quote = '\'' := hp
    have hnone : parseUsize (quote :: key ++ [quote]) = none := parseUsize_quoted hquote _
    have hquoted : (quotedBy '"' (quote :: key ++ [quote]) ||
        quotedBy '\'' (quote :: key ++ [quote])) = true := by
      rw [Bool.or_eq_true]
      rcases hquote with rfl | rfl
      · exact .inl (quotedBy_iff.mpr ⟨key, rfl⟩)
      · exact .inr (quotedBy_iff.mpr ⟨key, rfl⟩)
    have hstar : quote :: key ++ [quote] ≠ ['*'] := by simp
    rw [bracket, PathPart.body, if_neg hstar, hnone]
    dsimp only
    rw [if_pos hquoted]
    simp [PathPart.step]

theorem digit_not_blank {c : Char} (h : c.isDigit = true) : T.isWhitespace c = false := by
  apply T.disjoint
  have hle : 48 ≤ c.toNat ∧ c.toNat ≤ 57 := Char.isDigit_iff_toNat.mp h
  rw [T.isAlphanumeric_ascii c (by omega)]
  simp [Char.isAlphanum, h]

theorem PathPart.body_ends {p : PathPart} (hp : p.Valid T) : p.body ≠ [] ∧
    (∀ c, p.body.head? = some c → T.isWhitespace c = false) ∧
    ∀ c, p.body.getLast? = some c → T.isWhitespace c = false := by
  have hall : (∀ c ∈ p.body, T.isWhitespace c = false) →
      (∀ c, p.body.head? = some c → T.isWhitespace c = false) ∧
        ∀ c, p.body.getLast? = some c → T.isWhitespace c = false := by
    intro h
    constructor
    · intro c hc
      exact h c (List.mem_of_mem_head? hc)
    · intro c hc
      exact h c (List.mem_of_getLast? hc)
  cases p with
  | word key =>
    obtain ⟨⟨hne, hword⟩, -⟩ := hp
    exact ⟨hne, hall fun c hc => word_not_blank (hword c hc)⟩
  | allValues | allElements => exact ⟨by simp [body], hall (by simp [body, not_blank])⟩
  | index before plus digits after =>
    obtain ⟨⟨hne, hdigits, -⟩, -⟩ := hp
    refine ⟨by simp [body, hne], hall ?_⟩
    intro c hc
    rcases List.mem_append.mp hc with hsign | hdigit
    · cases plus with
      | true =>
        rw [List.mem_singleton.mp hsign]
        exact not_blank (by decide) (by decide)
      | false => cases hsign
    · exact digit_not_blank (hdigits c hdigit)
  | quoted before quote key after =>
    have hquote : T.isWhitespace quote = false := by
      rcases hp.1 with rfl | rfl
      · exact not_blank (by decide) (by decide)
      · exact not_blank (by decide) (by decide)
    refine ⟨by simp [body], ?_, ?_⟩
    · intro c hc
      obtain rfl : quote = c := by simpa [body] using hc
      exact hquote
    · intro c hc
      obtain rfl : quote = c := by simpa [body, List.getLast?_cons] using hc
      exact hquote

/-- Only a quoted key can have the bracket in it that the scanner stops at. -/
theorem PathPart.not_mem_body {p : PathPart} (hp : p.Valid T) (hcut : ¬ p.Cut) : ']' ∉ p.body := by
  cases p with
  | word key =>
    intro hmem
    have hword := hp.1.2 ']' hmem
    rw [not_word (by decide) (by decide) (by decide)] at hword
    cases hword
  | allValues => simp [body]
  | allElements => simp [body]
  | index before plus digits after =>
    intro hmem
    rcases List.mem_append.mp hmem with hsign | hdigit
    · cases plus with
      | true => simp [sign] at hsign
      | false => cases hsign
    · exact absurd (hp.1.2.1 ']' hdigit) (by decide)
  | quoted before quote key after =>
    have hquote : ']' ≠ quote := by
      rcases hp.1 with rfl | rfl
      · decide
      · decide
    have hkey : ']' ∉ key := hcut
    simp [body, hquote, hkey]

theorem nextStep_bracket (inner rest : List Char) (h : ']' ∉ inner) :
    nextStep T ('[' :: inner ++ ']' :: rest) =
      (bracket (trim T inner)).map fun step => (step, rest) := by
  have hinner : ∀ c ∈ inner, (c != ']') = true := by
    intro c hc
    rw [bne_iff_ne]
    rintro rfl
    exact h hc
  have hstop : ∀ c, (']' :: rest).head? = some c → (c != ']') = false := by
    intro c hc
    cases hc
    rfl
  rw [List.cons_append, nextStep, dropWhile_stop hinner hstop, takeWhile_stop hinner hstop]
  rfl

/-- The text goes on with another step, or ends. -/
def Boundary (rest : List Char) : Prop := ∀ c, rest.head? = some c → inWord c = false

theorem nextStep_word {key rest : List Char} (hne : key ≠ [])
    (hword : ∀ c ∈ key, wordChar T c = true)
    (hrest : Boundary rest) :
    nextStep T ('.' :: key ++ rest) = some (.key (String.ofList key), rest) := by
  have hin : ∀ c ∈ key, inWord c = true := by
    intro c hc
    rw [inWord, Bool.and_eq_true, bne_iff_ne, bne_iff_ne]
    constructor
    · rintro rfl
      have hfalse := hword '.' hc
      rw [not_word (by decide) (by decide) (by decide)] at hfalse
      cases hfalse
    · rintro rfl
      have hfalse := hword '[' hc
      rw [not_word (by decide) (by decide) (by decide)] at hfalse
      cases hfalse
  have hstar : ∀ tail, key ++ rest = '*' :: tail → False := by
    intro tail heq
    cases key with
    | nil => exact hne rfl
    | cons c key =>
      obtain ⟨rfl, -⟩ := List.cons.inj heq
      have hfalse := hword '*' (by simp)
      rw [not_word (by decide) (by decide) (by decide)] at hfalse
      cases hfalse
  rw [List.cons_append, nextStep]
  · rw [takeWhile_stop hin hrest, dropWhile_stop hin hrest,
      if_pos ⟨hne, List.all_eq_true.mpr hword⟩]
  · exact hstar

theorem nextStep_complete {p : PathPart} (hp : p.Valid T) (hcut : ¬ p.Cut) {rest : List Char}
    (hrest : Boundary rest) : nextStep T (p.text ++ rest) = some (p.step, rest) := by
  cases hblanks : p.blanks with
  | none =>
    cases p with
    | word key => exact nextStep_word hp.1.1 hp.1.2 hrest
    | allValues => rfl
    | quoted => cases hblanks
    | index => cases hblanks
    | allElements => cases hblanks
  | some blanks =>
    obtain ⟨before, after⟩ := blanks
    obtain ⟨hbefore, hafter⟩ := hp.2 before after hblanks
    obtain ⟨hne, hhead, hlast⟩ := p.body_ends hp
    have hbracket : T.isWhitespace ']' = false := not_blank (by decide) (by decide)
    have hblank : ∀ s, Blank T s → ']' ∉ s := by
      intro s hs hmem
      rw [hs ']' hmem] at hbracket
      cases hbracket
    have hinner : ']' ∉ before ++ p.body ++ after := by
      simp only [List.mem_append, not_or]
      exact ⟨⟨hblank before hbefore, p.not_mem_body hp hcut⟩, hblank after hafter⟩
    have htext : p.text ++ rest = '[' :: (before ++ p.body ++ after) ++ ']' :: rest := by
      simp [text, hblanks]
    rw [htext, nextStep_bracket _ _ hinner, trim_eq hbefore hafter hne hhead hlast,
      bracket_complete hp.1 (by simp [hblanks])]
    rfl

theorem nextStep_sound {chars rest : List Char} {st : Step}
    (h : nextStep T chars = some (st, rest)) :
    ∃ p : PathPart, p.Valid T ∧ ¬ p.Cut ∧ chars = p.text ++ rest ∧ p.step = st := by
  unfold nextStep at h
  split at h
  · cases h
    exact ⟨.allValues, ⟨trivial, by simp [blanks]⟩, not_false, rfl, rfl⟩
  · next tail hstar =>
    split at h
    · next hword =>
      cases h
      refine ⟨.word (tail.takeWhile inWord), ⟨⟨hword.1, List.all_eq_true.mp hword.2⟩,
        by simp [blanks]⟩, not_false, ?_, rfl⟩
      simp [text, blanks, body]
    · cases h
  · next tail =>
    split at h
    · next after hafter =>
      obtain ⟨st', hst, heq⟩ := Option.map_eq_some_iff.mp h
      cases heq
      obtain ⟨before, trail, hbefore, htrail, hinner⟩ :=
          trim_spec (T := T) (tail.takeWhile (· != ']'))
      obtain ⟨p, hp, hblanks, hbody, hstep⟩ := bracket_sound (T := T) hst before trail
      have htail : tail = before ++ p.body ++ trail ++ ']' :: rest := by
        rw [hbody, ← hinner, ← hafter, List.takeWhile_append_dropWhile]
      refine ⟨p, ⟨hp, ?_⟩, ?_, ?_, hstep⟩
      · intro before' after' heq
        cases hblanks.symm.trans heq
        exact ⟨hbefore, htrail⟩
      · intro hcut
        have hnot : ']' ∉ tail.takeWhile (· != ']') := by
          intro hmem
          simpa using List.mem_takeWhile_imp hmem
        apply hnot
        rw [hinner, ← hbody]
        cases p with
        | quoted _ quote key _ => simp [body, show ']' ∈ key from hcut]
        | word | allValues | index | allElements => cases hcut
      · rw [htail]
        simp [text, hblanks]
    · cases h
  · cases h

theorem boundary_text (parts : List PathPart) : Boundary (parts.flatMap PathPart.text) := by
  intro c hc
  cases parts with
  | nil => cases hc
  | cons p parts =>
    rw [List.flatMap_cons, PathPart.text] at hc
    split at hc
    · cases hc
      rfl
    · cases hc
      rfl

theorem PathPart.text_ne_nil (p : PathPart) : p.text ≠ [] := by
  unfold text
  split
  · simp
  · simp

theorem parseSteps_complete {parts : List PathPart} (h : ∀ p ∈ parts, p.Valid T ∧ ¬ p.Cut) :
    parseSteps T (parts.flatMap PathPart.text) = some (parts.map PathPart.step) := by
  induction parts with
  | nil =>
    rw [parseSteps]
    rfl
  | cons p parts ih =>
    obtain ⟨hp, hcut⟩ := h p (by simp)
    have hstep := nextStep_complete hp hcut (boundary_text parts)
    have htail := ih fun q hq => h q (by simp [hq])
    rw [List.flatMap_cons, parseSteps, if_neg (by simp [p.text_ne_nil])]
    split
    · next hnone =>
      rw [hstep] at hnone
      cases hnone
    · next st rest hsome =>
      rw [hstep] at hsome
      cases hsome
      rw [htail]
      rfl

theorem parseSteps_sound {chars : List Char} {steps : List Step}
    (h : parseSteps T chars = some steps) : ∃ parts : List PathPart,
      (∀ p ∈ parts, p.Valid T ∧ ¬ p.Cut) ∧ chars = parts.flatMap PathPart.text ∧
        parts.map PathPart.step = steps := by
  induction chars using parseSteps.induct T generalizing steps with
  | case1 =>
    rw [parseSteps, if_pos rfl] at h
    cases h
    exact ⟨[], by simp, rfl, rfl⟩
  | case2 chars hne hnone =>
    rw [parseSteps, if_neg hne] at h
    split at h
    · cases h
    · next heq =>
      rw [hnone] at heq
      cases heq
  | case3 chars hne st rest hsome ih =>
    rw [parseSteps, if_neg hne] at h
    split at h
    · cases h
    · next st' rest' heq =>
      cases hsome.symm.trans heq
      obtain ⟨tail, htail, rfl⟩ := Option.map_eq_some_iff.mp h
      obtain ⟨p, hp, hcut, rfl, rfl⟩ := nextStep_sound hsome
      obtain ⟨parts, hparts, rfl, rfl⟩ := ih htail
      exact ⟨p :: parts, by simpa using ⟨⟨hp, hcut⟩, hparts⟩, rfl, rfl⟩

theorem last_text {parts : List PathPart} (h : ∀ p ∈ parts, p.Valid T) (c : Char)
    (hc : ('$' :: parts.flatMap PathPart.text).getLast? = some c) : T.isWhitespace c = false := by
  induction parts using List.reverseRecOn with
  | nil =>
    cases hc
    exact not_blank (by decide) (by decide)
  | append_singleton parts p =>
    have hp := h p (by simp)
    obtain ⟨hne, -, hlast⟩ := p.body_ends hp
    rw [List.flatMap_append, List.flatMap_singleton, ← List.cons_append,
      List.getLast?_append_of_ne_nil _ p.text_ne_nil, PathPart.text] at hc
    split at hc
    · obtain rfl : ']' = c := by simpa [List.getLast?_cons] using hc
      exact not_blank (by decide) (by decide)
    · rw [List.getLast?_cons_of_ne_nil hne] at hc
      exact hlast c hc

theorem skipMode_text {mode : Mode} (h : Blank T mode.blanks) (chars : List Char) :
    skipMode T (mode.text ++ '$' :: chars) = '$' :: chars := by
  have hdollar : ∀ c, ('$' :: chars).head? = some c → T.isWhitespace c = false := by
    intro c hc
    cases hc
    exact not_blank (by decide) (by decide)
  cases mode with
  | none => rfl
  | strict blanks => exact trimStart_eq h hdollar
  | lax blanks => exact trimStart_eq h hdollar

theorem skipMode_spec {s chars : List Char} (h : skipMode T s = '$' :: chars) :
    ∃ mode : Mode, Blank T mode.blanks ∧ s = mode.text ++ '$' :: chars := by
  unfold skipMode at h
  split at h
  · next rest =>
    obtain ⟨blanks, hblanks, hrest⟩ := trimStart_spec (T := T) rest
    exact ⟨.strict blanks, hblanks, by rw [hrest, h]; rfl⟩
  · next rest =>
    obtain ⟨blanks, hblanks, hrest⟩ := trimStart_spec (T := T) rest
    exact ⟨.lax blanks, hblanks, by rw [hrest, h]; rfl⟩
  · exact ⟨.none, by simp [Mode.blanks, Blank], h⟩

theorem parsePath_complete {w : Spelling} (hw : w.Valid T) (hcut : ¬ w.Cut) :
    parsePath T w.text = some w.steps := by
  obtain ⟨hlead, hmode, htrail, hparts⟩ := hw
  have hne : w.mode.text ++ '$' :: w.parts.flatMap PathPart.text ≠ [] := by simp
  have hhead : ∀ c, (w.mode.text ++ '$' :: w.parts.flatMap PathPart.text).head? = some c →
      T.isWhitespace c = false := by
    intro c hc
    cases hm : w.mode with
    | none | strict | lax =>
      rw [hm] at hc
      cases hc
      exact not_blank (by decide) (by decide)
  have hlast : ∀ c, (w.mode.text ++ '$' :: w.parts.flatMap PathPart.text).getLast? = some c →
      T.isWhitespace c = false := by
    intro c hc
    rw [List.getLast?_append_of_ne_nil _ (by simp)] at hc
    exact last_text hparts c hc
  rw [parsePath, Spelling.text, trim_eq hlead htrail hne hhead hlast, skipMode_text hmode]
  exact parseSteps_complete fun p hp => ⟨hparts p hp, fun h => hcut ⟨p, hp, h⟩⟩

theorem parsePath_sound {raw : List Char} {steps : List Step} (h : parsePath T raw = some steps) :
    ∃ w : Spelling, w.Valid T ∧ ¬ w.Cut ∧ w.text = raw ∧ w.steps = steps := by
  unfold parsePath at h
  split at h
  · next chars hchars =>
    obtain ⟨mode, hmode, hs⟩ := skipMode_spec hchars
    obtain ⟨lead, trail, hlead, htrail, hraw⟩ := trim_spec (T := T) raw
    obtain ⟨parts, hparts, rfl, rfl⟩ := parseSteps_sound h
    refine ⟨⟨lead, mode, parts, trail⟩, ⟨hlead, hmode, htrail, fun p hp => (hparts p hp).1⟩, ?_, ?_,
        rfl⟩
    · rintro ⟨p, hp, hcut⟩
      exact (hparts p hp).2 hcut
    · rw [hraw, hs]
      rfl
  · cases h

theorem PathPart.key_not_cut {p : PathPart} (hp : p.Valid T) (hcut : ¬ p.Cut) {k : String}
    (hk : p.step = .key k) : ']' ∉ k.toList := by
  have hbody := p.not_mem_body hp hcut
  cases p with
  | word key =>
    cases hk
    simpa [body] using hbody
  | quoted before quote key after =>
    cases hk
    have hkey : ']' ∉ key := hcut
    simpa using hkey
  | allValues => cases hk
  | index => cases hk
  | allElements => cases hk

theorem parsePath_key {raw : List Char} {steps : List Step} (h : parsePath T raw = some steps)
    {k : String} (hk : Step.key k ∈ steps) : ']' ∉ k.toList := by
  obtain ⟨w, hw, hcut, -, rfl⟩ := parsePath_sound h
  obtain ⟨p, hp, hkey⟩ := List.mem_map.mp hk
  exact p.key_not_cut (hw.2.2.2 p hp) (fun h => hcut ⟨p, hp, h⟩) hkey

/-- A path is read back as the steps it is written from when no quoted key has a `]` in it.
Of the strings that are no such paths, those that are accepted have a plus sign before an
index. The steps select what the reference semantics does. -/
theorem navigation_faithful (T : CharTable) :
    (∀ w : Spelling, w.Valid T → ¬ w.Signed → (parsePath T w.text = some w.steps ↔ ¬ w.Cut)) ∧
      (∀ raw, ¬ Navigation T raw → (parsePath T raw = none ↔
        ¬ ∃ w : Spelling, w.Valid T ∧ w.Signed ∧ ¬ w.Cut ∧ w.text = raw)) ∧
      ∀ (F : Type) (root : Json F) (steps : List Step), eval root steps = select steps root := by
  refine ⟨fun w hw _ => ⟨fun h => ?_, parsePath_complete hw⟩, fun raw hraw => ⟨?_, fun h => ?_⟩,
    fun F => eval_eq_select⟩
  · rintro ⟨p, hp, hcut⟩
    cases p with
    | quoted before quote key after =>
      have hkey : ']' ∈ key := hcut
      have hstep : Step.key (String.ofList key) ∈ w.steps := List.mem_map_of_mem hp
      exact parsePath_key h hstep (by simpa using hkey)
    | word | allValues | index | allElements => cases hcut
  · rintro hnone ⟨w, hw, -, hcut, rfl⟩
    rw [parsePath_complete hw hcut] at hnone
    cases hnone
  · cases hparse : parsePath T raw with
    | none => rfl
    | some steps =>
      obtain ⟨w, hw, hcut, htext, -⟩ := parsePath_sound hparse
      by_cases hsigned : w.Signed
      · exact absurd ⟨w, hw, hsigned, hcut, htext⟩ h
      · exact absurd ⟨w, hw, hsigned, htext⟩ hraw

def asciiTable : CharTable where
  isWhitespace c := decide (c ∈ [' ', '\t', '\n', '\x0b', '\x0c', '\r'])
  isAlphanumeric := Char.isAlphanum
  isWhitespace_ascii _ _ := rfl
  isAlphanumeric_ascii _ _ := rfl
  disjoint c h := by
    rw [decide_eq_false_iff_not]
    intro hc
    simp only [List.mem_cons, List.not_mem_nil, or_false] at hc
    rcases hc with rfl | rfl | rfl | rfl | rfl | rfl
    all_goals exact absurd h (by decide)

/-- The key of `$["a]b"]` ends at its bracket. -/
theorem bracketed_key_rejected : ¬ ∀ w : Spelling, w.Valid asciiTable → ¬ w.Signed →
    parsePath asciiTable w.text = some w.steps := by
  intro h
  have hsteps := h ⟨[], .none, [.quoted [] '"' "a]b".toList []], []⟩
    (by simp [Spelling.Valid, PathPart.Valid, PathPart.BodyValid, PathPart.blanks, Blank,
      Mode.blanks])
    (by simp [Spelling.Signed, PathPart.Signed])
  have hkey : Step.key "a]b" ∈ [Step.key (String.ofList "a]b".toList)] := by simp
  exact parsePath_key hsteps hkey (by decide)

end BlueDB.Query
