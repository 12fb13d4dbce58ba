import Mathlib.Tactic

/-!
# Documents

A document is a JSON value. A dotted path leads to a field of it, which is read as text,
or as the typed value that an index column of the path stores.
-/

namespace BlueDB.Collections

/-- The 64-bit floating-point numbers, as far as JSON has them. -/
class Doubles (F : Type) extends LinearOrder F where
  ofInt : ℤ → F
  /-- The integer that the number is, when it has no fraction. -/
  whole : F → Option ℤ
  text : F → String

def i64Min : ℤ := -2 ^ 63

def i64Max : ℤ := 2 ^ 63 - 1

/-- A number is an `i64`, a `u64` or a float. -/
inductive JsonNumber (F : Type)
  | int (i : ℤ) (range : i64Min ≤ i ∧ i < 2 ^ 64)
  | float (f : F)

inductive Json (F : Type)
  | null
  | bool (b : Bool)
  | number (n : JsonNumber F)
  | string (s : String)
  | array (items : List (Json F))
  | object (fields : List (String × Json F))

variable {F : Type}

namespace JsonNumber

def asI64 : JsonNumber F → Option ℤ
  | .int i _ => if i ≤ i64Max then some i else none
  | .float _ => none

variable [Doubles F]

def asF64 : JsonNumber F → F
  | .int i _ => Doubles.ofInt i
  | .float f => f

end JsonNumber

section

variable [Doubles F]

/-- The value that a cast to `i64` gives a float without fraction in the range. -/
def wholeI64 (f : F) : Option ℤ :=
  match Doubles.whole f with
  | some i =>
    if Doubles.ofInt i64Min ≤ f ∧ f ≤ Doubles.ofInt i64Max then some (max i64Min (min i64Max i))
    else none
  | none => none

theorem wholeI64_range {f : F} {i : ℤ} (h : wholeI64 f = some i) : i64Min ≤ i ∧ i < 2 ^ 64 := by
  unfold wholeI64 at h
  split at h
  · split_ifs at h
    obtain rfl := Option.some.inj h
    unfold i64Min i64Max
    omega
  · exact absurd h nofun

def isWholeNumber : Json F → Bool
  | .number (.int _ _) => true
  | .number (.float f) => (wholeI64 f).isSome
  | _ => false

def JsonNumber.text : JsonNumber F → String
  | .int i _ => toString i
  | .float f => Doubles.text f

def hexDigit (n : ℕ) : Char := "0123456789abcdef".toList.getD n '0'

def escapeChar (c : Char) : List Char :=
  match c with
  | '"' => ['\\', '"']
  | '\\' => ['\\', '\\']
  | '\n' => ['\\', 'n']
  | '\r' => ['\\', 'r']
  | '\t' => ['\\', 't']
  | '\x08' => ['\\', 'b']
  | '\x0c' => ['\\', 'f']
  | c => if c.toNat < 32 then ['\\', 'u', '0', '0', hexDigit (c.toNat / 16),
      hexDigit (c.toNat % 16)]
    else [c]

def quoted (s : String) : String := String.ofList ('"' :: s.toList.flatMap escapeChar ++ ['"'])

mutual

/-- The compact JSON text. -/
def Json.write : Json F → String
  | .null => "null"
  | .bool b => if b then "true" else "false"
  | .number n => n.text
  | .string s => quoted s
  | .array items => "[" ++ String.intercalate "," (Json.writeItems items) ++ "]"
  | .object fields => "\x7b" ++ String.intercalate "," (Json.writeFields fields) ++ "\x7d"

def Json.writeItems : List (Json F) → List String
  | [] => []
  | v :: vs => v.write :: Json.writeItems vs

def Json.writeFields : List (String × Json F) → List String
  | [] => []
  | f :: fs => Json.writeField f :: Json.writeFields fs

def Json.writeField : String × Json F → String
  | (k, v) => quoted k ++ ":" ++ v.write

end

/-- The text of a field: a string as it is, anything else as its JSON text. -/
def Json.render : Json F → String
  | .string s => s
  | v => v.write

end

def Json.get (v : Json F) (key : String) : Option (Json F) :=
  match v with
  | .object fields => fields.lookup key
  | _ => none

def segments (path : String) : List String := (path.toList.splitOn '.').map String.ofList

/-- The field at the path. -/
def field (doc : Json F) (path : String) : Option (Json F) :=
  (segments path).foldlM (fun v key => v.get key) doc

/-- Dots become underscores. -/
def flattened (path : String) : String :=
  String.ofList (path.toList.map fun c => if c = '.' then '_' else c)

def derivedCol (path : String) : String := "__cidx_" ++ flattened path

inductive IndexType
  | number
  | bool
  | text
  deriving DecidableEq

variable [Doubles F]

def deriveValue (doc : Json F) (path : String) : Option String := (field doc path).map Json.render

def deriveTypedValue (doc : Json F) (path : String) (t : IndexType) : Option (Json F) :=
  (field doc path).bind fun cur => match t, cur with
    | .number, cur => if isWholeNumber cur then some cur else none
    | .bool, .bool b => some (.bool b)
    | .bool, _ => none
    | .text, cur => some (.string cur.render)

/-- A value of a column or of a literal. -/
inductive Scalar (F : Type)
  | null
  | text (s : String)
  | int (i : ℤ)
  | double (f : F)
  | bool (b : Bool)

/-- How a derived value is written to its column. -/
def jsonValueToParam : Json F → Scalar F
  | .bool b => .bool b
  | .number n =>
    match n.asI64 with
    | some i => .int i
    | none =>
      match wholeI64 n.asF64 with
      | some i => .int i
      | none => .null
  | .string s => .text s
  | .null => .null
  | v => .text v.write

/-- What the index column of a path holds for a document. -/
def cell (doc : Json F) (path : String) (t : IndexType) : Scalar F :=
  match deriveTypedValue doc path t with
  | some v => jsonValueToParam v
  | none => .null

end BlueDB.Collections
