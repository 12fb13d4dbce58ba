import BlueDB.Collections.Json
import BlueDB.Lib.OrderedMap
import Mathlib.Data.String.Basic

/-!
# Updates

An update without operators replaces a document and keeps its `_id`. Operators change
fields of the document, one operator after the other in the order of their names.
-/

namespace BlueDB.Collections

/-- The sum of two floats, unless it is infinite. -/
class Sums (F : Type) extends Doubles F where
  add : F → F → Option F

/-- The fields of an object, in the order of their keys. -/
abbrev Fields (F : Type) := List (String × Json F)

inductive MqlError
  | unsupportedOperator (op : String)
  | malformed (what : String)

variable {F : Type} [Sums F]

def JsonNumber.same : JsonNumber F → JsonNumber F → Bool
  | .int i _, .int j _ => decide (i = j)
  | .float f, .float g => decide (f = g)
  | _, _ => false

mutual

def Json.same : Json F → Json F → Bool
  | .null, .null => true
  | .bool b, .bool c => b == c
  | .number m, .number n => m.same n
  | .string s, .string t => s == t
  | .array xs, .array ys => Json.sameItems xs ys
  | .object fs, .object gs => Json.sameFields fs gs
  | _, _ => false

def Json.sameItems : List (Json F) → List (Json F) → Bool
  | [], [] => true
  | x :: xs, y :: ys => x.same y && Json.sameItems xs ys
  | _, _ => false

def Json.sameFields : Fields F → Fields F → Bool
  | [], [] => true
  | f :: fs, g :: gs => Json.sameField f g && Json.sameFields fs gs
  | _, _ => false

def Json.sameField : String × Json F → String × Json F → Bool
  | (k, v), (l, w) => k == l && v.same w

end

def Json.asF64 : Json F → Option F
  | .number n => some n.asF64
  | _ => none

theorem clamp_range (i : ℤ) :
    i64Min ≤ max i64Min (min i64Max i) ∧ max i64Min (min i64Max i) < 2 ^ 64 := by
  unfold i64Min i64Max
  omega

/-- A sum as a value: an integer when it has no fraction, and null when it is infinite. -/
def num : Option F → Json F
  | some f =>
    match Doubles.whole f with
    | some i => .number (.int (max i64Min (min i64Max i)) (clamp_range i))
    | none => .number (.float f)
  | none => .null

def setField (fields : Fields F) (f : String × Json F) : Fields F :=
  OrderedMap.insertEntry f.1 f.2 fields

def unsetField (fields : Fields F) (f : String × Json F) : Fields F :=
  fields.filter fun g => g.1 != f.1

def incField (fields : Fields F) (f : String × Json F) : Except MqlError (Fields F) :=
  let cur := ((fields.lookup f.1).bind Json.asF64).getD (Doubles.ofInt 0)
  match f.2.asF64 with
  | some x => .ok (setField fields (f.1, num (Sums.add cur x)))
  | none => .error (.malformed "$inc needs a number")

def pushField (fields : Fields F) (f : String × Json F) : Except MqlError (Fields F) :=
  match fields.lookup f.1 with
  | none => .ok (setField fields (f.1, .array [f.2]))
  | some (.array items) => .ok (setField fields (f.1, .array (items ++ [f.2])))
  | some _ => .error (.malformed "$push target not an array")

def pullField (fields : Fields F) (f : String × Json F) : Fields F :=
  match fields.lookup f.1 with
  | some (.array items) => setField fields (f.1, .array (items.filter fun x => !x.same f.2))
  | _ => fields

def applyOp (fields : Fields F) (op : String × Json F) : Except MqlError (Fields F) :=
  match op.2 with
  | .object body =>
    match op.1 with
    | "$set" => .ok (body.foldl setField fields)
    | "$unset" => .ok (body.foldl unsetField fields)
    | "$inc" => body.foldlM incField fields
    | "$push" => body.foldlM pushField fields
    | "$pull" => .ok (body.foldl pullField fields)
    | other => .error (.unsupportedOperator other)
  | _ => .error (.malformed (op.1 ++ " takes an object"))

/-- The fields of the updated document. -/
def applyUpdate (doc update : Json F) : Except MqlError (Fields F) :=
  match update with
  | .object upd =>
    if upd.any fun op => op.1.toList.head? == some '$' then
      match doc with
      | .object fields => upd.foldlM applyOp fields
      | _ => .error (.malformed "doc must be object")
    else
      match doc.get "_id" with
      | some id => .ok (setField upd ("_id", id))
      | none => .ok upd
  | _ => .error (.malformed "update must be an object")

def trimQuotes (s : String) : String :=
  String.ofList ((s.toList.dropWhile (· == '"')).reverse.dropWhile (· == '"')).reverse

/-- The fields with a text `_id`, which is the given new one when they have none. -/
def ensureId (fresh : String) (fields : Fields F) : Fields F × String :=
  let id := match fields.lookup "_id" with
    | some (.string s) => s
    | some v => trimQuotes v.write
    | none => fresh
  (setField fields ("_id", .string id), id)

end BlueDB.Collections
