import Fluxion.Json.Parser

/-!
# Json/Codec — records and tagged values as JSON

Values of the library are written in one of two shapes: a *record* is an object of its fields, and a
*variant* is its tag, alone or as the only key of an object that holds what the variant carries.
This module has the readers of both shapes; every data type builds its own codec from them.

Readers are lenient where the format is: fields that are not asked for are skipped, a record may be
written as the array of its fields, and a variant that carries nothing may hold `null`.  They refuse
a field that is missing or repeated.  One licence depends on the `Medium`: the fields of a variant
are written as an array only in a text.
-/

namespace Fluxion

/-- What a JSON value is read from. -/
inductive Medium where
  | text
  /-- A value in memory, which is read more strictly. -/
  | memory
  deriving Repr, DecidableEq

/-- A data type with its JSON form. -/
class Codec (α : Type) where
  encode : α → Json
  decode? : Medium → Json → Option α

export Codec (encode decode?)

/-- The value whose JSON form a text spells. -/
def decodeText? {α : Type} [Codec α] (text : String) : Option α :=
  (Json.parseShallow? text).bind (decode? .text)

namespace Json

/-- The only value of a key; none if the key is missing or repeated. -/
def field? (entries : List (String × Json)) (key : String) : Option Json :=
  match entries.filter (·.1 == key) with
  | [(_, j)] => some j
  | _ => none

/-- The fields of a record in the order asked for. -/
def record? (keys : List String) : Json → Option (List Json)
  | .obj entries => keys.mapM (field? entries)
  | .arr items => if items.length = keys.length then some items else none
  | _ => none

/-- The tag of a variant, and what it carries if it is written as an object. -/
def variant? : Json → Option (String × Option Json)
  | .str tag => some (tag, none)
  | .obj [(tag, j)] => some (tag, some j)
  | _ => none

/-- The fields of a variant in the order asked for. -/
def fields? (m : Medium) (keys : List String) : Option Json → Option (List Json)
  | some (.arr items) => if m = .text then record? keys (.arr items) else none
  | some j => j.record? keys
  | none => none

/-- Whether a variant carries nothing. -/
def isUnit : Option Json → Bool
  | none => true
  | some .null => true
  | _ => false

/-- A variant that carries something. -/
def tagged (tag : String) (j : Json) : Json := .obj [(tag, j)]

def string? : Json → Option String
  | .str s => some s
  | _ => none

def bool? : Json → Option Bool
  | .bool b => some b
  | _ => none

def list? : Json → Option (List Json)
  | .arr items => some items
  | _ => none

/-- An integer between two bounds. -/
def intBetween? (lo hi : Int) : Json → Option Int
  | .num n => n.toInt?.bind fun i => if lo ≤ i ∧ i ≤ hi then some i else none
  | _ => none

/-- A signed 64-bit integer. -/
def int? (j : Json) : Option Int :=
  intBetween? (-0x8000000000000000) 0x7FFFFFFFFFFFFFFF j

/-- An unsigned 64-bit integer. -/
def nat? (j : Json) : Option Nat :=
  (intBetween? 0 0xFFFFFFFFFFFFFFFF j).map Int.toNat

/-- A floating point number: any number will do. -/
def float? : Json → Option Float
  | .num n => some n.toFloat
  | _ => none

end Json

end Fluxion
