import Fluxion.Decimal.Scaled
import Fluxion.Decimal.Text

/-!
# Json/Basic — JSON values

A number is an integer of 64 bits or a finite floating point number.  An object keeps its entries in
order, repeated keys included, so that a reader can refuse them.

Some text is well formed and still has no value: a string with half of a surrogate pair, a number
that overflows.  Such a part is `Json.unreadable`.  It may stand where nobody reads it, and so may
everything below the level to which a value is clipped (`Json.clip`).
-/

namespace Fluxion

/-- A JSON number. -/
inductive Number where
  /-- An integer of 64 bits, with or without sign. -/
  | int (n : Int)
  /-- A finite number that is not written as such an integer. -/
  | float (x : Float)

/-- A JSON value. -/
inductive Json where
  | null
  | bool (b : Bool)
  | num (n : Number)
  | str (s : String)
  | arr (items : List Json)
  | obj (entries : List (String × Json))
  /-- A well-formed part without a value. -/
  | unreadable

namespace Number

/-- The number a literal stands for, unless it overflows.  A literal without point and exponent is
an integer if it fits; a negative zero does not. -/
def ofLiteral? (negative integral : Bool) (d : Decimal) : Option Number :=
  let fits := !negative || (decide (0 < d.coeff) && decide (d.coeff ≤ 0x8000000000000000))
  if integral && d.exponent == 0 && fits then
    some (.int (if negative then -d.coeff else d.coeff))
  else d.toFloat?.map fun x => .float (if negative then -x else x)

/-- The integer a number is written as. -/
def toInt? : Number → Option Int
  | .int n => some n
  | .float _ => none

/-- The number as a floating point number, the nearest one for an integer. -/
def toFloat : Number → Float
  | .int n => Float.ofInt n
  | .float x => x

/-- Fractions are positional from `1e-5` up to below `1e16`, keep a point and sign every exponent;
of two equally short decimals the even one is written. -/
def format : Format :=
  ⟨fun x => decide (-5 ≤ x) && decide (x < 16), true, true, .even⟩

/-- The text of a number. -/
def text : Number → String
  | .int n => String.ofList ((if n < 0 then ['-'] else []) ++ Decimal.digitsOf n.natAbs)
  | .float x => format.write x

end Number

namespace Json

mutual

/-- How deep arrays and objects are nested; zero for a value that is neither. -/
def nesting : Json → Nat
  | .arr items => nestingItems items + 1
  | .obj entries => nestingEntries entries + 1
  | _ => 0

/-- The deepest nesting among the items of an array. -/
def nestingItems : List Json → Nat
  | [] => 0
  | j :: rest => max (nesting j) (nestingItems rest)

/-- The deepest nesting among the entries of an object. -/
def nestingEntries : List (String × Json) → Nat
  | [] => 0
  | e :: rest => max (nestingEntry e) (nestingEntries rest)

/-- The nesting of an entry's value. -/
def nestingEntry : String × Json → Nat
  | (_, j) => nesting j

end

mutual

/-- The value with arrays and objects below a number of levels made unreadable. -/
def clip (levels : Nat) : Json → Json
  | .arr items =>
    match levels with
    | 0 => .unreadable
    | levels + 1 => .arr (clipItems levels items)
  | .obj entries =>
    match levels with
    | 0 => .unreadable
    | levels + 1 => .obj (clipEntries levels entries)
  | j => j

/-- The items of an array, each clipped. -/
def clipItems (levels : Nat) : List Json → List Json
  | [] => []
  | j :: rest => clip levels j :: clipItems levels rest

/-- The entries of an object, each clipped. -/
def clipEntries (levels : Nat) : List (String × Json) → List (String × Json)
  | [] => []
  | e :: rest => clipEntry levels e :: clipEntries levels rest

/-- An entry with its value clipped. -/
def clipEntry (levels : Nat) : String × Json → String × Json
  | (k, j) => (k, clip levels j)

end

/-- An integer. -/
def int (n : Int) : Json := .num (.int n)

/-- A floating point number; what is not finite is written `null`. -/
def float (x : Float) : Json := if x.isNaN || x.isInf then .null else .num (.float x)

end Json

end Fluxion
