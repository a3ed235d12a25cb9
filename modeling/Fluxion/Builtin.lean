import Fluxion.Json.Codec

/-!
# Builtin — the functions a compiled procedure can call

Nine functions of one argument, each known by its name.
-/

namespace Fluxion

/-- A function a procedure can evaluate. -/
inductive Builtin where
  | sin
  | cos
  | exp
  | log
  | sqrt
  | abs
  | real
  | imag
  | conj
  deriving Repr, DecidableEq

namespace Builtin

def name : Builtin → String
  | sin => "sin"
  | cos => "cos"
  | exp => "exp"
  | log => "log"
  | sqrt => "sqrt"
  | abs => "abs"
  | real => "real"
  | imag => "imag"
  | conj => "conj"

/-- Every builtin, once. -/
def all : List Builtin := [sin, cos, exp, log, sqrt, abs, real, imag, conj]

/-- The builtin of a name. -/
def ofName? (name : String) : Option Builtin := all.find? (·.name == name)

/-- How many arguments the function of a name takes: one, if there is such a function. -/
def arity? (name : String) : Option Nat := (ofName? name).map fun _ => 1

/-- Functions with `f 0 = 0`. -/
def preservesZero : Builtin → Bool
  | cos | exp | log => false
  | _ => true

/-- The builtin a JSON variant names. -/
def ofJson? (j : Json) : Option Builtin := do
  let (tag, payload) ← j.variant?
  if Json.isUnit payload then ofName? tag else none

end Builtin

instance : Codec Builtin := ⟨fun b => .str b.name, fun _ => Builtin.ofJson?⟩

end Fluxion
