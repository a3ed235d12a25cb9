import Fluxion.Builtin
import Fluxion.Scalar.Literal

/-!
# Scalar/Arithmetic — the values a procedure computes with

`Arithmetic K V` is the interface between a value type `V` and the literals `K`: how a literal
becomes a value, the operations on values, and the real part by which values are compared and used
as indices.  Evaluation and execution are written against it and assume no law, so whatever is
proved about them holds of floating point numbers too.
-/

namespace Fluxion

/-- The operations of a value type over the literals `K`. -/
class Arithmetic (K : outParam Type) (V : Type) where
  ofLiteral : K → V
  /-- The real part, used for indices and comparisons. -/
  real : V → K
  /-- None for real types. -/
  imaginaryUnit? : Option V
  add : V → V → V
  sub : V → V → V
  mul : V → V → V
  div : V → V → V
  pow : V → V → V
  neg : V → V
  apply : Builtin → V → V

namespace Arithmetic

variable {K V : Type} [Literal K] [Arithmetic K V]

def zero : V := ofLiteral (Literal.zero : K)

def one : V := ofLiteral (Literal.one : K)

/-- The value of a truth value. -/
def ofBool (b : Bool) : V := if b then one else zero

/-- The imaginary unit, zero in a type that has none. -/
def imaginaryUnit : V := imaginaryUnit?.getD zero

end Arithmetic

/-- Real functions beyond the ring operations.  `isNegative` is the sign of a number, which for
floating point numbers is also a sign of zero. -/
class Elementary (K : Type) extends Literal K where
  div : K → K → K
  neg : K → K
  nan : K
  isInfinite : K → Bool
  isNaN : K → Bool
  isNegative : K → Bool
  sqrt : K → K
  exp : K → K
  log : K → K
  sin : K → K
  cos : K → K
  sinh : K → K
  cosh : K → K
  pow : K → K → K
  hypot : K → K → K
  atan2 : K → K → K

namespace Elementary

variable {K : Type} [Elementary K]

open Literal

/-- `r * a ^ n` by repeated squaring. -/
def powerFrom (a r : K) (n : Nat) : K :=
  let r := if n % 2 = 1 then mul r a else r
  if n / 2 = 0 then r else powerFrom (mul a a) r (n / 2)
termination_by n

/-- An integral power; a negative one is the reciprocal of the positive one. -/
def power (a : K) (e : Int) : K :=
  let r := powerFrom a one e.natAbs
  if e < 0 then div one r else r

/-- Real exponentiation: exact repeated multiplication for integral exponents. -/
def realPow (a e : K) : K :=
  match exponent? e with
  | some n => power a n
  | none => pow a e

/-- A builtin on real numbers, each its own real part and conjugate. -/
def applyReal (b : Builtin) (x : K) : K :=
  match b with
  | .sin => sin x
  | .cos => cos x
  | .exp => exp x
  | .log => log x
  | .sqrt => sqrt x
  | .abs => Literal.abs x
  | .real | .conj => x
  | .imag => zero

end Elementary

/-- Real arithmetic: the literals are the values. -/
instance realArithmetic {K : Type} [Elementary K] : Arithmetic K K where
  ofLiteral := id
  real := id
  imaginaryUnit? := none
  add := Literal.add
  sub := Literal.sub
  mul := Literal.mul
  div := Elementary.div
  pow := Elementary.realPow
  neg := Elementary.neg
  apply := Elementary.applyReal

end Fluxion
