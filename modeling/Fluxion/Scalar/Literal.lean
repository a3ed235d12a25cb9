/-!
# Scalar/Literal — the numbers a system is written with

Expressions and index arithmetic are polymorphic in the type of their literals.  `Literal K` is what
they need of it: ring operations, comparisons, and the step from a number to an array slot.  The
operations are bare — no law is assumed — so that floating point numbers and exact fields are both
instances.
-/

namespace Fluxion

/-- Numbers that can stand in an expression or be counted with. -/
class Literal (K : Type) where
  ofInt : Int → K
  add : K → K → K
  sub : K → K → K
  mul : K → K → K
  abs : K → K
  eq : K → K → Bool
  lt : K → K → Bool
  le : K → K → Bool
  isFinite : K → Bool
  /-- The nearest integer as a number of the same type, a half going away from zero. -/
  round : K → K
  /-- The integer part, as far as integers of the machine reach. -/
  toInt : K → Int
  /-- The integer part of a number that is not negative, as far as machine words reach. -/
  toNat : K → Nat
  /-- How far a computed index may be from an integer. -/
  tolerance : K

namespace Literal

variable {K : Type} [Literal K]

def zero : K := ofInt 0

def one : K := ofInt 1

def isZero (x : K) : Bool := eq x zero

def isOne (x : K) : Bool := eq x one

def isPositive (x : K) : Bool := lt zero x

/-- **The slot an index stands for**: a finite number within the tolerance of an integer that is not
negative. -/
def slot? (r : K) : Option Nat :=
  if !isFinite r || lt r (sub zero tolerance) || lt tolerance (abs (sub r (round r))) then none
  else some (toNat (round r))

/-- The site a bound stands for. -/
def site (r : K) : Int := toInt (round r)

/-- The bound below which an integral exponent is applied by repeated multiplication. -/
def exponentLimit : K := ofInt 2147483647

/-- The integer an exponent is, if it is one of moderate size. -/
def exponent? (e : K) : Option Int :=
  if eq (round e) e && lt (abs e) exponentLimit then some (toInt e) else none

end Literal

end Fluxion
