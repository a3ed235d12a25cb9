import Fluxion.Decimal.Basic

/-!
# Decimal/Scaled — written numbers as floating point numbers

A written number keeps the leading digits that fit a coefficient of 64 bits (`Decimal.ofDigits`);
of the digits after them only the places before the point count.  `Decimal.toFloat?` rounds the
coefficient and scales it by a power of ten, which is rounded too.  So a coefficient below `2 ^ 53`
with a power up to `10 ^ 22` gives the nearest floating point number, and any other one a number
that may be a neighbour of it.
-/

namespace Fluxion.Decimal

/-- The largest coefficient of a written number. -/
def coeffLimit : Nat := 0xFFFFFFFFFFFFFFFF

/-- The value of a decimal digit. -/
def digitValue (c : Char) : Nat := c.toNat - '0'.toNat

/-- Appends digits to a coefficient as long as it fits; also how many were appended. -/
def collect (coeff : Nat) : List Char → Nat × Nat
  | [] => (coeff, 0)
  | c :: rest =>
    if 10 * coeff + digitValue c ≤ coeffLimit then
      let (coeff, taken) := collect (10 * coeff + digitValue c) rest
      (coeff, taken + 1)
    else (coeff, 0)

/-- The number with these digits before and after its point, times a power of ten.  Digits are kept
on either side of the point as long as they fit. -/
def ofDigits (whole fraction : List Char) (exponent : Int) : Decimal :=
  let (coeff, before) := collect 0 whole
  let (coeff, after) := collect coeff fraction
  ⟨coeff, exponent + (whole.length - before : Nat) - after⟩

/-- The largest power of ten among the finite floating point numbers. -/
def powerLimit : Nat := 308

/-- The floating point number nearest to `10 ^ n`. -/
def power (n : Nat) : Float := Float.ofScientific 1 false n

/-- The floating point number of a written number, unless it overflows: its coefficient times or
over a power of ten.  A division by more than the largest power is done in two steps, after which
nothing is left of any coefficient. -/
def toFloat? (d : Decimal) : Option Float :=
  let coeff := Float.ofScientific d.coeff false 0
  let n := d.exponent.natAbs
  if d.coeff = 0 then some 0
  else if 0 ≤ d.exponent then
    let x := coeff * power n
    if powerLimit < n || x.isInf then none else some x
  else if n ≤ powerLimit then some (coeff / power n)
  else if n ≤ 2 * powerLimit then some (coeff / power powerLimit / power (n - powerLimit))
  else some 0

end Fluxion.Decimal
