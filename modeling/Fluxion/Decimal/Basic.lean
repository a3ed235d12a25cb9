/-!
# Decimal/Basic — decimal numbers and their written digits

A positive number is written from its digits and the place of its point.  `Decimal` is that pair, as
a coefficient and a power of ten; the two layouts of it are *positional* (`0.0025`, `2500`) and
*scientific* (`2.5e-3`).  Which one a text uses, and how, is a `Format` (`Decimal/Text`).
-/

namespace Fluxion

/-- The number `coeff * 10 ^ exponent`. -/
structure Decimal where
  coeff : Nat
  exponent : Int
  deriving Repr, DecidableEq

namespace Decimal

/-- The decimal digits of a natural number, most significant first. -/
def digitsOf (n : Nat) : List Char := Nat.toDigits 10 n

/-- How many decimal digits a natural number is written with. -/
def digitCount (n : Nat) : Nat := (digitsOf n).length

/-- The digits of the coefficient. -/
def digits (d : Decimal) : List Char := digitsOf d.coeff

/-- The exponent of the leading digit: `d` lies in `[10 ^ x, 10 ^ (x + 1))` for `x = d.order`. -/
def order (d : Decimal) : Int := d.exponent + d.digits.length - 1

/-- The same number without trailing zeros in its coefficient; `fuel` bounds how many go. -/
def trimUpTo : Nat → Decimal → Decimal
  | 0, d => d
  | fuel + 1, d =>
    if d.coeff ≠ 0 ∧ d.coeff % 10 = 0 then trimUpTo fuel ⟨d.coeff / 10, d.exponent + 1⟩ else d

/-- The same number, with a coefficient that does not end in zero. -/
def trim (d : Decimal) : Decimal := trimUpTo (digitCount d.coeff) d

/-- `n` zeros. -/
def zeros (n : Nat) : List Char := List.replicate n '0'

/-- Positional layout.  `point` asks for `.0` after an integral number. -/
def positional (point : Bool) (d : Decimal) : List Char :=
  let ds := d.digits
  let lead := d.exponent + ds.length
  if 0 ≤ d.exponent then
    ds ++ zeros d.exponent.toNat ++ (if point then ['.', '0'] else [])
  else if lead ≤ 0 then
    '0' :: '.' :: (zeros (-lead).toNat ++ ds)
  else
    ds.take lead.toNat ++ '.' :: ds.drop lead.toNat

/-- The text of an exponent; `plus` asks for a sign on those that are not negative. -/
def exponentText (plus : Bool) (x : Int) : List Char :=
  if x < 0 then '-' :: digitsOf x.natAbs
  else (if plus then ['+'] else []) ++ digitsOf x.natAbs

/-- Scientific layout: one digit, the others after a point if there are any, then the exponent. -/
def scientific (plus : Bool) (d : Decimal) : List Char :=
  let fraction := d.digits.drop 1
  d.digits.take 1 ++ (if fraction.isEmpty then [] else '.' :: fraction)
    ++ 'e' :: exponentText plus d.order

end Decimal

end Fluxion
