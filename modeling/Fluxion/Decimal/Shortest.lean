import Fluxion.Decimal.Basic

/-!
# Decimal/Shortest — decimals for binary floating point numbers

A finite binary number is `coeff * 2 ^ exponent`, and the reals that round to it form an interval
around it (`Binary.low`, `Binary.high`, in quarters of a unit in the last place).  Two decimals are
chosen for it:

- `Binary.shortest` — the fewest digits that lie in the interval, the nearest of those;
- `Binary.significant` — a given number of digits, correctly rounded.

Everything is exact arithmetic on natural numbers.
-/

namespace Fluxion

/-- Which of two equally near decimals is taken. -/
inductive Tie where
  | up
  | even
  deriving Repr, DecidableEq

/-- The positive number `coeff * 2 ^ exponent`; `narrow` says that the next number below is only
half as far away as the next one above. -/
structure Binary where
  coeff : Nat
  exponent : Int
  narrow : Bool
  deriving Repr, DecidableEq

namespace Binary

/-- The magnitude a 64-bit pattern stands for, when its exponent field is not the highest one. -/
def ofBits (bits : Nat) : Binary :=
  let fraction : Nat := bits % Nat.pow 2 52
  let biased : Nat := bits / Nat.pow 2 52 % Nat.pow 2 11
  if biased = 0 then ⟨fraction, -1074, false⟩
  else ⟨fraction + Nat.pow 2 52, (biased : Int) - 1075, fraction = 0 && 1 < biased⟩

/-- A magnitude and its rounding interval as numerators over one denominator. -/
structure Interval where
  value : Nat
  low : Nat
  high : Nat
  den : Nat

/-- The reals that round to `b`, counted in quarters of its last place. -/
def interval (b : Binary) : Interval :=
  let q := b.exponent - 2
  let up := Nat.pow 2 q.toNat
  { value := 4 * b.coeff * up
    low := (4 * b.coeff - if b.narrow then 1 else 2) * up
    high := (4 * b.coeff + 2) * up
    den := Nat.pow 2 (-q).toNat }

/-- The exponent of the leading decimal digit of `value / den`. -/
def leading (value den : Nat) : Int :=
  if den ≤ value then (Decimal.digitCount (value / den) : Int) - 1
  else -(Decimal.digitCount ((den + value - 1) / value - 1) : Int)

/-- The interval measured in units of `10 ^ g`. -/
def Interval.scale (i : Interval) (g : Int) : Interval :=
  let up := Nat.pow 10 (-g).toNat
  ⟨i.value * up, i.low * up, i.high * up, i.den * Nat.pow 10 g.toNat⟩

/-- Whether the integer `c` lies in the interval; the ends count for an even coefficient. -/
def Interval.holds (i : Interval) (ends : Bool) (c : Nat) : Bool :=
  if ends then i.low ≤ c * i.den && c * i.den ≤ i.high
  else i.low < c * i.den && c * i.den < i.high

/-- The integer next to `value / den`: the nearer of its two neighbours, a tie going as told. -/
def nearest (tie : Tie) (value den : Nat) : Nat :=
  let c := value / den
  let r := value % den
  if 2 * r < den then c
  else if den < 2 * r then c + 1
  else match tie with
    | .up => c + 1
    | .even => if c % 2 = 0 then c else c + 1

/-- The neighbour of `b` with `n` digits that rounds to `b`, if one does. -/
def withDigits? (tie : Tie) (b : Binary) (i : Interval) (order : Int) (n : Nat) : Option Decimal :=
  let g := order + 1 - n
  let j := i.scale g
  let ends := b.coeff % 2 = 0
  let c := j.value / j.den
  match j.holds ends c, j.holds ends (c + 1) with
  | true, true => some ⟨nearest tie j.value j.den, g⟩
  | true, false => some ⟨c, g⟩
  | false, true => some ⟨c + 1, g⟩
  | false, false => none

/-- **The fewest digits that round to `b`**, and of those the nearest decimal.  Seventeen digits
always suffice. -/
def shortest (tie : Tie) (b : Binary) : Decimal :=
  if b.coeff = 0 then ⟨0, 0⟩
  else
    let i := b.interval
    let order := leading i.value i.den
    (((List.range 17).findSome? fun n => withDigits? tie b i order (n + 1)).getD
      ⟨b.coeff, 0⟩).trim

/-- The decimal of `n` digits nearest to `b`, an exact tie going to the even digit. -/
def significant (n : Nat) (b : Binary) : Decimal :=
  let i := b.interval
  let g := leading i.value i.den + 1 - n
  let j := i.scale g
  let c := nearest .even j.value j.den
  if c = Nat.pow 10 n then ⟨Nat.pow 10 (n - 1), g + 1⟩ else ⟨c, g⟩

end Binary

end Fluxion
