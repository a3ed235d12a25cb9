import Fluxion.Scalar.Arithmetic

/-!
# Scalar/Floating — 64-bit floating point numbers as literals and values

The instance that programs run on.  Conversions to integers truncate and saturate at the width of a
machine word.

A `Floating` is a `Float` whose NaN has a sign, which `Float` forgets.  Negation turns the sign, an
operation with a NaN among its operands hands on the sign of the first one, and the NaN of an
invalid operation (`0 / 0`, the root of `-1`) is negative.  Nothing but the complex square root
looks at it, where a sign tells the two halves of the real axis apart.
-/

namespace Fluxion

/-- A 64-bit floating point number. -/
structure Floating where
  value : Float
  /-- The sign of a NaN; false for any other number, which has its sign in its value. -/
  nanNegative : Bool
  deriving DecidableEq

namespace Floating

/-- A number as it is written; a written NaN is positive. -/
def ofFloat (x : Float) : Floating := ⟨x, false⟩

/-- The nearest number to an integer. -/
def ofInt (n : Int) : Floating := ofFloat (Float.ofInt n)

def isNaN (a : Floating) : Bool := a.value.isNaN

/-- The sign bit of a number, also of zero and of a NaN. -/
def isNegative (a : Floating) : Bool :=
  if a.isNaN then a.nanNegative else Format.isNegative a.value

/-- The result of an operation, with the sign it has in case it is a NaN. -/
def ofResult (x : Float) (negative : Bool) : Floating := ⟨x, x.isNaN && negative⟩

def neg (a : Floating) : Floating := ofResult (-a.value) (!a.nanNegative)

def abs (a : Floating) : Floating := ofFloat a.value.abs

/-- An operation on one number.  A NaN stays as it is, and a NaN that arises is negative. -/
def lift (f : Float → Float) (a : Floating) : Floating :=
  ofResult (f a.value) (!a.isNaN || a.nanNegative)

/-- An operation on two numbers.  The first NaN is handed on, and a NaN that arises is negative. -/
def lift₂ (f : Float → Float → Float) (a b : Floating) : Floating :=
  ofResult (f a.value b.value)
    (if a.isNaN then a.nanNegative else !b.isNaN || b.nanNegative)

/-- The nearest integer to a positive number, a half going up.  From `2 ^ 52` on there are none but
integers. -/
def roundUp (x : Float) : Float :=
  if x < 4503599627370496 then
    let below := x.toUInt64.toFloat
    if 0.5 ≤ x - below then below + 1 else below
  else x

/-- The nearest integer, a half going away from zero.  A zero keeps its sign. -/
def round (x : Float) : Float :=
  if x < 0 then -roundUp (-x) else if 0 < x then roundUp x else x

/-- The integer part, cut off at the width of a signed word. -/
def toInt (x : Float) : Int :=
  if x < 0 then max (-9223372036854775808) (-(-x).toUInt64.toNat)
  else min 9223372036854775807 x.toUInt64.toNat

/-- The angle of the vector from the origin to `(x, y)`. -/
def atan2 (y x : Floating) : Floating := lift₂ (fun x y => Float.atan2 y x) x y

/-- `2 ^ n` for exponents in range. -/
def twoTo (n : Int) : Float := Float.scaleB 1 n

/-- The length of a vector with `y ≤ x`, neither of them huge or tiny: the root of the sum of
squares, corrected by how far its own square is off. -/
def hypotCore (x y : Float) : Float :=
  let h := (x * x + y * y).sqrt
  let excess :=
    if h ≤ 2 * y then
      let d := h - y
      x * (2 * d - x) + (d - 2 * (x - y)) * d
    else
      let d := h - x
      2 * d * (x - 2 * y) + ((4 * d - y) * y + d * d)
  h - excess / (2 * h)

/-- The length of a vector.  Huge and tiny entries are scaled first, and an entry too small to
matter is only added. -/
def hypot (x y : Float) : Float :=
  if x.isInf || y.isInf then 1 / 0
  else if x.isNaN || y.isNaN then 0 / 0
  else
    let a := max x.abs y.abs
    let b := min x.abs y.abs
    if b ≤ a * twoTo (-54) then a + b
    else if twoTo 511 < a then hypotCore (a * twoTo (-600)) (b * twoTo (-600)) * twoTo 600
    else if b < twoTo (-459) then hypotCore (a * twoTo 600) (b * twoTo 600) * twoTo (-600)
    else hypotCore a b

end Floating

instance floatingElementary : Elementary Floating where
  ofInt := Floating.ofInt
  add := Floating.lift₂ (· + ·)
  sub := Floating.lift₂ (· - ·)
  mul := Floating.lift₂ (· * ·)
  abs := Floating.abs
  eq a b := a.value == b.value
  lt a b := decide (a.value < b.value)
  le a b := decide (a.value ≤ b.value)
  isFinite a := a.value.isFinite
  round := Floating.lift Floating.round
  toInt a := Floating.toInt a.value
  toNat a := a.value.toUInt64.toNat
  tolerance := .ofFloat 1e-9
  div := Floating.lift₂ (· / ·)
  neg := Floating.neg
  nan := .ofFloat (0 / 0)
  isInfinite a := a.value.isInf
  isNaN := Floating.isNaN
  isNegative := Floating.isNegative
  sqrt := Floating.lift Float.sqrt
  exp := Floating.lift Float.exp
  log := Floating.lift Float.log
  sin := Floating.lift Float.sin
  cos := Floating.lift Float.cos
  sinh := Floating.lift Float.sinh
  cosh := Floating.lift Float.cosh
  pow := Floating.lift₂ Float.pow
  hypot := Floating.lift₂ Floating.hypot
  atan2 := Floating.atan2

instance : Codec Floating := ⟨fun a => .float a.value, fun _ j => j.float?.map .ofFloat⟩

end Fluxion
