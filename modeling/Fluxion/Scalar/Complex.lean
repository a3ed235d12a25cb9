import Fluxion.Scalar.Arithmetic

/-!
# Scalar/Complex — complex arithmetic over any real type

Complex numbers are pairs, with the textbook product and quotient.  Integral powers multiply
repeatedly; other powers go through the logarithm.  The functions follow their usual formulas in
polar or Cartesian form, with the infinite cases of `exp` and the axes of `sqrt` set apart.
-/

namespace Fluxion

/-- The number `re + im * i`. -/
structure Complex (K : Type) where
  re : K
  im : K
  deriving Repr

namespace Complex

variable {K : Type} [Elementary K]

open Literal Elementary

def ofReal (x : K) : Complex K := ⟨x, zero⟩

def i : Complex K := ⟨zero, one⟩

def add (a b : Complex K) : Complex K := ⟨Literal.add a.re b.re, Literal.add a.im b.im⟩

def sub (a b : Complex K) : Complex K := ⟨Literal.sub a.re b.re, Literal.sub a.im b.im⟩

def neg (a : Complex K) : Complex K := ⟨Elementary.neg a.re, Elementary.neg a.im⟩

def mul (a b : Complex K) : Complex K :=
  ⟨Literal.sub (Literal.mul a.re b.re) (Literal.mul a.im b.im),
    Literal.add (Literal.mul a.re b.im) (Literal.mul a.im b.re)⟩

/-- The square of the modulus. -/
def normSq (a : Complex K) : K := Literal.add (Literal.mul a.re a.re) (Literal.mul a.im a.im)

def div (a b : Complex K) : Complex K :=
  let n := b.normSq
  ⟨Elementary.div (Literal.add (Literal.mul a.re b.re) (Literal.mul a.im b.im)) n,
    Elementary.div (Literal.sub (Literal.mul a.im b.re) (Literal.mul a.re b.im)) n⟩

def inv (a : Complex K) : Complex K :=
  let n := a.normSq
  ⟨Elementary.div a.re n, Elementary.div (Elementary.neg a.im) n⟩

def conj (a : Complex K) : Complex K := ⟨a.re, Elementary.neg a.im⟩

def modulus (a : Complex K) : K := hypot a.re a.im

def argument (a : Complex K) : K := atan2 a.im a.re

/-- The product of `acc` and the powers of `b` that the remaining bits of `e` ask for. -/
def powerRest (b acc : Complex K) (e : Nat) : Complex K :=
  if 1 < e then
    let b := mul b b
    powerRest b (if e / 2 % 2 = 1 then mul acc b else acc) (e / 2)
  else acc
termination_by e

/-- `b ^ e` for positive `e`: squares while the exponent is even, then the remaining bits. -/
def powerPos (b : Complex K) (e : Nat) : Complex K :=
  if 0 < e ∧ e % 2 = 0 then powerPos (mul b b) (e / 2)
  else if e = 1 then b
  else powerRest b b e
termination_by e

/-- An integral power; a negative one is a power of the inverse. -/
def power (b : Complex K) (e : Int) : Complex K :=
  if e = 0 then ofReal one
  else if e < 0 then powerPos (inv b) e.natAbs
  else powerPos b e.natAbs

/-- The exponential.  An infinite real part decides the result unless the imaginary part turns
it. -/
def exp (a : Complex K) : Complex K :=
  let general : Complex K :=
    let r := Elementary.exp a.re
    ⟨Literal.mul r (cos a.im), Literal.mul r (sin a.im)⟩
  if isInfinite a.re then
    if lt a.re zero then
      if isFinite a.im then general else ⟨zero, zero⟩
    else if isZero a.im || !isFinite a.im then
      ⟨a.re, if isInfinite a.im then nan else a.im⟩
    else general
  else if isNaN a.re && isZero a.im then a
  else general

def log (a : Complex K) : Complex K := ⟨Elementary.log a.modulus, a.argument⟩

def sin (a : Complex K) : Complex K :=
  ⟨Literal.mul (Elementary.sin a.re) (cosh a.im), Literal.mul (Elementary.cos a.re) (sinh a.im)⟩

def cos (a : Complex K) : Complex K :=
  ⟨Literal.mul (Elementary.cos a.re) (cosh a.im),
    Literal.mul (Elementary.neg (Elementary.sin a.re)) (sinh a.im)⟩

/-- The principal square root; on the axes it is taken of one real number. -/
def sqrt (a : Complex K) : Complex K :=
  if isZero a.im then
    if !isNegative a.re then ⟨Elementary.sqrt a.re, a.im⟩
    else
      let y := Elementary.sqrt (Elementary.neg a.re)
      ⟨zero, if isNegative a.im then Elementary.neg y else y⟩
  else if isZero a.re then
    let x := Elementary.sqrt (Elementary.div (Literal.abs a.im) (ofInt 2))
    ⟨x, if isNegative a.im then Elementary.neg x else x⟩
  else
    let r := Elementary.sqrt a.modulus
    let angle := Elementary.div a.argument (ofInt 2)
    ⟨Literal.mul r (Elementary.cos angle), Literal.mul r (Elementary.sin angle)⟩

/-- Exponentiation: repeated multiplication for an integral exponent on the real axis, the
exponential of a multiple of the logarithm otherwise. -/
def pow (b e : Complex K) : Complex K :=
  match (if isZero e.im then exponent? e.re else none) with
  | some n => power b n
  | none => if isZero e.re && isZero e.im then ofReal one else exp (mul e (log b))

/-- A builtin on complex numbers. -/
def apply (b : Builtin) (a : Complex K) : Complex K :=
  match b with
  | .sin => sin a
  | .cos => cos a
  | .exp => exp a
  | .log => log a
  | .sqrt => sqrt a
  | .abs => ofReal a.modulus
  | .real => ofReal a.re
  | .imag => ofReal a.im
  | .conj => conj a

end Complex

instance complexArithmetic {K : Type} [Elementary K] : Arithmetic K (Complex K) where
  ofLiteral := Complex.ofReal
  real := Complex.re
  imaginaryUnit? := some Complex.i
  add := Complex.add
  sub := Complex.sub
  mul := Complex.mul
  div := Complex.div
  pow := Complex.pow
  neg := Complex.neg
  apply := Complex.apply

end Fluxion
