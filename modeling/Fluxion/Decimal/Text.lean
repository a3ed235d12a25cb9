import Fluxion.Decimal.Shortest

/-!
# Decimal/Text — floating point numbers as text

A `Format` says how a number is laid out; `Format.write` applies it to the shortest decimal that
reads back.  The formats themselves stand beside the texts that use them: `Format.plain` for
expressions and messages, `Format.source` for constants in source text.
-/

namespace Fluxion

/-- How finite numbers are written. -/
structure Format where
  /-- Orders of magnitude written positionally. -/
  positional : Int → Bool
  /-- Whether an integral number keeps `.0`. -/
  point : Bool
  /-- Whether an exponent that is not negative carries a sign. -/
  plus : Bool
  /-- What an exact tie between two shortest decimals does. -/
  tie : Tie

namespace Format

/-- Always positional, nothing after an integral number: `1`, `0.0000001`. -/
def plain : Format := ⟨fun _ => true, false, false, .up⟩

/-- Positional from `1e-4` up to below `1e16`, with a point: `1.0`, `1e16`, `1.5e-7`. -/
def source : Format := ⟨fun x => decide (-4 ≤ x) && decide (x < 16), true, false, .up⟩

/-- The text of a decimal that is not negative. -/
def layout (f : Format) (d : Decimal) : List Char :=
  if d.coeff = 0 then (if f.point then ['0', '.', '0'] else ['0'])
  else if f.positional d.order then d.positional f.point
  else d.scientific f.plus

/-- The sign bit of a number, also of zero. -/
def isNegative (x : Float) : Bool := Nat.pow 2 63 ≤ x.toBits.toNat

/-- The magnitude of a finite number. -/
def magnitude (x : Float) : Binary := Binary.ofBits x.toBits.toNat

/-- A number in the given format; what is not finite is `NaN`, `inf` or `-inf`. -/
def write (f : Format) (x : Float) : String :=
  if x.isNaN then "NaN"
  else
    let sign := if isNegative x then ['-'] else []
    if x.isInf then String.ofList (sign ++ ['i', 'n', 'f'])
    else String.ofList (sign ++ f.layout ((magnitude x).shortest f.tie))

/-- Twelve significant digits in scientific layout; zero, the infinities and `nan` as words. -/
def writeRounded (x : Float) : String :=
  if x.isNaN then "nan"
  else
    let sign := if isNegative x then ['-'] else []
    if x.isInf then String.ofList (sign ++ ['i', 'n', 'f'])
    else if x == 0 then String.ofList (sign ++ ['0'])
    else
      let d := (magnitude x).significant 12
      String.ofList (sign ++ d.scientific false)

end Format

end Fluxion
