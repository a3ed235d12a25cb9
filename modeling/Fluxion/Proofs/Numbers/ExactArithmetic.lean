import Fluxion.Proofs.Machine.Meaning
import Mathlib.Algebra.Order.Field.Basic
import Mathlib.Algebra.Order.Archimedean.Basic
import Mathlib.Algebra.Order.Floor.Ring
import Mathlib.Data.Rat.Floor
import Mathlib.Tactic.Ring
import Mathlib.Tactic.Linarith
import Mathlib.Tactic.NormNum

/-!
# Proofs/Numbers/ExactArithmetic — numbers that compute exactly

Laws a number type may have, each a class over the bare operations:

* `ExactIndices` — indices are exact: literals are an ordered field, and the real part of a value is
  additive and commutes with literal factors.  Nothing is said about values beyond their real parts,
  so complex numbers qualify, and so does any representation of them;
* `ExactArithmetic` — values are a field, in which `x / 0 = 0`, with reciprocals as powers and with
  the zeros that builtins have;
* `ExactZeros` — of this last one, what folding zeros away in an expression rests on.

Index safety needs the first only; comparing a procedure with the value of an expression needs the
first two.  The rationals have all of them (`rationalArithmetic`), with the transcendental functions
cut off behind the linear term of their series.
-/

namespace Fluxion

open Arithmetic

/-! ## Literals -/

/-- **Exact literals**: the operations are those of an ordered field, and integers are converted
back and forth without loss. -/
class ExactLiteral (K : Type) [Field K] [LinearOrder K] [IsStrictOrderedRing K] [Literal K] :
    Prop where
  ofInt_eq (n : ℤ) : (Literal.ofInt n : K) = n
  add_eq (a b : K) : Literal.add a b = a + b
  sub_eq (a b : K) : Literal.sub a b = a - b
  mul_eq (a b : K) : Literal.mul a b = a * b
  abs_eq (a : K) : Literal.abs a = |a|
  eq_iff {a b : K} : Literal.eq a b = true ↔ a = b
  lt_iff {a b : K} : Literal.lt a b = true ↔ a < b
  le_iff {a b : K} : Literal.le a b = true ↔ a ≤ b
  isFinite_eq (a : K) : Literal.isFinite a = true
  round_intCast (n : ℤ) : Literal.round (n : K) = n
  toInt_intCast (n : ℤ) : Literal.toInt (n : K) = n
  toNat_natCast (n : ℕ) : Literal.toNat (n : K) = n
  tolerance_nonneg : (0 : K) ≤ Literal.tolerance

namespace ExactLiteral

variable {K : Type} [Field K] [LinearOrder K] [IsStrictOrderedRing K] [Literal K] [ExactLiteral K]

theorem zero_eq : (Literal.zero : K) = 0 := by
  rw [Literal.zero, ofInt_eq, Int.cast_zero]

theorem one_eq : (Literal.one : K) = 1 := by
  rw [Literal.one, ofInt_eq, Int.cast_one]

theorem isZero_iff {a : K} : Literal.isZero a = true ↔ a = 0 := by
  rw [Literal.isZero, eq_iff, zero_eq]

theorem isOne_iff {a : K} : Literal.isOne a = true ↔ a = 1 := by
  rw [Literal.isOne, eq_iff, one_eq]

theorem isPositive_iff {a : K} : Literal.isPositive a = true ↔ 0 < a := by
  rw [Literal.isPositive, lt_iff, zero_eq]

/-- The site of an integer is the integer. -/
theorem site_intCast (n : ℤ) : Literal.site (n : K) = n := by
  rw [Literal.site, round_intCast, toInt_intCast]

/-- **The slot of a natural number is that number.** -/
theorem slot?_natCast (n : ℕ) : Literal.slot? (n : K) = some n := by
  have hround : Literal.round (n : K) = n := by exact_mod_cast round_intCast (n : ℤ)
  have hlow : Literal.lt (n : K) (Literal.sub Literal.zero Literal.tolerance) = false := by
    rw [Bool.eq_false_iff, ne_eq, lt_iff, sub_eq, zero_eq, not_lt]
    exact (sub_nonpos.mpr tolerance_nonneg).trans (Nat.cast_nonneg n)
  have hnear : Literal.lt (Literal.tolerance : K) (Literal.abs (Literal.sub (n : K) n)) =
      false := by
    rw [Bool.eq_false_iff, ne_eq, lt_iff, sub_eq, sub_self, abs_eq, abs_zero, not_lt]
    exact tolerance_nonneg
  rw [Literal.slot?, hround, isFinite_eq, hlow, hnear, toNat_natCast]
  rfl

end ExactLiteral

/-! ## Values -/

/-- **Exact indices**: the real part of a value is additive and commutes with literal factors. -/
class ExactIndices (K : outParam Type) (V : Type) [Field K] [LinearOrder K] [IsStrictOrderedRing K]
    [Literal K] [Arithmetic K V] : Prop extends ExactLiteral K where
  real_ofLiteral (a : K) : real (ofLiteral a : V) = a
  real_add (v w : V) : real (add v w) = real v + real w
  real_sub (v w : V) : real (sub v w) = real v - real w
  real_neg (v : V) : real (neg v) = -real v
  real_mul_ofLiteral (v : V) (a : K) : real (mul v (ofLiteral a)) = real v * a

section Indices

variable {K V : Type} [Field K] [LinearOrder K] [IsStrictOrderedRing K] [Literal K] [Arithmetic K V]
  [ExactIndices K V]

open ExactLiteral ExactIndices

theorem real_zero : real (zero : V) = (0 : K) := by
  rw [zero, real_ofLiteral, zero_eq]

theorem real_one : real (one : V) = (1 : K) := by
  rw [one, real_ofLiteral, one_eq]

instance truthValues : TruthValues K V where
  isZero_real_zero := isZero_iff.mpr real_zero
  isZero_real_one := by
    rw [Bool.eq_false_iff, ne_eq, isZero_iff, real_one]
    exact one_ne_zero

/-- Values with integral real parts are compared as integers. -/
theorem atMost_iff {v w : V} {m n : ℤ} (hv : real v = (m : K)) (hw : real w = (n : K)) :
    atMost v w = true ↔ m ≤ n := by
  rw [atMost, le_iff, hv, hw, Int.cast_le]

end Indices

/-- **Exact arithmetic**: values are a field over the literals, in which `x / 0 = 0`. -/
class ExactArithmetic (K : outParam Type) (V : Type) [Field K] [LinearOrder K]
    [IsStrictOrderedRing K] [Literal K] [Field V] [Arithmetic K V] : Prop
    extends ExactIndices K V where
  eq_add (v w : V) : add v w = v + w
  eq_sub (v w : V) : sub v w = v - w
  eq_mul (v w : V) : mul v w = v * w
  eq_div (v w : V) : div v w = v / w
  eq_neg (v : V) : neg v = -v
  ofLiteral_add (a b : K) : (ofLiteral (a + b) : V) = ofLiteral a + ofLiteral b
  ofLiteral_one : (ofLiteral (1 : K) : V) = 1
  pow_neg_one (v : V) : pow v (ofLiteral (-1 : K)) = v⁻¹
  zero_pow {a : K} : 0 < a → pow (0 : V) (ofLiteral a) = 0
  apply_zero {b : Builtin} : b.preservesZero = true → apply b (0 : V) = 0

section Values

variable {K V : Type} [Field K] [LinearOrder K] [IsStrictOrderedRing K] [Literal K] [Field V]
  [Arithmetic K V] [ExactArithmetic K V]

open ExactLiteral ExactArithmetic

theorem ofLiteral_zero : (ofLiteral (0 : K) : V) = 0 := by
  have hdouble : (ofLiteral (0 : K) : V) = ofLiteral (0 : K) + ofLiteral (0 : K) := by
    rw [← ofLiteral_add, add_zero]
  exact left_eq_add.mp hdouble

theorem eq_zero : (zero : V) = 0 := by
  rw [zero, zero_eq, ofLiteral_zero]

theorem eq_one : (one : V) = 1 := by
  rw [one, one_eq, ofLiteral_one]

/-- The site behind another one. -/
theorem ofLiteral_succ (m : ℤ) :
    add (ofLiteral (Literal.ofInt m : K) : V) one = ofLiteral (Literal.ofInt (m + 1) : K) := by
  rw [eq_add, one, one_eq, ofInt_eq, ofInt_eq, Int.cast_add, Int.cast_one, ofLiteral_add]

end Values

/-- **Exact zeros**: values are a field, and what makes zero of zero does so in the number type —
literals that are zero, positive powers, and the builtins that preserve zero.  Nothing else is said
about literals, powers and builtins. -/
class ExactZeros (K : outParam Type) (V : Type) [Literal K] [Field V] [Arithmetic K V] : Prop where
  add_eq (v w : V) : add v w = v + w
  mul_eq (v w : V) : mul v w = v * w
  neg_eq (v : V) : neg v = -v
  isZero_zero : Literal.isZero (Literal.zero : K) = true
  ofLiteral_of_isZero {a : K} : Literal.isZero a = true → (ofLiteral a : V) = 0
  pow_of_isPositive {a : K} : Literal.isPositive a = true → pow (0 : V) (ofLiteral a) = 0
  apply_of_preservesZero {b : Builtin} : b.preservesZero = true → apply b (0 : V) = 0

instance exactZeros {K V : Type} [Field K] [LinearOrder K] [IsStrictOrderedRing K] [Literal K]
    [Field V] [Arithmetic K V] [ExactArithmetic K V] : ExactZeros K V where
  add_eq := ExactArithmetic.eq_add
  mul_eq := ExactArithmetic.eq_mul
  neg_eq := ExactArithmetic.eq_neg
  isZero_zero := ExactLiteral.isZero_iff.mpr ExactLiteral.zero_eq
  ofLiteral_of_isZero h := by rw [ExactLiteral.isZero_iff.mp h, ofLiteral_zero]
  pow_of_isPositive h := ExactArithmetic.zero_pow (ExactLiteral.isPositive_iff.mp h)
  apply_of_preservesZero := ExactArithmetic.apply_zero

theorem ExactZeros.zero_eq_zero {K V : Type} [Literal K] [Field V] [Arithmetic K V]
    [ExactZeros K V] :
    (zero : V) = 0 :=
  ofLiteral_of_isZero (isZero_zero V)

/-! ## The rationals -/

/-- The nearest integer, a half going away from zero. -/
def roundRational (a : ℚ) : ℤ := if a < 0 then -⌊-a + 1 / 2⌋ else ⌊a + 1 / 2⌋

theorem roundRational_intCast (n : ℤ) : roundRational n = n := by
  have hhalf : ⌊(1 / 2 : ℚ)⌋ = 0 := by norm_num
  rw [roundRational, ← Int.cast_neg, Int.floor_intCast_add, Int.floor_intCast_add, hhalf, add_zero,
    add_zero, neg_neg, ite_self]

instance rationalLiteral : Literal ℚ where
  ofInt := Int.cast
  add := (· + ·)
  sub := (· - ·)
  mul := (· * ·)
  abs a := |a|
  eq a b := a = b
  lt a b := a < b
  le a b := a ≤ b
  isFinite _ := true
  round a := roundRational a
  toInt a := if a < 0 then -⌊-a⌋ else ⌊a⌋
  toNat a := ⌊a⌋.toNat
  tolerance := 1 / 1000000000

instance : ExactLiteral ℚ where
  ofInt_eq _ := rfl
  add_eq _ _ := rfl
  sub_eq _ _ := rfl
  mul_eq _ _ := rfl
  abs_eq _ := rfl
  eq_iff := decide_eq_true_iff
  lt_iff := decide_eq_true_iff
  le_iff := decide_eq_true_iff
  isFinite_eq _ := rfl
  round_intCast n := congrArg Int.cast (roundRational_intCast n)
  toInt_intCast n := by
    change (if (n : ℚ) < 0 then -⌊-(n : ℚ)⌋ else ⌊(n : ℚ)⌋) = n
    rw [← Int.cast_neg, Int.floor_intCast, Int.floor_intCast, neg_neg, ite_self]
  toNat_natCast n := by
    change ⌊(n : ℚ)⌋.toNat = n
    rw [Int.floor_natCast, Int.toNat_natCast]
  tolerance_nonneg := by
    change (0 : ℚ) ≤ 1 / 1000000000
    norm_num

/-- A power of a rational number: exact for integral exponents, zero otherwise. -/
def powRational (a e : ℚ) : ℚ := if e.den = 1 then a ^ e.num else 0

/-- A builtin on rational numbers, cut off behind the linear term. -/
def applyRational (b : Builtin) (a : ℚ) : ℚ :=
  match b with
  | .sin | .sqrt | .real | .conj => a
  | .cos => 1
  | .exp => 1 + a
  | .log => a - 1
  | .abs => |a|
  | .imag => 0

instance rationalArithmetic : Arithmetic ℚ ℚ where
  ofLiteral := id
  real := id
  imaginaryUnit? := none
  add := (· + ·)
  sub := (· - ·)
  mul := (· * ·)
  div := (· / ·)
  pow := powRational
  neg := (- ·)
  apply := applyRational

instance : ExactArithmetic ℚ ℚ where
  real_ofLiteral _ := rfl
  real_add _ _ := rfl
  real_sub _ _ := rfl
  real_neg _ := rfl
  real_mul_ofLiteral _ _ := rfl
  eq_add _ _ := rfl
  eq_sub _ _ := rfl
  eq_mul _ _ := rfl
  eq_div _ _ := rfl
  eq_neg _ := rfl
  ofLiteral_add _ _ := rfl
  ofLiteral_one := rfl
  pow_neg_one a := by
    change powRational a (-1) = a⁻¹
    rw [powRational, if_pos (by rfl)]
    exact zpow_neg_one a
  zero_pow {a} ha := by
    change powRational 0 a = 0
    rw [powRational]
    split
    · exact zero_zpow _ (Rat.num_pos.mpr ha).ne'
    · rfl
  apply_zero {b} hb := by
    change applyRational b 0 = 0
    cases b with
    | cos => cases hb
    | exp => cases hb
    | log => cases hb
    | abs => exact abs_zero
    | _ => rfl

end Fluxion
