import Fluxion.Proofs.Numbers.ExactArithmetic
import Fluxion.Scalar.Complex

/-!
# Proofs/Numbers/ExactIntegers — integers that literals do not round

Places in an array are counted with literals, and literals may be exact for small integers only.

* `ExactIntegersTo` — up to a limit, literals compute with integers as integers do;
* `ExactSitesTo` — they also compare them, and convert them to sites and slots.

An exact field is so up to every limit (`exactSitesTo`).  Of values nothing is asked but that their
real parts are added and subtracted as literals are (`RealParts`), which holds of real and complex
numbers over any literals.

Index arithmetic on an exact field and on small integers has the same proofs.  `Counting` is what
they share: a ring inside the literals, and which of its numbers are in reach.
-/

namespace Fluxion

open Arithmetic

variable {K V A : Type}

/-! ## Integers up to a limit -/

/-- **Integers up to a limit are exact**: literals add, subtract and multiply them without rounding,
and tell them apart.  Products are those of natural numbers, since a zero may have a sign that a
negative factor turns. -/
structure ExactIntegersTo (K : Type) [Literal K] (limit : ℕ) : Prop where
  add {a b : ℤ} : a.natAbs ≤ limit → b.natAbs ≤ limit → (a + b).natAbs ≤ limit →
    Literal.add (Literal.ofInt a : K) (Literal.ofInt b) = Literal.ofInt (a + b)
  sub {a b : ℤ} : a.natAbs ≤ limit → b.natAbs ≤ limit → (a - b).natAbs ≤ limit →
    Literal.sub (Literal.ofInt a : K) (Literal.ofInt b) = Literal.ofInt (a - b)
  mul {a b : ℕ} : a ≤ limit → b ≤ limit → a * b ≤ limit →
    Literal.mul (Literal.ofInt a : K) (Literal.ofInt b) = Literal.ofInt (a * b : ℕ)
  inj {a b : ℤ} : a.natAbs ≤ limit → b.natAbs ≤ limit →
    (Literal.ofInt a : K) = Literal.ofInt b → a = b

/-- **Integers up to a limit are sites and slots** as they are, and are compared as integers. -/
structure ExactSitesTo (K : Type) [Literal K] (limit : ℕ) : Prop
    extends ExactIntegersTo K limit where
  eq_zero {a : ℤ} : a.natAbs ≤ limit → Literal.isZero (Literal.ofInt a : K) = true → a = 0
  le_iff {a b : ℤ} : a.natAbs ≤ limit → b.natAbs ≤ limit →
    (Literal.le (Literal.ofInt a : K) (Literal.ofInt b) = true ↔ a ≤ b)
  site_eq {a : ℤ} : a.natAbs ≤ limit → Literal.site (Literal.ofInt a : K) = a
  slot?_eq {a : ℕ} : a ≤ limit → Literal.slot? (Literal.ofInt a : K) = some a

section Exact

variable [Field K] [LinearOrder K] [IsStrictOrderedRing K] [Literal K] [ExactLiteral K]

open ExactLiteral

/-- **An exact field has no limit.** -/
theorem exactSitesTo (limit : ℕ) : ExactSitesTo K limit where
  add _ _ _ := by rw [add_eq, ofInt_eq, ofInt_eq, ofInt_eq, Int.cast_add]
  sub _ _ _ := by rw [sub_eq, ofInt_eq, ofInt_eq, ofInt_eq, Int.cast_sub]
  mul _ _ _ := by rw [mul_eq, ofInt_eq, ofInt_eq, ofInt_eq, Nat.cast_mul, Int.cast_mul]
  inj _ _ h := by rwa [ofInt_eq, ofInt_eq, Int.cast_inj] at h
  eq_zero _ h := by rwa [isZero_iff, ofInt_eq, Int.cast_eq_zero] at h
  le_iff _ _ := by rw [ExactLiteral.le_iff, ofInt_eq, ofInt_eq, Int.cast_le]
  site_eq _ := by rw [ofInt_eq, site_intCast]
  slot?_eq _ := by rw [ofInt_eq, Int.cast_natCast, slot?_natCast]

end Exact

/-! ## Real parts -/

/-- **Real parts are computed as literals are**, as far as sums and differences go. -/
class RealParts (K : outParam Type) (V : Type) [Literal K] [Arithmetic K V] : Prop where
  real_ofLiteral (a : K) : real (ofLiteral a : V) = a
  real_add (v w : V) : real (add v w) = Literal.add (real v) (real w)
  real_sub (v w : V) : real (sub v w) = Literal.sub (real v) (real w)

instance [Elementary K] : RealParts K K := ⟨fun _ => rfl, fun _ _ => rfl, fun _ _ => rfl⟩

instance [Elementary K] : RealParts K (Complex K) := ⟨fun _ => rfl, fun _ _ => rfl, fun _ _ => rfl⟩

instance [Field K] [LinearOrder K] [IsStrictOrderedRing K] [Literal K] [Arithmetic K V]
    [ExactIndices K V] : RealParts K V where
  real_ofLiteral := ExactIndices.real_ofLiteral
  real_add v w := by rw [ExactIndices.real_add, ExactLiteral.add_eq]
  real_sub v w := by rw [ExactIndices.real_sub, ExactLiteral.sub_eq]

theorem ExactSitesTo.atMost_iff [Literal K] [Arithmetic K V] {limit : ℕ} (hK : ExactSitesTo K limit)
    {v w : V} {m n : ℤ} (hv : real v = (Literal.ofInt m : K)) (hw : real w = (Literal.ofInt n : K))
    (hm : m.natAbs ≤ limit) (hn : n.natAbs ≤ limit) : atMost v w = true ↔ m ≤ n := by
  rw [atMost, hv, hw, hK.le_iff hm hn]

/-! ## Counting -/

/-- **Numbers to count with**: a ring inside the literals, which sums and differences do not leave
as long as they are in reach. -/
structure Counting (A K : Type) [CommRing A] [Literal K] where
  value : A → K
  InReach : A → Prop
  value_intCast (n : ℤ) : value n = Literal.ofInt n
  add {a b : A} : InReach a → InReach b → InReach (a + b) →
    Literal.add (value a) (value b) = value (a + b)
  sub {a b : A} : InReach a → InReach b → InReach (a - b) →
    Literal.sub (value a) (value b) = value (a - b)
  eq_zero {a : A} : InReach a → Literal.isZero (value a) = true → a = 0

/-- Small integers. -/
def ExactSitesTo.counting [Literal K] {limit : ℕ} (hK : ExactSitesTo K limit) : Counting ℤ K where
  value := Literal.ofInt
  InReach n := n.natAbs ≤ limit
  value_intCast _ := rfl
  add := hK.add
  sub := hK.sub
  eq_zero := hK.eq_zero

/-- All numbers of an exact field. -/
def ExactLiteral.counting [Field K] [LinearOrder K] [IsStrictOrderedRing K] [Literal K]
    [ExactLiteral K] : Counting K K where
  value a := a
  InReach _ := True
  value_intCast n := (ofInt_eq n).symm
  add _ _ _ := add_eq _ _
  sub _ _ _ := sub_eq _ _
  eq_zero _ := isZero_iff.mp

namespace Counting

variable [CommRing A] [Literal K] (C : Counting A K)

theorem value_one : C.value 1 = Literal.one := by
  rw [← Int.cast_one, C.value_intCast]
  rfl

end Counting

end Fluxion
