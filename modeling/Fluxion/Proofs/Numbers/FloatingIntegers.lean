import Fluxion.Proofs.Numbers.ExactIntegers
import Fluxion.Scalar.Floating
import Mathlib

/-!
# Proofs/Numbers/FloatingIntegers — integers that floating point numbers do not round

**Floating point numbers count exactly below `2 ^ 53`** (`Floating.exactSitesTo`).  They have 53
bits, and an integer that needs fewer is written with zeros behind it,

    n = ± m / 2 ^ k,    2 ^ 52 ≤ m < 2 ^ 53,    k ≤ 52,

in one way only (`Represents.unique`).  Two of them are added with as many zeros behind both as the
smaller one has, and what is rounded afterwards are zeros.  They are compared by their zeros first,
since the one with more of them is the smaller one.
-/

namespace Fluxion

open Float.Model (UnpackedFloat)
open Float.Model.UnpackedFloat (Accuracy ExtendedMantissa Sign)

/-! ## Rounding -/

namespace Floating

/-- Zeros are shifted out without a trace. -/
theorem shiftRight_mul_two_pow (m j : ℕ) :
    (⟨m * 2 ^ j, false, false⟩ : ExtendedMantissa) >>> j = ⟨m, false, false⟩ := by
  induction j generalizing m with
  | zero => exact congrArg (ExtendedMantissa.mk · false false) (Nat.mul_one m)
  | succ j ih =>
    have hstep : (⟨m * 2 ^ (j + 1), false, false⟩ : ExtendedMantissa) >>> (j + 1)
        = ((⟨2 * m * 2 ^ j, false, false⟩ : ExtendedMantissa) >>> j).shiftRightOne := by
      rw [Nat.pow_succ', ← Nat.mul_assoc, Nat.mul_comm m 2]
      rfl
    rw [hstep, ih]
    simp [ExtendedMantissa.shiftRightOne]

variable {s : Sign} {m k l : ℕ} {e n a b : ℤ} {u v : UnpackedFloat}

theorem log2_mul_two_pow (hm : m ≠ 0) (j : ℕ) : (m * 2 ^ j).log2 = m.log2 + j := by
  induction j with
  | zero => rw [Nat.pow_zero, Nat.mul_one, Nat.add_zero]
  | succ j ih =>
    have hpos : m * 2 ^ j ≠ 0 := Nat.mul_ne_zero hm (Nat.two_pow_pos j).ne'
    rw [Nat.pow_succ', Nat.mul_left_comm, Nat.log2_two_mul hpos, ih, Nat.add_assoc]

/-- The exponent of a number after rounding: 53 bits are kept, unless it is tiny. -/
theorem targetExponent_eq (hm : m ≠ 0) (j : ℕ) (e : ℤ) :
    Float.Model.Format.binary64.targetExponent (Float.Model.totalExponent (m * 2 ^ j) e)
      = max (m.log2 + j + e - 52) (-1074) := by
  simp only [Float.Model.Format.targetExponent, Float.Model.totalExponent,
    Float.Model.Format.mantissaBits, Float.Model.Format.minExponent, log2_mul_two_pow hm]
  omega

/-- A number with 53 bits is rounded by dropping the zeros behind it. -/
theorem roundWithAccuracy_exact (hlow : 2 ^ 52 ≤ m) (hhigh : m < 2 ^ 53) (he : -1074 ≤ e) (j : ℕ) :
    UnpackedFloat.roundWithAccuracy .binary64 s (m * 2 ^ j) (e - j) .exact
      = .finite s m e (by omega) := by
  have hm : m ≠ 0 := by omega
  have hlog : m.log2 = 52 := (Nat.log2_eq_iff hm).mpr ⟨hlow, hhigh⟩
  have hshift (i : ℕ) : UnpackedFloat.shiftToTargetExponent .binary64 (m * 2 ^ i) (e - i) .exact
      = (⟨m, false, false⟩, e) := by
    have htarget : max ((m.log2 : ℤ) + i + (e - i) - 52) (-1074) = e := by omega
    have hamount : (e - (e - i)).toNat = i := by omega
    rw [UnpackedFloat.shiftToTargetExponent, targetExponent_eq hm, htarget,
      UnpackedFloat.shiftToExponent, hamount]
    exact Prod.ext (shiftRight_mul_two_pow m i) (Int.sub_add_cancel e i)
  have hagain := hshift 0
  simp only [Nat.pow_zero, Nat.mul_one, Nat.cast_zero, Int.sub_zero] at hagain
  rw [UnpackedFloat.roundWithAccuracy, hshift j]
  simp [ExtendedMantissa.roundedMantissa, ExtendedMantissa.accuracy, Accuracy.roundToNearestEven,
    hagain, hm]

/-! ## Integers with 53 bits -/

/-- **A number is an integer of 53 bits at most**, with zeros behind it that make them 53. -/
inductive Represents : ℤ → UnpackedFloat → Prop
  | zero : Represents 0 (.zero .positive)
  | finite {n e : ℤ} {s : Sign} {m k : ℕ} (hpos : 0 < m) (hlow : 2 ^ 52 ≤ m) (hhigh : m < 2 ^ 53)
      (hk : k ≤ 52) (he : e = -k) (h : s.apply m = n * 2 ^ k) : Represents n (.finite s m e hpos)

theorem apply_mul (s : Sign) (a b : ℤ) : s.apply (a * b) = s.apply a * b := by
  cases s with
  | negative => exact (Int.neg_mul a b).symm
  | positive => rfl

theorem apply_neg (s : Sign) (a : ℤ) : (-s).apply a = -s.apply a := by
  cases s with
  | negative => exact (Int.neg_neg a).symm
  | positive => rfl

/-- Rounding drops the zeros that are too many. -/
theorem represents_roundWithAccuracy (hm : m ≠ 0) (hhigh : m < 2 ^ 53) (hk : 52 - m.log2 ≤ k) :
    Represents (s.apply m)
      (UnpackedFloat.roundWithAccuracy .binary64 s (m * 2 ^ k) (-k) .exact) := by
  have hlog : m.log2 ≤ 52 := Nat.lt_succ_iff.mp ((Nat.log2_lt hm).mpr hhigh)
  obtain ⟨l, hl⟩ := Nat.exists_eq_add_of_le hlog
  obtain ⟨j, rfl⟩ : ∃ j, k = l + j := Nat.exists_eq_add_of_le (by omega)
  have hpos : m * 2 ^ l ≠ 0 := Nat.mul_ne_zero hm (Nat.two_pow_pos l).ne'
  obtain ⟨hlow, hhigh⟩ := (Nat.log2_eq_iff hpos).mp ((log2_mul_two_pow hm l).trans hl.symm)
  have hexact := roundWithAccuracy_exact (s := s) hlow hhigh (e := -l) (by omega) j
  have hexponent : -(l : ℤ) - j = -(l + j : ℕ) := by omega
  rw [Nat.mul_assoc, ← Nat.pow_add, hexponent] at hexact
  rw [hexact]
  refine .finite _ hlow hhigh (by omega) rfl ?_
  rw [← apply_mul]
  push_cast
  rfl

/-- Rounding also adds the zeros that are missing. -/
theorem represents_round (hm : m ≠ 0) (hhigh : m < 2 ^ 53) (k : ℕ) :
    Represents (s.apply m) (UnpackedFloat.round .binary64 s (m * 2 ^ k) (-k)) := by
  have hlog : m.log2 ≤ 52 := Nat.lt_succ_iff.mp ((Nat.log2_lt hm).mpr hhigh)
  obtain ⟨l, hl⟩ := Nat.exists_eq_add_of_le hlog
  have htarget : max ((m.log2 : ℤ) + k + -k - 52) (-1074) = -l := by omega
  have hamount : (-(k : ℤ) - -l).toNat = l - k := by omega
  have hexponent : -(k : ℤ) - (l - k : ℕ) = -(k + (l - k) : ℕ) := by omega
  rw [UnpackedFloat.round, targetExponent_eq hm, htarget, UnpackedFloat.decreaseExponent, hamount]
  dsimp only
  rw [Nat.shiftLeft_eq, Nat.mul_assoc, ← Nat.pow_add, hexponent]
  exact represents_roundWithAccuracy hm hhigh (by omega)

theorem represents_normalize (hn : n.natAbs < 2 ^ 53) (k : ℕ) :
    Represents n (UnpackedFloat.normalize .binary64 (n * 2 ^ k) (-k) .positive) := by
  by_cases hzero : n = 0
  · rw [hzero, Int.zero_mul]
    exact .zero
  obtain ⟨m, rfl | rfl⟩ := Int.eq_nat_or_neg n
  · have hm : m ≠ 0 := by omega
    have hpos := Nat.mul_ne_zero hm (Nat.two_pow_pos k).ne'
    have hcast : (m : ℤ) * 2 ^ k = (m * 2 ^ k : ℕ) := by push_cast; rfl
    have hcompare : compare ((m * 2 ^ k : ℕ) : ℤ) 0 = .gt := Int.compare_eq_gt.mpr (by omega)
    rw [UnpackedFloat.normalize, hcast, hcompare]
    exact represents_round (s := .positive) hm hn k
  · have hm : m ≠ 0 := by omega
    have hpos := Nat.mul_ne_zero hm (Nat.two_pow_pos k).ne'
    have hcast : -(m : ℤ) * 2 ^ k = -(m * 2 ^ k : ℕ) := by push_cast; exact Int.neg_mul ..
    have hcompare : compare (-((m * 2 ^ k : ℕ) : ℤ)) 0 = .lt := Int.compare_eq_lt.mpr (by omega)
    rw [UnpackedFloat.normalize, hcast, hcompare]
    dsimp only
    rw [Int.neg_neg, Int.toNat_natCast]
    exact represents_round (s := .negative) hm (by omega) k

theorem eq_natAbs_mul (h : s.apply m = n * 2 ^ k) : m = n.natAbs * 2 ^ k := by
  have habs : (s.apply m).natAbs = m := by
    cases s with
    | negative => exact Int.natAbs_neg m
    | positive => rfl
  rw [← habs, h, Int.natAbs_mul, Int.natAbs_pow]
  rfl

theorem ne_zero_of_apply (hpos : 0 < m) (h : s.apply m = n * 2 ^ k) : n ≠ 0 := by
  rintro rfl
  rw [eq_natAbs_mul h, Int.natAbs_zero, Nat.zero_mul] at hpos
  exact absurd hpos (Nat.lt_irrefl 0)

/-- A sign, an exponent and a mantissa are read as they are written, the first bit of the mantissa
apart. -/
theorem unpack_packComponents {x : BitVec 11} {y : BitVec 52} (hzero : 0 < x.toNat)
    (hones : x.toNat < 2047) :
    UnpackedFloat.unpack .binary64 (UnpackedFloat.packComponents .binary64 s x y)
      = .finite s (2 ^ 52 + y.toNat) (x.toNat - 1075)
        (Nat.add_pos_left (Nat.two_pow_pos 52) _) := by
  have hnormal : x ≠ 0#11 := by
    rintro rfl
    exact absurd hzero (by decide)
  have hfinite : x ≠ -1#11 := by
    rintro rfl
    exact absurd hones (by decide)
  have hmantissa : (1#1 ++ y).toNat = 2 ^ 52 + y.toNat := by
    rw [BitVec.toNat_append, Nat.or_comm, Nat.add_comm]
    exact Nat.or_two_pow_eq_add_of_lt y.isLt
  have hbias : (Float.Model.Format.binary64.exponentBias : ℤ) + 52 = 1075 := rfl
  rw [UnpackedFloat.unpack]
  simp only [UnpackedFloat.unpackExponent_packComponents,
    UnpackedFloat.unpackMantissa_packComponents, UnpackedFloat.unpackSign_packComponents,
    Sign.ofBitVec_toBitVec, hmantissa, if_neg hnormal, if_neg hfinite,
    Nat.cast_ofNat, hbias]

/-! ## Comparison -/

theorem compare_natCast (x y : ℕ) : compare (x : ℤ) y = compare x y := by
  simp only [Int.compare_eq_ite_lt, Nat.compare_eq_ite_lt, Int.ofNat_lt]

theorem compare_neg (a b : ℤ) : compare (-a) (-b) = compare b a := by
  simp only [Int.compare_eq_ite_lt, Int.neg_lt_neg_iff]

section Compare

variable {s' : Sign} {m' x y : ℕ} {e' : ℤ}

theorem lt_of_zeros (hkl : k < l) (hlow : 2 ^ 52 ≤ x * 2 ^ k) (hhigh : y * 2 ^ l < 2 ^ 53) :
    y < x := by
  refine Nat.lt_of_mul_lt_mul_right (a := 2 ^ l) ?_
  calc y * 2 ^ l < 2 * 2 ^ 52 := hhigh
    _ ≤ 2 * (x * 2 ^ k) := Nat.mul_le_mul_left 2 hlow
    _ = x * 2 ^ (k + 1) := by ring
    _ ≤ x * 2 ^ l := Nat.mul_le_mul_left x (Nat.pow_le_pow_right Nat.two_pos hkl)

/-- Of two numbers with 53 bits, the one with more zeros behind it is the smaller one. -/
theorem compare_zeros (hlow : 2 ^ 52 ≤ x * 2 ^ k) (hhigh : x * 2 ^ k < 2 ^ 53)
    (hlow' : 2 ^ 52 ≤ y * 2 ^ l) (hhigh' : y * 2 ^ l < 2 ^ 53) :
    (compare (-(k : ℤ)) (-l)).then (compare (x * 2 ^ k) (y * 2 ^ l)) = compare x y := by
  rw [compare_neg, compare_natCast]
  rcases Nat.lt_trichotomy k l with hkl | rfl | hkl
  · rw [Nat.compare_eq_gt.mpr hkl, Nat.compare_eq_gt.mpr (lt_of_zeros hkl hlow hhigh')]
    rfl
  · rw [Nat.compare_eq_eq.mpr rfl]
    simp only [Ordering.then, Nat.compare_eq_ite_lt, Nat.mul_lt_mul_right (Nat.two_pow_pos k)]
  · rw [Nat.compare_eq_lt.mpr hkl, Nat.compare_eq_lt.mpr (lt_of_zeros hkl hlow' hhigh)]
    rfl

/-- Magnitudes are compared the other way round where both numbers are negative. -/
theorem compare_finite {hm : 0 < m} {hm' : 0 < m'} (hy : y ≠ 0)
    (h : (compare e e').then (compare m m') = compare x y) :
    UnpackedFloat.compare (.finite s m e hm) (.finite s' m' e' hm')
      = some (compare (s.apply x) (s'.apply y)) := by
  cases s with
  | positive =>
    cases s' with
    | positive => exact congrArg some (h.trans (compare_natCast x y).symm)
    | negative => exact congrArg some (Int.compare_eq_gt.mpr (show -(y : ℤ) < x by omega)).symm
  | negative =>
    cases s' with
    | positive => exact congrArg some (Int.compare_eq_lt.mpr (show -(x : ℤ) < y by omega)).symm
    | negative =>
      have hswap : (compare x y).swap = compare (-(x : ℤ)) (-y) := by
        rw [Nat.compare_swap, compare_neg, compare_natCast]
      exact congrArg some ((congrArg Ordering.swap h).trans hswap)

theorem compare_zero_finite {t : Sign} {hm : 0 < m} (hx : x ≠ 0) :
    UnpackedFloat.compare (.zero t) (.finite s m e hm) = some (compare 0 (s.apply x)) ∧
    UnpackedFloat.compare (.finite s m e hm) (.zero t) = some (compare (s.apply x) 0) := by
  cases s with
  | positive =>
    have hpos : (0 : ℤ) < x := by omega
    exact ⟨congrArg some (Int.compare_eq_lt.mpr hpos).symm,
      congrArg some (Int.compare_eq_gt.mpr hpos).symm⟩
  | negative =>
    have hneg : -(x : ℤ) < 0 := by omega
    exact ⟨congrArg some (Int.compare_eq_gt.mpr hneg).symm,
      congrArg some (Int.compare_eq_lt.mpr hneg).symm⟩

end Compare

namespace Represents

/-- A number is one integer. -/
theorem inj (ha : Represents a u) (hb : Represents b u) : a = b := by
  cases ha with
  | zero =>
    cases hb
    rfl
  | @finite _ _ _ _ k _ _ _ _ he h =>
    cases hb with
    | @finite _ _ _ _ l _ _ _ _ he' h' =>
      obtain rfl : k = l := by omega
      exact Int.eq_of_mul_eq_mul_right (by positivity) (h.symm.trans h')

/-- **An integer is one number**, since more zeros would make it longer. -/
theorem unique (hu : Represents n u) (hv : Represents n v) : u = v := by
  cases hu with
  | zero =>
    cases hv with
    | zero => rfl
    | finite hpos _ _ _ _ h => exact absurd rfl (ne_zero_of_apply hpos h)
  | @finite _ _ s m k hpos hlow hhigh _ he h =>
    have hn := ne_zero_of_apply hpos h
    cases hv with
    | zero => exact absurd rfl hn
    | @finite _ _ s' m' l hpos' hlow' hhigh' _ he' h' =>
      -- both have their first bit at the same place, so they have the same number of zeros
      have hk := (log2_mul_two_pow (Int.natAbs_ne_zero.mpr hn) k).symm
      have hl := (log2_mul_two_pow (Int.natAbs_ne_zero.mpr hn) l).symm
      rw [← eq_natAbs_mul h, (Nat.log2_eq_iff hpos.ne').mpr ⟨hlow, hhigh⟩] at hk
      rw [← eq_natAbs_mul h', (Nat.log2_eq_iff hpos'.ne').mpr ⟨hlow', hhigh'⟩] at hl
      obtain rfl : k = l := by omega
      obtain rfl : m = m' := (eq_natAbs_mul h).trans (eq_natAbs_mul h').symm
      obtain rfl : s = s' := by
        have happly := h.trans h'.symm
        cases s <;> cases s' <;> simp only [Sign.apply] at happly <;> first | rfl | omega
      rw [he, he']

theorem neg (h : Represents n u) (hn : n ≠ 0) : Represents (-n) u.neg := by
  cases h with
  | zero => exact absurd rfl hn
  | finite hpos hlow hhigh hk he h =>
    refine .finite hpos hlow hhigh hk he ?_
    rw [apply_neg, h, Int.neg_mul]

/-- The same integer with more zeros behind it. -/
theorem apply_decreaseExponent (h : s.apply m = n * 2 ^ k) (hle : k ≤ l) :
    s.apply (UnpackedFloat.decreaseExponent m (-k) (-l)).1 = n * 2 ^ l := by
  have hamount : (-(k : ℤ) - -l).toNat = l - k := by omega
  rw [UnpackedFloat.decreaseExponent, hamount]
  dsimp only
  rw [Nat.shiftLeft_eq, Nat.cast_mul, apply_mul, h, Int.mul_assoc, Nat.cast_pow, Nat.cast_ofNat,
    ← pow_add, Nat.add_sub_cancel' hle]

theorem isNaN (h : Represents n u) : u.isNaN = false := by
  cases h with
  | zero | finite => rfl

theorem add (ha : Represents a u) (hb : Represents b v) (hsum : (a + b).natAbs < 2 ^ 53) :
    Represents (a + b) (UnpackedFloat.add .binary64 u v) := by
  cases ha with
  | zero =>
    rw [Int.zero_add]
    cases hb with
    | zero => exact .zero
    | finite hpos hlow hhigh hk he h => exact .finite hpos hlow hhigh hk he h
  | @finite _ _ _ _ k hpos hlow hhigh hk he h =>
    cases hb with
    | zero =>
      rw [Int.add_zero]
      exact .finite hpos hlow hhigh hk he h
    | @finite _ _ _ _ l _ _ _ _ he' h' =>
      have hmin : min (-(k : ℤ)) (-l) = -(max k l : ℕ) := by omega
      have hnormal := represents_normalize hsum (max k l)
      rw [Int.add_mul, ← apply_decreaseExponent h (Nat.le_max_left k l),
        ← apply_decreaseExponent h' (Nat.le_max_right k l), ← hmin, ← he, ← he'] at hnormal
      exact hnormal

theorem sub (ha : Represents a u) (hb : Represents b v) (hdiff : (a - b).natAbs < 2 ^ 53) :
    Represents (a - b) (UnpackedFloat.sub .binary64 u v) := by
  cases ha with
  | zero =>
    rw [Int.zero_sub]
    cases hb with
    | zero => exact .zero
    | finite hpos hlow hhigh hk he h =>
      exact (finite hpos hlow hhigh hk he h).neg (ne_zero_of_apply hpos h)
  | @finite _ _ _ _ k hpos hlow hhigh hk he h =>
    cases hb with
    | zero =>
      rw [Int.sub_zero]
      exact .finite hpos hlow hhigh hk he h
    | @finite _ _ _ _ l _ _ _ _ he' h' =>
      have hmin : min (-(k : ℤ)) (-l) = -(max k l : ℕ) := by omega
      have hnormal := represents_normalize hdiff (max k l)
      rw [Int.sub_mul, ← apply_decreaseExponent h (Nat.le_max_left k l),
        ← apply_decreaseExponent h' (Nat.le_max_right k l), ← hmin, ← he, ← he'] at hnormal
      exact hnormal

/-- The sign of a number is that of the integer. -/
theorem apply_natAbs (h : s.apply m = n * 2 ^ k) : s.apply n.natAbs = n := by
  have hpos : (0 : ℤ) < 2 ^ k := by positivity
  refine Int.eq_of_mul_eq_mul_right hpos.ne' ?_
  rw [← h, eq_natAbs_mul h, ← apply_mul]
  push_cast
  rfl

theorem sign_of_nonneg (hpos : 0 < m) (h : s.apply m = n * 2 ^ k) (hn : 0 ≤ n) : s = .positive := by
  cases s with
  | positive => rfl
  | negative =>
    have hneg : -(n.natAbs : ℤ) = n := apply_natAbs h
    have hne := ne_zero_of_apply hpos h
    omega

/-- Products have the zeros of both factors behind them. -/
theorem mul (ha : Represents a u) (hb : Represents b v) (hleft : 0 ≤ a) (hright : 0 ≤ b)
    (hproduct : (a * b).natAbs < 2 ^ 53) :
    Represents (a * b) (UnpackedFloat.mul .binary64 u v) := by
  cases ha with
  | zero =>
    rw [Int.zero_mul]
    cases hb with
    | zero => exact .zero
    | finite hpos _ _ _ _ h =>
      cases sign_of_nonneg hpos h hright
      exact .zero
  | @finite _ _ s m k hpos hlow hhigh hk he h =>
    obtain rfl := sign_of_nonneg hpos h hleft
    cases hb with
    | zero =>
      rw [Int.mul_zero]
      exact .zero
    | @finite _ _ s' m' l hpos' hlow' hhigh' hk' he' h' =>
      obtain rfl := sign_of_nonneg hpos' h' hright
      have hm := eq_natAbs_mul h
      have hm' := eq_natAbs_mul h'
      have hne : (a * b).natAbs ≠ 0 :=
        Int.natAbs_ne_zero.mpr (Int.mul_ne_zero (ne_zero_of_apply hpos h)
          (ne_zero_of_apply hpos' h'))
      have hmantissa : m * m' = (a * b).natAbs * 2 ^ (k + l) := by
        rw [hm, hm', Int.natAbs_mul, Nat.pow_add]
        ring
      have hexponent : -(k : ℤ) + -l = -(k + l : ℕ) := by omega
      have hzeros : 52 - (a * b).natAbs.log2 ≤ k + l := by
        have hbits := log2_mul_two_pow hne (k + l)
        have hsize : 2 ^ 52 ≤ m * m' := hlow.trans (Nat.le_mul_of_pos_right m hpos')
        rw [← hmantissa] at hbits
        have := (Nat.le_log2 (by positivity)).mpr hsize
        omega
      have hround := represents_roundWithAccuracy (s := .positive) hne hproduct hzeros
      have happly : Sign.positive.apply (a * b).natAbs = a * b :=
        Int.natAbs_of_nonneg (Int.mul_nonneg hleft hright)
      rw [happly, ← hmantissa, ← hexponent, ← he, ← he'] at hround
      exact hround

/-- **Numbers are compared as the integers they are.** -/
theorem compare_eq (ha : Represents a u) (hb : Represents b v) :
    UnpackedFloat.compare u v = some (compare a b) := by
  cases ha with
  | zero =>
    cases hb with
    | zero => rfl
    | finite hpos _ _ _ _ h =>
      rw [← apply_natAbs h]
      exact (compare_zero_finite (Int.natAbs_ne_zero.mpr (ne_zero_of_apply hpos h))).1
  | finite hpos hlow hhigh _ he h =>
    rw [← apply_natAbs h]
    cases hb with
    | zero => exact (compare_zero_finite (Int.natAbs_ne_zero.mpr (ne_zero_of_apply hpos h))).2
    | finite hpos' hlow' hhigh' _ he' h' =>
      rw [← apply_natAbs h']
      refine compare_finite (Int.natAbs_ne_zero.mpr (ne_zero_of_apply hpos' h')) ?_
      rw [eq_natAbs_mul h] at hlow hhigh ⊢
      rw [eq_natAbs_mul h'] at hlow' hhigh' ⊢
      rw [he, he']
      exact compare_zeros hlow hhigh hlow' hhigh'

/-- No natural number is below a negative one. -/
theorem lt_eq_false {j : ℕ} (h : Represents j u) (hv : v.lt (.zero .positive) = true) :
    u.lt v = false := by
  have hu : u = .zero .positive ∨ ∃ m e hm, u = .finite .positive m e hm := by
    cases h with
    | zero => exact .inl rfl
    | finite hpos _ _ _ _ h =>
      obtain rfl := sign_of_nonneg hpos h (Int.natCast_nonneg j)
      exact .inr ⟨_, _, _, rfl⟩
  have hbelow : v = .infinity .negative ∨ ∃ m e hm, v = .finite .negative m e hm := by
    cases v with
    | notANumber => cases hv
    | zero t => cases hv
    | infinity t =>
      cases t with
      | positive => cases hv
      | negative => exact .inl rfl
    | finite t m e hm =>
      cases t with
      | positive => cases hv
      | negative => exact .inr ⟨m, e, hm, rfl⟩
  rcases hu with rfl | ⟨m, e, hm, rfl⟩ <;> rcases hbelow with rfl | ⟨m', e', hm', rfl⟩ <;> rfl

theorem isFinite (h : Represents n u) : u.isFinite = true := by
  cases h with
  | zero | finite => rfl

/-- A natural number is converted by shifting its zeros out. -/
theorem toNat_toUInt64 {j : ℕ} (h : Represents j u) (hj : j < 2 ^ 53) : u.toUInt64.toNat = j := by
  have hint : UnpackedFloat.toInt 0 (UInt64.size - 1) u = j := by
    generalize (j : ℤ) = n at h
    cases h with
    | zero => rfl
    | @finite _ e s m k hpos hlow hhigh hk he h =>
      have hmantissa := eq_natAbs_mul h
      have hshift := shiftRight_mul_two_pow n.natAbs k
      rw [← hmantissa] at hshift
      have hround : UnpackedFloat.roundToInt s m e = s.apply n.natAbs := by
        have hnone : (e - 0).toNat = 0 := by omega
        have hall : (0 - (e - (0 : ℕ))).toNat = k := by omega
        rw [UnpackedFloat.roundToInt, UnpackedFloat.decreaseExponent, hnone]
        simp only [UnpackedFloat.shiftToExponent, hall]
        exact congrArg (fun x : ExtendedMantissa => s.apply x.mantissa) hshift
      exact hround.trans (apply_natAbs h)
  rw [UnpackedFloat.toUInt64, hint, Int.toNat_natCast]
  exact UInt64.toNat_ofNatClamp_of_lt (hj.trans (by decide))

theorem unpack_pack (h : Represents n u) : (Float.Model.pack u).unpack = u := by
  cases h with
  | zero => rfl
  | @finite _ e s m k hpos hlow hhigh hk he h =>
    have hexponent : (BitVec.ofNat 11 (1075 - k)).toNat = 1075 - k := by
      rw [BitVec.toNat_ofNat]
      omega
    have hmantissa : 2 ^ 52 + (BitVec.ofNat 52 m).toNat = m := by
      rw [BitVec.toNat_ofNat]
      omega
    have hpack : UnpackedFloat.pack .binary64 (.finite s m e hpos)
        = UnpackedFloat.packComponents .binary64 s (BitVec.ofNat 11 (1075 - k))
            (BitVec.ofNat 52 m) := by
      have hbiased : (e + 1023 + 52).toNat = 1075 - k := by omega
      have hlog : m.log2 + 1 = 53 := by rw [(Nat.log2_eq_iff hpos.ne').mpr ⟨hlow, hhigh⟩]
      rw [← hbiased]
      refine (if_neg ?_).trans (if_pos hlog)
      change ¬2048 ≤ (e + 1023 + 52).toNat + 1
      omega
    change UnpackedFloat.unpack .binary64 (UnpackedFloat.pack .binary64 _) = _
    rw [hpack, unpack_packComponents]
    · congr 1
      omega
    · rw [hexponent]
      omega
    · rw [hexponent]
      omega

end Represents

/-! ## Floating point numbers -/

/-- **A floating point number is an integer** of 53 bits at most. -/
def IsInteger (x : Float) (n : ℤ) : Prop := ∃ u, Represents n u ∧ x.toModel = Float.Model.pack u

variable {x y : Float}

namespace IsInteger

theorem represents (h : IsInteger x n) : Represents n x.toModel.unpack := by
  obtain ⟨u, hu, hx⟩ := h
  rwa [hx, hu.unpack_pack]

theorem inj (ha : IsInteger x a) (hb : IsInteger x b) : a = b := ha.represents.inj hb.represents

theorem unique (hx : IsInteger x n) (hy : IsInteger y n) : x = y := by
  obtain ⟨u, hu, hx⟩ := hx
  obtain ⟨v, hv, hy⟩ := hy
  rw [hu.unique hv, ← hy] at hx
  exact congrArg Float.ofModel hx

theorem isNaN (h : IsInteger x n) : x.isNaN = false := h.represents.isNaN

theorem add (hx : IsInteger x a) (hy : IsInteger y b) (h : (a + b).natAbs < 2 ^ 53) :
    IsInteger (x + y) (a + b) :=
  ⟨_, hx.represents.add hy.represents h, rfl⟩

theorem sub (hx : IsInteger x a) (hy : IsInteger y b) (h : (a - b).natAbs < 2 ^ 53) :
    IsInteger (x - y) (a - b) :=
  ⟨_, hx.represents.sub hy.represents h, rfl⟩

theorem mul (hx : IsInteger x a) (hy : IsInteger y b) (hleft : 0 ≤ a) (hright : 0 ≤ b)
    (h : (a * b).natAbs < 2 ^ 53) : IsInteger (x * y) (a * b) :=
  ⟨_, hx.represents.mul hy.represents hleft hright h, rfl⟩

theorem neg (hx : IsInteger x n) (hn : n ≠ 0) : IsInteger (-x) (-n) :=
  ⟨_, hx.represents.neg hn, rfl⟩

theorem magnitude (hx : IsInteger x n) (hn : 0 ≤ n) : IsInteger x n.natAbs := by
  rwa [← Int.natAbs_of_nonneg hn] at hx

theorem magnitude_of_neg (hx : IsInteger x n) (hn : n < 0) : IsInteger (-x) n.natAbs := by
  have hneg := hx.neg hn.ne
  rwa [← Int.ofNat_natAbs_of_nonpos hn.le] at hneg

theorem lt_iff (hx : IsInteger x a) (hy : IsInteger y b) : x < y ↔ a < b := by
  change decide (x.toModel.unpack.lt y.toModel.unpack = true) = true ↔ a < b
  rw [decide_eq_true_iff, UnpackedFloat.lt, hx.represents.compare_eq hy.represents, beq_iff_eq,
    Option.some_inj, Int.compare_eq_lt]

theorem le_iff (hx : IsInteger x a) (hy : IsInteger y b) : x ≤ y ↔ a ≤ b := by
  change decide (x.toModel.unpack.le y.toModel.unpack = true) = true ↔ a ≤ b
  rw [decide_eq_true_iff, UnpackedFloat.le, hx.represents.compare_eq hy.represents, Option.any_some,
    Int.isLE_compare]

theorem beq_iff (hx : IsInteger x a) (hy : IsInteger y b) : (x == y) = true ↔ a = b := by
  change (x.toModel.unpack.beq y.toModel.unpack) = true ↔ a = b
  rw [UnpackedFloat.beq, hx.represents.compare_eq hy.represents, beq_iff_eq, Option.some_inj,
    Int.compare_eq_eq]

theorem not_lt {j : ℕ} (hx : IsInteger x j) (hy : y.toModel.unpack.lt (.zero .positive) = true) :
    ¬x < y := by
  change ¬decide (x.toModel.unpack.lt y.toModel.unpack = true) = true
  rw [hx.represents.lt_eq_false hy]
  decide

theorem isFinite (h : IsInteger x n) : x.isFinite = true := h.represents.isFinite

theorem toNat_toUInt64 {j : ℕ} (h : IsInteger x j) (hj : j < 2 ^ 53) : x.toUInt64.toNat = j :=
  h.represents.toNat_toUInt64 hj

end IsInteger

/-- Machine words are converted as they are. -/
theorem isInteger_toFloat {w : UInt64} (hw : w.toNat < 2 ^ 53) : IsInteger w.toFloat w.toNat := by
  have hnormal := represents_normalize (n := w.toNat) hw 0
  rw [pow_zero, Int.mul_one] at hnormal
  refine ⟨_, hnormal, ?_⟩
  rw [UInt64.toFloat, Float.Model.ofUInt64, UnpackedFloat.ofUInt64]
  rfl

/-- A natural number is converted as a machine word, and multiplied by one. -/
theorem isInteger_ofNat (hm : m < 2 ^ 53) : IsInteger (Float.ofNat m) m := by
  have hword : m.toUInt64.toNat = m := UInt64.toNat_ofNat_of_lt' (Nat.lt_trans hm (by decide))
  have hnumber : IsInteger m.toUInt64.toFloat m := by
    have hfloat := isInteger_toFloat (w := m.toUInt64) (hword.symm ▸ hm)
    rwa [hword] at hfloat
  have hone : IsInteger (Float.ofBits 0x3ff0000000000000) 1 := by
    refine ⟨.finite .positive (2 ^ 52) (-52) (Nat.two_pow_pos 52), ?_, rfl⟩
    exact .finite (k := 52) _ le_rfl (by decide) le_rfl rfl rfl
  have hproduct := hnumber.mul hone (Int.natCast_nonneg m) Int.one_nonneg (by omega)
  rw [Int.mul_one] at hproduct
  have hdef : Float.ofNat m = m.toUInt64.toFloat * Float.ofBits 0x3ff0000000000000 :=
    dif_pos ⟨hm, Nat.zero_le 22⟩
  rwa [hdef]

theorem isInteger_ofInt (hn : n.natAbs < 2 ^ 53) : IsInteger (Float.ofInt n) n := by
  cases n with
  | ofNat m => exact isInteger_ofNat hn
  | negSucc m => exact (isInteger_ofNat hn).neg (by omega)

/-! ## Conversions -/

/-- Nothing is rounded up. -/
theorem roundUp_eq (h : IsInteger x m) (hm : m < 2 ^ 53) : roundUp x = x := by
  unfold roundUp
  split
  · have hbelow : x.toUInt64.toFloat = x := by
      have hword := isInteger_toFloat (w := x.toUInt64) ((h.toNat_toUInt64 hm).symm ▸ hm)
      rw [h.toNat_toUInt64 hm] at hword
      exact hword.unique h
    have hrest : x - x = Float.ofInt 0 := by
      have hsub := h.sub h (by rw [Int.sub_self]; decide)
      rw [Int.sub_self] at hsub
      exact hsub.unique (isInteger_ofInt (by decide))
    dsimp only
    rw [hbelow, hrest, if_neg (by decide +kernel)]
  · rfl

theorem isInteger_zero : IsInteger 0 0 := isInteger_ofNat (m := 0) (by decide)

/-- **Integers are rounded to themselves.** -/
theorem round_eq (h : IsInteger x n) (hn : n.natAbs < 2 ^ 53) : round x = x := by
  unfold round
  split
  · next hneg =>
    rw [h.lt_iff isInteger_zero] at hneg
    rw [roundUp_eq (h.magnitude_of_neg hneg) hn]
    have hback := (h.neg hneg.ne).neg (by omega)
    rw [Int.neg_neg] at hback
    exact hback.unique h
  · next hneg =>
    rw [h.lt_iff isInteger_zero] at hneg
    split
    · exact roundUp_eq (h.magnitude (Int.not_lt.mp hneg)) hn
    · rfl

theorem toInt_eq (h : IsInteger x n) (hn : n.natAbs < 2 ^ 53) : toInt x = n := by
  unfold toInt
  split
  · next hneg =>
    rw [h.lt_iff isInteger_zero] at hneg
    rw [(h.magnitude_of_neg hneg).toNat_toUInt64 hn]
    omega
  · next hneg =>
    rw [h.lt_iff isInteger_zero] at hneg
    rw [(h.magnitude (Int.not_lt.mp hneg)).toNat_toUInt64 hn]
    omega

/-- What an operation makes of two integers, if it makes an integer of them. -/
theorem lift₂_ofInt {f : Float → Float → Float} (hn : n.natAbs < 2 ^ 53)
    (h : IsInteger (f (Float.ofInt a) (Float.ofInt b)) n) :
    lift₂ f (ofInt a) (ofInt b) = ofInt n := by
  have hresult : f (Float.ofInt a) (Float.ofInt b) = Float.ofInt n := h.unique (isInteger_ofInt hn)
  have hnan : (Float.ofInt n).isNaN = false := (isInteger_ofInt hn).isNaN
  rw [lift₂, ofResult, ofInt, ofInt, ofFloat, ofFloat, hresult, hnan, Bool.false_and]
  rfl

theorem lift_round_ofInt (hn : n.natAbs < 2 ^ 53) : lift round (ofInt n) = ofInt n := by
  have hinteger := isInteger_ofInt hn
  rw [lift, ofResult, ofInt, ofFloat, round_eq hinteger hn, hinteger.isNaN, Bool.false_and]

/-- **Floating point numbers count exactly below `2 ^ 53`.** -/
theorem exactSitesTo : ExactSitesTo Floating (2 ^ 53 - 1) where
  add ha hb hsum := lift₂_ofInt (by omega)
    ((isInteger_ofInt (by omega)).add (isInteger_ofInt (by omega)) (by omega))
  sub ha hb hdiff := lift₂_ofInt (by omega)
    ((isInteger_ofInt (by omega)).sub (isInteger_ofInt (by omega)) (by omega))
  mul {a b} ha hb hproduct := by
    refine lift₂_ofInt (by omega) ?_
    rw [Nat.cast_mul]
    refine (isInteger_ofInt (by omega)).mul (isInteger_ofInt (by omega)) (Int.natCast_nonneg a)
      (Int.natCast_nonneg b) ?_
    rw [← Nat.cast_mul, Int.natAbs_natCast]
    omega
  inj {a b} ha hb h := by
    have hvalue : Float.ofInt a = Float.ofInt b := congrArg Floating.value h
    have hb' : IsInteger (Float.ofInt b) b := isInteger_ofInt (by omega)
    rw [← hvalue] at hb'
    exact (isInteger_ofInt (by omega)).inj hb'
  eq_zero ha h := ((isInteger_ofInt (by omega)).beq_iff (isInteger_ofInt (by decide))).mp h
  le_iff ha hb := decide_eq_true_iff.trans
    ((isInteger_ofInt (by omega)).le_iff (isInteger_ofInt (by omega)))
  site_eq {a} ha := by
    have hround : Literal.round (Literal.ofInt a : Floating) = Literal.ofInt a :=
      lift_round_ofInt (by omega)
    rw [Literal.site, hround]
    exact toInt_eq (isInteger_ofInt (by omega)) (by omega)
  slot?_eq {a} ha := by
    have hinteger : IsInteger (Float.ofInt a) a := isInteger_ofInt (by omega)
    have hround : Literal.round (Literal.ofInt a : Floating) = Literal.ofInt a :=
      lift_round_ofInt (by omega)
    have hrest : Literal.sub (Literal.ofInt a : Floating) (Literal.ofInt a) = Literal.ofInt 0 := by
      refine lift₂_ofInt (by decide) ?_
      rw [← Int.sub_self (a : ℤ)]
      exact hinteger.sub hinteger (by rw [Int.sub_self]; decide)
    have hfinite : Literal.isFinite (Literal.ofInt a : Floating) = true := hinteger.isFinite
    have hlow : Literal.lt (Literal.ofInt a : Floating) (Literal.sub Literal.zero Literal.tolerance)
        = false := decide_eq_false (hinteger.not_lt (by decide +kernel))
    have hnear : Literal.lt (Literal.tolerance : Floating) (Literal.abs (Literal.ofInt 0)) =
        false := by
      decide +kernel
    rw [Literal.slot?, hround, hrest, hfinite, hlow, hnear]
    exact congrArg some (hinteger.toNat_toUInt64 (by omega))

/-- At `2 ^ 53` one is lost. -/
example : Literal.eq (Literal.add (Literal.ofInt (2 ^ 53)) (Literal.ofInt 1) : Floating)
    (Literal.ofInt (2 ^ 53)) = true := by
  decide +kernel

end Floating

end Fluxion
