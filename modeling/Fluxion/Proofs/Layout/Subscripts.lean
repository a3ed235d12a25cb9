import Fluxion.Layout.Relabel
import Fluxion.Node.Normal
import Fluxion.Procedure.Canonical
import Fluxion.Proofs.Machine.TotalCorrectness
import Fluxion.Proofs.Numbers.ExactIntegers
import Mathlib.Data.List.Forall2

/-!
# Proofs/Layout/Subscripts — the slots that subscripts stand for

A subscript is built from literals, variables and parameters by sums, differences and literal
factors (`Node.Plain`), and `Node.Reads n env a` says that its real part is `a`.  Folding constants,
and every pass that a node goes through later, keeps both.  Sums and differences are folded as
numbers are counted (`Counting.Stands`): in an exact field, or with integers that literals do not
round.

Two facts place a subscript in its array:

* families of states stand one behind the other, each as long as the range they share;
* a family of parameters is stored row by row, and `rowMajor` is the offset of its members.
-/

namespace Fluxion

open Arithmetic

variable {K V : Type}

/-! ## Plain nodes -/

/-- **A node of index arithmetic.** -/
inductive Node.Plain : Node K → Prop
  | const (a : K) : Plain (.const a)
  | var (x : String) : Plain (.var x)
  | param (a : K) : Plain (.access .param (.const a))
  | unresolved (name : String) : Plain (.unresolved name)
  | neg {n : Node K} (h : Plain n) : Plain (.neg n)
  | add {m n : Node K} (hm : Plain m) (hn : Plain n) : Plain (.binary .add m n)
  | sub {m n : Node K} (hm : Plain m) (hn : Plain n) : Plain (.binary .sub m n)
  | mul {n : Node K} (h : Plain n) (a : K) : Plain (.binary .mul n (.const a))

namespace Node.Plain

variable {m n : Node K} {f : Node K → Node K}

/-- A pass that leaves plain nodes alone does so throughout. -/
theorem transform_eq (hf : ∀ n, Plain n → f n = n) (h : Plain n) : n.transform f = n := by
  induction h with
  | const a => exact hf _ (.const a)
  | var x => exact hf _ (.var x)
  | param a =>
    rw [transform, transform, hf _ (.const a)]
    exact hf _ (.param a)
  | unresolved name => exact hf _ (.unresolved name)
  | neg h ih =>
    rw [transform, ih]
    exact hf _ (.neg h)
  | add hm hn ihm ihn =>
    rw [transform, ihm, ihn]
    exact hf _ (.add hm hn)
  | sub hm hn ihm ihn =>
    rw [transform, ihm, ihn]
    exact hf _ (.sub hm hn)
  | mul h a ih =>
    rw [transform, ih, transform, hf _ (.const a)]
    exact hf _ (.mul h a)

theorem nativeSum_eq (h : Plain n) : nativeSum n = n := by cases h <;> rfl

theorem absorbGuard_eq (h : Plain n) : absorbGuard n = n := by cases h <;> rfl

theorem stripExclusions_eq (h : Plain n) : stripExclusions n = n := by cases h <;> rfl

theorem respell_eq (h : Plain n) : respell n = n := by cases h <;> rfl

variable [Literal K]

theorem plus (hm : Plain m) (hn : Plain n) : Plain (m.plus n) := by
  unfold Node.plus
  split
  · exact .const _
  · split
    · exact hn
    · split
      · exact hm
      · exact .add hm hn

theorem minus (hm : Plain m) (hn : Plain n) : Plain (m.minus n) := by
  unfold Node.minus
  split
  · exact .const _
  · split
    · exact hm
    · exact .sub hm hn

theorem times (hm : Plain m) (a : K) : Plain (m.times (.const a)) := by
  unfold Node.times
  split
  · exact .const _
  · split
    · exact .const a
    · split
      · exact hm
      · exact .mul hm a

/-- Folding zeros away keeps a node plain. -/
theorem collapseZeros (h : Plain n) : Plain n.collapseZeros := by
  induction h with
  | const a => exact .const a
  | var x => exact .var x
  | param a => exact .param a
  | unresolved name => exact .unresolved name
  | neg _ ih =>
    change Plain (if _ then _ else _)
    split
    · exact .const _
    · exact .neg ih
  | add _ _ ihm ihn =>
    change Plain (if _ then _ else if _ then _ else _)
    split
    · exact ihn
    · split
      · exact ihm
      · exact .add ihm ihn
  | sub _ _ ihm ihn =>
    change Plain (if _ then _ else if _ then _ else _)
    split
    · exact ihm
    · split
      · exact .neg ihn
      · exact .sub ihm ihn
  | mul _ a ih =>
    change Plain (if _ then _ else _)
    split
    · exact .const _
    · exact .mul ih a

theorem boundNode (l : ParamLayout) (b : Bound) : Plain (l.boundNode b : Node K) := by
  unfold ParamLayout.boundNode
  split
  · exact .const _
  · split
    · exact .param _
    · exact .unresolved _

theorem rangeSize (l : ParamLayout) (i : Index) : Plain (l.rangeSize i : Node K) := by
  unfold ParamLayout.rangeSize
  dsimp only
  split
  · exact (boundNode l i.upper).plus (.const _)
  · exact ((boundNode l i.upper).minus (boundNode l i.lower)).plus (.const _)

end Node.Plain

/-! ## Reading an index -/

section Meaning

variable [Literal K] [Arithmetic K V] {p : Procedure K} {inputs : Inputs K V} {env : Env V}
  {m n : Node K} {x : String} {v : V}

/-- **An index has a value with this real part.** -/
def Node.Reads (p : Procedure K) (inputs : Inputs K V) (env : Env V) (n : Node K) (a : K) : Prop :=
  ∃ v, n.meaning p inputs env (.ok v) ∧ real v = a

namespace Node

theorem reads_var (h : env.lookup x = some v) : (Node.var x).Reads p inputs env (real v) :=
  ⟨v, by rw [meaning]; exact ⟨v, h, rfl⟩, rfl⟩

variable [RealParts K V] {a b : K}

open RealParts

theorem reads_const_iff : (Node.const b).Reads p inputs env a ↔ a = b := by
  constructor
  · rintro ⟨v, hv, rfl⟩
    rw [meaning] at hv
    obtain rfl := Except.ok.inj hv
    exact real_ofLiteral b
  · rintro rfl
    exact ⟨ofLiteral a, by rw [meaning]; rfl, real_ofLiteral a⟩

theorem reads_add_iff : (Node.binary .add m n).Reads p inputs env a ↔
    ∃ b c, m.Reads p inputs env b ∧ n.Reads p inputs env c ∧ a = Literal.add b c := by
  constructor
  · rintro ⟨v, hv, rfl⟩
    obtain ⟨w, w', hw, hw', rfl⟩ := meaning_binary.mp hv
    exact ⟨_, _, ⟨w, hw, rfl⟩, ⟨w', hw', rfl⟩, real_add w w'⟩
  · rintro ⟨_, _, ⟨w, hw, rfl⟩, ⟨w', hw', rfl⟩, rfl⟩
    exact ⟨_, meaning_binary.mpr ⟨w, w', hw, hw', rfl⟩, real_add w w'⟩

theorem reads_sub_iff : (Node.binary .sub m n).Reads p inputs env a ↔
    ∃ b c, m.Reads p inputs env b ∧ n.Reads p inputs env c ∧ a = Literal.sub b c := by
  constructor
  · rintro ⟨v, hv, rfl⟩
    obtain ⟨w, w', hw, hw', rfl⟩ := meaning_binary.mp hv
    exact ⟨_, _, ⟨w, hw, rfl⟩, ⟨w', hw', rfl⟩, real_sub w w'⟩
  · rintro ⟨_, _, ⟨w, hw, rfl⟩, ⟨w', hw', rfl⟩, rfl⟩
    exact ⟨_, meaning_binary.mpr ⟨w, w', hw, hw', rfl⟩, real_sub w w'⟩

/-- A parameter at a literal slot has one value. -/
theorem meaning_accessAt {limit k : ℕ} (hK : ExactSitesTo K limit) (hk : k ≤ limit)
    (h : inputs.p[k]? = some v) : (ParamLayout.accessAt k).meaning p inputs env = .of (.ok v) := by
  have hslot : Literal.slot? (real (ofLiteral (Literal.ofInt k : K) : V)) = some k := by
    rw [real_ofLiteral, hK.slot?_eq hk]
  have hfetch : p.fetch inputs .param (ofLiteral (Literal.ofInt k : K)) = .ok v := by
    simp only [Procedure.fetch, Program.slot, hslot]
    rw [if_neg (by decide), h]
  rw [ParamLayout.accessAt, ofInt, meaning, meaning, Computation.of_andThen, hfetch]

end Node

end Meaning

theorem Node.const?_eq_some {n : Node K} {a : K} (h : n.const? = some a) : n = .const a := by
  cases n with
  | const v => rw [Option.some.inj h]
  | _ => cases h

/-! ## Counting with indices -/

namespace Counting

variable {A : Type} [CommRing A] [Literal K] [Arithmetic K V] (C : Counting A K)
  {p : Procedure K} {inputs : Inputs K V} {env : Env V} {m n : Node K} {a b lo hi : A}

/-- **An index stands for a number in reach.** -/
def Stands (p : Procedure K) (inputs : Inputs K V) (env : Env V) (n : Node K) (a : A) : Prop :=
  C.InReach a ∧ n.Reads p inputs env (C.value a)

/-- What is computed with the bounds of a range is in reach. -/
structure HasRange (lo hi : A) : Prop where
  one : C.InReach 1
  one_sub : C.InReach (1 - lo)
  sub : C.InReach (hi - lo)
  size : C.InReach (hi - lo + 1)

variable {C} [RealParts K V]

/-- A literal zero stands for zero only. -/
theorem Stands.eq_zero (hn : C.Stands p inputs env n a) (h : n.isZero = true) : a = 0 := by
  cases n with
  | const x =>
    obtain rfl := Node.reads_const_iff.mp hn.2
    exact C.eq_zero hn.1 h
  | _ => cases h

/-- **Folding a sum of indices.** -/
theorem Stands.plus (hm : C.Stands p inputs env m a) (hn : C.Stands p inputs env n b)
    (h : C.InReach (a + b)) : C.Stands p inputs env (m.plus n) (a + b) := by
  unfold Node.plus
  split
  · next hx hy =>
    have hleft := hm.2
    have hright := hn.2
    rw [Node.const?_eq_some hx, Node.reads_const_iff] at hleft
    rw [Node.const?_eq_some hy, Node.reads_const_iff] at hright
    refine ⟨h, Node.reads_const_iff.mpr ?_⟩
    rw [← hleft, ← hright, C.add hm.1 hn.1 h]
  · split
    · next hzero => rwa [hm.eq_zero hzero, zero_add]
    · split
      · next hzero => rwa [hn.eq_zero hzero, add_zero]
      · exact ⟨h, Node.reads_add_iff.mpr ⟨_, _, hm.2, hn.2, (C.add hm.1 hn.1 h).symm⟩⟩

theorem Stands.minus (hm : C.Stands p inputs env m a) (hn : C.Stands p inputs env n b)
    (h : C.InReach (a - b)) : C.Stands p inputs env (m.minus n) (a - b) := by
  unfold Node.minus
  split
  · next hx hy =>
    have hleft := hm.2
    have hright := hn.2
    rw [Node.const?_eq_some hx, Node.reads_const_iff] at hleft
    rw [Node.const?_eq_some hy, Node.reads_const_iff] at hright
    refine ⟨h, Node.reads_const_iff.mpr ?_⟩
    rw [← hleft, ← hright, C.sub hm.1 hn.1 h]
  · split
    · next hzero => rwa [hn.eq_zero hzero, sub_zero]
    · exact ⟨h, Node.reads_sub_iff.mpr ⟨_, _, hm.2, hn.2, (C.sub hm.1 hn.1 h).symm⟩⟩

theorem stands_const (h : C.InReach a) : C.Stands p inputs env (.const (C.value a)) a :=
  ⟨h, Node.reads_const_iff.mpr rfl⟩

variable {l : ParamLayout}

/-- The number of sites, whether the lower bound is known or not. -/
theorem stands_rangeSize {i : Index} (hrange : C.HasRange lo hi)
    (hlower : C.Stands p inputs env (l.boundNode i.lower) lo)
    (hupper : C.Stands p inputs env (l.boundNode i.upper) hi) :
    C.Stands p inputs env (l.rangeSize i) (hi - lo + 1) := by
  rw [ParamLayout.rangeSize]
  split
  · next v hv =>
    have hreads := hlower.2
    rw [Node.const?_eq_some hv, Node.reads_const_iff] at hreads
    have hsize : hi - lo + 1 = hi + (1 - lo) := by ring
    have hreach := hrange.size
    rw [← hreads, ← C.value_one, C.sub hrange.one hlower.1 hrange.one_sub]
    rw [hsize] at hreach ⊢
    exact hupper.plus (stands_const hrange.one_sub) hreach
  · have hone : C.Stands p inputs env (.ofInt 1) 1 := by
      rw [Node.ofInt, ← C.value_intCast, Int.cast_one]
      exact stands_const hrange.one
    exact (hupper.minus hlower hrange.sub).plus hone hrange.size

/-- Families of states stand one behind the other. -/
theorem stands_placeFamilies {start : Node K} {s : A} (fs : List (Equation K × Index))
    (hrange : C.HasRange lo hi) (hstart : C.Stands p inputs env start s)
    (hlower : ∀ q ∈ fs, C.Stands p inputs env (l.boundNode q.2.lower) lo)
    (hupper : ∀ q ∈ fs, C.Stands p inputs env (l.boundNode q.2.upper) hi) {j : ℕ}
    (hreach : ∀ i ≤ j, C.InReach (s + i * (hi - lo + 1))) {f : StateFamily K}
    (hf : (StateLayout.placeFamilies l start fs)[j]? = some f) :
    C.Stands p inputs env f.start (s + j * (hi - lo + 1)) := by
  induction fs generalizing start s j with
  | nil => cases hf
  | cons q fs ih =>
    obtain ⟨hlower₀, hlower⟩ := List.forall_mem_cons.mp hlower
    obtain ⟨hupper₀, hupper⟩ := List.forall_mem_cons.mp hupper
    cases j with
    | zero =>
      obtain rfl := Option.some.inj hf
      rw [Nat.cast_zero, zero_mul, add_zero]
      exact hstart
    | succ j =>
      have hplace (i : ℕ) : s + (i + 1 : ℕ) * (hi - lo + 1)
          = s + (hi - lo + 1) + i * (hi - lo + 1) := by
        push_cast
        ring
      have hsecond := hreach 1 (Nat.le_add_left 1 j)
      rw [Nat.cast_one, one_mul] at hsecond
      have hnext := hstart.plus (stands_rangeSize hrange hlower₀ hupper₀) hsecond
      rw [hplace]
      refine ih hnext hlower hupper (fun i hij => ?_) hf
      rw [← hplace]
      exact hreach (i + 1) (Nat.succ_le_succ hij)

/-- The slot that a member of a family is written to. -/
theorem stands_slot {f : StateFamily K} {s : A} {site : Node K}
    (hstart : C.Stands p inputs env f.start s)
    (hlower : C.Stands p inputs env (l.boundNode f.index.lower) lo)
    (hsite : C.Stands p inputs env site a) (hoffset : C.InReach (a - lo))
    (hslot : C.InReach (s + (a - lo))) :
    C.Stands p inputs env (f.slot l site) (s + (a - lo)) :=
  hstart.plus (hsite.minus hlower hoffset) hslot

end Counting

section Literals

variable [Field K] [LinearOrder K] [IsStrictOrderedRing K] [Literal K] [ExactLiteral K] {n : Node K}

theorem Node.eq_const_of_isZero (h : n.isZero = true) : n = .const 0 := by
  cases n with
  | const v =>
    obtain rfl := ExactLiteral.isZero_iff.mp h
    rfl
  | _ => cases h

theorem Node.eq_const_of_isOne (h : n.isOne = true) : n = .const 1 := by
  cases n with
  | const v =>
    obtain rfl := ExactLiteral.isOne_iff.mp h
    rfl
  | _ => cases h

end Literals

namespace Node

open ExactLiteral ExactIndices

variable [Field K] [LinearOrder K] [IsStrictOrderedRing K] [Literal K] [Arithmetic K V]
  [ExactIndices K V] {p : Procedure K} {inputs : Inputs K V} {env : Env V} {m n : Node K}
  {a b c : K}
  {v : V}

theorem reads_ofInt (k : ℤ) : (Node.ofInt k : Node K).Reads p inputs env k := by
  rw [ofInt, reads_const_iff, ofInt_eq]

theorem reads_neg_iff : (Node.neg n).Reads p inputs env a ↔ n.Reads p inputs env (-a) := by
  constructor
  · rintro ⟨v, hv, rfl⟩
    rw [meaning, Computation.andThen_ok] at hv
    obtain ⟨w, hw, hv⟩ := hv
    obtain rfl := Except.ok.inj hv
    exact ⟨w, hw, by rw [real_neg, neg_neg]⟩
  · rintro ⟨w, hw, ha⟩
    refine ⟨Arithmetic.neg w, ?_, by rw [real_neg, ha, neg_neg]⟩
    rw [meaning, Computation.andThen_ok]
    exact ⟨w, hw, rfl⟩

theorem reads_mul_iff : (Node.binary .mul n (.const b)).Reads p inputs env a ↔
    ∃ c, n.Reads p inputs env c ∧ a = c * b := by
  constructor
  · rintro ⟨v, hv, rfl⟩
    obtain ⟨w, w', hw, hw', rfl⟩ := meaning_binary.mp hv
    rw [meaning] at hw'
    obtain rfl := Except.ok.inj hw'
    exact ⟨_, ⟨w, hw, rfl⟩, real_mul_ofLiteral w b⟩
  · rintro ⟨_, ⟨w, hw, rfl⟩, rfl⟩
    exact ⟨_, meaning_binary.mpr ⟨w, _, hw, by rw [meaning]; rfl, rfl⟩, real_mul_ofLiteral w b⟩

/-- A literal zero reads as zero only. -/
theorem eq_zero_of_reads (h : n.isZero = true) (hn : n.Reads p inputs env a) : a = 0 := by
  rwa [eq_const_of_isZero h, reads_const_iff] at hn

theorem reads_plus (hm : m.Reads p inputs env a) (hn : n.Reads p inputs env b) :
    (m.plus n).Reads p inputs env (a + b) :=
  (Counting.Stands.plus (C := ExactLiteral.counting) ⟨trivial, hm⟩ ⟨trivial, hn⟩ trivial).2

theorem reads_minus (hm : m.Reads p inputs env a) (hn : n.Reads p inputs env b) :
    (m.minus n).Reads p inputs env (a - b) :=
  (Counting.Stands.minus (C := ExactLiteral.counting) ⟨trivial, hm⟩ ⟨trivial, hn⟩ trivial).2

theorem reads_times (hm : m.Reads p inputs env a) (b : K) :
    (m.times (.const b)).Reads p inputs env (a * b) := by
  unfold Node.times
  split
  · next hx hy =>
    rw [const?_eq_some hx, reads_const_iff] at hm
    obtain rfl := Option.some.inj hy
    rw [reads_const_iff, mul_eq, hm]
  · split
    · next hone =>
      rw [eq_const_of_isOne hone, reads_const_iff] at hm
      rw [reads_const_iff, hm, one_mul]
    · split
      · next hone =>
        rw [isOne, isOne_iff] at hone
        rwa [hone, mul_one]
      · exact reads_mul_iff.mpr ⟨a, hm, rfl⟩

theorem reads_times_ofInt (hm : m.Reads p inputs env a) (k : ℤ) :
    (m.times (.ofInt k)).Reads p inputs env (a * k) :=
  ofInt_eq (K := K) k ▸ reads_times hm (Literal.ofInt k)

/-- **Folding zeros away keeps what an index reads.** -/
theorem reads_collapseZeros (h : Plain n) (hn : n.Reads p inputs env a) :
    n.collapseZeros.Reads p inputs env a := by
  induction h generalizing a with
  | const b => exact hn
  | var x => exact hn
  | param b => exact hn
  | unresolved name => exact hn
  | neg _ ih =>
    have hinner := ih (reads_neg_iff.mp hn)
    change Reads p inputs env (if _ then _ else _) a
    split
    · next hzero => rw [reads_const_iff, zero_eq, ← neg_eq_zero, eq_zero_of_reads hzero hinner]
    · exact reads_neg_iff.mpr hinner
  | add _ _ ihm ihn =>
    obtain ⟨b, c, hb, hc, rfl⟩ := reads_add_iff.mp hn
    have hleft := ihm hb
    have hright := ihn hc
    change Reads p inputs env (if _ then _ else if _ then _ else _) (Literal.add b c)
    split
    · next hzero => rwa [eq_zero_of_reads hzero hleft, add_eq, zero_add]
    · split
      · next hzero => rwa [eq_zero_of_reads hzero hright, add_eq, add_zero]
      · exact reads_add_iff.mpr ⟨b, c, hleft, hright, rfl⟩
  | sub _ _ ihm ihn =>
    obtain ⟨b, c, hb, hc, rfl⟩ := reads_sub_iff.mp hn
    have hleft := ihm hb
    have hright := ihn hc
    change Reads p inputs env (if _ then _ else if _ then _ else _) (Literal.sub b c)
    split
    · next hzero => rwa [eq_zero_of_reads hzero hright, sub_eq, sub_zero]
    · split
      · next hzero => rwa [eq_zero_of_reads hzero hleft, sub_eq, zero_sub, reads_neg_iff, neg_neg]
      · exact reads_sub_iff.mpr ⟨b, c, hleft, hright, rfl⟩
  | mul _ b ih =>
    obtain ⟨c, hc, rfl⟩ := reads_mul_iff.mp hn
    have hinner := ih hc
    change Reads p inputs env (if _ then _ else _) (c * b)
    split
    · next hor =>
      rw [reads_const_iff, zero_eq]
      rcases Bool.or_eq_true_iff.mp hor with hzero | hzero
      · rw [eq_zero_of_reads hzero hinner, zero_mul]
      · rw [isZero_iff.mp hzero, mul_zero]
    · exact reads_mul_iff.mpr ⟨c, hinner, rfl⟩

end Node

/-! ## Bounds -/

section Bounds

open ExactLiteral ExactIndices

variable [Literal K] [Arithmetic K V]

/-- The site a bound stands for, if its symbol is a parameter. -/
def Bound.site? (l : ParamLayout) (params : Array V) : Bound → Option ℤ
  | .literal n => some n
  | .symbol name => do return Literal.site (real (← params[← l.slot? name]?))

/-- The number of sites of an index, none if a bound stands for no site. -/
def Index.count (l : ParamLayout) (params : Array V) (i : Index) : ℕ :=
  match i.lower.site? l params, i.upper.site? l params with
  | some lo, some hi => (hi - lo + 1).toNat
  | _, _ => 0

/-- A parameter that is used as a bound has an integral real part. -/
def Bound.Integral (l : ParamLayout) (params : Array V) (b : Bound) : Prop :=
  ∀ name k v, b = .symbol name → l.slot? name = some k → params[k]? = some v →
    ∃ n : ℤ, real v = (Literal.ofInt n : K)

/-- A bound is an integer below a limit, and so is the place of the parameter it is read from. -/
def Bound.IntegralTo (limit : ℕ) (l : ParamLayout) (params : Array V) : Bound → Prop
  | .literal n => n.natAbs < limit
  | .symbol name => ∀ k, l.slot? name = some k → k ≤ limit ∧
      ∀ v, params[k]? = some v → ∃ n : ℤ, n.natAbs < limit ∧ real v = (Literal.ofInt n : K)

/-- An integral bound is below some limit. -/
theorem Bound.Integral.exists_limit {l : ParamLayout} {params : Array V} {b : Bound}
    (hb : b.Integral l params) : ∃ limit, b.IntegralTo limit l params := by
  cases b with
  | literal n => exact ⟨n.natAbs + 1, Nat.lt_succ_self _⟩
  | symbol name =>
    cases hk : l.slot? name with
    | none => exact ⟨0, fun k hk' => absurd (hk.symm.trans hk') (by simp)⟩
    | some k =>
      cases hv : params[k]? with
      | none =>
        refine ⟨k, fun k' hk' => ?_⟩
        obtain rfl := Option.some.inj (hk.symm.trans hk')
        exact ⟨le_rfl, fun v hv' => absurd (hv.symm.trans hv') (by simp)⟩
      | some v =>
        obtain ⟨n, hn⟩ := hb name k v rfl hk hv
        refine ⟨n.natAbs + 1 + k, fun k' hk' => ?_⟩
        obtain rfl := Option.some.inj (hk.symm.trans hk')
        refine ⟨by omega, fun v' hv' => ⟨n, by omega, ?_⟩⟩
        rw [← hn, Option.some.inj (hv.symm.trans hv')]

theorem ParamLayout.collapseZeros_boundNode (l : ParamLayout) (b : Bound) :
    (l.boundNode b : Node K).collapseZeros = l.boundNode b := by
  unfold ParamLayout.boundNode
  split
  · rfl
  · split <;> rfl

end Bounds

section Places

variable [Literal K] [Arithmetic K V] {p : Procedure K} {inputs : Inputs K V} {env : Env V}
  {l : ParamLayout} {b : Bound}

/-- A bound reads as the site it stands for. -/
theorem ExactSitesTo.reads_boundNode [RealParts K V] {limit : ℕ} (hK : ExactSitesTo K limit)
    (p : Procedure K) (env : Env V) (hb : b.IntegralTo limit l inputs.p) {n : ℤ}
    (h : b.site? l inputs.p = some n) :
    n.natAbs < limit ∧ (l.boundNode b).Reads p inputs env (Literal.ofInt n : K) := by
  cases b with
  | literal k =>
    obtain rfl := Option.some.inj h
    exact ⟨hb, Node.reads_const_iff.mpr rfl⟩
  | symbol name =>
    obtain ⟨k, hk, h⟩ := Option.bind_eq_some_iff.mp h
    obtain ⟨v, hv, h⟩ := Option.bind_eq_some_iff.mp h
    obtain ⟨hlimit, hb⟩ := hb k hk
    obtain ⟨m, hm, hreal⟩ := hb v hv
    rw [hreal, hK.site_eq hm.le] at h
    obtain rfl := Option.some.inj h
    refine ⟨hm, v, ?_, hreal⟩
    rw [ParamLayout.boundNode, hk]
    dsimp only
    rw [Node.meaning_accessAt hK hlimit hv]
    rfl

variable [Field K] [LinearOrder K] [IsStrictOrderedRing K] [ExactIndices K V]

open ExactLiteral ExactIndices

theorem reads_boundNode (hb : b.Integral l inputs.p) {n : ℤ} (h : b.site? l inputs.p = some n) :
    (l.boundNode b).Reads p inputs env n := by
  obtain ⟨limit, hlimit⟩ := hb.exists_limit
  rw [← ofInt_eq]
  exact ((exactSitesTo limit).reads_boundNode p env hlimit h).2

/-- **A bound is evaluated**, unless its symbol is no parameter. -/
theorem ends_boundNode {F : Status K → Prop} (hb : b.Integral l inputs.p)
    (hsize : ∀ name k, l.slot? name = some k → k < inputs.p.size)
    (hF : ∀ name, b = .symbol name → l.slot? name = none → F (.failed (.unresolvedSymbol name))) :
    ((l.boundNode b).meaning p inputs env).Ends F fun v =>
      ∃ n : ℤ, b.site? l inputs.p = some n ∧ real v = (n : K) := by
  cases hsite : b.site? l inputs.p with
  | some n =>
    obtain ⟨v, hv, hreal⟩ : (l.boundNode b).Reads p inputs env n := reads_boundNode hb hsite
    exact .inl ⟨v, hv, n, rfl, hreal⟩
  | none =>
    cases b with
    | literal k => cases hsite
    | symbol name =>
      cases hk : l.slot? name with
      | some k =>
        have hv := Array.getElem?_eq_getElem (hsize name k hk)
        rw [Bound.site?, hk] at hsite
        simp [hv] at hsite
      | none =>
        refine .inr ⟨_, ?_, hF name rfl hk⟩
        rw [ParamLayout.boundNode, hk, Node.meaning]
        rfl

end Places

/-! ## Members of families -/

/-- **The offset of a member in a family that is stored row by row**, from the dimensions and the
sites. -/
def rowMajor : List (ℤ × ℕ) → List ℤ → ℤ
  | (lower, _) :: dims, m :: ms =>
    (m - lower) * ((dims.map (·.2)).foldr (· * ·) 1 : ℕ) + rowMajor dims ms
  | _, _ => 0

/-- Members stand inside their family. -/
theorem rowMajor_bounds {dims : List (ℤ × ℕ)} {ms : List ℤ}
    (h : List.Forall₂ (fun (d : ℤ × ℕ) m => d.1 ≤ m ∧ m < d.1 + d.2) dims ms) :
    0 ≤ rowMajor dims ms ∧ rowMajor dims ms < ((dims.map (·.2)).foldr (· * ·) 1 : ℕ) := by
  induction h with
  | nil => exact ⟨le_rfl, Int.one_pos⟩
  | @cons d m dims ms hm _ ih =>
    obtain ⟨hlow, hhigh⟩ := ih
    rw [rowMajor, List.map_cons, List.foldr_cons]
    generalize (dims.map (·.2)).foldr (· * ·) 1 = size at hlow hhigh ⊢
    have hfirst : 0 ≤ m - d.1 := by omega
    have hlast : m - d.1 + 1 ≤ d.2 := by omega
    refine ⟨by positivity, ?_⟩
    calc (m - d.1) * (size : ℤ) + rowMajor dims ms
        < (m - d.1) * size + size := by omega
      _ = (m - d.1 + 1) * size := by ring
      _ ≤ d.2 * size := by gcongr
      _ = ((d.2 * size : ℕ) : ℤ) := by push_cast; rfl

section Members

open ExactLiteral ExactIndices

variable [Literal K]

/-- The subscript of a member of a family of states. -/
def StateFamily.subscript (l : ParamLayout) (f : StateFamily K) (site : Node K) : Node K :=
  f.start.plus ((site.minus (l.boundNode f.index.lower)).times (.ofInt 1))

/-- The subscript of a member of a family of parameters, from a place on. -/
def ParamFamily.subscript (dims : List (ℤ × ℕ)) (place : Node K) (sites : List (Node K)) : Node K :=
  ((((dims.zip (ParamFamily.stridesOf (dims.map (·.2)))).map fun ((lower, _), stride) =>
    ((Node.ofInt lower : Node K), (Node.ofInt stride : Node K))).zip sites).foldl
      (fun place ((lower, stride), site) => place.plus ((site.minus lower).times stride)) place)

theorem FamilyDecl.location_ofState (l : ParamLayout) (f : StateFamily K) (site : Node K) :
    (ofState l f).rule.location [site] = .access .state (f.subscript l site) := rfl

theorem FamilyDecl.location_ofParam (f : ParamFamily) (sites : List (Node K)) :
    (ofParam f).rule.location sites
      = .access .param (ParamFamily.subscript f.dims (.ofInt f.start) sites) := rfl

theorem ParamFamily.plain_subscript {dims : List (ℤ × ℕ)} {place : Node K} (hplace : place.Plain)
    (xs : List String) : (subscript dims place (xs.map .var)).Plain := by
  induction dims generalizing place xs with
  | nil => exact hplace
  | cons d dims ih =>
    cases xs with
    | nil => exact hplace
    | cons x xs => exact ih (hplace.plus (((Node.Plain.var x).minus (.const _)).times _)) xs

variable [Field K] [LinearOrder K] [IsStrictOrderedRing K] [Arithmetic K V] [ExactIndices K V]
  {p : Procedure K} {inputs : Inputs K V} {env : Env V} {l : ParamLayout} {site : Node K}
  {s a b : K}

theorem StateFamily.reads_subscript {f : StateFamily K} (hstart : f.start.Reads p inputs env s)
    (hlower : (l.boundNode f.index.lower).Reads p inputs env a)
    (hsite : site.Reads p inputs env b) :
    (f.subscript l site).Reads p inputs env (s + (b - a)) := by
  have hplace : s + (b - a) = s + (b - a) * ((1 : ℤ) : K) := by rw [Int.cast_one, mul_one]
  rw [hplace]
  exact Node.reads_plus hstart (Node.reads_times_ofInt (Node.reads_minus hsite hlower) 1)

theorem ParamFamily.reads_subscript {dims : List (ℤ × ℕ)} {place : Node K} {sites : List (Node K)}
    {ms : List ℤ} (hplace : place.Reads p inputs env s)
    (hsites : List.Forall₂ (fun n (m : ℤ) => Node.Reads p inputs env n m) sites ms) :
    (subscript dims place sites).Reads p inputs env (s + (rowMajor dims ms : K)) := by
  induction dims generalizing place s sites ms with
  | nil =>
    rw [rowMajor, Int.cast_zero, add_zero]
    · exact hplace
    · nofun
  | cons d dims ih =>
    cases hsites with
    | nil =>
      rw [rowMajor, Int.cast_zero, add_zero]
      · exact hplace
      · nofun
    | @cons n m sites ms hn hsites =>
      have hnext := Node.reads_plus hplace (Node.reads_times_ofInt
        (Node.reads_minus hn (Node.reads_ofInt d.1)) ((dims.map (·.2)).foldr (· * ·) 1 : ℕ))
      have hmember := ih hnext hsites
      have hoffset : s + (rowMajor (d :: dims) (m :: ms) : K)
          = s + (m - d.1) * (((dims.map (·.2)).foldr (· * ·) 1 : ℕ) : ℤ) + rowMajor dims ms := by
        rw [rowMajor]
        push_cast
        ring
      rw [hoffset]
      exact hmember

end Members

end Fluxion
