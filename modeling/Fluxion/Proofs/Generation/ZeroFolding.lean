import Fluxion.Proofs.Generation.Hygiene
import Fluxion.Proofs.Machine.Materialization

/-!
# Proofs/Generation/ZeroFolding — zeros in values without indices

On a value in which no index occurs the normal form does one thing: what is zero folds away.

    0 * e ⇝ 0      0 + e ⇝ e      0 - e ⇝ -e      0 ^ 2 ⇝ 0      sin 0 ⇝ 0

So a value without zeros is its own normal form (`Scalar.normalize_eq`).  Where there are zeros,
operands disappear and with them reads, so the normal form may have a value where the node has none;
what value the node has in exact arithmetic is also that of its normal form
(`Scalar.meaning_collapseZeros`), and it asks for no more of a compiler
(`Scalar.accepted_collapseZeros`).
-/

namespace Fluxion

open Arithmetic

variable {K : Type} [Literal K]

namespace Node

variable {m n : Node K}

/-! ## Zeros outside of subscripts -/

mutual

/-- **Whether zero stands in a node**, outside of the subscripts of arrays. -/
def hasZero : Node K → Bool
  | .const v => Literal.isZero v
  | .imaginaryUnit | .named _ | .time | .var _ | .unresolved _ | .access _ _ => false
  | .neg a => hasZero a
  | .binary _ a b => hasZero a || hasZero b
  | .call _ args => hasZeroAny args
  | .boundedSum _ lo hi es body => hasZero lo || hasZero hi || hasZeroAny es || hasZero body
  | .sum _ lo hi es body => hasZero lo || hasZero hi || hasZeroExclusions es || hasZero body
  | .guarded l r body => hasZero l || hasZero r || hasZero body
  | .indicator l r => hasZero l || hasZero r

/-- Whether zero stands in some nodes. -/
def hasZeroAny : List (Node K) → Bool
  | [] => false
  | n :: rest => hasZero n || hasZeroAny rest

/-- Whether zero stands in an exclusion. -/
def hasZeroExclusion : Exclusion K → Bool
  | .mk v _ => hasZero v

/-- Whether zero stands in some exclusions. -/
def hasZeroExclusions : List (Exclusion K) → Bool
  | [] => false
  | e :: rest => hasZeroExclusion e || hasZeroExclusions rest

end

theorem hasZeroAny_eq (ns : List (Node K)) : hasZeroAny ns = ns.any hasZero := by
  induction ns with
  | nil => rfl
  | cons n ns ih => rw [hasZeroAny, List.any_cons, ih]

theorem isZero_of_hasZero (h : n.hasZero = false) : n.isZero = false := by
  cases n with
  | const v => exact h
  | _ => rfl

theorem foldBinary_eq (op : BinaryOp) (hm : m.isZero = false) (hn : n.isZero = false) :
    foldBinary op m n = .binary op m n := by
  cases op with
  | pow =>
    rw [foldBinary]
    split <;> simp [hm]
  | _ => simp [foldBinary, hm, hn]

theorem Scalar.collapseZeros_eq (h : n.Scalar) (hzero : n.hasZero = false) :
    n.collapseZeros = n := by
  unfold collapseZeros
  induction h with
  | const | named | time => rfl
  | @access b hb v =>
    cases b with
    | zero => exact absurd rfl hb
    | state | param => rfl
  | @neg a _ ih =>
    rw [transform, ih hzero, collapseZero, isZero_of_hasZero (n := a) hzero, if_neg (by simp)]
  | binary op _ _ iha ihb =>
    obtain ⟨ha, hb⟩ := Bool.or_eq_false_iff.mp hzero
    rw [transform, iha ha, ihb hb]
    exact foldBinary_eq op (isZero_of_hasZero ha) (isZero_of_hasZero hb)
  | @call func ns _ ih =>
    rw [hasZero, hasZeroAny_eq, List.any_eq_false] at hzero
    have hns : ∀ n ∈ ns, n.hasZero = false := fun n hn => Bool.eq_false_iff.mpr (hzero n hn)
    rw [transform, transformAll_eq, List.map_congr_left fun n hn => ih n hn (hns n hn),
      List.map_id']
    rcases ns with _ | ⟨a, _ | ⟨b, rest⟩⟩
    · rfl
    · have ha : a.isZero = false := isZero_of_hasZero (hns a List.mem_cons_self)
      rw [collapseZero, ha, Bool.and_false, if_neg (by simp)]
    · rfl

/-- Only the last pass has anything to do. -/
theorem Scalar.normalize_eq_collapseZeros (h : n.Scalar) : n.normalize = n.collapseZeros :=
  congrArg collapseZeros (stripAbsorbed_of_bare h.bare)

/-- **A value without zeros is its own normal form.** -/
theorem Scalar.normalize_eq (h : n.Scalar) (hzero : n.hasZero = false) : n.normalize = n :=
  h.normalize_eq_collapseZeros.trans (h.collapseZeros_eq hzero)

theorem Scalar.hasZero_respell (h : n.Scalar) : (n.transform respell).hasZero = n.hasZero := by
  induction h with
  | const | time | access => rfl
  | named x =>
    rw [transform, respell]
    split <;> rfl
  | neg _ ih => exact ih
  | binary op _ _ iha ihb => exact congrArg₂ (· || ·) iha ihb
  | @call func ns _ ih =>
    rw [transform, transformAll_eq, respell, hasZero, hasZero, hasZeroAny_eq, hasZeroAny_eq,
      List.any_map, Bool.eq_iff_iff, List.any_eq_true, List.any_eq_true]
    exact exists_congr fun n => and_congr_right fun hn => by rw [Function.comp_apply, ih n hn]

/-! ## What a compiler asks for -/

/-- **A node that can be compiled for a dialect**, apart from its children. -/
structure Accepted (dialect : Dialect) (n : Node K) : Prop where
  token : n.checkToken = .ok ()
  imaginary : n = .imaginaryUnit → dialect.complex = true

variable {dialect : Dialect}

omit [Literal K] in
theorem accepted_const (v : K) : Everywhere (Accepted dialect) (.const v) :=
  ⟨⟨rfl, fun h => by cases h⟩, by simp [children]⟩

omit [Literal K] in
theorem accepted_neg (h : Everywhere (Accepted dialect) n) :
    Everywhere (Accepted dialect) (.neg n) :=
  ⟨⟨rfl, fun h => by cases h⟩, by simpa [children] using h⟩

/-- **Folding zeros away asks for nothing more.** -/
theorem Scalar.accepted_collapseZeros (h : n.Scalar)
    (hn : Everywhere (Accepted dialect) (n.transform respell)) :
    Everywhere (Accepted dialect) (n.collapseZeros.transform respell) := by
  unfold collapseZeros
  induction h with
  | const | named | time => exact hn
  | @access b hb v =>
    cases b with
    | zero => exact absurd rfl hb
    | state | param => exact hn
  | @neg a _ ih =>
    obtain ⟨-, hinside⟩ := hn
    have ha := ih (hinside _ List.mem_cons_self)
    rw [transform, collapseZero]
    split
    exacts [accepted_const _, accepted_neg ha]
  | @binary op a b _ _ iha ihb =>
    obtain ⟨-, hinside⟩ := hn
    have ha := iha (hinside _ List.mem_cons_self)
    have hb := ihb (hinside _ (List.mem_cons_of_mem _ List.mem_cons_self))
    rw [transform, collapseZero]
    have hfolded := folded_foldBinary op (a.transform collapseZero) (b.transform collapseZero)
    generalize foldBinary op (a.transform collapseZero) (b.transform collapseZero) =
      folded at hfolded ⊢
    cases hfolded with
    | zero => exact accepted_const _
    | left => exact ha
    | right => exact hb
    | negated => exact accepted_neg hb
    | self =>
      refine ⟨⟨rfl, fun h => by cases h⟩, ?_⟩
      simpa [transform, respell, children] using ⟨ha, hb⟩
  | @call func ns _ ih =>
    obtain ⟨⟨htoken, -⟩, hinside⟩ := hn
    rw [transform, transformAll_eq] at htoken hinside
    have hns : ∀ n ∈ ns, Everywhere (Accepted dialect)
        ((n.transform collapseZero).transform respell) :=
      fun n hn => ih n hn (hinside _ (List.mem_map_of_mem hn))
    rw [transform, transformAll_eq]
    have hfolded := folded_collapseZero (.call func (ns.map (transform collapseZero)))
    generalize collapseZero (.call func (ns.map (transform collapseZero))) = folded at hfolded ⊢
    cases hfolded with
    | zero => exact accepted_const _
    | self =>
      rw [transform, transformAll_eq, List.map_map]
      refine ⟨⟨?_, fun h => by cases h⟩, List.forall_mem_map.mpr hns⟩
      simpa [respell, checkToken] using htoken

/-! ## Values -/

section Exact

open ExactLiteral ExactArithmetic

variable {V : Type} [Field K] [LinearOrder K] [IsStrictOrderedRing K] [Field V] [Arithmetic K V]
  [ExactArithmetic K V] {p : Procedure K} {inputs : Inputs K V} {env : Env V} {v : V}

theorem eq_zero_of_meaning (hzero : n.isZero = true)
    (h : (n.transform respell).meaning p inputs env (.ok v)) : v = 0 := by
  rw [eq_const_of_isZero hzero] at h
  exact (Except.ok.inj h).trans ofLiteral_zero

theorem meaning_zero (hv : v = 0) : (Node.const Literal.zero).meaning p inputs env (.ok v) := by
  rw [meaning, zero_eq, ofLiteral_zero, hv]
  rfl

/-- **A value that a node has, its normal form has too.** -/
theorem Scalar.meaning_collapseZeros (h : n.Scalar) (ss : List (Stmt K))
    (hv : (n.transform respell).meaning p inputs env (.ok v)) :
    (n.collapseZeros.transform respell).meaning { p with body := ss } inputs env (.ok v) := by
  unfold collapseZeros
  induction h generalizing v with
  | const | time => exact hv
  | named x =>
    rw [transform, respell] at hv
    split at hv
    · next hx =>
      have hnamed : (Node.named x : Node K).transform collapseZero = .named x := rfl
      rwa [hnamed, transform, respell, if_pos hx]
    · cases hv
  | @access b hb _ =>
    cases b with
    | zero => exact absurd rfl hb
    | state | param => exact hv
  | @neg a _ ih =>
    obtain ⟨w, hw, rfl⟩ := meaning_neg.mp hv
    rw [transform, collapseZero]
    split
    · next hzero =>
      have hw' := eq_zero_of_meaning hzero (ih hw)
      exact meaning_zero (by rw [hw', eq_neg, neg_zero])
    · exact meaning_neg.mpr ⟨w, ih hw, rfl⟩
  | @binary op a b _ _ iha ihb =>
    obtain ⟨u, w, hu, hw, rfl⟩ := meaning_binary.mp hv
    have hconst : ∀ e, b.transform collapseZero = .const e → w = ofLiteral e := by
      intro e he
      have hw' := ihb hw
      rw [he] at hw'
      exact Except.ok.inj hw'
    rw [transform, collapseZero]
    rcases foldBinary_cases op (fun hzero => eq_zero_of_meaning hzero (iha hu))
        (fun hzero => eq_zero_of_meaning hzero (ihb hw)) hconst with
      heq | ⟨heq, hvalue⟩ | ⟨heq, hvalue⟩ | ⟨heq, hvalue⟩ | ⟨heq, hvalue⟩
    · rw [heq]
      exact meaning_binary.mpr ⟨u, w, iha hu, ihb hw, rfl⟩
    · rw [heq]
      exact meaning_zero hvalue
    · rw [heq, hvalue]
      exact iha hu
    · rw [heq, hvalue]
      exact ihb hw
    · rw [heq, hvalue]
      exact meaning_neg.mpr ⟨w, ihb hw, rfl⟩
  | @call func ns _ ih =>
    rw [transform, transformAll_eq] at hv
    obtain ⟨a', b, w, hns, hb, hw, rfl⟩ := meaning_call.mp hv
    obtain ⟨a, rfl, rfl⟩ := List.map_eq_singleton_iff.mp hns
    have ha := ih a List.mem_cons_self hw
    rw [transform, transformAll, transformAll, collapseZero]
    split
    · next hand =>
      obtain ⟨hfunc, hzero⟩ := Bool.and_eq_true_iff.mp hand
      unfold callPreservesZero at hfunc
      split at hfunc
      · next b' hb' =>
        obtain rfl := Option.some.inj ((Builtin.ofName?_canonicalFunc hb').symm.trans hb)
        exact meaning_zero (by rw [eq_zero_of_meaning hzero ha, apply_zero hfunc])
      · cases hfunc
    · exact meaning_call.mpr ⟨_, b, w, rfl, hb, ha, rfl⟩

end Exact

end Node

end Fluxion
