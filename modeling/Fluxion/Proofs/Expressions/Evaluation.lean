import Fluxion.Expr.Eval
import Fluxion.Proofs.Expressions.Elimination
import Fluxion.Proofs.Numbers.ExactArithmetic
import Fluxion.Proofs.Expressions.Folding
import Fluxion.Proofs.Generation.Stages
import Fluxion.Proofs.Expressions.Substitution
import Mathlib.Algebra.BigOperators.Ring.List

/-!
# Proofs/Expressions/Evaluation — setting symbols to zero keeps values

Symbols that nothing declares are set to zero before anything is lowered: they are substituted, and
what vanishes with them is folded away.  An expression that has a value keeps it
(`evaluateAt_cleared`), although the symbols are not bound any more; one that has none may get one,
since a factor that cannot be evaluated may be folded away.
-/

namespace Fluxion

open Arithmetic

variable {K V : Type} [Literal K] [Arithmetic K V]

/-- **Bindings that do without some scalars**: these are zero, and no others are missing. -/
structure Bindings.Spares (b b' : Bindings V) (missing : List FreeSymbol) : Prop where
  scalars : ∀ s ∈ missing, ∃ name, s = .scalar name
  zero : ∀ name, .scalar name ∈ missing → b.scalar name = some Arithmetic.zero
  site : b'.site = b.site

/-- Bindings that agree on the scalars among some symbols that are not missing, and on the bounds of
some indices. -/
structure Bindings.Agree (b b' : Bindings V) (missing symbols : List FreeSymbol)
    (indices : List Index) : Prop where
  scalar : ∀ name, .scalar name ∈ symbols → .scalar name ∉ missing → b'.scalar name = b.scalar name
  bound : ∀ i ∈ indices, b'.bound i.lower = b.bound i.lower ∧ b'.bound i.upper = b.bound i.upper

/-- **Substituting zeros** for scalars that are zero. -/
theorem Bindings.Spares.relates {b b' : Bindings V} {missing symbols : List FreeSymbol}
    {indices : List Index} (h : b.Spares b' missing) (ha : b.Agree b' missing symbols indices) :
    (Substitution.zeros missing : Substitution K).Relates b' b symbols where
  scalar x hx sites := by
    rw [Substitution.zeros, Bindings.get]
    split
    · next hmissing =>
      rw [h.zero x hmissing]
      rfl
    · next hmissing =>
      rw [← ha.scalar x hx hmissing]
      rfl
  scalars s hs := by
    refine if_neg fun hmissing => ?_
    obtain ⟨x, rfl⟩ := h.scalars s hmissing
    cases hs
  site := h.site

namespace Expr

/-- Nothing is missing, nothing changes. -/
theorem substituteUnder_zeros_nil (e : Expr K) (bound : List Index) :
    e.substituteUnder (.zeros []) bound = e := by
  induction e using childInduction generalizing bound with
  | step e ih =>
    cases he : e.isAtom with
    | true =>
      rcases substituteUnder_of_isAtom (.zeros []) bound he with ⟨s, -, hs⟩ | ⟨hself, -⟩
      · cases hs
      · exact hself
    | false =>
      rw [substituteUnder_eq_mapChildren _ _ he]
      exact (mapChildren_congr fun c hc => ih c hc _).trans e.mapChildren_id

end Expr

/-! ## Folding zeros away -/

theorem sumSites_of_ok {add : V → V → V} {excluded : List ℤ} {term term' : ℤ → Except EvalError V}
    (h : ∀ m v, term m = .ok v → term' m = .ok v) {count : ℕ} {m : ℤ} {acc v : V}
    (hv : sumSites add excluded term count m acc = .ok v) :
    sumSites add excluded term' count m acc = .ok v := by
  induction count generalizing m acc with
  | zero => exact hv
  | succ count ih =>
    rw [sumSites] at hv ⊢
    split at hv
    · next hm =>
      rw [if_pos hm]
      exact ih hv
    · next hm =>
      rw [if_neg hm]
      cases hterm : term m with
      | error e =>
        rw [hterm] at hv
        cases hv
      | ok w =>
        rw [hterm] at hv
        rw [h m w hterm]
        exact ih hv

namespace Expr

section Exact

open ExactZeros

variable [Field V] [ExactZeros K V]
  {b : Bindings V} {sites : Sites} {e : Expr K} {es : List (Expr K)} {v acc : V}

/-- The values of some expressions. -/
abbrev Values (b : Bindings V) (sites : Sites) : List (Expr K) → List V → Prop :=
  List.Forall₂ fun e v => e.evaluateAt b sites = .ok v

theorem evaluateSum_eq_ok : evaluateSum b sites es acc = .ok v ↔
    ∃ vs, Values b sites es vs ∧ v = acc + vs.sum := by
  induction es generalizing acc with
  | nil =>
    rw [evaluateSum, Except.ok.injEq, eq_comm]
    simp [Values]
  | cons e es ih =>
    rw [evaluateSum]
    constructor
    · intro h
      obtain ⟨w, hw, h⟩ := ok_of_bind h
      obtain ⟨vs, hvs, rfl⟩ := ih.mp h
      exact ⟨w :: vs, .cons hw hvs, by rw [add_eq, List.sum_cons, add_assoc]⟩
    · rintro ⟨_, hvs, rfl⟩
      obtain ⟨w, vs, hw, hrest, rfl⟩ := List.forall₂_cons_left_iff.mp hvs
      rw [hw]
      exact ih.mpr ⟨vs, hrest, by rw [add_eq, List.sum_cons, add_assoc]⟩

theorem evaluateProduct_eq_ok : evaluateProduct b sites es acc = .ok v ↔
    ∃ vs, Values b sites es vs ∧ v = acc * vs.prod := by
  induction es generalizing acc with
  | nil =>
    rw [evaluateProduct, Except.ok.injEq, eq_comm]
    simp [Values]
  | cons e es ih =>
    rw [evaluateProduct]
    constructor
    · intro h
      obtain ⟨w, hw, h⟩ := ok_of_bind h
      obtain ⟨vs, hvs, rfl⟩ := ih.mp h
      exact ⟨w :: vs, .cons hw hvs, by rw [mul_eq, List.prod_cons, mul_assoc]⟩
    · rintro ⟨_, hvs, rfl⟩
      obtain ⟨w, vs, hw, hrest, rfl⟩ := List.forall₂_cons_left_iff.mp hvs
      rw [hw]
      exact ih.mpr ⟨vs, hrest, by rw [mul_eq, List.prod_cons, mul_assoc]⟩

theorem evaluateAt_of_isLiteralZero (h : e.isLiteralZero = true) :
    e.evaluateAt b sites = .ok 0 := by
  cases e with
  | number a => rw [evaluateAt, ofLiteral_of_isZero h]
  | _ => cases h

theorem evaluateAt_zero : (zero : Expr K).evaluateAt b sites = .ok 0 :=
  evaluateAt_of_isLiteralZero (isZero_zero V)

/-- Terms that are zero do not count. -/
theorem values_filter {vs : List V} (h : Values b sites es vs) :
    ∃ vs', Values b sites (es.filter (!·.isLiteralZero)) vs' ∧ vs'.sum = vs.sum := by
  induction h with
  | nil => exact ⟨[], .nil, rfl⟩
  | @cons e w es vs he _ ih =>
    obtain ⟨vs', hvs', hsum⟩ := ih
    cases hzero : e.isLiteralZero with
    | true =>
      rw [evaluateAt_of_isLiteralZero hzero] at he
      obtain rfl := Except.ok.inj he
      refine ⟨vs', ?_, by rw [List.sum_cons, zero_add, hsum]⟩
      rwa [List.filter_cons_of_neg (by rw [hzero]; nofun)]
    | false =>
      refine ⟨w :: vs', ?_, by rw [List.sum_cons, List.sum_cons, hsum]⟩
      rw [List.filter_cons_of_pos (by rw [hzero]; rfl)]
      exact .cons he hvs'

theorem evaluateAt_sumOf {vs : List V} (h : Values b sites es vs) :
    (sumOf es).evaluateAt b sites = .ok vs.sum := by
  match es, vs, h with
  | [], [], _ => exact evaluateAt_zero
  | [e], [w], .cons he .nil => rwa [sumOf, List.sum_singleton]
  | e :: e' :: es, vs, h => exact evaluateSum_eq_ok.mpr ⟨vs, h, by rw [zero_eq_zero, zero_add]⟩

/-- A factor that is zero makes a product zero. -/
theorem prod_eq_zero_of_values {vs : List V} (h : Values b sites es vs)
    (hany : es.any isLiteralZero = true) : vs.prod = 0 := by
  obtain ⟨e, he, hzero⟩ := List.any_eq_true.mp hany
  obtain ⟨w, hw, hvalue⟩ := exists_of_forall₂ h he
  rw [evaluateAt_of_isLiteralZero hzero] at hvalue
  obtain rfl := Except.ok.inj hvalue
  exact List.prod_eq_zero hw

theorem sumSites_zero (excluded : List ℤ) (count : ℕ) (m : ℤ) (acc : V) :
    sumSites Arithmetic.add excluded (fun _ => .ok 0) count m acc = .ok acc := by
  induction count generalizing m with
  | zero => rfl
  | succ count ih =>
    rw [sumSites]
    split
    · exact ih _
    · dsimp only
      rw [add_eq, add_zero]
      exact ih _

theorem apply_eq_zero {func : Func} (hfunc : func.preservesZero = true)
    (h : func.apply (0 : V) = .ok v) : v = 0 := by
  cases func with
  | builtin b =>
    obtain rfl := Except.ok.inj h
    exact apply_of_preservesZero hfunc
  | adjoint =>
    obtain rfl := Except.ok.inj h
    exact apply_of_preservesZero rfl
  | named name => cases hfunc

/-! ### One construct at a time

What is under it has been folded already. -/

theorem evaluateAt_simplify_pow {base exponent : Expr K} {x y : V}
    (hbase : base.simplify.evaluateAt b sites = .ok x)
    (hexponent : exponent.simplify.evaluateAt b sites = .ok y) :
    (Expr.pow base exponent).simplify.evaluateAt b sites = .ok (Arithmetic.pow x y) := by
  have hpow : (Expr.pow base.simplify exponent.simplify).evaluateAt b sites
      = .ok (Arithmetic.pow x y) := by
    rw [evaluateAt, hbase, hexponent]
    rfl
  rw [simplify]
  split
  · next a c ha hc =>
    split
    · next hand =>
      obtain ⟨hzero, hpos⟩ := Bool.and_eq_true_iff.mp hand
      rw [ha, evaluateAt, ofLiteral_of_isZero hzero] at hbase
      rw [hc, evaluateAt] at hexponent
      obtain rfl := Except.ok.inj hbase
      obtain rfl := Except.ok.inj hexponent
      rw [pow_of_isPositive hpos]
      exact evaluateAt_zero
    · exact hpow
  · exact hpow

theorem evaluateAt_simplify_neg {inner : Expr K} {x : V}
    (hinner : inner.simplify.evaluateAt b sites = .ok x) :
    (Expr.neg inner).simplify.evaluateAt b sites = .ok (Arithmetic.neg x) := by
  rw [simplify]
  split
  · next hzero =>
    rw [evaluateAt_of_isLiteralZero hzero] at hinner
    obtain rfl := Except.ok.inj hinner
    rw [neg_eq, neg_zero]
    exact evaluateAt_zero
  · rw [evaluateAt, hinner]
    rfl

theorem evaluateAt_simplify_call {func : Func} {arg : Expr K} {rest : List (Expr K)} {x : V}
    (harg : arg.simplify.evaluateAt b sites = .ok x) (h : func.apply x = .ok v) :
    (Expr.call func (arg :: rest)).simplify.evaluateAt b sites = .ok v := by
  rw [simplify, simplifyAll]
  split
  · next hzero =>
    obtain ⟨hfunc, hall⟩ := Bool.and_eq_true_iff.mp hzero
    have hfirst := List.all_eq_true.mp hall arg.simplify List.mem_cons_self
    rw [evaluateAt_of_isLiteralZero hfirst] at harg
    obtain rfl := Except.ok.inj harg
    rw [apply_eq_zero (Bool.and_eq_true_iff.mp hfunc).1 h]
    exact evaluateAt_zero
  · rw [evaluateAt, harg]
    exact h

theorem evaluateAt_simplify_sum {i : Index} {away : List Index} {body : Expr K}
    (hbody : ∀ m w, body.evaluateAt b ((i, m) :: sites) = .ok w →
      body.simplify.evaluateAt b ((i, m) :: sites) = .ok w)
    (h : (Expr.sum i away body).evaluateAt b sites = .ok v) :
    (Expr.sum i away body).simplify.evaluateAt b sites = .ok v := by
  obtain ⟨lo, hlo, h⟩ := ok_of_bind h
  obtain ⟨hi, hhi, h⟩ := ok_of_bind h
  obtain ⟨excluded, hexcluded, h⟩ := ok_of_bind h
  have hsum := sumSites_of_ok hbody h
  rw [simplify]
  split
  · next hzero =>
    simp only [evaluateAt_of_isLiteralZero hzero, sumSites_zero] at hsum
    rw [← hsum, zero_eq_zero]
    exact evaluateAt_zero
  · rw [evaluateAt, hlo, hhi, hexcluded]
    exact hsum

theorem evaluateAt_simplify_distinct {i j : Index} {body : Expr K}
    (hbody : body.evaluateAt b sites = .ok v → body.simplify.evaluateAt b sites = .ok v)
    (h : (Expr.distinct i j body).evaluateAt b sites = .ok v) :
    (Expr.distinct i j body).simplify.evaluateAt b sites = .ok v := by
  obtain ⟨m, hm, h⟩ := ok_of_bind h
  obtain ⟨n, hn, h⟩ := ok_of_bind h
  rw [simplify]
  split
  · next hzero =>
    rw [evaluateAt_zero]
    split at h
    · rw [← h, zero_eq_zero]
      rfl
    · rw [← hbody h, evaluateAt_of_isLiteralZero hzero]
  · rw [evaluateAt, hm, hn]
    change (if m = n then _ else _) = _
    split at h
    · next heq => rwa [if_pos heq]
    · next hne =>
      rw [if_neg hne]
      exact hbody h

end Exact

open ExactZeros

mutual

/-- **Folding zeros away keeps values.** -/
theorem evaluateAt_simplify [Field V] [ExactZeros K V] {b : Bindings V} :
    ∀ (e : Expr K) (sites : Sites) {v : V}, e.evaluateAt b sites = .ok v →
      e.simplify.evaluateAt b sites = .ok v
  | .number _, _, _, h => h
  | .imaginaryUnit, _, _, h => h
  | .symbol _, _, _, h => h
  | .indexed _, _, _, h => h
  | .index _, _, _, h => h
  | .add terms, sites, _, h => by
    obtain ⟨vs, hvs, rfl⟩ := evaluateSum_eq_ok.mp h
    obtain ⟨vs', hvs', hsum⟩ := values_filter (values_simplifyAll terms sites hvs)
    rw [simplify, zero_eq_zero, zero_add, ← hsum]
    exact evaluateAt_sumOf hvs'
  | .mul factors, sites, _, h => by
    obtain ⟨vs, hvs, rfl⟩ := evaluateProduct_eq_ok.mp h
    have hsimple := values_simplifyAll factors sites hvs
    rw [simplify]
    split
    · next hany =>
      rw [prod_eq_zero_of_values hsimple hany, mul_zero]
      exact evaluateAt_zero
    · exact evaluateProduct_eq_ok.mpr ⟨vs, hsimple, rfl⟩
  | .pow base exponent, sites, _, h => by
    obtain ⟨x, hx, h⟩ := ok_of_bind h
    obtain ⟨y, hy, h⟩ := ok_of_bind h
    obtain rfl := Except.ok.inj h
    exact evaluateAt_simplify_pow (evaluateAt_simplify base sites hx)
      (evaluateAt_simplify exponent sites hy)
  | .neg inner, sites, _, h => by
    obtain ⟨x, hx, h⟩ := ok_of_bind h
    obtain rfl := Except.ok.inj h
    exact evaluateAt_simplify_neg (evaluateAt_simplify inner sites hx)
  | .call func [], _, _, h => by cases h
  | .call func (arg :: rest), sites, _, h => by
    obtain ⟨x, hx, h⟩ := ok_of_bind h
    exact evaluateAt_simplify_call (evaluateAt_simplify arg sites hx) h
  | .sum i _ body, sites, _, h =>
    evaluateAt_simplify_sum (fun m _ hw => evaluateAt_simplify body ((i, m) :: sites) hw) h
  | .distinct _ _ body, sites, _, h =>
    evaluateAt_simplify_distinct (fun hv => evaluateAt_simplify body sites hv) h

theorem values_simplifyAll [Field V] [ExactZeros K V] {b : Bindings V} :
    ∀ (es : List (Expr K)) (sites : Sites) {vs : List V}, Values b sites es vs →
      Values b sites (simplifyAll es) vs
  | [], _, _, .nil => .nil
  | e :: es, sites, _, .cons he hes =>
    .cons (evaluateAt_simplify e sites he) (values_simplifyAll es sites hes)

end

/-- **Folding zeros away keeps every value** that an expression has, at any sites and under any
bindings; so what folds to zero has no other value.  Nothing is left to fold then. -/
theorem folding_keeps_value [Field V] [ExactZeros K V] {e : Expr K} {b : Bindings V}
    {sites : Sites} {v : V} (h : e.evaluateAt b sites = .ok v) :
    e.simplify.evaluateAt b sites = .ok v ∧ (e.isZero = true → v = 0) ∧
      ∀ d, Within d e.simplify → d.fold = d := by
  have hfolded := evaluateAt_simplify e sites h
  refine ⟨hfolded, fun hzero => ?_, fun d => fold_of_within_simplify⟩
  rw [evaluateAt_of_isLiteralZero hzero] at hfolded
  exact (Except.ok.inj hfolded).symm

/-- A term at a site, and two that are zero: a product, and a sum over the other sites. -/
def fadingTerms : Expr ℚ :=
  .add [.mul [.number 0, .symbol "x"],
    .sum ⟨"j", .literal 1, .symbol "x"⟩ [⟨"i", .literal 1, .literal 3⟩]
      (.neg (.call (.builtin .sin) [.pow (.number 0) (.number 2)])),
    .indexed ⟨"n", [⟨"i", .literal 1, .literal 3⟩]⟩]

/-- Three for the symbol, and five for the site where the index stands. -/
def fadingBindings : Bindings ℚ := (Bindings.empty.bind "x" 3).bindSite "n" [2] 5

theorem folding_keeps_value_fadingTerms :
    fadingTerms.evaluateAt fadingBindings [(⟨"i", .literal 1, .literal 3⟩, 2)] = .ok 5 ∧
      fadingTerms.simplify.evaluateAt fadingBindings [(⟨"i", .literal 1, .literal 3⟩, 2)] =
        .ok 5 := by
  have h : fadingTerms.evaluateAt fadingBindings [(⟨"i", .literal 1, .literal 3⟩, 2)] = .ok 5 := by
    decide +kernel
  exact ⟨h, (folding_keeps_value h).1⟩

/-- **What is lowered has the value of the right-hand side**, if that has one. -/
theorem evaluateAt_cleared [Field K] [LinearOrder K] [IsStrictOrderedRing K] [Field V]
    [ExactArithmetic K V] {b b' : Bindings V} {missing : List FreeSymbol} {sites : Sites}
    {e : Expr K} {v : V} (h : b.Spares b' missing)
    (ha : b.Agree b' missing (e.occurrences []) e.mentions) (hv : e.evaluateAt b sites = .ok v) :
    (e.cleared missing).evaluateAt b' sites = .ok v := by
  have hzeros : (e.substituteUnder (.zeros missing) []).evaluateAt b' sites = .ok v :=
    (evaluateAt_substituteUnder (h.relates ha) fun i hi =>
      ha.bound i (mem_mentions_of_summed hi)).trans hv
  rw [cleared]
  split
  · next hempty =>
    rwa [List.isEmpty_iff.mp hempty, substituteUnder_zeros_nil] at hzeros
  · exact evaluateAt_simplify _ sites hzeros

end Expr

end Fluxion
