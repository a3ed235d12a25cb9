import Fluxion.Proofs.Nodes.NormalForms
import Fluxion.Proofs.Machine.Refinement
import Fluxion.Proofs.Lowering.Valuation

/-!
# Proofs/Generation/ExcludedTerms — terms that should not count

An expression does not look at the body of a condition where its two indices stand at one site, nor
at a summand at the sites that the sum leaves out.  In a normal form both have become factors,

    Distinct i j e   ⇝   [i ≠ j] * e              Σ_{k ≠ i} e   ⇝   Σ_k [k ≠ i] * e

so a run evaluates `e` all the same and multiplies it by zero.  That makes no difference for a value
`w` with `0 * w = 0`, which not every floating point number is: where `e` has a pole at the site
that is left out, the product is no number, and neither is the sum.

**Terms that should not count do not count exactly for bodies with `0 * w = 0`**
(`termsVanish_iff`).  Besides that, next to nothing is asked of the numbers (`Neutral`).
`repulsion` is a system that loses its derivative this way (`pole_counts`).
-/

namespace Fluxion

open Arithmetic

variable {K V : Type} [Literal K] [Arithmetic K V]

namespace Node

/-- **What a procedure evaluates for a lowered node**: the normal form, with one spelling for each
name. -/
def settled (n : Node K) : Node K := n.normalize.transform respell

/-- A node with a factor for each variable that `x` should be away from. -/
def weighted (x : String) (ys : List String) (n : Node K) : Node K :=
  ys.foldl (fun body y => .binary .mul (.indicator (.var x) (.var y)) body) n

/-! ## Normal forms of conditions and sums -/

theorem settled_guarded (x y : String) (n : Node K) : (guarded (.var x) (.var y) n).settled =
    if n.normalize.isZero then .const Literal.zero
    else .binary .mul (.indicator (.var x) (.var y)) n.settled := by
  have hfold : (guarded (.var x) (.var y) n).normalize =
      if n.normalize.isZero then .const Literal.zero
      else .binary .mul (.indicator (.var x) (.var y)) n.normalize := rfl
  rw [settled, hfold]
  split <;> rfl

theorem isZero_weighted {n : Node K} (h : n.isZero = false) (x : String) (ys : List String) :
    (weighted x ys n).isZero = false := by
  unfold weighted
  induction ys generalizing n with
  | nil => exact h
  | cons y ys ih => exact ih rfl

/-- What is zero stays zero behind factors, and nothing else folds away. -/
theorem collapseZeros_absorb (hzero : Literal.isZero (Literal.zero : K) = true) (x : String)
    (ys : List String) (n : Node K) :
    (n.collapseZeros.isZero = true →
      (absorb x (ys.map fun y => .mk (.var y) false) n).collapseZeros.isZero = true) ∧
    (n.collapseZeros.isZero = false →
      (absorb x (ys.map fun y => .mk (.var y) false) n).collapseZeros
        = weighted x ys n.collapseZeros) := by
  unfold absorb weighted
  induction ys generalizing n with
  | nil => exact ⟨id, fun _ => rfl⟩
  | cons y ys ih =>
    have hfactor : (binary .mul (.indicator (.var x) (.var y)) n).collapseZeros =
        if n.collapseZeros.isZero then .const Literal.zero
        else .binary .mul (.indicator (.var x) (.var y)) n.collapseZeros := rfl
    obtain ⟨ihzero, ihne⟩ := ih (.binary .mul (.indicator (.var x) (.var y)) n)
    rw [hfactor] at ihzero ihne
    rw [List.map_cons, List.foldl_cons, List.foldl_cons]
    constructor <;> intro h
    · rw [if_pos h] at ihzero
      exact ihzero hzero
    · rw [h] at ihne
      exact ihne rfl

section Sums

variable (l : ParamLayout) (lower upper : Bound) (x : String)

/-- The first three passes turn the exclusions of a sum into factors, and leave its bounds. -/
theorem stripAbsorbed_boundedSum (ys : List String) (n : Node K) :
    (boundedSum x (l.boundNode lower) (l.boundNode upper) (ys.map .var)
        n).nativeSums.absorbGuards.stripAbsorbed
      = .sum x (l.boundNode lower) (l.boundNode upper) []
          (absorb x (ys.map fun y => .mk (.var y) false)
            n.nativeSums.absorbGuards.stripAbsorbed) := by
  have hbound (b : Bound) : (l.boundNode b : Node K).transform
      (stripExclusions ∘ absorbGuard ∘ nativeSum) = l.boundNode b :=
    (Plain.boundNode l b).transform_eq fun m hm => by
      rw [Function.comp_apply, Function.comp_apply, hm.nativeSum_eq, hm.absorbGuard_eq,
        hm.stripExclusions_eq]
  rw [stripAbsorbed_absorbGuards_nativeSums, stripAbsorbed_absorbGuards_nativeSums,
    transform_eq_mapChildren, mapChildren, hbound, hbound, List.map_map, Function.comp_apply,
    Function.comp_apply, nativeSum, absorbGuard, stripExclusions,
    List.filter_eq_nil_iff.mpr (List.forall_mem_map.mpr fun _ _ => Bool.false_ne_true),
    List.map_map]
  rfl

theorem collapseZeros_sum (n : Node K) :
    (sum x (l.boundNode lower) (l.boundNode upper) [] n).collapseZeros =
      if n.collapseZeros.isZero then .const Literal.zero
      else .sum x (l.boundNode lower) (l.boundNode upper) [] n.collapseZeros := by
  rw [collapseZeros, transform]
  change collapseZero (.sum x (l.boundNode lower).collapseZeros (l.boundNode upper).collapseZeros []
    n.collapseZeros) = _
  rw [ParamLayout.collapseZeros_boundNode, ParamLayout.collapseZeros_boundNode]
  rfl

theorem normalize_boundedSum (hzero : Literal.isZero (Literal.zero : K) = true) (ys : List String)
    (n : Node K) :
    (boundedSum x (l.boundNode lower) (l.boundNode upper) (ys.map .var) n).normalize =
      if n.normalize.isZero then .const Literal.zero
      else .sum x (l.boundNode lower) (l.boundNode upper) [] (weighted x ys n.normalize) := by
  obtain ⟨hisZero, hne⟩ :=
    collapseZeros_absorb hzero x ys n.nativeSums.absorbGuards.stripAbsorbed
  rw [normalize, stripAbsorbed_boundedSum, collapseZeros_sum, normalize]
  cases h : n.nativeSums.absorbGuards.stripAbsorbed.collapseZeros.isZero with
  | true =>
    rw [hisZero h]
    rfl
  | false => rw [hne h, isZero_weighted h]

omit [Literal K] in
theorem respell_weighted (ys : List String) (n : Node K) :
    (weighted x ys n).transform respell = weighted x ys (n.transform respell) := by
  unfold weighted
  induction ys generalizing n with
  | nil => rfl
  | cons y ys ih => exact ih _

/-- **The normal form of a sum** has a factor for each index that it keeps away from. -/
theorem settled_boundedSum (hzero : Literal.isZero (Literal.zero : K) = true) (ys : List String)
    (n : Node K) :
    (boundedSum x (l.boundNode lower) (l.boundNode upper) (ys.map .var) n).settled =
      if n.normalize.isZero then .const Literal.zero
      else .sum x (l.boundNode lower) (l.boundNode upper) [] (weighted x ys n.settled) := by
  have hbound (b : Bound) : (l.boundNode b : Node K).transform respell = l.boundNode b :=
    (Plain.boundNode l b).transform_eq fun _ hn => hn.respell_eq
  rw [settled, normalize_boundedSum l lower upper x hzero]
  split
  · rfl
  · rw [transform, hbound, hbound, respell_weighted]
    rfl

end Sums

/-! ## What a run makes of them -/

variable {p : Procedure K} {inputs : Inputs K V} {env : Env V} {x : String} {n : Node K}

theorem meaning_var {v : V} : (var x).meaning p inputs env (.ok v) ↔ env.lookup x = some v := by
  rw [meaning]
  constructor
  · rintro ⟨w, hw, hv⟩
    rwa [Except.ok.inj hv]
  · exact fun hv => ⟨v, hv, rfl⟩

theorem meaning_indicator {y : String} {v w z : V} (hx : env.lookup x = some v)
    (hy : env.lookup y = some w) :
    (indicator (.var x) (.var y)).meaning p inputs env (.ok z) ↔ z = differ v w := by
  rw [meaning]
  constructor
  · intro hz
    obtain ⟨v', hv', hz⟩ := Computation.andThen_ok.mp hz
    obtain ⟨w', hw', hz⟩ := Computation.andThen_ok.mp hz
    obtain rfl := Option.some.inj (hx.symm.trans (meaning_var.mp hv'))
    obtain rfl := Option.some.inj (hy.symm.trans (meaning_var.mp hw'))
    exact Except.ok.inj hz
  · rintro rfl
    exact Computation.andThen_ok.mpr ⟨v, meaning_var.mpr hx,
      Computation.andThen_ok.mpr ⟨w, meaning_var.mpr hy, rfl⟩⟩

theorem meaning_weighted {ys : List String} {zs : List V} {v w : V} (hx : env.lookup x = some v)
    (hys : List.Forall₂ (fun y z => env.lookup y = some z) ys zs)
    (hn : n.meaning p inputs env (.ok w)) :
    (weighted x ys n).meaning p inputs env (.ok (zs.foldl (fun w z => mul (differ v z) w) w)) := by
  unfold weighted
  induction hys generalizing n w with
  | nil => exact hn
  | cons hy _ ih => exact ih (meaning_binary.mpr ⟨_, _, (meaning_indicator hx hy).mpr rfl, hn, rfl⟩)

/-- A node that folds to zero is a literal zero. -/
theorem settled_of_isZero {v : V} (h : n.normalize.isZero = true)
    (hn : n.settled.meaning p inputs env (.ok v)) :
    ∃ a : K, Literal.isZero a = true ∧ v = ofLiteral a := by
  rw [settled] at hn
  cases hnormal : n.normalize with
  | const a =>
    rw [hnormal] at hn h
    exact ⟨a, h, Except.ok.inj hn⟩
  | _ =>
    rw [hnormal] at h
    cases h

end Node

/-! ## Numbers -/

/-- **What is asked of numbers** for conditions and sums: zero is a slot, one is a neutral factor,
and a zero behind a sum adds nothing. -/
structure Neutral (K V : Type) [Literal K] [Arithmetic K V] : Prop where
  isZero_zero : Literal.isZero (Literal.zero : K) = true
  slot_zero : Literal.slot? (Literal.zero : K) = some 0
  real_zero : real (zero : V) = (Literal.zero : K)
  one_mul (w : V) : mul one w = w
  zero_mul_zero : mul zero zero = (zero : V)
  add_zero (ws : List V) {a : K} : Literal.isZero a = true →
    add (ws.foldl add zero) (ofLiteral a) = ws.foldl add zero

/-- **Values count sites** from one site to another, and tell each from some sites. -/
structure Counts (V : Type) {K : Type} [Literal K] [Arithmetic K V] (m n : ℤ) (ms : List ℤ) :
    Prop where
  next : ∀ k, m ≤ k → k ≤ n → add (atSite k : V) one = atSite (k + 1)
  inside : ∀ k, m ≤ k → k ≤ n → atMost (atSite k : V) (atSite n) = true
  outside : atMost (atSite (max m (n + 1)) : V) (atSite n) = false
  same : ∀ k, m ≤ k → k ≤ n → ∀ k' ∈ ms, same (atSite k : V) (atSite k') = decide (k = k')

theorem Arithmetic.differ_eq_ite (v w : V) : differ v w = if same v w then zero else one := by
  rw [differ, same, ofBool]
  cases Literal.eq (real v : K) (real w) <;> rfl

section Sites

variable {m n : ℤ} {ms : List ℤ} {term : ℤ → Except EvalError V} {w : ℤ → V}

/-- Factors of zero and one, one of them zero at a site that is left out. -/
theorem foldl_differ (hV : Neutral K V) {k : ℤ} {w : V} (hzero : k ∈ ms → mul zero w = zero)
    (hsame : ∀ k' ∈ ms, same (atSite k : V) (atSite k') = decide (k = k')) :
    (ms.map atSite).foldl (fun w z => mul (differ (atSite k) z) w) w
      = if k ∈ ms then zero else w := by
  induction ms generalizing w with
  | nil => rfl
  | cons k' ms ih =>
    obtain ⟨hk', hsame⟩ := List.forall_mem_cons.mp hsame
    rw [List.map_cons, List.foldl_cons, differ_eq_ite, hk']
    by_cases h : k = k'
    · have hmem : k ∈ k' :: ms := List.mem_cons.mpr (.inl h)
      rw [decide_eq_true h, if_pos rfl, hzero hmem, ih (fun _ => hV.zero_mul_zero) hsame, ite_self,
        if_pos hmem]
    · have hmem : k ∈ k' :: ms ↔ k ∈ ms := List.mem_cons.trans (or_iff_right h)
      rw [decide_eq_false h, if_neg Bool.false_ne_true, hV.one_mul, ih (hzero ∘ hmem.mpr) hsame]
      simp only [hmem]

/-- **A sum over sites is a counted loop**, if the terms that are left out are zero in the loop. -/
theorem exists_sumSites (hV : Neutral K V) (hcounts : Counts V m n ms)
    {σ : Type} {f : V → Computation σ V}
    (hterm : ∀ k, m ≤ k → k ≤ n → k ∉ ms → term k = .ok (w k))
    (hf : ∀ k, m ≤ k → k ≤ n → f (atSite k) (.ok (if k ∈ ms then zero else w k))) :
    ∃ v, sumSites add ms term (n - m + 1).toNat m zero = .ok v ∧
      Rounds (atSite n) (fun v acc => (f v).andThen fun w => .of (.ok (add acc w))) (atSite m) zero
        (.ok v) := by
  -- at a site `k`, the sum so far is that of some values
  suffices h : ∀ (count : ℕ) (k : ℤ) (ws : List V), m ≤ k → k ≤ max m (n + 1) →
      count = (n - k + 1).toNat → ∃ v, sumSites add ms term count k (ws.foldl add zero) = .ok v ∧
        Rounds (atSite n) (fun v acc => (f v).andThen fun w => .of (.ok (add acc w))) (atSite k)
          (ws.foldl add zero) (.ok v) from
    h _ m [] le_rfl (le_max_left _ _) rfl
  intro count
  induction count with
  | zero =>
    intro k ws hm hk hcount
    obtain rfl : k = max m (n + 1) := by omega
    exact ⟨_, rfl, .done hcounts.outside⟩
  | succ count ih =>
    intro k ws hm hk hcount
    have hn : k ≤ n := by omega
    have hround (t : V) (ht : f (atSite k) (.ok t)) (acc : V) :
        ((f (atSite k)).andThen fun w => .of (.ok (add acc w))) (.ok (add acc t)) :=
      Computation.andThen_ok.mpr ⟨t, ht, rfl⟩
    have hnext := hcounts.next k hm hn
    by_cases hmem : k ∈ ms
    · obtain ⟨v, hsum, hrounds⟩ := ih (k + 1) ws (by omega) (by omega) (by omega)
      have hzero := hf k hm hn
      rw [if_pos hmem] at hzero
      have hadd : add (ws.foldl add zero) (zero : V) = ws.foldl add zero :=
        hV.add_zero ws hV.isZero_zero
      refine ⟨v, by rwa [sumSites, if_pos hmem], .step (hcounts.inside k hm hn)
        (hround zero hzero _) ?_⟩
      rwa [hnext, hadd]
    · obtain ⟨v, hsum, hrounds⟩ := ih (k + 1) (ws ++ [w k]) (by omega) (by omega) (by omega)
      have hvalue := hf k hm hn
      rw [if_neg hmem] at hvalue
      rw [List.foldl_append, List.foldl_cons, List.foldl_nil] at hsum hrounds
      refine ⟨v, ?_, .step (hcounts.inside k hm hn) (hround (w k) hvalue _) ?_⟩
      · rwa [sumSites, if_neg hmem, hterm k hm hn hmem]
      · rwa [hnext]

/-- A sum of literal zeros. -/
theorem sumSites_zeros (hV : Neutral K V) {count : ℕ}
    (hterm : ∀ k, m ≤ k → k < m + count → k ∉ ms →
      ∃ a : K, Literal.isZero a = true ∧ term k = .ok (ofLiteral a)) :
    sumSites add ms term count m zero = .ok zero := by
  induction count generalizing m with
  | zero => rfl
  | succ count ih =>
    have hrest : sumSites add ms term count (m + 1) zero = .ok zero :=
      ih fun k hk hlt => hterm k (by omega) (by omega)
    rw [sumSites]
    split
    · exact hrest
    · next hmem =>
      obtain ⟨a, ha, hm⟩ := hterm m le_rfl (by omega) hmem
      rw [hm]
      exact (congrArg _ (hV.add_zero [] ha)).trans hrest

end Sites

/-! ## Terms that should not count -/

/-- **Guarded terms vanish**: where the indices of a condition stand at one site, the term is zero,
whatever its body is worth there among some values. -/
def GuardsVanish (K : Type) {V : Type} [Literal K] [Arithmetic K V] (P : V → Prop) : Prop :=
  ∀ (p : Procedure K) (inputs : Inputs K V) (c : LoweringContext K) (scope : IndexScope)
    (sites : Sites)
    (env : Env V) (i j : Index) (e : Expr K) (l r body : Node K) (m : ℤ) (w : V),
    (Expr.distinct i j e).LowersTo c scope (.guarded l r body) → Stands scope sites env →
    sites.get i = .ok m → sites.get j = .ok m → same (atSite m : V) (atSite m) = true →
    body.settled.meaning p inputs env (.ok w) → P w →
      (Node.guarded l r body).settled.meaning p inputs env (.ok zero)

/-- **Sums leave out excluded terms**: a sum in a procedure is the sum that the expression denotes,
if the summand is right at the sites that count, whatever it is worth at the others among some
values. -/
def SumsLeaveOut (K : Type) {V : Type} [Literal K] [Arithmetic K V] (P : V → Prop) : Prop :=
  ∀ (p : Procedure K) (inputs : Inputs K V) (b : Bindings V) (c : LoweringContext K)
    (scope : IndexScope) (sites : Sites) (env : Env V) (i : Index) (away : List Index) (e : Expr K)
    (x : String) (lo hi body : Node K) (es : List (Node K)) (m n : ℤ) (ms : List ℤ) (w : ℤ → V),
    (Expr.sum i away e).LowersTo c scope (.boundedSum x lo hi es body) → Stands scope sites env →
    b.bound i.lower = .ok m → b.bound i.upper = .ok n → away.mapM sites.get = .ok ms →
    Counts V m n ms →
    lo.meaning p inputs env (.ok (atSite m)) → hi.meaning p inputs env (.ok (atSite n)) →
    (∀ k, m ≤ k → k ≤ n → body.settled.meaning p inputs ((x, atSite k) :: env) (.ok (w k))) →
    (∀ k, m ≤ k → k ≤ n → k ∉ ms → e.evaluateAt b ((i, k) :: sites) = .ok (w k)) →
    (∀ k, m ≤ k → k ≤ n → k ∈ ms → P (w k)) →
      ∃ v, (Expr.sum i away e).evaluateAt b sites = .ok v ∧
        (Node.boundedSum x lo hi es body).settled.meaning p inputs env (.ok v)

/-- Variables in scope are looked up behind a new one. -/
theorem lookup_behind {scope : IndexScope} {env : Env V} {x : String} (hx : x ∉ scope.map (·.2))
    {is : List Index} {ys : List String} {ms : List ℤ} (hys : scope.Names is ys)
    (hms : List.Forall₂ (fun y m => env.lookup y = some (atSite m)) ys ms) (v : V) :
    List.Forall₂ (fun y z => List.lookup y ((x, v) :: env) = some z) ys (ms.map atSite) := by
  induction hms generalizing is with
  | nil => exact .nil
  | cons hy _ ih =>
    cases hys with
    | cons hscope hrest =>
      have hne : _ ≠ x := fun h => hx (h ▸ List.mem_map_of_mem (mem_of_lookup hscope))
      exact .cons ((Env.lookup_of_ne hne v env).trans hy) (ih hrest)

variable {P : V → Prop}

theorem guardsVanish (hzero : ∀ w, P w → mul zero w = zero) : GuardsVanish K P := by
  rintro p inputs c scope sites env i j e l r body m w ⟨_, _, hlower⟩ hstands hi hj hsame hbody hw
  cases Expr.lowered_of_lower c _ hlower with
  | distinct hx hy _ =>
    rw [Node.settled_guarded]
    split
    · rfl
    · refine Node.meaning_binary.mpr ⟨_, w, (Node.meaning_indicator (hstands _ _ _ hx hi)
        (hstands _ _ _ hy hj)).mpr rfl, hbody, ?_⟩
      rw [differ_eq_ite, hsame, if_pos rfl]
      exact (hzero w hw).symm

theorem sumsLeaveOut (hV : Neutral K V) (hzero : ∀ w, P w → mul zero w = zero) :
    SumsLeaveOut K P := by
  rintro p inputs b c scope sites env i away e x lo hi body es m n ms w ⟨_, _, hlower⟩ hstands hm hn
    hms hcounts hlo hhi hbody hterm hvoid
  have hevaluate : (Expr.sum i away e).evaluateAt b sites
      = sumSites add ms (fun k => e.evaluateAt b ((i, k) :: sites)) (n - m + 1).toNat m zero := by
    rw [Expr.evaluateAt, hm, hn, hms]
    rfl
  rw [hevaluate]
  cases Expr.lowered_of_lower c _ hlower with
  | @sum _ _ _ _ _ xs _ hx hxs _ =>
    rw [Node.settled_boundedSum _ _ _ _ hV.isZero_zero]
    split
    · next hisZero =>
      refine ⟨zero, sumSites_zeros hV fun k hk hlt hmem => ?_, rfl⟩
      obtain ⟨a, ha, hw⟩ := Node.settled_of_isZero hisZero (hbody k hk (by omega))
      exact ⟨a, ha, (hterm k hk (by omega) hmem).trans (congrArg _ hw)⟩
    · have hnames := hstands.names hxs hms
      have hweighted (k : ℤ) (hk : m ≤ k) (hkn : k ≤ n) :
          (Node.weighted x xs body.settled).meaning p inputs ((x, atSite k) :: env)
            (.ok (if k ∈ ms then zero else w k)) := by
        rw [← foldl_differ hV (fun hmem => hzero _ (hvoid k hk hkn hmem)) (hcounts.same k hk hkn)]
        exact Node.meaning_weighted List.lookup_cons_self
          (lookup_behind (Expr.not_mem_scope hx) hxs hnames _) (hbody k hk hkn)
      obtain ⟨v, hsum, hrounds⟩ := exists_sumSites hV hcounts
        (f := fun v => (Node.weighted x xs body.settled).meaning p inputs ((x, v) :: env))
        hterm hweighted
      refine ⟨v, hsum, ?_⟩
      rw [Node.meaning]
      exact Computation.andThen_ok.mpr ⟨_, hhi,
        Computation.andThen_ok.mpr ⟨_, hlo, rfl, hrounds⟩⟩

theorem meaning_slot_zero (hV : Neutral K V) {p : Procedure K} {w v : V} {t : K} {env : Env V} :
    (Node.access .state (.ofInt 0)).meaning p ⟨#[w], #[], t⟩ env (.ok v) ↔ v = w := by
  have hslot : Literal.slot? (real (ofLiteral (Literal.ofInt 0 : K) : V)) = some 0 :=
    (congrArg _ hV.real_zero).trans hV.slot_zero
  rw [Node.meaning, Computation.andThen_ok]
  simp only [Node.ofInt, Node.meaning, Computation.of, Except.ok.injEq, exists_eq_left,
    Procedure.fetch, Program.slot, hslot]
  exact Iff.of_eq (Except.ok.injEq v w)

/-- A condition that compares an index to itself makes a product with zero of any state. -/
theorem zero_mul_of_guardsVanish (hV : Neutral K V) (h : GuardsVanish K P) {w : V} (hw : P w) :
    mul zero w = zero := by
  let i : Index := ⟨"i", .literal 0, .literal 0⟩
  let c : LoweringContext K :=
    ⟨[("w", .access .state (.ofInt 0))], .empty, ⟨[], [], 0⟩, false, [], .scalar "w"⟩
  have hlower : (Expr.distinct i i (.symbol "w")).LowersTo c [(i, "i")]
      (.guarded (.var "i") (.var "i") (.access .state (.ofInt 0))) := ⟨0, 0, rfl⟩
  have hstands : Stands [(i, "i")] [(i, 0)] [("i", (zero : V))] :=
    (Stands.nil [] []).push List.not_mem_nil i 0
  have hsame : same (zero : V) zero = true := by
    rw [same, hV.real_zero]
    exact hV.isZero_zero
  have hzero :=
    h .blank ⟨#[w], #[], Literal.zero⟩ c _ _ _ i i (.symbol "w") _ _ _ 0 w hlower hstands
    rfl rfl hsame ((meaning_slot_zero hV).mpr rfl) hw
  rw [Node.settled_guarded] at hzero
  obtain ⟨v, w', hv, hw', heq⟩ := Node.meaning_binary.mp hzero
  rw [(Node.meaning_indicator rfl rfl).mp hv, (meaning_slot_zero hV).mp hw', differ_eq_ite,
    hsame] at heq
  exact heq.symm

/-- **Terms that should not count do not count, exactly for bodies that zero swallows.** -/
theorem termsVanish_iff (hV : Neutral K V) (P : V → Prop) :
    GuardsVanish K P ∧ SumsLeaveOut K P ↔ ∀ w, P w → mul zero w = zero := by
  constructor
  · intro h w hw
    exact zero_mul_of_guardsVanish hV h.1 hw
  · intro h
    exact ⟨guardsVanish h, sumsLeaveOut hV h⟩

/-! ## Numbers that know their poles -/

/-- **A rational number with its past**: whether it has been computed without a division by zero.
Like an infinity, a number that has not stays so whatever it is multiplied by. -/
structure Tracked where
  value : ℚ
  finite : Bool
  deriving DecidableEq

namespace Tracked

/-- An operation on rational numbers that may be undefined. -/
def lift₂ (f : ℚ → ℚ → ℚ) (defined : ℚ → ℚ → Bool) (v w : Tracked) : Tracked :=
  ⟨f v.value w.value, v.finite && w.finite && defined v.value w.value⟩

instance : Arithmetic ℚ Tracked where
  ofLiteral a := ⟨a, true⟩
  real := value
  imaginaryUnit? := none
  add := lift₂ (· + ·) fun _ _ => true
  sub := lift₂ (· - ·) fun _ _ => true
  mul := lift₂ (· * ·) fun _ _ => true
  div := lift₂ (· / ·) fun _ b => b ≠ 0
  pow := lift₂ powRational fun a e => a ≠ 0 || 0 ≤ e
  neg v := ⟨-v.value, v.finite⟩
  apply b v := ⟨applyRational b v.value, v.finite⟩

theorem neutral : Neutral ℚ Tracked where
  isZero_zero := by decide +kernel
  slot_zero := by decide +kernel
  real_zero := rfl
  zero_mul_zero := by decide +kernel
  one_mul w := by
    change Tracked.mk (1 * w.value) (w.finite && true) = w
    rw [one_mul, Bool.and_true]
  add_zero ws a ha := by
    obtain rfl := ExactLiteral.isZero_iff.mp ha
    generalize ws.foldl add zero = v
    change Tracked.mk (v.value + 0) (v.finite && true && true) = v
    rw [add_zero, Bool.and_true, Bool.and_true]

end Tracked

/-- Terms vanish where their bodies are finite, and not for all bodies. -/
theorem termsVanish_tracked :
    (GuardsVanish ℚ (fun w : Tracked => w.finite = true) ∧
      SumsLeaveOut ℚ (fun w : Tracked => w.finite = true)) ∧
    ¬ (GuardsVanish ℚ (fun _ : Tracked => True) ∧ SumsLeaveOut ℚ (fun _ : Tracked => True)) := by
  constructor
  · refine (termsVanish_iff Tracked.neutral _).mpr fun w hw => ?_
    change Tracked.mk (0 * w.value) (true && w.finite && true) = ⟨0, true⟩
    rw [zero_mul, hw]
    rfl
  · intro h
    have hpole := (termsVanish_iff Tracked.neutral _).mp h ⟨1, false⟩ trivial
    exact absurd hpole (by decide +kernel)

/-- Two bodies on a line, each driven by the inverse of its distance to the other. -/
def repulsion : Equation ℚ :=
  .of (.indexed ⟨"n", [⟨"i", .literal 1, .literal 2⟩]⟩)
    (.sum ⟨"j", .literal 1, .literal 2⟩ [⟨"i", .literal 1, .literal 2⟩]
      (.mul [.number 1, .pow (.add [.indexed ⟨"n", [⟨"i", .literal 1, .literal 2⟩]⟩,
        .neg (.indexed ⟨"n", [⟨"j", .literal 1, .literal 2⟩]⟩)]) (.number (-1))]))

def repulsionInputs : Inputs ℚ Tracked := ⟨#[⟨1, true⟩, ⟨3, true⟩], #[], 0⟩

/-- **A pole at a site that is left out** makes both derivatives infinite in a call, although the
expression has a finite value at either site. -/
theorem pole_counts : ∃ p c, EquationSystem.generate ⟨[repulsion], none⟩ [] {} = .ok p ∧
    p.materialize .real = .ok c ∧
    c.Returns repulsionInputs #[zero, zero] ⟨.finished, #[⟨-1 / 2, false⟩, ⟨1 / 2, false⟩]⟩ ∧
    [1, 2].mapM (fun m => repulsion.rhs.evaluateAt (EquationSystem.bindings ⟨[repulsion], none⟩
      ⟨[], [], 0⟩ repulsionInputs {}) [(⟨"i", .literal 1, .literal 2⟩, m)])
      = .ok [⟨-1 / 2, true⟩, ⟨1 / 2, true⟩] := by
  exact ⟨_, _, rfl, rfl, ⟨by decide, 200, by decide +kernel⟩, by decide +kernel⟩

end Fluxion
