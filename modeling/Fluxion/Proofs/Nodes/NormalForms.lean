import Fluxion.Proofs.Nodes.Denotation
import Fluxion.Proofs.Nodes.PassValues

/-!
# Proofs/Nodes/NormalForms — a normal form has the value of its node

    n ──nativeSums──▸ ──absorbGuards──▸ ──stripAbsorbed──▸ ──collapseZeros──▸ n.normalize

Every pass keeps the value of a node in an environment where everything inside the node has one, for
nodes as they are before the first pass: no exclusion of a sum mentions the variable of the sum, and
none is accounted for by the summand (`evaluate_passes`).  Nothing else is asked of the node.

The third pass alone does not keep values, since it drops exclusions; it does so behind the second
one, which has made them factors of the summand.  The first three are therefore fused into one
function that is applied at each node (`stripAbsorbed_absorbGuards_nativeSums`), and a sum is dealt
with once, with its exclusions kept or dropped behind the factors (`refines_absorb`).
-/

namespace Fluxion

open Arithmetic

variable {K V : Type}

namespace Node

variable {n : Node K} {x : String} {es : List (Exclusion K)} {lo hi body : Node K}

/-- The variable of a sum is not free in its exclusions. -/
def Uncaptured : Node K → Prop
  | .boundedSum x _ _ es _ => ∀ e ∈ es, x ∉ e.freeVars
  | .sum x _ _ es _ => ∀ e ∈ es, x ∉ e.value.freeVars
  | _ => True

/-- No exclusion of a sum is accounted for by the summand. -/
def Unabsorbed : Node K → Prop
  | .sum _ _ _ es _ => ∀ e ∈ es, e.absorbed = false
  | _ => True

/-- A node at which no exclusion is captured or accounted for. -/
def Pristine (n : Node K) : Prop := n.Uncaptured ∧ n.Unabsorbed

theorem Pristine.nativeSum (h : n.Pristine) : (nativeSum n).Pristine := by
  obtain ⟨hx, hes⟩ := h
  cases n with
  | boundedSum x lo hi es body =>
    exact ⟨List.forall_mem_map.mpr hx, List.forall_mem_map.mpr fun _ _ => rfl⟩
  | _ => exact ⟨hx, hes⟩

/-- Rewriting the children of a node captures nothing if it makes no variable free. -/
theorem Pristine.mapChildren {φ : Node K → Node K}
    (hφ : ∀ m : Node K, (φ m).freeVars ⊆ m.freeVars) (h : n.Pristine) :
    (n.mapChildren φ).Pristine := by
  obtain ⟨hx, hes⟩ := h
  cases n with
  | boundedSum x lo hi es body =>
    exact ⟨List.forall_mem_map.mpr fun e he hmem => hx e he (hφ e hmem), trivial⟩
  | sum x lo hi es body =>
    exact ⟨List.forall_mem_map.mpr fun e he hmem => hx e he (hφ e.value hmem),
      List.forall_mem_map.mpr hes⟩
  | _ => exact ⟨trivial, trivial⟩

/-! ## The first three passes as one -/

theorem mapChildren_nativeSum (φ : Node K → Node K) (n : Node K) :
    (nativeSum n).mapChildren φ = nativeSum (n.mapChildren φ) := by
  cases n <;> simp [nativeSum, mapChildren, Exclusion.value, Exclusion.absorbed]

theorem absorbGuards_nativeSums (n : Node K) :
    n.nativeSums.absorbGuards = n.transform (absorbGuard ∘ nativeSum) := by
  refine transform_transform (fun n => ?_) n
  rw [transform_eq_mapChildren, mapChildren_nativeSum]
  rfl

/-- Factors for exclusions are passed through. -/
theorem stripAbsorbed_absorb (x : String) (es : List (Exclusion K)) (body : Node K) :
    (absorb x es body).stripAbsorbed
      = absorb x (es.map fun e => .mk e.value.stripAbsorbed e.absorbed) body.stripAbsorbed := by
  unfold absorb
  induction es generalizing body with
  | nil => rfl
  | cons e es ih =>
    rw [List.foldl_cons, ih]
    obtain ⟨value, absorbed⟩ := e
    cases absorbed <;> rfl

/-- Exclusions that have become factors are dropped. -/
theorem stripAbsorbed_absorbGuard (n : Node K) :
    (absorbGuard n).stripAbsorbed
      = stripExclusions (absorbGuard (n.mapChildren stripAbsorbed)) := by
  cases n with
  | sum x lo hi es body =>
    rw [absorbGuard, stripAbsorbed, transform_eq_mapChildren, mapChildren]
    change stripExclusions (.sum x _ _ _ (absorb x es body).stripAbsorbed) = _
    rw [stripAbsorbed_absorb]
    simp [mapChildren, absorbGuard, stripAbsorbed, Function.comp_def, Exclusion.value,
      Exclusion.absorbed]
  | guarded l r body => rfl
  | _ => exact transform_eq_mapChildren _ _

/-- **The first three passes make one.** -/
theorem stripAbsorbed_absorbGuards_nativeSums (n : Node K) :
    n.nativeSums.absorbGuards.stripAbsorbed
      = n.transform (stripExclusions ∘ absorbGuard ∘ nativeSum) := by
  rw [absorbGuards_nativeSums]
  refine transform_transform (fun n => ?_) n
  exact (stripAbsorbed_absorbGuard _).trans (by rw [mapChildren_nativeSum]; rfl)

/-! ## Free variables -/

theorem freeVars_nativeSum (n : Node K) : (nativeSum n).freeVars ⊆ n.freeVars := by
  cases n with
  | boundedSum x lo hi es body =>
    rw [nativeSum, freeVars, freeVars, freeVarsExclusions_eq, List.map_map]
    exact (congrArg freeVarsAll (List.map_id' es)) ▸ List.Subset.refl _
  | _ => exact List.Subset.refl _

/-- The factors of a summand mention the exclusions and the variable of the sum. -/
theorem freeVars_absorb {y : String} (hy : y ∈ (absorb x es body).freeVars) :
    y = x ∨ y ∈ freeVarsExclusions es ∨ y ∈ body.freeVars := by
  unfold absorb at hy
  induction es generalizing body with
  | nil => exact .inr (.inr hy)
  | cons e es ih =>
    obtain ⟨value, absorbed⟩ := e
    rcases ih hy with hx | hes | hbody
    · exact .inl hx
    · exact .inr (.inl (List.mem_append_right _ hes))
    · cases absorbed with
      | true => exact .inr (.inr hbody)
      | false =>
        simp only [Exclusion.absorbed, Bool.false_eq_true, if_false, freeVars, List.mem_append,
          List.mem_singleton] at hbody
        rcases hbody with (hx | hvalue) | hbody
        · exact .inl hx
        · exact .inr (.inl (List.mem_append_left _ hvalue))
        · exact .inr (.inr hbody)

theorem freeVars_absorbGuard (n : Node K) : (absorbGuard n).freeVars ⊆ n.freeVars := by
  cases n with
  | guarded l r body => exact List.Subset.refl _
  | sum x lo hi es body =>
    intro y hy
    have hmarked : freeVarsExclusions (es.map (.mk ·.value true)) = freeVarsExclusions es := by
      rw [freeVarsExclusions_eq, freeVarsExclusions_eq, List.map_map]
      rfl
    simp only [absorbGuard, freeVars, List.mem_append, hmarked, List.mem_filter,
      decide_eq_true_eq] at hy ⊢
    rcases hy with hy | ⟨hy, hne⟩
    · exact .inl hy
    · rcases freeVars_absorb hy with hx | hes | hbody
      · exact absurd hx hne
      · exact .inl (.inr hes)
      · exact .inr ⟨hbody, hne⟩
  | _ => exact List.Subset.refl _

theorem freeVars_stripExclusions (n : Node K) : (stripExclusions n).freeVars ⊆ n.freeVars := by
  cases n with
  | sum x lo hi es body =>
    intro y hy
    simp only [stripExclusions, freeVars, List.mem_append, mem_freeVarsExclusions,
      List.mem_filter] at hy ⊢
    grind
  | _ => exact List.Subset.refl _

end Node

/-! ## Passes keep values -/

section Passes

variable [Literal K] [Arithmetic K V] {S : Reading K V}

namespace Node

variable {n : Node K} {x : String} {es : List (Exclusion K)} {lo hi body : Node K}

/-- **A pass keeps values if it does so at each node**, where a condition on nodes may be assumed
that rewriting the children does not break. -/
theorem refines_transform {f : Node K → Node K} {Q : Node K → Prop}
    (hf : ∀ n, Q n → Refines S S n (f n)) (hQ : ∀ n, Q n → Q (n.mapChildren (transform f)))
    (n : Node K) (hn : ∀ m ∈ n.subnodes, Q m) : Refines S S n (n.transform f) := by
  induction n using childInduction with
  | step n ih =>
    have hchildren : ∀ m ∈ n.children, Refines S S m (m.transform f) := fun m hm =>
      ih m hm fun k hk => hn k (mem_subnodes_of_mem_children hm hk)
    rw [transform_eq_mapChildren]
    exact (refines_mapChildren (.refl S) hchildren).trans
      (hf _ (hQ n (hn n (self_mem_subnodes n))))

theorem evaluateExclusions_mk (absorbed : Bool) (ns : List (Node K)) (env : Env V) :
    evaluateExclusions S (ns.map (.mk · absorbed)) env = evaluateAll S ns env := by
  rw [evaluateExclusions_eq, List.map_map]
  exact congrArg (evaluateAll S · env) (List.map_id' ns)

theorem evaluateExclusions_absorbed (es : List (Exclusion K)) (env : Env V) :
    evaluateExclusions S (es.map (.mk ·.value true)) env = evaluateExclusions S es env := by
  rw [evaluateExclusions_eq, evaluateExclusions_eq, List.map_map]
  rfl

theorem evaluate_nativeSum (n : Node K) (env : Env V) :
    (nativeSum n).evaluate S env = n.evaluate S env := by
  cases n with
  | boundedSum x lo hi es body => rw [nativeSum, evaluate, evaluate, evaluateExclusions_mk]
  | _ => rfl

theorem refines_nativeSum (n : Node K) : Refines S S n (nativeSum n) := fun env =>
  (evaluate_nativeSum n env).symm ▸ .refl _

theorem refines_nativeSums (n : Node K) : Refines S S n n.nativeSums :=
  refines_transform (Q := fun _ => True) (fun n _ => refines_nativeSum n) (fun _ => id) n
    fun _ _ => trivial

end Node

open ExactLiteral ExactArithmetic

variable [Field K] [LinearOrder K] [IsStrictOrderedRing K] [Field V] [ExactArithmetic K V]

/-- Terms that are zero where they should be left out may as well be added. -/
theorem Reading.addUp_of_zeros (hS : S.strict = true) {vs vs' : List V} (hvs : vs' ⊆ vs)
    {term term' : V → Option V}
    (hterm : ∀ w t, term w = some t → term' w = some (if vs.any (same w) then 0 else t))
    (ws : List V) (acc : V) : Extends (S.addUp vs term ws acc) (S.addUp vs' term' ws acc) := by
  intro v hv
  induction ws generalizing acc with
  | nil => exact hv
  | cons w ws ih =>
    rw [addUp] at hv ⊢
    by_cases hw : vs.any (same w) = true
    · rw [if_pos hw, without, if_pos hS] at hv
      obtain ⟨t, ht, hv⟩ := Option.bind_eq_some_iff.mp hv
      have hzero := hterm w t ht
      rw [if_pos hw] at hzero
      rw [without, if_pos hS, hzero, Option.bind_some, Option.bind_some, eq_add, add_zero, ite_self]
      exact ih acc hv
    · have hw' : ¬ vs'.any (same w) = true := fun h => by
        obtain ⟨a, ha, hsame⟩ := List.any_eq_true.mp h
        exact hw (List.any_eq_true.mpr ⟨a, hvs ha, hsame⟩)
      rw [if_neg hw] at hv
      obtain ⟨t, ht, hv⟩ := Option.bind_eq_some_iff.mp hv
      have hsame := hterm w t ht
      rw [if_neg hw] at hsame
      rw [if_neg hw', hsame, Option.bind_some]
      exact ih _ hv

/-- A sum of zeros. -/
theorem Reading.addUp_zero {vs ws : List V} {acc v : V}
    (h : S.addUp vs (fun _ => some 0) ws acc = some v) : v = acc := by
  induction ws generalizing acc with
  | nil => exact (Option.some.inj h).symm
  | cons w ws ih =>
    rw [addUp, without, Option.bind_some, Option.bind_some, eq_add, add_zero, ite_self,
      ite_self] at h
    exact ih h

namespace Node

variable {n : Node K} {x : String} {es : List (Exclusion K)} {lo hi body : Node K} {env : Env V}

/-- **The factors for some exclusions** are zero where one of them holds. -/
theorem evaluate_absorb (hx : ∀ e ∈ es, x ∉ e.value.freeVars) (hes : ∀ e ∈ es, e.absorbed = false)
    {vs : List V} (hvs : evaluateExclusions S es env = some vs) {w t : V}
    (ht : body.evaluate S ((x, w) :: env) = some t) :
    (absorb x es body).evaluate S ((x, w) :: env) = some (if vs.any (same w) then 0 else t) := by
  unfold absorb
  induction es generalizing body t vs with
  | nil =>
    obtain rfl := Option.some.inj hvs
    exact ht
  | cons e es ih =>
    obtain ⟨value, absorbed⟩ := e
    obtain ⟨hx, hxs⟩ := List.forall_mem_cons.mp hx
    obtain ⟨rfl, hrest⟩ := List.forall_mem_cons.mp hes
    obtain ⟨a, ha, hvs⟩ := Option.bind_eq_some_iff.mp hvs
    obtain ⟨vs', hvs', hvs⟩ := Option.bind_eq_some_iff.mp hvs
    obtain rfl := Option.some.inj hvs
    have hvalue : value.evaluate S ((x, w) :: env) = some a :=
      (evaluate_cons w hx).trans ha
    have hfactor : (Node.binary .mul (.indicator (.var x) value) body).evaluate S ((x, w) :: env)
        = some (if same w a then 0 else t) := by
      rw [evaluate, evaluate, evaluate, List.lookup_cons_self, hvalue, ht]
      rw [Option.bind_some, Option.bind_some, Option.bind_some, Option.bind_some, BinaryOp.apply,
        eq_mul, differ_eq, ite_mul, zero_mul, one_mul]
    rw [List.foldl_cons]
    refine (ih hxs hrest hvs' hfactor).trans (congrArg some ?_)
    rw [List.any_cons]
    cases same w a with
    | true => exact ite_self 0
    | false => rfl

/-- A condition is a factor. -/
theorem refines_guarded (hS : S.strict = true) (l r body : Node K) :
    Refines S S (.guarded l r body) (.binary .mul (.indicator l r) body) := by
  intro env v hv
  obtain ⟨a, ha, hv⟩ := Option.bind_eq_some_iff.mp hv
  obtain ⟨b, hb, hv⟩ := Option.bind_eq_some_iff.mp hv
  rw [evaluate, evaluate, ha, hb, Option.bind_some, Option.bind_some, Option.bind_some]
  rw [Reading.guard] at hv
  by_cases hsame : same a b = true
  · rw [if_pos hsame, Reading.without, if_pos hS] at hv
    obtain ⟨w, hw, hv⟩ := Option.bind_eq_some_iff.mp hv
    rw [hw, Option.bind_some, BinaryOp.apply, eq_mul, differ_eq, if_pos hsame, zero_mul,
      ← hv, eq_zero]
  · rw [if_neg hsame] at hv
    rw [hv, Option.bind_some, BinaryOp.apply, eq_mul, differ_eq, if_neg hsame, one_mul]

/-- **Exclusions are factors of the summand**, and are kept besides or not. -/
theorem refines_absorb (hS : S.strict = true) (hx : ∀ e ∈ es, x ∉ e.value.freeVars)
    (hes : ∀ e ∈ es, e.absorbed = false) {es' : List (Exclusion K)}
    (hes' : ∀ env vs, evaluateExclusions S es env = some vs →
      ∃ vs' ⊆ vs, evaluateExclusions S es' env = some vs') :
    Refines S S (.sum x lo hi es body) (.sum x lo hi es' (absorb x es body)) := by
  intro env v hv
  obtain ⟨vs, hvs, hv⟩ := Option.bind_eq_some_iff.mp hv
  obtain ⟨vs', hsub, hvs'⟩ := hes' env vs hvs
  rw [evaluate, hvs', Reading.sumOver, Option.bind_some]
  obtain ⟨l, hl, hv⟩ := Option.bind_eq_some_iff.mp hv
  obtain ⟨u, hu, hv⟩ := Option.bind_eq_some_iff.mp hv
  obtain ⟨ws, hws, hv⟩ := Option.bind_eq_some_iff.mp hv
  rw [hl, hu, Option.bind_some, Option.bind_some, hws, Option.bind_some]
  exact Reading.addUp_of_zeros hS hsub (fun w t ht => evaluate_absorb hx hes hvs ht) ws zero v hv

theorem refines_absorbGuard (hS : S.strict = true) (h : n.Pristine) :
    Refines S S n (absorbGuard n) := by
  obtain ⟨hx, hes⟩ := h
  cases n with
  | guarded l r body => exact refines_guarded hS l r body
  | sum x lo hi es body =>
    refine refines_absorb hS hx hes fun env vs hvs => ⟨vs, List.Subset.refl _, ?_⟩
    rw [evaluateExclusions_absorbed, hvs]
  | _ => exact .refl S _

theorem refines_stripExclusions (hS : S.strict = true) (h : n.Pristine) :
    Refines S S n (stripExclusions (absorbGuard n)) := by
  obtain ⟨hx, hes⟩ := h
  cases n with
  | guarded l r body => exact refines_guarded hS l r body
  | sum x lo hi es body =>
    have hnone : (es.map (Exclusion.mk ·.value true)).filter (!·.absorbed) = [] :=
      List.filter_eq_nil_iff.mpr (List.forall_mem_map.mpr fun _ _ => Bool.false_ne_true)
    rw [absorbGuard, stripExclusions, hnone]
    exact refines_absorb hS hx hes fun env vs hvs => ⟨[], List.nil_subset vs, rfl⟩
  | _ => exact .refl S _

/-! ### Zeros -/

theorem evaluate_of_isZero (h : n.isZero = true) : n.evaluate S env = some 0 := by
  rw [eq_const_of_isZero h, evaluate, ofLiteral_zero]

theorem evaluate_zero : (Node.const Literal.zero).evaluate S env = some 0 := by
  rw [evaluate, zero_eq, ofLiteral_zero]

/-- What is zero folds away. -/
theorem refines_foldBinary (op : BinaryOp) (a b : Node K) :
    Refines S S (.binary op a b) (foldBinary op a b) := by
  intro env v hv
  have hbinary := hv
  obtain ⟨u, hu, hv⟩ := Option.bind_eq_some_iff.mp hv
  obtain ⟨w, hw, hv⟩ := Option.bind_eq_some_iff.mp hv
  obtain rfl := Option.some.inj hv
  have hleft : a.isZero = true → u = 0 := fun ha =>
    Option.some.inj (hu.symm.trans (evaluate_of_isZero ha))
  have hright : b.isZero = true → w = 0 := fun hb =>
    Option.some.inj (hw.symm.trans (evaluate_of_isZero hb))
  have hconst : ∀ e, b = .const e → w = ofLiteral e := by
    rintro e rfl
    exact (Option.some.inj hw).symm
  rcases foldBinary_cases op hleft hright hconst with
    heq | ⟨heq, hvalue⟩ | ⟨heq, hvalue⟩ | ⟨heq, hvalue⟩ | ⟨heq, hvalue⟩
  · rwa [heq]
  · rw [heq, evaluate_zero, hvalue]
  · rw [heq, hu, hvalue]
  · rw [heq, hw, hvalue]
  · rw [heq, evaluate, hw, Option.bind_some, hvalue]

/-- A function that keeps zero, at zero. -/
theorem refines_callZero {func : String} {a : Node K} (hfunc : callPreservesZero func = true)
    (ha : a.isZero = true) : Refines S S (.call func [a]) (.const Literal.zero) := by
  intro env v hv
  obtain ⟨w, hw, hv⟩ := Option.bind_eq_some_iff.mp hv
  obtain ⟨b, hb, hv⟩ := Option.bind_eq_some_iff.mp hv
  rw [evaluateFirst, evaluate_of_isZero ha] at hw
  unfold callPreservesZero at hfunc
  split at hfunc
  · next b' hb' =>
    obtain rfl := Option.some.inj ((Builtin.ofName?_canonicalFunc hb').symm.trans hb)
    rw [evaluate_zero, ← Option.some.inj hv, ← Option.some.inj hw, apply_zero hfunc]
  · cases hfunc

/-- A sum of zeros. -/
theorem refines_sumZero (hbody : body.isZero = true) :
    Refines S S (.sum x lo hi es body) (.const Literal.zero) := by
  intro env v hv
  obtain ⟨vs, -, hv⟩ := Option.bind_eq_some_iff.mp hv
  obtain ⟨l, -, hv⟩ := Option.bind_eq_some_iff.mp hv
  obtain ⟨u, -, hv⟩ := Option.bind_eq_some_iff.mp hv
  obtain ⟨ws, -, hv⟩ := Option.bind_eq_some_iff.mp hv
  rw [funext fun w => evaluate_of_isZero hbody] at hv
  rw [evaluate_zero, Reading.addUp_zero hv, eq_zero]

theorem refines_collapseZero (n : Node K) : Refines S S n (collapseZero n) := by
  unfold collapseZero
  split
  · intro env v hv
    rw [evaluate_zero, ← Option.some.inj hv, eq_zero]
  · exact refines_foldBinary _ _ _
  · split
    · next ha =>
      intro env v hv
      obtain ⟨w, hw, hv⟩ := Option.bind_eq_some_iff.mp hv
      rw [evaluate_of_isZero ha] at hw
      rw [evaluate_zero, ← Option.some.inj hv, ← Option.some.inj hw, eq_neg, neg_zero]
    · exact .refl S _
  · split
    · next hand =>
      obtain ⟨hfunc, ha⟩ := Bool.and_eq_true_iff.mp hand
      exact refines_callZero hfunc ha
    · exact .refl S _
  · split
    · next hbody => exact refines_sumZero hbody
    · exact .refl S _
  · exact .refl S _

/-! ### The passes -/

theorem refines_collapseZeros (n : Node K) : Refines S S n n.collapseZeros :=
  refines_transform (Q := fun _ => True) (fun n _ => refines_collapseZero n) (fun _ => id) n
    fun _ _ => trivial

theorem refines_absorbGuards (hS : S.strict = true) (hn : ∀ m ∈ n.subnodes, m.Pristine) :
    Refines S S n n.nativeSums.absorbGuards := by
  have hfree (m : Node K) : ((absorbGuard ∘ nativeSum) m).freeVars ⊆ m.freeVars :=
    List.Subset.trans (freeVars_absorbGuard _) (freeVars_nativeSum m)
  rw [absorbGuards_nativeSums]
  refine refines_transform (Q := Pristine) (fun m hm => ?_)
    (fun m hm => hm.mapChildren (freeVars_transform hfree)) n hn
  exact (refines_nativeSum m).trans (refines_absorbGuard hS hm.nativeSum)

theorem refines_stripAbsorbed (hS : S.strict = true) (hn : ∀ m ∈ n.subnodes, m.Pristine) :
    Refines S S n n.nativeSums.absorbGuards.stripAbsorbed := by
  have hfree (m : Node K) :
      ((stripExclusions ∘ absorbGuard ∘ nativeSum) m).freeVars ⊆ m.freeVars :=
    List.Subset.trans (freeVars_stripExclusions _)
      (List.Subset.trans (freeVars_absorbGuard _) (freeVars_nativeSum m))
  rw [stripAbsorbed_absorbGuards_nativeSums]
  refine refines_transform (Q := Pristine) (fun m hm => ?_)
    (fun m hm => hm.mapChildren (freeVars_transform hfree)) n hn
  exact (refines_nativeSum m).trans (refines_stripExclusions hS hm.nativeSum)

end Node

/-- **Normal forms have the value of their nodes**, and so has every stage on the way. -/
theorem Node.evaluate_passes {n : Node K} (hcapture : ∀ m ∈ n.subnodes, m.Uncaptured)
    (habsorbed : ∀ m ∈ n.subnodes, m.Unabsorbed) {env : Env V} {v : V}
    (hv : n.evaluate S.strictly env = some v) :
    ∀ m ∈ [n, n.nativeSums, n.nativeSums.absorbGuards, n.nativeSums.absorbGuards.stripAbsorbed,
      n.normalize, n.collapseZeros], m.evaluate S env = some v := by
  have hn : ∀ m ∈ n.subnodes, m.Pristine := fun m hm => ⟨hcapture m hm, habsorbed m hm⟩
  have hstripped := refines_stripAbsorbed rfl hn env v hv
  have hstages : ∀ m ∈ [n, n.nativeSums, n.nativeSums.absorbGuards,
      n.nativeSums.absorbGuards.stripAbsorbed, n.normalize, n.collapseZeros],
      m.evaluate S.strictly env = some v := by
    simp only [List.forall_mem_cons]
    exact ⟨hv, refines_nativeSums n env v hv, refines_absorbGuards rfl hn env v hv, hstripped,
      refines_collapseZeros _ env v hstripped, refines_collapseZeros n env v hv, nofun⟩
  exact fun m hm => refines_self S.strictly_admits m env v (hstages m hm)

end Passes

/-- A sum without one site, with a condition on each term. -/
def guardedSum : Node ℚ :=
  .binary .add (.access .zero (.var "k")) (.boundedSum "j" (.const 1) (.const 3) [.var "i"]
    (.guarded (.var "j") (.const 2) (.access .state (.var "j"))))

def guardedInputs : Inputs ℚ ℚ := ⟨#[2, 3, 5, 7], #[], 0⟩

theorem Node.evaluate_passes_guardedSum : [guardedSum, guardedSum.nativeSums,
    guardedSum.nativeSums.absorbGuards, guardedSum.nativeSums.absorbGuards.stripAbsorbed,
    guardedSum.normalize, guardedSum.collapseZeros].map
      (·.evaluate (Reading.bySites guardedInputs) [("i", 1)]) = List.replicate 6 (some 7) := by
  have hcapture : ∀ m ∈ guardedSum.subnodes, m.Uncaptured := by
    simp [guardedSum, subnodes, subnodesAll, Uncaptured, freeVars, or_imp, forall_and]
  have habsorbed : ∀ m ∈ guardedSum.subnodes, m.Unabsorbed := by
    simp [guardedSum, subnodes, subnodesAll, Unabsorbed, or_imp, forall_and]
  exact List.map_eq_replicate_iff.mpr (evaluate_passes hcapture habsorbed (by decide +kernel))

end Fluxion
