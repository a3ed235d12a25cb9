import Fluxion.Proofs.Nodes.InsideArrays

/-!
# Proofs/Nodes/PassValues — passes keep the value of a node

Every pass rewrites a node from its leaves.  It keeps the value of a safe node if it does so at each
node (`value_transform`), which is shown pass by pass.  Two of them rely on arithmetic: exclusions
and guards become factors that are zero or one, and what is zero folds away.  Exclusions are moved
below the variable of their sum, which is where safety is needed: that variable is not one they
mention.
-/

namespace Fluxion

open Arithmetic

variable {K V : Type} [Literal K] [Arithmetic K V]

namespace Setting

variable {S : Setting K V} {f : Node K → Node K} {scope : IndexScope}

/-- **A pass that keeps values**, stated of the function it applies at each node. -/
structure Preserves (S : Setting K V) (f : Node K → Node K) : Prop extends S.Keeps f where
  plainValue : ∀ n : Node K, n.Plain → ∀ env, (n.transform f).value S.inputs env =
    n.value S.inputs env
  value : ∀ scope n, S.Safe scope n → ∀ env, (f n).value S.inputs env = n.value S.inputs env

theorem Keeps.transform_excluded (hf : S.Keeps f) {n : Node K} (h : Excludes scope n) :
    n.transform f = n := by
  obtain ⟨x, -, rfl⟩ := h
  exact hf.var x

theorem Keeps.transformAll_excluded (hf : S.Keeps f) {es : List (Node K)}
    (h : ∀ e ∈ es, Excludes scope e) : Node.transformAll f es = es := by
  rw [Node.transformAll_eq, List.map_congr_left fun e he => hf.transform_excluded (h e he),
    List.map_id']

theorem Keeps.transformExclusions_excluded (hf : S.Keeps f) {es : List (Exclusion K)}
    (h : ∀ e ∈ es, Excludes scope e.value) : Node.transformExclusions f es = es := by
  have hsame : ∀ e ∈ es, Exclusion.mk (e.value.transform f) e.absorbed = e := by
    intro e he
    rw [hf.transform_excluded (h e he)]
    cases e
    rfl
  rw [Node.transformExclusions_eq, List.map_congr_left hsame, List.map_id']

theorem Preserves.of_descend (hf : S.Preserves f) {n : Node K} {env : Env V} (h : S.Safe scope n)
    (hn : (n.descend f).value S.inputs env = n.value S.inputs env) :
    (n.transform f).value S.inputs env = n.value S.inputs env := by
  rw [Node.transform_eq_descend, hf.value scope _ (safe_descend hf.toKeeps scope n h), hn]

mutual

/-- What is inside a node keeps the value of the node. -/
theorem value_descend (hf : S.Preserves f) : ∀ (n : Node K) {scope : IndexScope} (env : Env V),
    S.Safe scope n → (n.descend f).value S.inputs env = n.value S.inputs env
  | .const _, _, _, _ => rfl
  | .imaginaryUnit, _, _, _ => rfl
  | .named _, _, _, _ => rfl
  | .time, _, _, _ => rfl
  | .var _, _, _, _ => rfl
  | .unresolved _, _, _, _ => rfl
  | .access .state i, _, env, h => by
    rw [Node.descend, Node.value, Node.value, hf.plainValue i h.plain]
  | .access .param i, _, env, h => by
    rw [Node.descend, Node.value, Node.value, hf.plainValue i h.plain]
  | .access .zero i, _, env, _ => rfl
  | .neg a, _, env, h => by
    rw [Node.descend, Node.value, Node.value, hf.of_descend (n := a) h (value_descend hf a env h)]
  | .binary op a b, _, env, h => by
    rw [Node.descend, Node.value, Node.value, hf.of_descend h.1 (value_descend hf a env h.1),
      hf.of_descend h.2 (value_descend hf b env h.2)]
  | .call func args, _, env, h => by
    rw [Node.descend, Node.value, Node.value, valueAll_transform hf args env h]
  | .boundedSum x lo hi es body, _, env, h => by
    obtain ⟨hes, i, ⟨-, -, rfl, rfl⟩, hbody⟩ := h
    rw [Node.descend, Node.value, Node.value, hf.bound, hf.bound,
      hf.toKeeps.transformAll_excluded hes,
      funext fun v => hf.of_descend hbody (value_descend hf body _ hbody)]
  | .sum x lo hi es body, _, env, h => by
    obtain ⟨hes, i, ⟨-, -, rfl, rfl⟩, hbody⟩ := h
    rw [Node.descend, Node.value, Node.value, hf.bound, hf.bound,
      hf.toKeeps.transformExclusions_excluded hes,
      funext fun v => hf.of_descend hbody (value_descend hf body _ hbody)]
  | .guarded l r body, _, env, h => by
    rw [Node.descend, Node.value, Node.value, hf.of_descend h.1 (value_descend hf l env h.1),
      hf.of_descend h.2.1 (value_descend hf r env h.2.1),
      hf.of_descend h.2.2 (value_descend hf body env h.2.2)]
  | .indicator l r, _, env, h => by
    rw [Node.descend, Node.value, Node.value, hf.of_descend h.1 (value_descend hf l env h.1),
      hf.of_descend h.2 (value_descend hf r env h.2)]

theorem valueAll_transform (hf : S.Preserves f) : ∀ (ns : List (Node K)) {scope : IndexScope}
    (env : Env V), S.SafeAll scope ns →
      Node.valueAll S.inputs (Node.transformAll f ns) env = Node.valueAll S.inputs ns env
  | [], _, _, _ => rfl
  | n :: ns, _, env, h => by
    rw [Node.transformAll, Node.valueAll, Node.valueAll,
      hf.of_descend h.1 (value_descend hf n env h.1), valueAll_transform hf ns env h.2]

end

/-- **Passes keep the value of a safe node.** -/
theorem value_transform (hf : S.Preserves f) {n : Node K} (h : S.Safe scope n) (env : Env V) :
    (n.transform f).value S.inputs env = n.value S.inputs env :=
  hf.of_descend h (value_descend hf n env h)

/-- A pass that leaves plain nodes alone keeps values, if it does so at each node. -/
theorem preserves_of_plain (hf : S.Keeps f) (hplain : ∀ n, n.Plain → f n = n)
    (hvalue : ∀ scope n, S.Safe scope n → ∀ env, (f n).value S.inputs env = n.value S.inputs env) :
    S.Preserves f where
  toKeeps := hf
  plainValue n hn env := by rw [hn.transform_eq hplain]
  value := hvalue

end Setting

/-! ## Passes without arithmetic -/

namespace Node

variable {inputs : Inputs K V} {env : Env V} {n : Node K}

/-- A pass that keeps values everywhere keeps those of index arithmetic. -/
theorem Plain.value_transform {f : Node K → Node K}
    (hf : ∀ (n : Node K) env, (f n).value inputs env = n.value inputs env) (h : n.Plain) :
    (n.transform f).value inputs env = n.value inputs env := by
  induction h with
  | const a => exact hf _ env
  | var x => exact hf _ env
  | param a =>
    rw [transform_eq_descend, hf, descend, value, value, transform_eq_descend, hf]
    rfl
  | unresolved name => exact hf _ env
  | neg _ ih => rw [transform_eq_descend, hf, descend, value, value, ih]
  | add _ _ ihm ihn => rw [transform_eq_descend, hf, descend, value, value, ihm, ihn]
  | sub _ _ ihm ihn => rw [transform_eq_descend, hf, descend, value, value, ihm, ihn]
  | mul _ a ih =>
    have ha : ((Node.const a).transform f).value inputs env = (Node.const a).value inputs env :=
      hf _ env
    rw [transform_eq_descend, hf, descend, value, value, ih, ha]

theorem value_nativeSum : (nativeSum n).value inputs env = n.value inputs env := by
  unfold nativeSum
  split
  · next x lo hi es body =>
    rw [value, value, valueExclusions_eq, valueAll_eq, List.filter_map, List.map_map]
    have hall : es.filter ((!·.absorbed) ∘ (Exclusion.mk · false)) = es :=
      List.filter_eq_self.mpr fun _ _ => rfl
    rw [hall]
    rfl
  · rfl

theorem value_stripExclusions : (stripExclusions n).value inputs env = n.value inputs env := by
  unfold stripExclusions
  split
  · rw [value, value, valueExclusions_eq, valueExclusions_eq, List.filter_filter]
    simp only [Bool.and_self]
  · rfl

theorem canonicalFunc_canonicalFunc (func : String) :
    canonicalFunc (canonicalFunc func) = canonicalFunc func := by
  unfold canonicalFunc
  split
  · decide
  · split
    · decide
    · rfl

theorem callValue_canonicalFunc (func : String) (vs : List V) :
    callValue (canonicalFunc func) vs = callValue func vs := by
  unfold callValue
  rw [canonicalFunc_canonicalFunc]

theorem value_respell : (respell n).value inputs env = n.value inputs env := by
  unfold respell
  split
  · next name =>
    rw [value, nameValue]
    split
    · rw [value]
    · next hname => rw [value, nameValue, if_neg hname]
  · rw [value, value, callValue_canonicalFunc]
  · rfl

end Node

namespace Setting

variable (S : Setting K V)

theorem preserves_nativeSum : S.Preserves Node.nativeSum :=
  preserves_of_plain (keeps_nativeSum S) (fun _ => Node.Plain.nativeSum_eq)
    fun _ _ _ _ => Node.value_nativeSum

theorem preserves_stripExclusions : S.Preserves Node.stripExclusions :=
  preserves_of_plain (keeps_stripExclusions S) (fun _ => Node.Plain.stripExclusions_eq)
    fun _ _ _ _ => Node.value_stripExclusions

theorem preserves_respell : S.Preserves Node.respell :=
  preserves_of_plain (keeps_respell S) (fun _ => Node.Plain.respell_eq)
    fun _ _ _ _ => Node.value_respell

end Setting

/-! ## Passes with arithmetic -/

section Exact

open ExactLiteral ExactArithmetic

variable [Field K] [LinearOrder K] [IsStrictOrderedRing K] [Field V] [ExactArithmetic K V]

namespace Arithmetic

theorem differ_eq (v w : V) : differ v w = if same v w then 0 else 1 := by
  rw [differ, same, ofBool]
  cases Literal.eq (real v : K) (real w)
  · exact eq_one
  · exact eq_zero

/-- A term that is zero where it should be left out need not be left out. -/
theorem addTerm_nil (excluded : List V) (term : V → V) :
    addTerm [] (fun v => if excluded.any (same v) then 0 else term v) = addTerm excluded term := by
  funext v acc
  rw [addTerm, addTerm]
  split
  · next hnil => cases hnil
  · split
    · rw [eq_add, add_zero]
    · rfl

/-- A sum of zeros. -/
theorem sumOver_zero (excluded : List V) (lower upper : V) :
    sumOver excluded (fun _ => 0) lower upper = 0 := by
  have hcount : ∀ (n : ℕ) (v acc : V), countUp (addTerm excluded fun _ => 0) n v acc = acc := by
    intro n
    induction n with
    | zero => exact fun _ _ => rfl
    | succ n ih =>
      intro v acc
      rw [countUp, ih, addTerm]
      split
      · rfl
      · rw [eq_add, add_zero]
  rw [sumOver, hcount, eq_zero]

end Arithmetic

namespace Node

variable {inputs : Inputs K V} {env : Env V} {n : Node K}

theorem value_of_isZero (h : n.isZero = true) : n.value inputs env = 0 := by
  rw [eq_const_of_isZero h, value, ofLiteral_zero]

theorem value_zero : (Node.const Literal.zero).value inputs env = 0 := by
  rw [value, zero_eq, ofLiteral_zero]

/-- The factors for some exclusions are zero where one of them holds. -/
theorem value_absorb {scope : IndexScope} {x : String} {es : List (Exclusion K)} {body : Node K}
    (hx : x ∉ scope.map (·.2)) (hes : ∀ e ∈ es, Setting.Excludes scope e.value) (v : V) :
    (absorb x es body).value inputs ((x, v) :: env)
      = if (valueExclusions inputs es env).any (same v) then 0
        else body.value inputs ((x, v) :: env) := by
  rw [absorb]
  induction es generalizing body with
  | nil => rfl
  | cons e es ih =>
    obtain ⟨⟨y, hy, hvalue⟩, hrest⟩ := List.forall_mem_cons.mp hes
    obtain ⟨n, absorbed⟩ := e
    obtain rfl : n = .var y := hvalue
    rw [List.foldl_cons, ih hrest, valueExclusions, valueExclusion]
    cases absorbed with
    | true => rfl
    | false =>
      have hne : y ≠ x := fun hyx => hx (hyx ▸ hy)
      have hvar : (Node.var y).value inputs ((x, v) :: env) = (Node.var y).value inputs env := by
        rw [value, value, Env.lookup_of_ne hne]
      have hself : (Node.var x).value inputs ((x, v) :: env) = v := by
        rw [value, List.lookup_cons_self, Option.getD_some]
      have hfactor : (Node.binary .mul (.indicator (.var x) (.var y)) body).value inputs
          ((x, v) :: env) = (if same v ((Node.var y).value inputs env) then 0 else 1)
            * body.value inputs ((x, v) :: env) := by
        change mul (differ ((Node.var x).value inputs ((x, v) :: env))
          ((Node.var y).value inputs ((x, v) :: env))) (body.value inputs ((x, v) :: env)) = _
        rw [hself, hvar, differ_eq, eq_mul]
      change (if _ then 0 else (Node.binary .mul (.indicator (.var x) (.var y)) body).value inputs
        ((x, v) :: env)) = if (_ || _) = true then 0 else _
      rw [hfactor]
      cases same v ((Node.var y).value inputs env) with
      | true =>
        rw [if_pos rfl, zero_mul, ite_self]
        rfl
      | false =>
        rw [if_neg Bool.false_ne_true, one_mul]
        rfl

theorem value_absorbGuard {S : Setting K V} {scope : IndexScope} (h : S.Safe scope n) :
    (absorbGuard n).value inputs env = n.value inputs env := by
  unfold absorbGuard
  split
  · next l r body =>
    rw [value, value, value, BinaryOp.apply, eq_mul, differ_eq]
    split
    · rw [zero_mul, eq_zero]
    · rw [one_mul]
  · next x lo hi es body =>
    obtain ⟨hes, i, ⟨-, hx, -⟩, -⟩ := h
    have hnone : valueExclusions inputs (es.map (.mk ·.value true)) env = [] := by
      rw [valueExclusions_eq, List.filter_map, List.map_map]
      have hfilter : es.filter ((!·.absorbed) ∘ (Exclusion.mk ·.value true)) = [] :=
        List.filter_eq_nil_iff.mpr fun _ _ => nofun
      rw [hfilter]
      rfl
    rw [value, value, hnone, funext fun v => value_absorb hx hes v, sumOver, sumOver, addTerm_nil]
  · rfl

/-- **What an operation folds to**, with what that says of its value. -/
theorem foldBinary_cases (op : BinaryOp) {a b : Node K} {u w : V} (ha : a.isZero = true → u = 0)
    (hb : b.isZero = true → w = 0) (hconst : ∀ e, b = .const e → w = ofLiteral e) :
    foldBinary op a b = .binary op a b ∨
      foldBinary op a b = .const Literal.zero ∧ op.apply u w = 0 ∨
      foldBinary op a b = a ∧ op.apply u w = u ∨ foldBinary op a b = b ∧ op.apply u w = w ∨
      foldBinary op a b = .neg b ∧ op.apply u w = Arithmetic.neg w := by
  unfold foldBinary
  split
  · split
    · next hor =>
      refine .inr (.inl ⟨rfl, ?_⟩)
      rw [BinaryOp.apply, eq_mul]
      rcases Bool.or_eq_true_iff.mp hor with hzero | hzero
      · rw [ha hzero, zero_mul]
      · rw [hb hzero, mul_zero]
    · exact .inl rfl
  · split
    · next hzero => exact .inr (.inl ⟨rfl, by rw [BinaryOp.apply, eq_div, ha hzero, zero_div]⟩)
    · exact .inl rfl
  · split
    · next hzero =>
      exact .inr (.inr (.inr (.inl ⟨rfl, by rw [BinaryOp.apply, eq_add, ha hzero, zero_add]⟩)))
    · split
      · next hzero =>
        exact .inr (.inr (.inl ⟨rfl, by rw [BinaryOp.apply, eq_add, hb hzero, add_zero]⟩))
      · exact .inl rfl
  · split
    · next hzero =>
        exact .inr (.inr (.inl ⟨rfl, by rw [BinaryOp.apply, eq_sub, hb hzero, sub_zero]⟩))
    · split
      · next hzero =>
        refine .inr (.inr (.inr (.inr ⟨rfl, ?_⟩)))
        rw [BinaryOp.apply, eq_sub, ha hzero, zero_sub, eq_neg]
      · exact .inl rfl
  · split
    · next e he =>
      split
      · next hand =>
        obtain ⟨hzero, hpos⟩ := Bool.and_eq_true_iff.mp hand
        refine .inr (.inl ⟨rfl, ?_⟩)
        rw [BinaryOp.apply, ha hzero, hconst e (const?_eq_some he),
          zero_pow (isPositive_iff.mp hpos)]
      · exact .inl rfl
    · exact .inl rfl

/-- What is zero folds away. -/
theorem value_foldBinary (op : BinaryOp) (a b : Node K) :
    (foldBinary op a b).value inputs env = (Node.binary op a b).value inputs env := by
  have hconst : ∀ e, b = .const e → b.value inputs env = (ofLiteral e : V) := by
    rintro e rfl
    rfl
  rcases foldBinary_cases op (value_of_isZero (n := a)) (value_of_isZero (n := b)) hconst with
    heq | ⟨heq, hvalue⟩ | ⟨heq, hvalue⟩ | ⟨heq, hvalue⟩ | ⟨heq, hvalue⟩
  · rw [heq]
  · rw [heq, value_zero, value, hvalue]
  · rw [heq, value, hvalue]
  · rw [heq, value, hvalue]
  · rw [heq, value, value, hvalue]

theorem value_collapseZero (n : Node K) : n.collapseZero.value inputs env = n.value inputs env := by
  unfold collapseZero
  split
  · rfl
  · exact value_foldBinary _ _ _
  · split
    · next ha => rw [value_zero, value, value_of_isZero ha, eq_neg, neg_zero]
    · rfl
  · next func a =>
    split
    · next hand =>
      obtain ⟨hfunc, ha⟩ := Bool.and_eq_true_iff.mp hand
      unfold callPreservesZero at hfunc
      split at hfunc
      · next b hb =>
        rw [value_zero, value, valueAll, value_of_isZero ha,
          callValue_cons (Builtin.ofName?_canonicalFunc hb), apply_zero hfunc]
      · cases hfunc
    · rfl
  · next x lo hi es body =>
    split
    · next hbody =>
      rw [value_zero, value, funext fun v => value_of_isZero hbody, sumOver_zero]
    · rfl
  · rfl

end Node

namespace Setting

variable (S : Setting K V)

theorem preserves_absorbGuard : S.Preserves Node.absorbGuard :=
  preserves_of_plain (keeps_absorbGuard S) (fun _ => Node.Plain.absorbGuard_eq)
    fun _ _ h _ => Node.value_absorbGuard h

theorem preserves_collapseZero : S.Preserves Node.collapseZero where
  toKeeps := keeps_collapseZero S
  plainValue _ hn _ := hn.value_transform fun n _ => Node.value_collapseZero n
  value _ n _ _ := Node.value_collapseZero n

variable {S} {scope : IndexScope} {n : Node K}

/-- **Normal forms have the same value.** -/
theorem value_normalize (h : S.Safe scope n) (env : Env V) :
    n.normalize.value S.inputs env = n.value S.inputs env := by
  have hnative := safe_transform (keeps_nativeSum S) scope n h
  have habsorbed := safe_transform (keeps_absorbGuard S) scope _ hnative
  have hstripped := safe_transform (keeps_stripExclusions S) scope _ habsorbed
  calc n.normalize.value S.inputs env
      = n.nativeSums.absorbGuards.stripAbsorbed.value S.inputs env :=
        value_transform (preserves_collapseZero S) hstripped env
    _ = n.nativeSums.absorbGuards.value S.inputs env :=
        value_transform (preserves_stripExclusions S) habsorbed env
    _ = n.nativeSums.value S.inputs env := value_transform (preserves_absorbGuard S) hnative env
    _ = n.value S.inputs env := value_transform (preserves_nativeSum S) h env

end Setting

end Exact

end Fluxion
