import Fluxion.Proofs.Generation.ExcludedTerms
import Fluxion.Proofs.Generation.Refusals
import Fluxion.Proofs.Lowering.ScalarNodes

/-!
# Proofs/Generation/Hygiene — variables of loops and sums

Every loop and every sum of a generated procedure has a variable of its own.  `Procedure.binders`
lists them, each with the variables around it; no variable is among those around it, and none is the
name of an argument.

What a sum keeps away from is settled outside of it, before it gets its variable:

    Σ_{j ≠ i} e   under   i ↦ x      ⇝      Σ_y [y ≠ x] * (e under j ↦ y, i ↦ x)

`Expr.Traces` follows every sum and every condition of a value back to the right-hand side it comes
from, with the variables that indices had there.  Labels of indices and names of arguments may be
what they like: where they clash, variables are numbered.
-/

namespace Fluxion

variable {K : Type}

namespace Node

variable {m n : Node K} {Q : Node K → Prop}

/-! ## Nodes without sums and conditions -/

/-- Neither a sum nor a condition at the node itself. -/
def Bare : Node K → Prop
  | .boundedSum .. | .sum .. | .guarded .. | .indicator .. => False
  | _ => True

theorem Bare.mapChildren (h : n.Bare) (φ : Node K → Node K) : (n.mapChildren φ).Bare := by
  cases n <;> exact h

/-- The first three passes are about sums and conditions only. -/
theorem stripAbsorbed_of_bare (h : Everywhere Bare n) :
    n.nativeSums.absorbGuards.stripAbsorbed = n := by
  rw [stripAbsorbed_absorbGuards_nativeSums]
  refine h.transform_eq fun n hn => ?_
  cases n <;> first | rfl | cases hn

theorem bare_leaf (hn : n.Bare) (h : n.children = []) : Everywhere Bare n := ⟨hn, by simp [h]⟩

theorem bare_const (v : K) : Everywhere Bare (.const v) := bare_leaf trivial rfl

theorem Plain.bare (h : n.Plain) : Everywhere Bare n :=
  h.everywhere fun n hn => by cases hn <;> trivial

theorem Scalar.child (h : n.Scalar) (hm : m ∈ n.children) : m.Scalar := by
  cases h with
  | const | named | time => cases hm
  | access _ v => exact List.mem_singleton.mp hm ▸ .const v
  | neg h => exact List.mem_singleton.mp hm ▸ h
  | binary op ha hb =>
    rcases List.mem_pair.mp hm with rfl | rfl
    exacts [ha, hb]
  | call func h => exact h m hm

/-- What holds of values without indices holds everywhere in them. -/
theorem Scalar.everywhere (h : n.Scalar) (hQ : ∀ n, Scalar n → Q n) : Everywhere Q n :=
  everywhere_of_inherited (fun _ hn _ => hn.child) hQ h

theorem Scalar.bare (h : n.Scalar) : Everywhere Bare n :=
  h.everywhere fun n hn => by cases hn <;> trivial

theorem Scalar.settled (h : n.Scalar) : Everywhere Settled n := h.everywhere fun n hn => by
  cases hn with
  | @access b hb v =>
    cases b with
    | zero => exact absurd rfl hb
    | state | param => trivial
  | _ => trivial

theorem Scalar.finished (h : n.Scalar) : n.Finished [] := by
  refine ⟨h.settled, List.subset_nil.mpr ?_⟩
  induction h with
  | const | named | time | access => rfl
  | neg _ ih => exact ih
  | binary op _ _ iha ihb => exact List.append_eq_nil_iff.mpr ⟨iha, ihb⟩
  | call func _ ih =>
    refine List.eq_nil_iff_forall_not_mem.mpr fun x hx => ?_
    obtain ⟨n, hn, hx⟩ := mem_freeVarsAll.mp hx
    exact List.not_mem_nil (ih n hn ▸ hx)

theorem bare_respell (h : Everywhere Bare n) : Everywhere Bare (n.transform respell) := by
  refine h.transform (fun _ φ hn => hn.mapChildren φ) fun n hn hchildren => ?_
  cases n with
  | named x =>
    rw [respell]
    split <;> exact bare_leaf trivial rfl
  | _ => exact ⟨hn, hchildren⟩

/-! ## Loops and sums with what is around them -/

mutual

/-- **The variables of all sums in a node**, each behind the variables around it. -/
def binders (around : List String) : Node K → List (List String × String)
  | .const _ | .imaginaryUnit | .named _ | .time | .var _ | .unresolved _ => []
  | .access _ i => binders around i
  | .neg a => binders around a
  | .binary _ a b => binders around a ++ binders around b
  | .call _ args => bindersAll around args
  | .boundedSum x lo hi es body =>
    (around, x) :: (binders around lo ++ binders around hi ++ bindersAll around es
      ++ binders (x :: around) body)
  | .sum x lo hi es body =>
    (around, x) :: (binders around lo ++ binders around hi ++ bindersExclusions around es
      ++ binders (x :: around) body)
  | .guarded l r body => binders around l ++ binders around r ++ binders around body
  | .indicator l r => binders around l ++ binders around r

/-- The variables of all sums in some nodes. -/
def bindersAll (around : List String) : List (Node K) → List (List String × String)
  | [] => []
  | n :: rest => binders around n ++ bindersAll around rest

/-- The variables of all sums in an exclusion. -/
def bindersExclusion (around : List String) : Exclusion K → List (List String × String)
  | .mk v _ => binders around v

/-- The variables of all sums in some exclusions. -/
def bindersExclusions (around : List String) : List (Exclusion K) → List (List String × String)
  | [] => []
  | e :: rest => bindersExclusion around e ++ bindersExclusions around rest

end

theorem mem_bindersAll {around : List String} {q : List String × String} {ns : List (Node K)} :
    q ∈ bindersAll around ns ↔ ∃ n ∈ ns, q ∈ n.binders around := by
  induction ns with
  | nil => simp [bindersAll]
  | cons n ns ih => simp [bindersAll, ih]

@[simp] theorem binders_bare {around : List String} (h : Everywhere Bare n) :
    n.binders around = [] := by
  induction h with
  | @intro n self _ ih =>
    cases n with
    | call func args => simp_all [binders, children, List.eq_nil_iff_forall_not_mem, mem_bindersAll]
    | boundedSum | sum | guarded | indicator => cases self
    | _ => simp_all [binders, children]

@[simp] theorem binders_weighted (around : List String) (x : String) (ys : List String)
    (n : Node K) :
    (weighted x ys n).binders around = n.binders around := by
  unfold weighted
  induction ys generalizing n with
  | nil => rfl
  | cons y ys ih => simp [ih, binders]

variable [Literal K]

theorem Folded.bare (hf : Folded n m) (hn : n.Bare) (h : ∀ k ∈ n.children, Everywhere Bare k) :
    Everywhere Bare m := by
  cases hf with
  | zero => exact bare_const _
  | left op a b => exact h _ (by simp [children])
  | right op a b => exact h _ (by simp [children])
  | negated op a b => exact ⟨trivial, by simp [children, h b (by simp [children])]⟩
  | self => exact ⟨hn, h⟩

theorem bare_normalize (h : Everywhere Bare n) : Everywhere Bare n.normalize := by
  rw [normalize, stripAbsorbed_of_bare h]
  exact h.transform (fun _ φ hn => hn.mapChildren φ) fun n => (folded_collapseZero n).bare

end Node

namespace Stmt

mutual

/-- The variables of all loops and sums in a statement. -/
def binders (around : List String) : Stmt K → List (List String × String)
  | .assign slot value => slot.binders around ++ value.binders around
  | .loop x lo hi body =>
    (around, x) :: (lo.binders around ++ hi.binders around ++ bindersAll (x :: around) body)

/-- The variables of all loops and sums in some statements. -/
def bindersAll (around : List String) : List (Stmt K) → List (List String × String)
  | [] => []
  | s :: rest => binders around s ++ bindersAll around rest

end

theorem mem_bindersAll {around : List String} {q : List String × String} {ss : List (Stmt K)} :
    q ∈ bindersAll around ss ↔ ∃ s ∈ ss, q ∈ s.binders around := by
  induction ss with
  | nil => simp [bindersAll]
  | cons s ss ih => simp [bindersAll, ih]

theorem bindersAll_append (around : List String) (ss ss' : List (Stmt K)) :
    bindersAll around (ss ++ ss') = bindersAll around ss ++ bindersAll around ss' := by
  induction ss with
  | nil => rfl
  | cons s ss ih => simp [bindersAll, ih]

/-- The variables of some assignments are those of their values, if the slots have none. -/
theorem exists_of_binders {around : List String} {slots values : List (Node K)}
    (hslots : ∀ s ∈ slots, s.binders around = []) {q : List String × String}
    (hq : q ∈ bindersAll around (.zipWith .assign slots values)) :
    ∃ v ∈ values, q ∈ v.binders around := by
  obtain ⟨s, hs, hq⟩ := mem_bindersAll.mp hq
  obtain ⟨i, hi, rfl⟩ := List.getElem_of_mem hs
  rw [List.getElem_zipWith, binders, hslots _ (List.getElem_mem _), List.nil_append] at hq
  exact ⟨_, List.getElem_mem _, hq⟩

end Stmt

/-- **The loops and sums of a procedure**, each variable behind those around it. -/
def Procedure.binders (p : Procedure K) : List (List String × String) := Stmt.bindersAll [] p.body

/-! ## Where the sums of a value come from -/

variable [Literal K]

/-- **Where a value comes from.**  It is put together from what the parts of the expression become,
of which some may have folded away.  Only a sum makes a sum: its variable is new, and its summand
has a factor for each index that it keeps away from, which compares the variable of the sum with the
one that this index has outside.  Only a condition makes any other comparison. -/
inductive Expr.Traces (c : LoweringContext K) : IndexScope → Expr K → Node K → Prop
  | bare {scope : IndexScope} {e : Expr K} {n : Node K} (h : n.Everywhere Node.Bare) :
      Traces c scope e n
  | part {scope : IndexScope} {e e' : Expr K} {n : Node K} (he : e' ∈ e.parts)
      (h : Traces c scope e' n) :
      Traces c scope e n
  | neg {scope : IndexScope} {e : Expr K} {n : Node K} (h : Traces c scope e n) :
      Traces c scope e (.neg n)
  | binary {scope : IndexScope} {e : Expr K} (op : BinaryOp) {a b : Node K}
      (ha : Traces c scope e a)
      (hb : Traces c scope e b) : Traces c scope e (.binary op a b)
  | call {scope : IndexScope} {e : Expr K} (func : String) {ns : List (Node K)}
      (h : ∀ n ∈ ns, Traces c scope e n) : Traces c scope e (.call func ns)
  /-- Factors of a summand may be missing only if there is nothing but a literal behind them. -/
  | sum {scope : IndexScope} {i : Index} {away : List Index} {body : Expr K} {x : String}
      {ys zs : List String} {n : Node K} (hx : x ∉ c.taken scope) (hys : scope.Names away ys)
      (hzs : zs = ys ∨ zs.Sublist ys ∧ ∃ v, n = .const v) (h : Traces c ((i, x) :: scope) body n) :
      Traces c scope (.sum i away body)
        (.sum x (c.params.boundNode i.lower) (c.params.boundNode i.upper) [] (.weighted x zs n))
  | distinct {scope : IndexScope} {i j : Index} {body : Expr K} {x y : String} {n : Node K}
      (hx : scope.lookup i = some x) (hy : scope.lookup j = some y) (h : Traces c scope body n) :
      Traces c scope (.distinct i j body) (.binary .mul (.indicator (.var x) (.var y)) n)

namespace Expr

variable {c : LoweringContext K} {scope : IndexScope} {e : Expr K} {n : Node K}

/-- **The variables of sums are new.** -/
theorem Traces.fresh (h : e.Traces c scope n) :
    ∀ q ∈ n.binders (scope.map (·.2)), q.2 ∉ q.1 ∧ q.2 ∉ c.reserved := by
  induction h with
  | bare h => simp [h]
  | part _ _ ih | neg _ ih => exact ih
  | binary op _ _ iha ihb =>
    simp only [Node.binders, List.mem_append]
    exact fun q hq => hq.elim (iha q) (ihb q)
  | call func _ ih =>
    simp only [Node.binders, Node.mem_bindersAll]
    rintro q ⟨n, hn, hq⟩
    exact ih n hn q hq
  | sum hx _ _ _ ih =>
    rw [LoweringContext.taken, List.mem_append, not_or] at hx
    have hbound (b : Bound) (around : List String) :
        (c.params.boundNode b : Node K).binders around = [] :=
      Node.binders_bare (Node.Plain.boundNode c.params b).bare
    simp only [Node.binders, Node.bindersExclusions, hbound, List.nil_append, Node.binders_weighted,
      List.forall_mem_cons]
    exact ⟨⟨hx.2, hx.1⟩, ih⟩
  | distinct _ _ _ ih => simpa [Node.binders] using ih

/-- One spelling for each name changes no variable. -/
theorem Traces.respell (h : e.Traces c scope n) : e.Traces c scope (n.transform Node.respell) := by
  induction h with
  | bare h => exact .bare (Node.bare_respell h)
  | part he _ ih => exact .part he ih
  | neg _ ih => exact .neg ih
  | binary op _ _ iha ihb => exact .binary op iha ihb
  | call func _ ih =>
    rw [Node.transform, Node.transformAll_eq]
    exact .call _ (List.forall_mem_map.mpr ih)
  | sum hx hys hzs _ ih =>
    rw [Node.transform, Stages.respell_boundNode, Stages.respell_boundNode, Node.respell_weighted]
    refine .sum hx hys (hzs.imp_right fun hconst => ⟨hconst.1, ?_⟩) ih
    obtain ⟨v, rfl⟩ := hconst.2
    exact ⟨v, rfl⟩
  | distinct hx hy _ ih => exact .distinct hx hy ih

theorem traces_folded {a b : Node K} {op : BinaryOp} (hf : Node.Folded (.binary op a b) n)
    (ha : e.Traces c scope a) (hb : e.Traces c scope b) : e.Traces c scope n := by
  cases hf with
  | zero => exact .bare (Node.bare_const _)
  | left => exact ha
  | right => exact hb
  | negated => exact .neg hb
  | self => exact .binary op ha hb

/-- The normal form of an operation. -/
theorem traces_binary {a b : Node K} (op : BinaryOp) (ha : e.Traces c scope a.normalize)
    (hb : e.Traces c scope b.normalize) : e.Traces c scope (Node.binary op a b).normalize :=
  traces_folded (Node.folded_collapseZero (.binary op a.normalize b.normalize)) ha hb

theorem traces_neg (h : e.Traces c scope n.normalize) :
    e.Traces c scope (Node.neg n).normalize := by
  have hneg : (Node.neg n).normalize
      = if n.normalize.isZero then .const Literal.zero else .neg n.normalize := rfl
  rw [hneg]
  split
  · exact .bare (Node.bare_const _)
  · exact .neg h

end Expr

namespace Node

theorem normalize_call (func : String) (ns : List (Node K)) :
    (call func ns).normalize = collapseZero (.call func (ns.map normalize)) := by
  simp only [normalize, nativeSums, absorbGuards, stripAbsorbed, collapseZeros, transform,
    transformAll_eq, nativeSum, absorbGuard, stripExclusions, List.map_map]
  rfl

/-- **Factors behind which nothing folds away**, or a literal behind some of them. -/
theorem collapseZeros_absorb_vars (x : String) (ys : List String) (n : Node K) :
    ∃ zs m, (absorb x (ys.map fun y => .mk (.var y) false) n).collapseZeros = weighted x zs m ∧
      (zs = ys ∧ m = n.collapseZeros ∨ zs.Sublist ys ∧ ∃ v, m = .const v) := by
  induction ys generalizing n with
  | nil => exact ⟨[], _, rfl, .inl ⟨rfl, rfl⟩⟩
  | cons y ys ih =>
    obtain ⟨zs, m, heq, hm⟩ := ih (.binary .mul (.indicator (.var x) (.var y)) n)
    have hfactor : (binary .mul (.indicator (.var x) (.var y)) n).collapseZeros =
        if n.collapseZeros.isZero then .const Literal.zero
        else .binary .mul (.indicator (.var x) (.var y)) n.collapseZeros := rfl
    rcases hm with ⟨rfl, rfl⟩ | ⟨hzs, hm⟩
    · rw [hfactor] at heq
      split at heq
      · exact ⟨_, _, heq, .inr ⟨List.sublist_cons_self _ _, _, rfl⟩⟩
      · exact ⟨y :: zs, _, heq, .inl ⟨rfl, rfl⟩⟩
    · exact ⟨zs, m, heq, .inr ⟨hzs.cons y, hm⟩⟩

end Node

namespace Expr

variable {c : LoweringContext K} {scope : IndexScope} {e : Expr K} {n : Node K}

theorem traces_call {func : String} {ns : List (Node K)}
    (h : ∀ n ∈ ns, e.Traces c scope n.normalize) :
    e.Traces c scope (Node.call func ns).normalize := by
  rw [Node.normalize_call]
  have hcall := Node.folded_collapseZero (.call func (ns.map Node.normalize))
  generalize Node.collapseZero (.call func (ns.map Node.normalize)) = m at hcall ⊢
  cases hcall with
  | zero => exact .bare (Node.bare_const _)
  | self => exact .call func (List.forall_mem_map.mpr h)

theorem traces_sum {i : Index} {away : List Index} {body : Expr K} {x : String} {ys : List String}
    (hx : x ∉ c.taken scope) (hys : scope.Names away ys)
    (h : body.Traces c ((i, x) :: scope) n.normalize) :
    (Expr.sum i away body).Traces c scope (Node.boundedSum x (c.params.boundNode i.lower)
      (c.params.boundNode i.upper) (ys.map .var) n).normalize := by
  rw [Node.normalize, Node.stripAbsorbed_boundedSum, Node.collapseZeros_sum]
  split
  · exact .bare (Node.bare_const _)
  · obtain ⟨zs, m, heq, hm⟩ :=
      Node.collapseZeros_absorb_vars x ys n.nativeSums.absorbGuards.stripAbsorbed
    rw [heq]
    rcases hm with ⟨rfl, rfl⟩ | ⟨hzs, v, rfl⟩
    · exact .sum hx hys (.inl rfl) h
    · exact .sum hx hys (.inr ⟨hzs, v, rfl⟩) (.bare (Node.bare_const v))

theorem traces_distinct {i j : Index} {body : Expr K} {x y : String} (hx : scope.lookup i = some x)
    (hy : scope.lookup j = some y) (h : body.Traces c scope n.normalize) :
    (Expr.distinct i j body).Traces c scope (Node.guarded (.var x) (.var y) n).normalize := by
  have hguarded : (Node.guarded (.var x) (.var y) n).normalize
      = if n.normalize.isZero then .const Literal.zero
        else .binary .mul (.indicator (.var x) (.var y)) n.normalize := rfl
  rw [hguarded]
  split
  · exact .bare (Node.bare_const _)
  · exact .distinct hx hy h

end Expr

/-- What symbols and families stand for has neither sums nor conditions in it. -/
structure LoweringContext.Bare (c : LoweringContext K) : Prop where
  names : ∀ q ∈ c.names, q.2.Everywhere Node.Bare
  rules : ∀ s rule, c.rules.resolve s = .access rule →
    ∀ xs : List String, (rule.location (xs.map .var)).Everywhere Node.Bare

namespace Expr

variable {c : LoweringContext K} {scope : IndexScope} {e : Expr K} {n : Node K}

theorem joinClosed_traces (e : Expr K) (scope : IndexScope) :
    JoinClosed fun n => e.Traces c scope n.normalize :=
  ⟨fun v => .bare (Node.bare_const v), traces_neg, fun op => traces_binary op⟩

theorem ruleClosed_traces (hc : c.Bare) :
    RuleClosed c fun scope e n => e.Traces c scope n.normalize where
  join scope e := joinClosed_traces e scope
  part := .part
  imaginaryUnit _ := .bare (Node.bare_normalize (Node.bare_leaf trivial rfl))
  symbol _ x := by
    refine .bare (Node.bare_normalize ?_)
    cases hx : c.names.lookup x with
    | none => exact Node.bare_leaf trivial rfl
    | some n => exact hc.names _ (mem_of_lookup hx)
  indexed hrule _ := .bare (Node.bare_normalize (hc.rules _ _ hrule _))
  unknown _ _ := .bare (Node.bare_const Literal.zero)
  index _ := .bare (Node.bare_normalize (Node.bare_leaf trivial rfl))
  call := traces_call
  sum := traces_sum
  distinct := traces_distinct

/-- **Every sum and every condition of a normal form comes from the expression.** -/
theorem traces_of_lowered (hc : c.Bare) (h : e.Lowered c scope n) : e.Traces c scope n.normalize :=
  (ruleClosed_traces hc).of_lowered h

end Expr

/-! ## Generated procedures -/

/-- Where the value of an equation comes from, its own index being a variable. -/
def Equation.Traces (c : LoweringContext K) (x : String) (e : Equation K) (n : Node K) : Prop :=
  e.rhs.Traces { c with equation := e.lhs } (e.lhs.indices.map (·, x)) n

/-- **A family is read at a plain place** of one of the two arrays. -/
theorem RuleSet.exists_location {s : Split K} {l : ParamLayout} {d : FamilyDecl K}
    (hd : d ∈ declarations (.ofSplit s l) l) (xs : List String) :
    ∃ b n, b ≠ .zero ∧ n.Plain ∧ d.rule.location (xs.map .var) = .access b n := by
  rcases List.mem_append.mp hd with hd | hd
  · obtain ⟨f, hf, rfl⟩ := List.mem_map.mp hd
    cases xs with
    | nil => exact ⟨.state, _, by decide, StateLayout.plain_start hf, rfl⟩
    | cons x xs => exact ⟨.state, _, by decide, StateLayout.plain_subscript hf x, rfl⟩
  · obtain ⟨f, hf, rfl⟩ := List.mem_map.mp hd
    exact ⟨.param, _, by decide, ParamFamily.plain_subscript (.const _) xs, rfl⟩

namespace Stages

variable {g : Stages K} {system : EquationSystem K} {params : List (Expr K)} {options : Options}
  {p : Procedure K} {e : Equation K} {n : Node K}

theorem Lead.bare_context (h : g.Lead system params options p) : (g.context options).Bare where
  names q hq := (scalar_of_scalarNodes h.names q hq).bare
  rules s rule hrule := by
    obtain ⟨d, hd, -, rfl⟩ := RuleSet.refers_of_resolve hrule
    intro xs
    obtain ⟨b, n, -, hn, hlocation⟩ := RuleSet.exists_location hd xs
    rw [hlocation]
    exact ⟨trivial, by simp [Node.children, hn.bare]⟩

/-- Without indices in the system there are none in what is lowered. -/
theorem Lead.hasIndexStructure (h : g.Lead system params options p)
    (hsystem : ∀ e ∈ system.equations, e.rhs.hasIndexStructure = false) :
    ∀ e ∈ g.equations, e.rhs.hasIndexStructure = false := by
  intro e he
  obtain ⟨e₀, he₀, -, hrhs⟩ := exists_of_forall₂ h.forall₂_equations.flip he
  rw [hrhs]
  exact hasIndexStructure_cleared (hsystem e₀ he₀)

/-- **Where the value of an equation comes from.** -/
theorem Lead.traces (h : g.Lead system params options p) (hneat : g.Neat system options)
    {c : LoweringContext K} (hc : c.Bare) (hnames : c.names = g.names) (he : e ∈ g.equations)
    (hn : e.LowersTo c g.var n) : e.Traces c g.var (g.final n) := by
  obtain ⟨_, _, hlower⟩ := hn
  have hlowered := Expr.lowered_of_lower _ _ hlower
  rw [final]
  rcases hneat.finish with hfinish | ⟨hfinish, hsystem⟩ <;> rw [hfinish]
  · have hbare : { c with equation := e.lhs : LoweringContext K }.Bare := ⟨hc.names, hc.rules⟩
    exact (Expr.traces_of_lowered hbare hlowered).respell
  · have hscalar : n.Scalar :=
      Expr.scalar_of_lowered (hnames ▸ scalar_of_scalarNodes h.names) hlowered
      (h.hasIndexStructure hsystem e he)
    exact .bare (Node.bare_respell hscalar.bare)

theorem Lead.traces_scalars (h : g.Lead system params options p) (hneat : g.Neat system options) :
    List.Forall₂ (fun e n => e.Traces (g.context options) g.var (g.final n)) g.split.scalars
      g.scalars :=
  ((List.forall₂_and_left _ _).mpr ⟨fun _ he => h.divides.mem_of_scalars he, h.scalars⟩).imp
    fun _ _ hen => h.traces hneat h.bare_context rfl hen.1 hen.2

theorem Lead.traces_families (h : g.Lead system params options p) (hneat : g.Neat system options) :
    List.Forall₂ (fun e n => e.Traces (g.familyContext options) g.var (g.final n))
      (g.split.families.map (·.1)) g.families := by
  have hmem : ∀ e ∈ g.split.families.map (·.1), e ∈ g.equations :=
    List.forall_mem_map.mpr fun _ hq => h.divides.mem_of_families hq
  refine ((List.forall₂_and_left _ _).mpr ⟨hmem, h.families⟩).imp fun _ _ hen => ?_
  exact h.traces hneat ⟨h.bare_context.names, h.bare_context.rules⟩ rfl hen.1 hen.2

end Stages

/-! ## Variables of a procedure -/

/-- The values of equations bring no variable of their own, apart from new ones. -/
theorem Equation.Traces.fresh {c : LoweringContext K} {x : String} {e : Equation K} {n : Node K}
    (h : e.Traces c x n) :
    ∀ q ∈ n.binders (e.lhs.indices.map fun _ => x), q.2 ∉ q.1 ∧ q.2 ∉ c.reserved := by
  have hfresh := Expr.Traces.fresh h
  rwa [List.map_map] at hfresh

namespace Stages

variable {g : Stages K} {system : EquationSystem K} {params : List (Expr K)} {options : Options}
  {p : Procedure K}

/-- The values of scalar equations stand under no variable. -/
theorem Lead.fresh_scalars (h : g.Lead system params options p) (hneat : g.Neat system options) :
    ∀ v ∈ g.scalars.map g.final, ∀ q ∈ v.binders [], q.2 ∉ q.1 ∧ q.2 ∉ options.naming.reserved := by
  refine List.forall_mem_map.mpr fun n hn => ?_
  have htraces :=
    (List.forall₂_and_left _ _).mpr ⟨h.divides.indices_scalars, h.traces_scalars hneat⟩
  obtain ⟨e, -, he, htraces⟩ := exists_of_forall₂ htraces.flip hn
  have hfresh := htraces.fresh
  rwa [he] at hfresh

/-- The values of families stand under the variable of the loop. -/
theorem Lead.fresh_families (h : g.Lead system params options p) (hneat : g.Neat system options) :
    ∀ v ∈ g.families.map g.final, ∀ q ∈ v.binders [g.var],
      q.2 ∉ q.1 ∧ q.2 ∉ options.naming.reserved := by
  refine List.forall_mem_map.mpr fun n hn q hq => ?_
  have hown : ∀ e ∈ g.split.families.map (·.1), ∃ i, e.lhs.indices = [i] :=
    List.forall_mem_map.mpr fun f hf => ⟨f.2, h.divides.own f hf⟩
  have htraces := (List.forall₂_and_left _ _).mpr ⟨hown, h.traces_families hneat⟩
  obtain ⟨e, -, ⟨i, he⟩, htraces⟩ := exists_of_forall₂ htraces.flip hn
  have hfresh := htraces.fresh
  rw [he] at hfresh
  exact ⟨(hfresh q hq).1, fun hmem => (hfresh q hq).2 (List.mem_cons_of_mem _ hmem)⟩

/-- The variable of the loop is no argument. -/
theorem Lead.fresh_loop (h : g.Lead system params options p) (hneat : g.Neat system options) :
    ∀ q ∈ Stmt.bindersAll [] (loopOver g.layout g.var g.states.families (g.families.map g.final)),
      q.2 ∉ q.1 ∧ q.2 ∉ options.naming.reserved := by
  have hslots : ∀ s ∈ g.states.families.map (·.slot g.layout (.var g.var)),
      s.binders [g.var] = [] :=
    List.forall_mem_map.mpr fun f hf => Node.binders_bare (StateLayout.plain_slot hf g.var).bare
  have hbound (b : Bound) : (g.layout.boundNode b : Node K).binders [] = [] :=
    Node.binders_bare (Node.Plain.boundNode g.layout b).bare
  unfold loopOver
  split
  · exact List.forall_mem_nil _
  · next f fs hfs =>
    have hne : g.split.families ≠ [] := by
      rw [← List.length_pos_iff, ← length_states, hfs]
      exact Nat.succ_pos _
    simp only [Stmt.bindersAll, Stmt.binders, hbound, List.nil_append, List.append_nil,
      List.forall_mem_cons]
    refine ⟨⟨List.not_mem_nil, hneat.var hne⟩, fun q hq => ?_⟩
    obtain ⟨v, hv, hq⟩ := Stmt.exists_of_binders hslots hq
    exact h.fresh_families hneat v hv q hq

/-- **Every loop and every sum has a variable of its own.** -/
theorem Lead.fresh_body (h : g.Lead system params options p) (hneat : g.Neat system options) :
    ∀ q ∈ p.binders, q.2 ∉ q.1 ∧ q.2 ∉ options.naming.reserved := by
  have hslots : ∀ s ∈ (slotsFrom 0 g.split.scalars.length : List (Node K)), s.binders [] = [] :=
    List.forall_mem_map.mpr fun _ _ => rfl
  rw [Procedure.binders, h.body_eq, Stmt.bindersAll_append, List.forall_mem_append]
  refine ⟨fun q hq => ?_, h.fresh_loop hneat⟩
  obtain ⟨v, hv, hq⟩ := Stmt.exists_of_binders hslots hq
  exact h.fresh_scalars hneat v hv q hq

end Stages

namespace EquationSystem

/-- **Variables are hygienic.**  The variable of every loop and of every sum differs from those
around it and from all arguments, and the values of a procedure trace back to the right-hand sides,
so that what a sum keeps away from is the variable that the excluded index has outside. -/
theorem hygienic_of_generate {system : EquationSystem K} {params : List (Expr K)}
    {options : Options} {p : Procedure K} (h : system.generate params options = .ok p) :
    (∀ q ∈ p.binders, q.2 ∉ q.1 ∧ q.2 ∉ p.naming.reserved) ∧
    ∃ g : Stages K, g.Lead system params options p ∧
      p.body = .zipWith .assign (slotsFrom 0 g.split.scalars.length) (g.scalars.map g.final) ++
        loopOver g.layout g.var g.states.families (g.families.map g.final) ∧
      List.Forall₂ (fun e n => e.Traces (g.context options) g.var (g.final n)) g.split.scalars
        g.scalars ∧
      List.Forall₂ (fun e n => e.Traces (g.familyContext options) g.var (g.final n))
        (g.split.families.map (·.1)) g.families := by
  obtain ⟨g, hlead, hneat⟩ := generate_neatStages h
  have hnaming : p.naming = options.naming := by rw [hlead.procedure]
  rw [hnaming]
  exact ⟨hlead.fresh_body hneat, g, hlead, hlead.body_eq, hlead.traces_scalars hneat,
    hlead.traces_families hneat⟩

/-- A sum and the family it stands in with one label for two ranges, which is the name of an
argument too. -/
def clashing : EquationSystem ℚ :=
  ⟨[.of (.indexed ⟨"n", [twoSites "i"]⟩)
    (.sum ⟨"i", .literal 1, .literal 3⟩ [twoSites "i"] (.indexed ⟨"n", [twoSites "i"]⟩))], none⟩

theorem hygienic_of_generate_clashing :
    ∃ p, clashing.generate [] { stateToken := "i", paramToken := "i_1" } = .ok p ∧
      p.binders = [([], "i_2"), (["i_2"], "i_3")] ∧
      ∀ q ∈ p.binders, q.2 ∉ q.1 ∧ q.2 ∉ p.naming.reserved := by
  obtain ⟨p, hp, hbinders⟩ : ∃ p,
      clashing.generate [] { stateToken := "i", paramToken := "i_1" } = .ok p ∧
        p.binders = [([], "i_2"), (["i_2"], "i_3")] := ⟨_, rfl, rfl⟩
  exact ⟨p, hp, hbinders, (hygienic_of_generate hp).1⟩

end EquationSystem

end Fluxion
