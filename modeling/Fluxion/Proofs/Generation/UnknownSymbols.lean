import Fluxion.Proofs.Expressions.Folding
import Fluxion.Proofs.Generation.Hygiene
import Fluxion.Proofs.Generation.ScalarSystems

/-!
# Proofs/Generation/UnknownSymbols — every symbol is resolved, or there is no procedure

A symbol of a right-hand side that nothing declares is reported, unless it is to be read as zero.
What comes out has no trace of it in either case:

    undeclared scalar    ──▸   reported, by first occurrence, before anything else is looked at
    undeclared family    ──▸   reported once it is lowered
    read as zero         ──▸   substituted (scalars) or folded away in the normal form (families)

A lowered value may still mention the imaginary unit by name and the places at which the zero array
is read (`Node.Spelled`); the passes keep it so, the last one removes those reads, and respelling
turns the one name that is left into the unit itself.
-/

namespace Fluxion

variable {K : Type}

/-! ## Lists by first occurrence -/

section Firsts

variable {α β : Type} [DecidableEq β]

theorem firsts_filter (P : β → Bool) (l : List β) : firsts (l.filter P) = (firsts l).filter P := by
  induction l with
  | nil => rfl
  | cons b l ih =>
    rw [List.filter_cons, firsts, List.filter_cons]
    split
    · rw [firsts, ih, List.filter_filter, List.filter_filter]
      simp only [Bool.and_comm]
    · next hb =>
      rw [ih, List.filter_filter]
      refine List.filter_congr fun a _ => ?_
      by_cases hab : a = b
      · simp [hab, hb]
      · simp [hab]

theorem firsts_append (l l' : List β) : firsts (l ++ l') = firsts l ++ (firsts l').filter
    (· ∉ l) := by
  induction l with
  | nil => simp [firsts]
  | cons b l ih =>
    rw [List.cons_append, firsts, ih, firsts, List.filter_append, List.filter_filter,
      List.cons_append]
    simp [List.mem_cons, not_or]

theorem firsts_of_nodup {l : List β} (h : l.Nodup) : firsts l = l := by
  induction l with
  | nil => rfl
  | cons b l ih =>
    obtain ⟨hb, h⟩ := List.nodup_cons.mp h
    have hne : ∀ a ∈ l, decide (a ≠ b) = true :=
      fun a ha => decide_eq_true fun hab => hb (hab ▸ ha)
    rw [firsts, ih h, List.filter_eq_self.mpr hne]

/-- First occurrences in parts, taken together. -/
theorem firsts_flatMap_firsts (f : α → List β) (l : List α) :
    firsts (l.flatMap fun a => firsts (f a)) = firsts (l.flatMap f) := by
  induction l with
  | nil => rfl
  | cons a l ih =>
    rw [List.flatMap_cons, List.flatMap_cons, firsts_append, firsts_append, ih,
      firsts_of_nodup (nodup_firsts _)]
    simp only [mem_firsts]

/-- **First occurrences stand in their order.** -/
theorem pairwise_firsts (l : List β) : (firsts l).Pairwise fun a b => l.idxOf a < l.idxOf b := by
  induction l with
  | nil => exact .nil
  | cons c l ih =>
    have hne : ∀ a ∈ (firsts l).filter (· ≠ c), c ≠ a := fun a ha =>
      (of_decide_eq_true (List.mem_filter.mp ha).2).symm
    refine List.pairwise_cons.mpr ⟨fun a ha => ?_, (ih.filter _).imp_of_mem fun ha hb hab => ?_⟩
    · rw [List.idxOf_cons_self, List.idxOf_cons_ne _ (hne a ha)]
      exact Nat.succ_pos _
    · rw [List.idxOf_cons_ne _ (hne _ ha), List.idxOf_cons_ne _ (hne _ hb)]
      exact Nat.succ_lt_succ hab

end Firsts

/-! ## What is reported -/

namespace EquationSystem

variable {system : EquationSystem K} {params : List (Expr K)}

/-- Every free occurrence on the right-hand sides, in order. -/
def occurrences (system : EquationSystem K) : List FreeSymbol :=
  system.rhss.flatMap (Expr.occurrences [])

/-- **The scalars that nothing declares**, each once and in the order of their first occurrence. -/
structure Reports (system : EquationSystem K) (params : List (Expr K)) (missing : List FreeSymbol) :
    Prop where
  mem_iff : ∀ s, s ∈ missing ↔ ∃ name, s = .scalar name ∧
    (∃ e ∈ system.equations, .scalar name ∈ e.rhs.freeSymbols) ∧ ¬system.DeclaresScalar params name
  nodup : missing.Nodup
  order : missing.Pairwise fun s t => system.occurrences.idxOf s < system.occurrences.idxOf t

/-- What is missing is what is left of the occurrences once declared symbols are dropped. -/
theorem missingIndexed_eq (rhs lhs params : List (Expr K)) :
    missingIndexed rhs lhs params = (firsts (rhs.flatMap (Expr.occurrences []))).filter fun s =>
      !s.isIndexLike && decide (s ∉ (lhs ++ params).flatMap Expr.freeSymbols) := by
  have hfirsts : firsts (rhs.flatMap Expr.freeSymbols) =
      firsts (rhs.flatMap (Expr.occurrences [])) :=
    firsts_flatMap_firsts (Expr.occurrences []) rhs
  rw [missingIndexed, missingAmong, firsts_filter, List.filter_filter, hfirsts]

theorem reports_missingIndexed (hparams : Declares params) :
    system.Reports params
      (missingIndexed system.rhss system.targets (params ++ timeExpr system.time)) where
  mem_iff s := by
    rw [mem_missingIndexed]
    constructor
    · rintro ⟨⟨_, hmem, hs⟩, hknown, name, rfl⟩
      obtain ⟨e, he, rfl⟩ := List.mem_map.mp hmem
      rw [scalar_mem_flatMap (declares_all hparams), symbol_mem_iff] at hknown
      exact ⟨name, rfl, ⟨e, he, hs⟩, hknown⟩
    · rintro ⟨name, rfl, ⟨e, he, hs⟩, hknown⟩
      rw [scalar_mem_flatMap (declares_all hparams), symbol_mem_iff]
      exact ⟨⟨_, List.mem_map_of_mem he, hs⟩, hknown, name, rfl⟩
  nodup := by
    rw [missingIndexed_eq]
    exact (nodup_firsts _).filter _
  order := by
    rw [missingIndexed_eq]
    exact (pairwise_firsts _).filter _

theorem ensureComplete_of_missing {missing : List FreeSymbol} (hmissing : missing ≠ []) :
    ensureComplete missing false = (.error (.missingSymbols missing) : Except (Error K) Unit) := by
  rw [ensureComplete, if_neg]
  simpa using hmissing

/-- **Missing symbols are reported before anything else is looked at**, by both generators. -/
theorem generate_of_missing [Literal K] {options : Options}
    (hflat : system.isIndexed = false → system.Scalar) (hfill : options.unknownsZero = false)
    (hmissing : missingIndexed system.rhss system.targets (params ++ timeExpr system.time) ≠ []) :
    system.generate params options = .error (.missingSymbols
      (missingIndexed system.rhss system.targets (params ++ timeExpr system.time))) := by
  have hcomplete := ensureComplete_of_missing (K := K) hmissing
  unfold generate
  split
  · next hscalar =>
    -- the states are looked at first here, but there is nothing wrong with them
    rw [Bool.and_eq_true, Bool.not_eq_true'] at hscalar
    have hlength : system.rhss.length = system.targets.length := by simp [rhss, targets]
    rw [generateFlat, if_neg (not_not.mpr hlength), bind_of_ok (hflat hscalar.1).flatStates_eq,
      (hflat hscalar.1).missing_eq hscalar.2, hfill]
    exact congrArg (· >>= _) hcomplete
  · rw [generateIndexed, hfill]
    exact congrArg (· >>= _) hcomplete

end EquationSystem

/-! ## Resolved nodes -/

namespace Node

variable {n : Node K} {f : Node K → Node K}

/-- **Nothing is left to resolve at the node itself**: it is no name, and does not read the zero
array. -/
def Resolved : Node K → Prop
  | .named _ | .access .zero _ => False
  | _ => True

/-- A name at the node itself is that of the imaginary unit. -/
def UnitName : Node K → Prop
  | .named x => x = imaginaryName
  | _ => True

/-- **Only the imaginary unit is left by name**, apart from where the zero array is read. -/
inductive Spelled : Node K → Prop
  | zero (i : Node K) : Spelled (.access .zero i)
  | intro {n : Node K} (self : n.UnitName) (inside : ∀ m ∈ n.children, Spelled m) : Spelled n

theorem UnitName.mapChildren (h : n.UnitName) (φ : Node K → Node K) :
    (n.mapChildren φ).UnitName := by
  cases n <;> exact h

theorem Everywhere.spelled (h : Everywhere Resolved n) : n.Spelled := by
  induction h with
  | @intro n self _ ih =>
    refine .intro ?_ ih
    cases n with
    | named x => cases self
    | _ => trivial

theorem resolved_const (v : K) : Everywhere Resolved (.const v) := ⟨trivial, by simp [children]⟩

theorem Plain.resolved (h : n.Plain) : Everywhere Resolved n := h.everywhere fun n hn => by
  cases hn <;> trivial

theorem Plain.resolved_access (h : n.Plain) {b : Buffer} (hb : b ≠ .zero) :
    Everywhere Resolved (.access b n) := by
  refine ⟨?_, by simp [children, h.resolved]⟩
  cases b with
  | zero => exact absurd rfl hb
  | state | param => trivial

/-! ## Passes -/

namespace Spelled

theorem transform (hzero : ∀ i, (f (.access .zero i)).Spelled)
    (hf : ∀ n, n.UnitName → (∀ m ∈ n.children, m.Spelled) → (f n).Spelled) (h : n.Spelled) :
    (n.transform f).Spelled := by
  induction h with
  | zero i => exact hzero _
  | @intro n self _ ih =>
    rw [transform_eq_mapChildren]
    refine hf _ (self.mapChildren _) ?_
    rw [children_mapChildren]
    exact List.forall_mem_map.mpr ih

theorem const (v : K) : (Node.const v).Spelled := (resolved_const v).spelled

theorem neg (h : n.Spelled) : (Node.neg n).Spelled := .intro trivial (by simp [children, h])

theorem binary (op : BinaryOp) {a b : Node K} (ha : a.Spelled) (hb : b.Spelled) :
    (Node.binary op a b).Spelled := .intro trivial (by simp [children, ha, hb])

end Spelled

theorem built_spelled : Built (Spelled (K := K)) where
  var x := .intro trivial (by simp [children])
  indicator hl hr := .intro trivial (by simp [children, hl, hr])
  mul := .binary .mul
  sum hlo hhi hbody := .intro trivial (by simp [children, hlo, hhi, hbody])

theorem Folded.spelled [Literal K] {m : Node K} (hf : Folded n m) (hn : n.UnitName)
    (h : ∀ k ∈ n.children, k.Spelled) : m.Spelled := by
  cases hf with
  | zero => exact .const _
  | left op a b => exact h _ (by simp [children])
  | right op a b => exact h _ (by simp [children])
  | negated op a b => exact (h b (by simp [children])).neg
  | self => exact .intro hn h

/-- **The normal form brings in no name.** -/
theorem Spelled.normalize [Literal K] (h : n.Spelled) : n.normalize.Spelled := by
  have hstripped : n.nativeSums.absorbGuards.stripAbsorbed.Spelled := by
    rw [stripAbsorbed_absorbGuards_nativeSums]
    exact h.transform .zero fun n hn hchildren =>
      built_spelled.strip (fun _ => .intro hn hchildren) hchildren
  exact hstripped.transform (fun _ => .const _) fun n => (folded_collapseZero n).spelled

/-- Where the zero array is not read, a name is that of the imaginary unit. -/
theorem Spelled.everywhere (h : n.Spelled) (hsettled : Everywhere Settled n) :
    Everywhere (fun n => n.Settled ∧ n.UnitName) n := by
  induction h with
  | zero i =>
    obtain ⟨hzero, -⟩ := hsettled
    cases hzero
  | intro self _ ih =>
    obtain ⟨hself, hinside⟩ := hsettled
    exact ⟨⟨hself, self⟩, fun m hm => ih m hm (hinside m hm)⟩

/-- **Respelling resolves what is left.** -/
theorem Spelled.respell (h : n.Spelled) (hsettled : Everywhere Settled n) :
    Everywhere Resolved (n.transform respell) := by
  refine (h.everywhere hsettled).transform (fun _ φ hn =>
    ⟨hn.1.mapChildren φ, hn.2.mapChildren φ⟩) ?_
  rintro n ⟨hn, hname⟩ hchildren
  cases n with
  | named x =>
    obtain rfl : x = imaginaryName := hname
    exact ⟨trivial, by simp [Node.respell, children]⟩
  | access b i =>
    refine ⟨?_, hchildren⟩
    cases b with
    | zero => cases hn
    | state | param => trivial
  | _ => exact ⟨trivial, hchildren⟩

end Node

/-! ## Nodes of a procedure -/

section Nodes

variable {Q : Node K → Prop} {slots values : List (Node K)}

theorem Stmt.forall_assigns (hslots : ∀ n ∈ slots, n.Everywhere Q)
    (hvalues : ∀ n ∈ values, n.Everywhere Q) :
    ∀ m ∈ subnodesAll (.zipWith .assign slots values), Q m := by
  intro m hm
  obtain ⟨s, hs, hm⟩ := mem_subnodesAll.mp hm
  obtain ⟨i, hi, rfl⟩ := List.getElem_of_mem hs
  rw [List.getElem_zipWith, subnodes] at hm
  rcases List.mem_append.mp hm with hm | hm
  · exact Node.everywhere_iff.mp (hslots _ (List.getElem_mem _)) m hm
  · exact Node.everywhere_iff.mp (hvalues _ (List.getElem_mem _)) m hm

/-- The nodes of a layout entry. -/
def LayoutEntry.nodes : LayoutEntry K → List (Node K)
  | .scalar _ _ => []
  | .family _ start size => start.subnodes ++ size.subnodes

/-- **Every node of a procedure**, in its body and in its layouts. -/
def Procedure.allNodes (p : Procedure K) : List (Node K) :=
  p.nodes ++ (p.states ++ p.params).flatMap LayoutEntry.nodes

theorem LayoutEntry.forall_nodes {name : String} {start size : Node K} (hstart : start.Everywhere Q)
    (hsize : size.Everywhere Q) : ∀ m ∈ (LayoutEntry.family name start size).nodes, Q m :=
  List.forall_mem_append.mpr ⟨Node.everywhere_iff.mp hstart, Node.everywhere_iff.mp hsize⟩

end Nodes

/-! ## Known symbols -/

/-- The scalar symbols of an expression stand for something. -/
def Expr.Known (c : LoweringContext K) (e : Expr K) : Prop :=
  ∀ x, Within (.symbol x) e → ∃ n, c.names.lookup x = some n

theorem Expr.Known.child {c : LoweringContext K} {e t : Expr K} (h : e.Known c)
    (ht : t ∈ e.children) :
    t.Known c := fun x hx => h x (.child ht hx)

variable [Literal K]

/-- What symbols and families stand for is resolved. -/
structure LoweringContext.Resolves (c : LoweringContext K) : Prop where
  names : ∀ q ∈ c.names, q.2.Everywhere Node.Resolved
  rules : ∀ s rule, c.rules.resolve s = .access rule →
    ∀ xs : List String, (rule.location (xs.map .var)).Everywhere Node.Resolved

/-! ## Lowering -/

namespace Expr

variable {c : LoweringContext K} {scope : IndexScope} {d e t : Expr K} {n : Node K}

/-- Each term is lowered. -/
theorem LoweredTerms.exists_lowered : ∀ {es : List (Expr K)} {acc : Option (Node K)} {n : Node K},
    LoweredTerms c scope acc es n → ∀ t ∈ es, ∃ m, t.Lowered c scope m
  | _, _, _, .nil _ => List.forall_mem_nil _
  | _, _, _, .plus he hr => List.forall_mem_cons.mpr ⟨⟨_, he⟩, hr.exists_lowered⟩
  | _, _, _, .minus he hr => List.forall_mem_cons.mpr ⟨⟨_, .neg he⟩, hr.exists_lowered⟩

/-- Each factor is lowered. -/
theorem LoweredFactors.exists_lowered : ∀ {es : List (Expr K)} {acc : Option (Node K)} {n : Node K},
    LoweredFactors c scope acc es n → ∀ t ∈ es, ∃ m, t.Lowered c scope m
  | _, _, _, .nil _ => List.forall_mem_nil _
  | _, _, _, .times he hr => List.forall_mem_cons.mpr ⟨⟨_, he⟩, hr.exists_lowered⟩
  | _, _, _, .divided he _ hr =>
    List.forall_mem_cons.mpr ⟨⟨_, .pow he (.number _)⟩, hr.exists_lowered⟩

/-- Each argument is lowered. -/
theorem LoweredAll.exists_lowered : ∀ {es : List (Expr K)} {ns : List (Node K)},
    LoweredAll c scope es ns → ∀ t ∈ es, ∃ m, t.Lowered c scope m
  | _, _, .nil => List.forall_mem_nil _
  | _, _, .cons he hr => List.forall_mem_cons.mpr ⟨⟨_, he⟩, hr.exists_lowered⟩

theorem Lowered.child (h : e.Lowered c scope n) (ht : t ∈ e.children) :
    ∃ scope' m, t.Lowered c scope' m := by
  cases h with
  | add h => exact ⟨scope, h.exists_lowered t ht⟩
  | mul h => exact ⟨scope, h.exists_lowered t ht⟩
  | call h => exact ⟨scope, h.exists_lowered t ht⟩
  | pow hb he =>
    rcases List.mem_pair.mp ht with rfl | rfl
    exacts [⟨scope, _, hb⟩, ⟨scope, _, he⟩]
  | neg h | distinct _ _ h => exact ⟨scope, _, List.mem_singleton.mp ht ▸ h⟩
  | sum _ _ h => exact ⟨_, _, List.mem_singleton.mp ht ▸ h⟩
  | _ => cases ht

/-- **Whatever stands in a lowered expression is lowered**, in a scope of its own. -/
theorem Lowered.within (h : e.Lowered c scope n) (hd : Within d e) :
    ∃ scope' m, d.Lowered c scope' m := by
  induction hd generalizing scope n with
  | self => exact ⟨scope, n, h⟩
  | child ht _ ih =>
    obtain ⟨scope', m, ht⟩ := h.child ht
    exact ih ht

/-- **An indexed symbol that is lowered refers to something**, or is read as zero. -/
theorem Lowered.resolve_ne_unknown {s : Indexed} (h : e.Lowered c scope n)
    (hs : Within (.indexed s) e) (hfill : c.zeroFill = false) : c.rules.resolve s ≠ .unknown := by
  obtain ⟨scope', m, hm⟩ := h.within hs
  cases hm with
  | indexed hrule => simp [hrule]
  | unknown _ _ hzero =>
    rw [hfill] at hzero
    cases hzero

theorem ruleClosed_spelled (hc : c.Resolves) : RuleClosed c fun _ e n => e.Known c → n.Spelled where
  join _ _ := ⟨fun v _ => .const v, fun h he => (h he).neg, fun op _ _ ha hb he =>
    .binary op (ha he) (hb he)⟩
  part ht h he := h (he.child (mem_children_of_mem_parts ht))
  imaginaryUnit _ _ := .intro rfl (List.forall_mem_nil _)
  symbol _ x he := by
    obtain ⟨n, hn⟩ := he x .self
    rw [hn]
    exact (hc.names _ (mem_of_lookup hn)).spelled
  indexed hrule _ _ := (hc.rules _ _ hrule _).spelled
  unknown _ n _ := .zero n
  index _ _ := Node.built_spelled.var _
  call h he := .intro trivial fun n hn => h n hn he
  sum _ _ h he := by
    have hbody := h (he.child (by simp [children]))
    have hbound (b : Bound) : (c.params.boundNode b : Node K).Spelled :=
      (Node.Plain.boundNode c.params b).resolved.spelled
    exact .intro trivial (by simp [Node.children, hbound, hbody, Node.built_spelled.var])
  distinct _ _ h he := by
    have hbody := h (he.child (by simp [children]))
    exact .intro trivial (by simp [Node.children, hbody, Node.built_spelled.var])

/-- **Known symbols are not left by name.** -/
theorem spelled_of_lowered (hc : c.Resolves) (h : e.Lowered c scope n) (he : e.Known c) :
    n.Spelled := (ruleClosed_spelled hc).of_lowered h he

end Expr

/-! ## Generated procedures -/

/-- What scalar symbols stand for is resolved. -/
theorem resolved_of_scalarNodes {states : StateLayout K} {layout : ParamLayout}
    {time : Option String} {names : List (String × Node K)}
    (h : scalarNodes states layout time = .ok names) :
    ∀ q ∈ names, q.2.Everywhere Node.Resolved := by
  obtain ⟨-, rfl⟩ := scalarNodes_eq_ok h
  simp only [List.mem_append, List.mem_map]
  rintro _ ((⟨x, -, rfl⟩ | ⟨q, -, rfl⟩) | ⟨q, -, rfl⟩)
  · exact ⟨trivial, by simp [Node.children]⟩
  · exact (Node.Plain.const _).resolved_access (b := .param) (by decide)
  · exact (Node.Plain.const _).resolved_access (b := .state) (by decide)

/-- A symbol that is left once missing ones are set to zero. -/
theorem Expr.within_cleared {missing : List FreeSymbol} {x : String} {e : Expr K}
    (h : Within (.symbol x) (e.cleared missing)) : Within (.symbol x) e ∧ .scalar x ∉ missing := by
  rw [cleared] at h
  split at h
  · next hempty => exact ⟨h, by simp [List.isEmpty_iff.mp hempty]⟩
  · exact within_eliminate h

namespace Stages

variable {g : Stages K} {system : EquationSystem K} {params : List (Expr K)} {options : Options}
  {p : Procedure K} {c : LoweringContext K} {e : Equation K} {n : Node K}

theorem Lead.resolves (h : g.Lead system params options p) (hc : g.Hosts options c) :
    c.Resolves where
  names := hc.names ▸ resolved_of_scalarNodes h.names
  rules s rule hrule xs := by
    rw [hc.rules] at hrule
    obtain ⟨d, hd, -, rfl⟩ := RuleSet.refers_of_resolve hrule
    obtain ⟨b, n, hb, hn, hlocation⟩ := RuleSet.exists_location hd xs
    rw [hlocation]
    exact hn.resolved_access hb

/-- **Every declared scalar stands for something.** -/
theorem Lead.exists_lookup (h : g.Lead system params options p) {x : String}
    (hx : system.DeclaresScalar params x) : ∃ n, g.names.lookup x = some n := by
  refine exists_lookup_of_mem ?_
  simp only [(scalarNodes_eq_ok h.names).2, List.map_append, List.map_map, List.mem_append,
    List.mem_map]
  rcases hx with hstate | hparam | htime
  · obtain ⟨k, e, hk, he⟩ := h.exists_scalar rfl hstate
    exact .inr ⟨_, mem_scalars hk, congrArg Target.state he⟩
  · rcases h.places.placed _ hparam with ⟨y, k, hy, hmem⟩ | ⟨f, -, hf⟩
    · exact .inl (.inr ⟨_, hmem, (Expr.symbol.inj hy).symm⟩)
    · cases hf
  · exact .inl (.inl ⟨x, by simp [htime], rfl⟩)

/-- **What is lowered has only symbols that stand for something.** -/
theorem Lead.known (h : g.Lead system params options p) (hc : g.Hosts options c)
    (he : e ∈ g.equations) :
    e.rhs.Known c := by
  intro x hx
  obtain ⟨e₀, he₀, -, hrhs⟩ := exists_of_forall₂ h.forall₂_equations.flip he
  rw [hrhs] at hx
  obtain ⟨hx, hmissing⟩ := Expr.within_cleared hx
  have hfree : .scalar x ∈ e₀.rhs.freeSymbols :=
    mem_freeSymbols.mpr ((Expr.mem_occurrences rfl).mpr hx)
  exact hc.names ▸ h.exists_lookup (h.missing.covered e₀ he₀ x hfree hmissing)

/-- **The value of an equation is resolved.** -/
theorem Lead.resolved_final (h : g.Lead system params options p) (hneat : g.Neat system options)
    (hc : g.Hosts options c) (he : e ∈ g.equations) (hn : e.LowersTo c g.var n) :
    (g.final n).Everywhere Node.Resolved := by
  obtain ⟨_, _, hlower⟩ := hn
  have hlowered := Expr.lowered_of_lower _ _ hlower
  have hhosts : g.Hosts options { c with equation := e.lhs } :=
    ⟨hc.names, hc.rules, hc.params, hc.zeroFill⟩
  have hspelled : n.Spelled :=
    Expr.spelled_of_lowered (h.resolves hhosts) hlowered (h.known hhosts he)
  rw [final]
  rcases hneat.finish with hfinish | ⟨hfinish, hsystem⟩ <;> rw [hfinish]
  · exact hspelled.normalize.respell (Node.settled_normalize n)
  · have hscalar : n.Scalar := Expr.scalar_of_lowered
      (c := { c with equation := e.lhs }) (hc.names ▸ scalar_of_scalarNodes h.names) hlowered
      (h.hasIndexStructure hsystem e he)
    exact hspelled.respell hscalar.settled

/-- **Every equation is lowered**, and every value comes from one. -/
theorem Lead.forall₂_lowersTo (h : g.Lead system params options p) :
    List.Forall₂ (fun e n => ∃ c, g.Hosts options c ∧ e.LowersTo c g.var n)
      (g.split.scalars ++ g.split.families.map (·.1)) (g.scalars ++ g.families) := by
  refine List.rel_append (h.scalars.imp fun e n hn => ?_) (h.families.imp fun e n hn => ?_)
  · exact ⟨_, hosts_context g options, hn⟩
  · exact ⟨_, ⟨rfl, rfl, rfl, rfl⟩, hn⟩

theorem Lead.resolved_values (h : g.Lead system params options p) (hneat : g.Neat system options) :
    ∀ v ∈ (g.scalars ++ g.families).map g.final, v.Everywhere Node.Resolved := by
  refine List.forall_mem_map.mpr fun n hn => ?_
  obtain ⟨e, he, c, hc, hlowers⟩ := exists_of_forall₂ h.forall₂_lowersTo.flip hn
  exact h.resolved_final hneat hc (h.divides.mem_iff.mp he) hlowers

end Stages

/-! ## The nodes of a generated procedure -/

theorem Stmt.forall_loopOver {Q : Node K → Prop} {values : List (Node K)} {layout : ParamLayout}
    {x : String} {fs : List (StateFamily K)}
    (hbound : ∀ b, (layout.boundNode b : Node K).Everywhere Q)
    (hslots : ∀ f ∈ fs, (f.slot layout (.var x)).Everywhere Q)
    (hvalues : ∀ n ∈ values, n.Everywhere Q) :
    ∀ m ∈ subnodesAll (loopOver layout x fs values), Q m := by
  unfold loopOver
  split
  · exact List.forall_mem_nil _
  · rw [subnodesAll, subnodes, subnodesAll, List.append_nil, List.forall_mem_append,
      List.forall_mem_append]
    refine ⟨⟨?_, ?_⟩, forall_assigns (List.forall_mem_map.mpr hslots) hvalues⟩
    · exact Node.everywhere_iff.mp (hbound _)
    · exact Node.everywhere_iff.mp (hbound _)

theorem StateLayout.resolved_entries (s : Split K) (l : ParamLayout) :
    ∀ e ∈ (StateLayout.ofSplit s l).entries, ∀ m ∈ e.nodes, m.Resolved := by
  refine List.forall_mem_append.mpr ⟨List.forall_mem_map.mpr fun _ _ => List.forall_mem_nil _, ?_⟩
  refine List.forall_mem_map.mpr fun f hf => LayoutEntry.forall_nodes ?_ ?_
  · exact (plain_start hf).resolved
  · exact (plain_size hf).resolved

theorem ParamLayout.resolved_entries (l : ParamLayout) :
    ∀ e ∈ (l.entries : List (LayoutEntry K)), ∀ m ∈ e.nodes, m.Resolved := by
  refine List.forall_mem_map.mpr fun q hq => ?_
  rcases List.mem_append.mp (mem_sortByPlace.mp hq) with hq | hq
  · obtain ⟨x, -, rfl⟩ := List.mem_map.mp hq
    exact List.forall_mem_nil _
  · obtain ⟨f, -, rfl⟩ := List.mem_map.mp hq
    exact LayoutEntry.forall_nodes (Node.resolved_const _) (Node.resolved_const _)

/-- **Nothing is left to resolve in a generated procedure.** -/
theorem Stages.Lead.resolved {g : Stages K} {system : EquationSystem K} {params : List (Expr K)}
    {options : Options} {p : Procedure K} (h : g.Lead system params options p)
    (hneat : g.Neat system options) : ∀ m ∈ p.allNodes, m.Resolved := by
  have hvalues := h.resolved_values hneat
  rw [List.map_append, List.forall_mem_append] at hvalues
  have hbody : ∀ m ∈ p.nodes, m.Resolved := by
    rw [Procedure.nodes, h.body_eq, Stmt.subnodesAll_append, List.forall_mem_append]
    refine ⟨Stmt.forall_assigns (List.forall_mem_map.mpr fun _ _ => Node.resolved_const _)
      hvalues.1, ?_⟩
    refine Stmt.forall_loopOver (fun b => (Node.Plain.boundNode g.layout b).resolved) ?_ hvalues.2
    exact fun f hf => (StateLayout.plain_slot hf g.var).resolved
  refine List.forall_mem_append.mpr ⟨hbody, fun m hm => ?_⟩
  obtain ⟨e, he, hm⟩ := List.mem_flatMap.mp hm
  rw [h.procedure] at he
  rcases List.mem_append.mp he with he | he
  · exact StateLayout.resolved_entries g.split g.layout e he m hm
  · exact ParamLayout.resolved_entries g.layout e he m hm

/-! ## Every symbol is resolved -/

/-- **Families are declared by states and parameters** with indices. -/
def EquationSystem.DeclaresFamily (system : EquationSystem K) (params : List (Expr K))
    (base : String) :
    Prop :=
  ∃ s : Indexed, s.base = base ∧ (.indexed s ∈ system.equations.map (·.lhs) ∨ .indexed s ∈ params)

/-- **An indexed symbol refers to a declared family**, if unknown ones are not read as zero. -/
theorem Stages.Lead.declaresFamily {g : Stages K} {system : EquationSystem K}
    {params : List (Expr K)} {options : Options} {p : Procedure K}
    (h : g.Lead system params options p) (hfill : options.unknownsZero = false) {e : Equation K}
    (he : e ∈ system.equations) {t : Indexed} (ht : .indexed t ∈ e.rhs.freeSymbols) :
    system.DeclaresFamily params t.base := by
  have hmissing : g.missing = [] := by
    by_contra hne
    rw [h.zeroFill hne] at hfill
    cases hfill
  obtain ⟨e', he', -, hrhs⟩ := exists_of_forall₂ h.forall₂_equations he
  rw [hmissing] at hrhs
  obtain ⟨n, -, c, hc, _, _, hlower⟩ :=
    exists_of_forall₂ h.forall₂_lowersTo (h.divides.mem_iff.mpr he')
  have hwithin : Expr.Within (.indexed t) e'.rhs :=
    hrhs ▸ (Expr.mem_occurrences rfl).mp (mem_freeSymbols.mp ht)
  have hknown : g.rules.resolve t ≠ .unknown := hc.rules ▸
    (Expr.lowered_of_lower _ _ hlower).resolve_ne_unknown hwithin (hc.zeroFill.trans hfill)
  by_contra hnone
  refine hknown (resolve_eq_unknown.mpr ⟨fun hstate => hnone ?_, fun hparam => hnone ?_⟩)
  · obtain ⟨f, hf, hbase⟩ := List.mem_map.mp hstate
    exact ⟨_, hbase, .inl (h.exists_family_iff.mp ⟨f, hf, rfl, rfl⟩)⟩
  · obtain ⟨is, hmem⟩ := h.mem_params_iff.mpr hparam
    exact ⟨⟨t.base, is⟩, rfl, .inr hmem⟩

namespace EquationSystem

/-- **Every symbol is resolved, or there is no procedure.**  Without zero filling, scalars that
nothing declares are reported, all of them, and a procedure exists only if every indexed symbol
belongs to a family.  With it or without, no node of a procedure is a name or reads the zero
array. -/
theorem resolves_or_reports {pairs : List (Expr K × Expr K)} {s : EquationSystem K}
    (hs : ofPairs pairs = .ok s) (hindices : ∀ e ∈ s.equations, ∀ t, e.lhs = .indexed t →
      t.indices ≠ [])
    {params : List (Expr K)} (hparams : Declares params) (time : Option String)
    (options : Options) :
    (options.unknownsZero = false →
      ((∃ e ∈ s.equations, ∃ name, .scalar name ∈ e.rhs.freeSymbols ∧
          ¬DeclaresScalar ⟨s.equations, time⟩ params name) →
        ∃ missing, generate ⟨s.equations, time⟩ params options = .error (.missingSymbols missing) ∧
          Reports ⟨s.equations, time⟩ params missing) ∧
      ∀ p, generate ⟨s.equations, time⟩ params options = .ok p → ∀ e ∈ s.equations, ∀ t,
        .indexed t ∈ e.rhs.freeSymbols → DeclaresFamily ⟨s.equations, time⟩ params t.base) ∧
    ∀ p, generate ⟨s.equations, time⟩ params options = .ok p → ∀ n ∈ p.allNodes, n.Resolved := by
  have hflat : isIndexed ⟨s.equations, time⟩ = false → Scalar ⟨s.equations, time⟩ := by
    intro hindexed
    refine scalar_ofPairs hs hindexed (fun e he => ?_) time
    cases hlhs : e.lhs with
    | scalar name => exact ⟨name, rfl⟩
    | indexed t =>
      have hnil := ((tagged_ofPairs hs).of_not_isIndexed hindexed e he).1
      rw [hlhs] at hnil
      exact absurd hnil (hindices e he t hlhs)
  refine ⟨fun hfill => ⟨?_, fun p hp e he t ht => ?_⟩, fun p hp => ?_⟩
  · rintro ⟨e, he, name, hname, hundeclared⟩
    have hreports : Reports ⟨s.equations, time⟩ params _ := reports_missingIndexed hparams
    have hmem := (hreports.mem_iff _).mpr ⟨name, rfl, ⟨e, he, hname⟩, hundeclared⟩
    exact ⟨_, generate_of_missing hflat hfill (List.ne_nil_of_mem hmem), hreports⟩
  · obtain ⟨g, hlead, -⟩ := generate_neatStages hp
    exact hlead.declaresFamily hfill he ht
  · obtain ⟨g, hlead, hneat⟩ := generate_neatStages hp
    exact hlead.resolved hneat

/-- A scalar state and a family, with two rates and a source that may be left undeclared. -/
def sourced : List (Equation ℚ) :=
  [.of (.scalar "x")
      (.add [.mul [.symbol "b", .symbol "x"], .mul [.symbol "a", .symbol "t"], .symbol "b"]),
    .of (.indexed ⟨"n", [twoSites "i"]⟩)
      (.add [.mul [.symbol "a", .indexed ⟨"W", [twoSites "i"]⟩],
        .mul [.imaginaryUnit, .indexed ⟨"n", [twoSites "i"]⟩]])]

/-- Its parameters. -/
def sourcedParams : List (Expr ℚ) := [.symbol "a", .symbol "b", .indexed ⟨"W", [twoSites "k"]⟩]

theorem resolves_or_reports_sourced :
    ofPairs (sourced.map fun e => (e.lhs.toExpr, e.rhs)) = .ok ⟨sourced, none⟩ ∧
      (∃ missing, generate ⟨sourced, some "t"⟩ [] {} = .error (.missingSymbols missing) ∧
        Reports ⟨sourced, some "t"⟩ [] missing ∧ missing = [.scalar "b", .scalar "a"]) ∧
      (∃ p, generate ⟨sourced, some "t"⟩ sourcedParams {} = .ok p ∧
        DeclaresFamily ⟨sourced, some "t"⟩ sourcedParams "W") ∧
      ∃ p, generate ⟨sourced, some "t"⟩ [] { unknownsZero := true } = .ok p ∧
        p.usesImaginaryUnit = true ∧
        ∀ n ∈ p.allNodes, n.Resolved := by
  have hs : ofPairs (sourced.map fun e => (e.lhs.toExpr, e.rhs)) = .ok ⟨sourced, none⟩ := rfl
  have hindices : ∀ e ∈ sourced, ∀ t, e.lhs = .indexed t → t.indices ≠ [] := by
    simp [sourced, Equation.of]
  have hnone : Declares ([] : List (Expr ℚ)) := List.forall_mem_nil _
  have hparams : Declares sourcedParams := by
    simp [sourcedParams, Declares, Expr.declared?]
  refine ⟨hs, ?_, ?_, ?_⟩
  · obtain ⟨hreports, -⟩ := (resolves_or_reports hs hindices hnone (some "t") {}).1 rfl
    obtain ⟨missing, hmissing, hreports⟩ := hreports ⟨_, List.mem_cons_self, "b", by decide, by
      simp [DeclaresScalar, sourced, Equation.of]⟩
    have heq : generate ⟨sourced, some "t"⟩ [] {} =
        .error (.missingSymbols [.scalar "b", .scalar "a"]) := rfl
    rw [heq] at hmissing
    cases hmissing
    exact ⟨_, heq, hreports, rfl⟩
  · obtain ⟨p, hp⟩ : ∃ p, generate ⟨sourced, some "t"⟩ sourcedParams {} = .ok p := ⟨_, rfl⟩
    obtain ⟨-, hfamily⟩ := (resolves_or_reports hs hindices hparams (some "t") {}).1 rfl
    have hmem : sourced[1] ∈ sourced := List.getElem_mem _
    exact ⟨p, hp, hfamily p hp _ hmem ⟨"W", [twoSites "i"]⟩ (by decide)⟩
  · obtain ⟨p, hp, himaginary⟩ : ∃ p, generate ⟨sourced, some "t"⟩ [] { unknownsZero := true } =
        .ok p ∧
        p.usesImaginaryUnit = true := ⟨_, rfl, rfl⟩
    have hresolved := (resolves_or_reports hs hindices hnone (some "t") { unknownsZero := true }).2
    exact ⟨p, hp, himaginary, hresolved p hp⟩

end EquationSystem

end Fluxion
