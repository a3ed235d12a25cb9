import Fluxion.Proofs.Generation.Statements
import Fluxion.Proofs.Generation.ZeroFolding

/-!
# Proofs/Generation/ScalarSystems — the two generators on systems without indices

A system without indices is generated flat, but both generators accept it:

    generateFlat      ──▸   p   with values v₀, v₁, …
    generateIndexed   ──▸   q   with values normalize v₀, normalize v₁, …

They refuse it for the same reason or make procedures that differ in their values only, and there
only in what folds away because it is zero.  So a call of `q` returns what a call of `p` returns
(`EquationSystem.generators_agree`).
-/

namespace Fluxion

variable {K : Type}

/-! ## Systems without indices -/

namespace EquationSystem

/-- **A system without indices** whose states are plain symbols. -/
structure Scalar (s : EquationSystem K) : Prop where
  nodup : (s.equations.map (·.lhs.state)).Nodup
  tagged : s.Tagged
  targets : ∀ e ∈ s.equations, e.lhs = .scalar e.lhs.state
  rhs : ∀ e ∈ s.equations, e.rhs.hasIndexStructure = false

variable {s : EquationSystem K}

theorem scalar_ofPairs {pairs : List (Expr K × Expr K)} (hs : ofPairs pairs = .ok s)
    (hindexed : s.isIndexed = false) (htargets : ∀ e ∈ s.equations, ∃ name, e.lhs = .scalar name)
    (time : Option String) : Scalar ⟨s.equations, time⟩ where
  nodup := (nodup_states hs : (s.equations.map (·.lhs.state)).Nodup)
  tagged e he := tagged_ofPairs hs e he
  targets e he := by
    obtain ⟨name, hname⟩ := htargets e he
    rw [hname]
    rfl
  rhs e he := ((tagged_ofPairs hs).of_not_isIndexed hindexed e he).2

theorem Scalar.free_eq_nil (h : s.Scalar) {e : Equation K} (he : e ∈ s.equations) :
    e.free = [] := by
  have hnone : e.rhs.freeSymbols.filterMap FreeSymbol.index? = [] := by
    refine List.filterMap_eq_nil_iff.mpr fun t ht => ?_
    obtain ⟨name, rfl⟩ := Expr.occurrences_scalar [] e.rhs (h.rhs e he) t (mem_freeSymbols.mp ht)
    rfl
  rw [h.tagged e he, Equation.freeIndices, hnone, h.targets e he]
  rfl

/-- Equations without an index are collected in order. -/
theorem foldlM_add {es : List (Equation K)} (hes : ∀ e ∈ es, Split.ownIndex e = .ok none)
    (done : List (Equation K)) :
    es.foldlM Split.add ⟨done, []⟩ = (.ok ⟨done ++ es, []⟩ : Except (Error K) (Split K)) := by
  induction es generalizing done with
  | nil =>
    rw [List.append_nil]
    rfl
  | cons e es ih =>
    obtain ⟨he, hes⟩ := List.forall_mem_cons.mp hes
    rw [List.foldlM_cons, Split.add, he]
    exact (ih hes (done ++ [e])).trans (by rw [← List.append_cons])

theorem Scalar.split_eq (h : s.Scalar) : Split.ofSystem s = .ok ⟨s.equations, []⟩ := by
  refine foldlM_add (fun e he => ?_) []
  rw [Split.ownIndex, h.free_eq_nil he, h.targets e he]
  rfl

/-- Plain symbols that are all different are accepted as states. -/
theorem flatStates_of_nodup {es : List (Equation K)} {seen : List String}
    (hes : ∀ e ∈ es, e.lhs = .scalar e.lhs.state) (hnodup : (es.map (·.lhs.state)).Nodup)
    (hseen : ∀ e ∈ es, e.lhs.state ∉ seen) :
    flatStates seen (es.map fun e => (e.lhs.toExpr : Expr K)) = .ok (es.map (·.lhs.state)) := by
  induction es generalizing seen with
  | nil => rfl
  | cons e es ih =>
    obtain ⟨he, hes⟩ := List.forall_mem_cons.mp hes
    obtain ⟨hnew, hnodup⟩ := List.nodup_cons.mp hnodup
    obtain ⟨hunseen, hseen⟩ := List.forall_mem_cons.mp hseen
    have hrest : ∀ e' ∈ es, e'.lhs.state ∉ e.lhs.state :: seen := by
      intro e' he'
      refine List.not_mem_cons_of_ne_of_not_mem (fun hstate => hnew ?_) (hseen e' he')
      exact List.mem_map.mpr ⟨e', he', hstate⟩
    have htarget : (e.lhs.toExpr : Expr K) = .symbol e.lhs.state := by
      rw [he]
      rfl
    rw [List.map_cons, htarget, flatStates, if_neg hunseen, ih hes hnodup hrest]
    rfl

theorem Scalar.flatStates_eq (h : s.Scalar) :
    flatStates [] s.targets = .ok (s.equations.map (·.lhs.state)) :=
  flatStates_of_nodup h.targets h.nodup fun _ _ => List.not_mem_nil

/-- **Both notions of what is missing agree** where no index occurs. -/
theorem Scalar.missing_eq (h : s.Scalar) {params : List (Expr K)}
    (hparams : params.all Expr.isSymbol = true) :
    missingFlat s.rhss s.targets (params ++ timeExpr s.time)
      = missingIndexed s.rhss s.targets (params ++ timeExpr s.time) := by
  have hsymbols : ∀ e ∈ s.targets ++ (params ++ timeExpr s.time), e.isSymbol = true := by
    intro e he
    rcases List.mem_append.mp he with he | he
    · obtain ⟨q, hq, rfl⟩ := List.mem_map.mp he
      rw [h.targets q hq]
      rfl
    · rcases List.mem_append.mp he with he | he
      · exact List.all_eq_true.mp hparams e he
      · obtain ⟨name, -, rfl⟩ := List.mem_map.mp he
        rfl
  have hknown : (s.targets ++ (params ++ timeExpr s.time)).filterMap Expr.declared?
      = (s.targets ++ (params ++ timeExpr s.time)).flatMap Expr.freeSymbols := by
    rw [List.filterMap_eq_flatMap_toList]
    refine List.flatMap_congr fun e he => ?_
    cases e with
    | symbol name => rfl
    | _ => cases hsymbols _ he
  rw [missingFlat, missingIndexed, hknown]
  refine (List.filter_eq_self.mpr fun t ht => ?_).symm
  obtain ⟨⟨e, he, ht⟩, -⟩ := mem_missingAmong.mp ht
  obtain ⟨q, hq, rfl⟩ := List.mem_map.mp he
  obtain ⟨name, rfl⟩ := Expr.occurrences_scalar [] q.rhs (h.rhs q hq) t (mem_freeSymbols.mp ht)
  rfl

end EquationSystem

variable [Literal K]

namespace EquationSystem.Scalar

variable {s : EquationSystem K} {params : List (Expr K)} {missing : List FreeSymbol}

/-- The equations once what is missing has been set to zero. -/
theorem eliminate (h : s.Scalar) (hmissing : s.Undeclared params missing) :
    (s.eliminate missing).Scalar ∧
      (s.eliminate missing).equations.map (·.lhs.state) = s.equations.map (·.lhs.state) ∧
      (s.eliminate missing).equations.map (fun e => (e.lhs.state, e.rhs))
        = (s.equations.map (·.lhs.state)).zip (eliminateAll missing s.rhss) := by
  have heq := hmissing.eliminate
  have hstates : (s.eliminate missing).equations.map (·.lhs.state) =
      s.equations.map (·.lhs.state) := by
    have := congrArg (List.map (·.1.state)) heq
    simpa only [List.map_map, Function.comp_def] using this
  have hsource : ∀ e ∈ (s.eliminate missing).equations, ∃ e' ∈ s.equations,
      e.lhs = e'.lhs ∧ e.rhs = e'.rhs.cleared missing := by
    intro e he
    have hmem : (e.lhs, e.rhs) ∈ s.equations.map fun e => (e.lhs, e.rhs.cleared missing) :=
      heq ▸ List.mem_map_of_mem he
    obtain ⟨e', he', hpair⟩ := List.mem_map.mp hmem
    exact ⟨e', he', (Prod.mk.inj hpair).1.symm, (Prod.mk.inj hpair).2.symm⟩
  refine ⟨⟨hstates ▸ h.nodup, h.tagged.eliminate missing, fun e he => ?_, fun e he => ?_⟩,
    hstates, ?_⟩
  · obtain ⟨e', he', hlhs, -⟩ := hsource e he
    rw [hlhs]
    exact h.targets e' he'
  · obtain ⟨e', he', -, hrhs⟩ := hsource e he
    rw [hrhs]
    exact hasIndexStructure_cleared (h.rhs e' he')
  · have := congrArg (List.map (Prod.map Target.state id)) heq
    rw [List.map_map, List.map_map] at this
    rw [eliminateAll_eq, rhss, List.map_map, List.zip_map']
    exact this

end EquationSystem.Scalar

/-- Without families there are no rules. -/
theorem RuleSet.build_of_families {states : StateLayout K} {layout : ParamLayout}
    (hstates : states.families = []) (hlayout : layout.families = []) (declared : List Index)
    (limit : Nat) : RuleSet.build states layout declared limit = .ok .empty := by
  rw [RuleSet.build, RuleSet.declarations, hstates, hlayout]
  rfl

/-! ## Bodies -/

/-- Assignments of some values to consecutive slots. -/
def assignments (k : Nat) (vs : List (Node K)) : List (Stmt K) :=
  .zipWith .assign (slotsFrom k vs.length) vs

theorem assignments_cons (k : Nat) (v : Node K) (vs : List (Node K)) :
    assignments k (v :: vs) = .assign (.ofInt k) v :: assignments (k + 1) vs := rfl

theorem canonical_assignments (k : Nat) (vs : List (Node K)) :
    Stmt.canonical (assignments k vs) = assignments k (vs.map (Node.transform Node.respell)) := by
  rw [Stmt.canonical, assignments, Stmt.transformAll_assign, Stages.respell_slotsFrom, assignments,
    List.length_map]

/-- **Both generators lower an equation without indices alike**; one of them brings the value to
normal form. -/
theorem agrees_bodies {c : LoweringContext K} (hc : ∀ q ∈ c.names, q.2.Scalar)
    {es : List (Equation K)} (htargets : ∀ e ∈ es, e.lhs = .scalar e.lhs.state)
    (hrhs : ∀ e ∈ es, e.rhs.hasIndexStructure = false) (k n : Nat) :
    Agrees (fun r r' => r.2 = r'.2 ∧ ∃ vs, vs.length = es.length ∧ (∀ v ∈ vs, v.Scalar) ∧
        r.1 = assignments k vs ∧ r'.1 = assignments k (vs.map Node.normalize))
      (flatBody c k (es.map fun e => (e.lhs.state, e.rhs)) n) (scalarBody c k es n) := by
  induction es generalizing k n with
  | nil => exact ⟨rfl, [], rfl, List.forall_mem_nil _, rfl, rfl⟩
  | cons e es ih =>
    obtain ⟨htarget, htargets⟩ := List.forall_mem_cons.mp htargets
    obtain ⟨he, hrhs⟩ := List.forall_mem_cons.mp hrhs
    rw [List.map_cons, flatBody, scalarBody, ← htarget]
    refine Agrees.bindSame fun r hv => ?_
    obtain ⟨v, n'⟩ := r
    refine (ih htargets hrhs (k + 1) n').bind ?_
    rintro ⟨ss, m⟩ ⟨ts, _⟩ ⟨rfl, vs, hlength, hscalar, rfl, rfl⟩
    have hvalue : v.Scalar :=
      Expr.scalar_of_lowered (c := { c with equation := e.lhs }) hc
        (Expr.lowered_of_lower _ _ hv) he
    exact ⟨rfl, v :: vs, congrArg (· + 1) hlength, List.forall_mem_cons.mpr ⟨hvalue, hscalar⟩,
      rfl, rfl⟩

theorem finished_assignments {vs : List (Node K)} (h : ∀ v ∈ vs, v.Finished []) (k : Nat) :
    ∀ s ∈ assignments k vs, s.Finished 1 [] := by
  induction vs generalizing k with
  | nil => exact List.forall_mem_nil _
  | cons v vs ih =>
    obtain ⟨hv, hvs⟩ := List.forall_mem_cons.mp h
    exact List.forall_mem_cons.mpr ⟨.assign (.const _) hv, ih hvs (k + 1)⟩

theorem accepted_assignments {dialect : Dialect} {vs : List (Node K)} {k : Nat} :
    (∀ n ∈ Stmt.subnodesAll (assignments k vs), n.Accepted dialect) ↔
      ∀ v ∈ vs, v.Everywhere (Node.Accepted dialect) := by
  induction vs generalizing k with
  | nil => exact iff_of_true (List.forall_mem_nil _) (List.forall_mem_nil _)
  | cons v vs ih =>
    have hslot : ∀ n ∈ (Node.ofInt k : Node K).subnodes, n.Accepted dialect :=
      Node.everywhere_iff.mp (Node.accepted_const _)
    rw [assignments_cons, Stmt.subnodesAll, Stmt.subnodes, List.forall_mem_append,
      List.forall_mem_append, ih, List.forall_mem_cons, Node.everywhere_iff]
    exact and_congr_left fun _ => and_iff_right hslot

/-! ## Calls -/

section Calls

variable {p : Procedure K} {vs : List (Node K)}

/-- **What a procedure needs to be called**, node by node. -/
theorem Procedure.exists_materialize_accepted {dialect : Dialect} :
    (∃ c, p.materialize dialect = .ok c) ↔
      p.checkStructure = .ok () ∧ ∀ n ∈ p.nodes, n.Accepted dialect := by
  rw [Procedure.exists_materialize_iff]
  refine and_congr_right fun _ => ⟨fun h n hn => ?_, fun h => ⟨?_, fun hn => ?_⟩⟩
  · obtain ⟨htokens, himaginary⟩ := h
    exact ⟨forall_of_forM htokens n hn, fun heq => himaginary (heq ▸ hn)⟩
  · exact forM_of_forall fun n hn => (h n hn).token
  · exact (h _ hn).imaginary rfl

/-- A normal form as it stands in a procedure. -/
def Node.tidied (n : Node K) : Node K := n.normalize.transform Node.respell

theorem Node.Scalar.tidied_eq {n : Node K} (h : n.Scalar) :
    n.tidied = n.collapseZeros.transform Node.respell :=
  congrArg (Node.transform Node.respell) h.normalize_eq_collapseZeros

variable {V : Type} [Field K] [LinearOrder K] [IsStrictOrderedRing K] [Field V] [Arithmetic K V]
  [ExactArithmetic K V] {inputs : Inputs K V}

/-- **Assignments of normal forms write the same**, if the assignments they come from go well. -/
theorem meaningAll_tidied (hvs : ∀ v ∈ vs, v.Scalar) (ss : List (Stmt K)) {k : Nat}
    {du du' : Array V}
    (h : Stmt.meaningAll p inputs (assignments k (vs.map (Node.transform Node.respell))) [] du
      (.ok du')) :
    Stmt.meaningAll { p with body := ss } inputs (assignments k (vs.map Node.tidied)) [] du
      (.ok du') := by
  induction vs generalizing k du with
  | nil => exact h
  | cons v vs ih =>
    obtain ⟨hv, hvs⟩ := List.forall_mem_cons.mp hvs
    obtain ⟨du₁, hassign, hrest⟩ := Computation.andThen_ok.mp h
    obtain ⟨index, w, hindex, hw, hstore⟩ := Stmt.meaning_assign.mp hassign
    refine Computation.andThen_ok.mpr ⟨du₁, Stmt.meaning_assign.mpr ⟨index, w, hindex, ?_, hstore⟩,
      ih hvs hrest⟩
    rw [hv.tidied_eq]
    exact hv.meaning_collapseZeros ss hw

end Calls

/-! ## Generating -/

/-- **Two procedures that differ in zeros**: the values of the first, and their normal forms. -/
structure Procedure.Tidies (p q : Procedure K) (vs : List (Node K)) : Prop where
  scalar : ∀ v ∈ vs, v.Scalar
  left : p.body = assignments 0 (vs.map (Node.transform Node.respell))
  right : q = { p with body := assignments 0 (vs.map Node.tidied) }
  checked : q.checkStructure = .ok ()

namespace Procedure.Tidies

variable {p q : Procedure K} {vs : List (Node K)}

/-- Normal forms of values without zeros are these values. -/
theorem map_tidied (h : p.Tidies q vs)
    (hzero : ∀ v ∈ vs.map (Node.transform Node.respell), v.hasZero = false) :
    vs.map Node.tidied = vs.map (Node.transform Node.respell) := by
  refine List.map_congr_left fun v hv => ?_
  have hv' : v.hasZero = false :=
    (h.scalar v hv).hasZero_respell.symm.trans (hzero _ (List.mem_map_of_mem hv))
  rw [Node.tidied, (h.scalar v hv).normalize_eq hv']

theorem materializes (h : p.Tidies q vs) {dialect : Dialect} {c : Callable K}
    (hc : p.materialize dialect = .ok c) : ∃ d, q.materialize dialect = .ok d := by
  obtain ⟨-, haccepted⟩ := exists_materialize_accepted.mp ⟨c, hc⟩
  refine exists_materialize_accepted.mpr ⟨h.checked, ?_⟩
  rw [nodes, h.left, accepted_assignments, List.forall_mem_map] at haccepted
  rw [nodes, h.right, accepted_assignments, List.forall_mem_map]
  intro v hv
  rw [(h.scalar v hv).tidied_eq]
  exact (h.scalar v hv).accepted_collapseZeros (haccepted v hv)

/-- **A call returns what it returns with zeros left in place.** -/
theorem returns {V : Type} [Field K] [LinearOrder K] [IsStrictOrderedRing K] [Field V]
    [Arithmetic K V] [ExactArithmetic K V] (h : p.Tidies q vs) {dialect : Dialect}
    {c d : Callable K} (hc : p.materialize dialect = .ok c) (hd : q.materialize dialect = .ok d)
    {inputs : Inputs K V} {du du' : Array V} (hreturns : c.Returns inputs du ⟨.finished, du'⟩) :
    d.Returns inputs du ⟨.finished, du'⟩ := by
  obtain ⟨-, fuel, hcall⟩ := hreturns
  have hmeaning := Callable.meaningAll_of_finished hc (congrArg Outcome.status hcall)
  rw [hcall, h.left] at hmeaning
  refine Callable.returns_of_means hd ⟨.ok du', ?_, rfl⟩
  rw [h.right]
  exact meaningAll_tidied h.scalar _ hmeaning

end Procedure.Tidies

/-- **Values without indices make two procedures**, as they are and in normal form. -/
theorem agrees_finish (options : Options) (states : StateLayout K) (layout : ParamLayout)
    {vs : List (Node K)} (hvs : ∀ v ∈ vs, v.Scalar) :
    Agrees (fun p q => p.Tidies q vs) (finishProcedure options states layout (assignments 0 vs))
      (finishProcedure options states layout (assignments 0 (vs.map Node.normalize))) := by
  have hfinished : ∀ v ∈ vs, v.Finished [] := fun v hv => (hvs v hv).finished
  obtain ⟨p, hp⟩ : ∃ p, finishProcedure options states layout (assignments 0 vs) = .ok p :=
    finishProcedure_of_finished (finished_assignments hfinished 0)
  obtain ⟨q, hq⟩ : ∃ q,
      finishProcedure options states layout (assignments 0 (vs.map Node.normalize)) = .ok q :=
    finishProcedure_of_finished (finished_assignments
      (List.forall_mem_map.mpr fun v hv => .normalize (hfinished v hv).freeVars) 0)
  obtain ⟨hpeq, -⟩ := finishProcedure_eq_ok hp
  obtain ⟨hqeq, hchecked⟩ := finishProcedure_eq_ok hq
  rw [hp, hq]
  refine ⟨hvs, ?_, ?_, hchecked⟩
  · rw [hpeq, canonical_assignments]
  · rw [hqeq, hpeq, canonical_assignments, List.map_map]
    rfl

/-- **The generators go through the same stages** on a system without indices. -/
theorem EquationSystem.Scalar.agrees_generators {system : EquationSystem K} (h : system.Scalar)
    {params : List (Expr K)} (hparams : params.all Expr.isSymbol = true) (options : Options) :
    Agrees (fun p q => ∃ vs, vs.length = system.equations.length ∧ p.Tidies q vs)
      (generateFlat system.rhss system.targets params system.time options)
      (generateIndexed system params options) := by
  have hlength : system.rhss.length = system.targets.length := by
    simp [EquationSystem.rhss, EquationSystem.targets]
  have hmissing : system.Undeclared params _ := undeclared_missingFlat h.rhs
  rw [generateFlat, if_neg (not_not.mpr hlength), bind_of_ok h.flatStates_eq, generateIndexed,
    ← h.missing_eq hparams]
  generalize missingFlat system.rhss system.targets (params ++ timeExpr system.time) =
    missing at hmissing ⊢
  obtain ⟨hscalar, hstates, hpairs⟩ := h.eliminate hmissing
  dsimp only
  rw [bind_of_ok hscalar.split_eq, EquationSystem.time_eliminate, ← hpairs]
  refine .bindSame fun _ _ => .bindSame fun layout hlayout => ?_
  have hlayouts : StateLayout.ofSplit ⟨(system.eliminate missing).equations, []⟩ layout
      = .ofScalars (system.equations.map (·.lhs.state)) := by
    rw [← hstates]
    rfl
  rw [hlayouts]
  refine .bindSame fun names hnames => ?_
  rw [bind_of_ok
    (RuleSet.build_of_families rfl (ParamLayout.families_of_symbols hparams hlayout) _ _)]
  let c : LoweringContext K :=
    ⟨names, .empty, layout, options.unknownsZero, options.naming.reserved, .scalar ""⟩
  have hbody :=
    agrees_bodies (c := c) (scalar_of_scalarNodes hnames) hscalar.targets hscalar.rhs 0 0
  have hloop : (do
      let scalars ← scalarBody c 0 (system.eliminate missing).equations
      let loop ← familyLoop c [] []
      return scalars ++ loop : Lowering K (List (Stmt K)))
        = scalarBody c 0 (system.eliminate missing).equations := by
    simp only [familyLoop, pure_bind, List.append_nil, bind_pure]
  have hrun := congrArg (StateT.run · 0) hloop
  rw [StateLayout.ofScalars, List.map_nil, hrun]
  refine hbody.bind ?_
  rintro ⟨ss, m⟩ ⟨ts, _⟩ ⟨rfl, vs, hvs, hscalars, rfl, rfl⟩
  refine (agrees_finish options _ layout hscalars).mono fun p q htidies => ⟨vs, ?_, htidies⟩
  rw [hvs, ← List.length_map (f := fun e => (e.lhs.state)), hstates, List.length_map]

namespace EquationSystem

/-- **The two generators agree on systems without indices.**  With plain symbols as states and
parameters both refuse a system with the same error or both make a procedure.  The procedures differ
in the values they assign only; without a zero outside of subscripts they do not differ, and in
exact arithmetic the second returns what the first returns. -/
theorem generators_agree {pairs : List (Expr K × Expr K)} {s : EquationSystem K}
    (hs : ofPairs pairs = .ok s) (hindexed : s.isIndexed = false)
    (htargets : ∀ e ∈ s.equations, ∃ name, e.lhs = .scalar name) {params : List (Expr K)}
    (hparams : params.all Expr.isSymbol = true) (time : Option String) (options : Options) :
    Agrees
      (fun p q => ∃ vs ws, vs.length = s.equations.length ∧ ws.length = s.equations.length ∧
        p.body = assignments 0 vs ∧ q = { p with body := assignments 0 ws } ∧
        ((∀ v ∈ vs, v.hasZero = false) → q = p) ∧
        ∀ [Field K] [LinearOrder K] [IsStrictOrderedRing K] (V : Type) [Field V] [Arithmetic K V]
          [ExactArithmetic K V] (dialect : Dialect) (c : Callable K) (inputs : Inputs K V)
          (du du' : Array V), p.materialize dialect = .ok c → c.Returns inputs du ⟨.finished, du'⟩ →
            ∃ d, q.materialize dialect = .ok d ∧ d.Returns inputs du ⟨.finished, du'⟩)
      (generateFlat s.rhss s.targets params time options)
      (generateIndexed ⟨s.equations, time⟩ params options) := by
  have hscalar := scalar_ofPairs hs hindexed htargets time
  refine (hscalar.agrees_generators hparams options).mono ?_
  rintro p q ⟨vs, hlength, h⟩
  refine ⟨_, _, by rwa [List.length_map], by rwa [List.length_map], h.left, h.right,
    fun hzero => ?_, ?_⟩
  · rw [h.right, h.map_tidied hzero, ← h.left]
  · intro _ _ _ V _ _ _ dialect c inputs du du' hc hreturns
    obtain ⟨d, hd⟩ := h.materializes hc
    exact ⟨d, hd, h.returns hc hd hreturns⟩

/-- `x' = 0 * y + x` and `y' = k * x`. -/
def uncoupled : EquationSystem ℚ where
  equations := [
    .of (.scalar "x") (.add [.mul [.number 0, .symbol "y"], .symbol "x"]),
    .of (.scalar "y") (.mul [.symbol "k", .symbol "x"])]
  time := none

theorem generators_agree_uncoupled : ∃ p q,
    ofPairs (uncoupled.equations.map fun e => (e.lhs.toExpr, e.rhs)) = .ok uncoupled ∧
    generateFlat uncoupled.rhss uncoupled.targets [.symbol "k"] none {} = .ok p ∧
    generateIndexed ⟨uncoupled.equations, none⟩ [.symbol "k"] {} = .ok q ∧ q.states = p.states ∧
    ∃ d, q.materialize .real = .ok d ∧
      d.Returns (V := ℚ) ⟨#[2, 3], #[5], 0⟩ #[0, 0] ⟨.finished, #[2, 10]⟩ := by
  have hs : ofPairs (uncoupled.equations.map fun e => (e.lhs.toExpr, e.rhs)) = .ok uncoupled := rfl
  have htargets : ∀ e ∈ uncoupled.equations, ∃ name, e.lhs = .scalar name := by
    simp [uncoupled, Equation.of]
  have hparams : ([.symbol "k"] : List (Expr ℚ)).all Expr.isSymbol = true := rfl
  obtain ⟨p, c, hp, hc, hreturns⟩ : ∃ p c,
      generateFlat uncoupled.rhss uncoupled.targets [.symbol "k"] none {} = .ok p ∧
      p.materialize .real = .ok c ∧
      c.Returns (V := ℚ) ⟨#[2, 3], #[5], 0⟩ #[0, 0] ⟨.finished, #[2, 10]⟩ :=
    ⟨_, _, rfl, rfl, by decide, 40, by decide +kernel⟩
  obtain ⟨q, hq⟩ : ∃ q, generateIndexed ⟨uncoupled.equations, none⟩ [.symbol "k"] {} = .ok q :=
    ⟨_, rfl⟩
  have hagree := generators_agree hs rfl htargets hparams none {}
  rw [hp, hq] at hagree
  obtain ⟨vs, ws, -, -, -, heq, -, hcalls⟩ := hagree
  exact ⟨p, q, hs, hp, hq, by rw [heq], hcalls ℚ .real c _ _ _ hc hreturns⟩

end EquationSystem

end Fluxion
