import Fluxion.Proofs.Lowering.IndexScopes

/-!
# Proofs/Generation/Refusals — why a system has no procedure

Generating a procedure can fail at every stage.  `EquationSystem.Refused` lists the errors that come
out of it, each with what is wrong with the system, its parameters or the options.  The other errors
never do.

The indices that an equation is tagged with are those of its target and the free ones of its
right-hand side, also after missing symbols have been set to zero.  A system that can be split has
no free index but these, so lowering finds all of them; what it gives takes no variable from outside
the loop, and its normal form passes the check.
-/

namespace Fluxion

variable {K : Type}

/-! ## Free indices of equations -/

/-- Every equation carries its free indices. -/
def EquationSystem.Tagged (s : EquationSystem K) : Prop :=
  ∀ e ∈ s.equations, e.free = Equation.freeIndices e.lhs e.rhs

namespace EquationSystem

theorem tagged_ofPairs {pairs : List (Expr K × Expr K)} {s : EquationSystem K}
    (h : ofPairs pairs = .ok s) : s.Tagged := by
  obtain ⟨equations, hequations, h⟩ := ok_of_bind h
  split at h
  · cases h
  obtain rfl := Except.ok.inj h
  intro e he
  obtain ⟨⟨lhs, rhs⟩, -, hq⟩ := exists_of_forall₂ (forall₂_of_mapM hequations).flip he
  change equation? lhs rhs = .ok e at hq
  rw [equation?] at hq
  split at hq
  · obtain rfl := Except.ok.inj hq
    rfl
  · cases hq

/-- In a system without indices no left-hand side has one, and none matters to a right-hand side. -/
theorem Tagged.of_not_isIndexed {s : EquationSystem K} (htagged : s.Tagged)
    (h : s.isIndexed = false) :
    ∀ e ∈ s.equations, e.lhs.indices = [] ∧ e.rhs.hasIndexStructure = false := by
  intro e he
  have hequation := List.any_eq_false.mp h e he
  rw [Equation.isIndexed, Bool.not_eq_true, Bool.or_eq_false_iff, Bool.not_eq_false',
    Equation.isScalar, List.isEmpty_iff, htagged e he, Equation.freeIndices,
    List.append_eq_nil_iff] at hequation
  exact ⟨hequation.1.1, hequation.2⟩

theorem Tagged.eliminate [Literal K] {s : EquationSystem K} (h : s.Tagged)
    (missing : List FreeSymbol) :
    (s.eliminate missing).Tagged := by
  unfold EquationSystem.eliminate
  split
  · exact h
  · exact List.forall_mem_map.mpr fun e _ => rfl

/-- Setting symbols to zero brings in no equation. -/
theorem exists_of_mem_eliminate [Literal K] {s : EquationSystem K} {missing : List FreeSymbol}
    {e : Equation K} (he : e ∈ (s.eliminate missing).equations) :
    ∃ e' ∈ s.equations, e'.lhs = e.lhs := by
  unfold EquationSystem.eliminate at he
  split at he
  · exact ⟨e, he, rfl⟩
  · obtain ⟨e', he', rfl⟩ := List.mem_map.mp he
    exact ⟨e', (List.mem_filter.mp he').1, rfl⟩

end EquationSystem

/-- An equation ranges over every index that is free in it. -/
def Equation.Ranges (e : Equation K) : Prop :=
  ∀ i, .index i ∈ e.rhs.occurrences [] → i ∈ e.lhs.indices

theorem Equation.ranges (e : Equation K) (htagged : e.free = freeIndices e.lhs e.rhs)
    (hfree : e.free ⊆ e.lhs.indices) : e.Ranges := by
  intro i hi
  by_contra hlhs
  refine hlhs (hfree ?_)
  rw [htagged, freeIndices, List.mem_append, List.mem_filter, List.mem_filterMap]
  exact .inr ⟨⟨.index i, mem_freeSymbols.mpr hi, rfl⟩, by simpa using hlhs⟩

/-! ## Splitting -/

namespace Split

/-- **Why an equation cannot be split off.** -/
inductive Rejects (e : Equation K) : Error K → Prop
  | unsupportedDepth (depth : Nat) (h : 2 ≤ e.lhs.indices.length) :
      Rejects e (.unsupportedDepth e.lhs depth)
  | inconsistentIndex {fault : IndexFault} (h : ∀ i, fault ≠ .notBound i) :
      Rejects e (.inconsistentIndex e.lhs fault)

variable {e : Equation K} {s : Split K}

theorem yields_ownIndex (e : Equation K) :
    Yields (Rejects e) (fun _ => e.free ⊆ e.lhs.indices) (ownIndex e) := by
  have hfree (h : e.free.find? (· ∉ e.lhs.indices) = none) : e.free ⊆ e.lhs.indices :=
    fun i hi => by
    simpa using List.find?_eq_none.mp h i hi
  unfold ownIndex
  generalize e.free.find? (· ∉ e.lhs.indices) = stray at hfree
  rcases hi : e.lhs.indices with _ | ⟨i, _ | ⟨j, is⟩⟩
  · rw [hi] at hfree
    cases stray with
    | none => exact hfree rfl
    | some stray => exact .inconsistentIndex (by simp)
  · rw [hi] at hfree
    cases stray with
    | none => exact hfree rfl
    | some stray => exact .inconsistentIndex (by simp)
  · exact .unsupportedDepth _ (by simp [hi])

theorem yields_add (s : Split K) (e : Equation K) :
    Yields (Rejects e) (fun _ => e.free ⊆ e.lhs.indices) (s.add e) := by
  refine (yields_ownIndex e).bind fun i hfree => ?_
  cases i with
  | none => exact hfree
  | some i =>
    dsimp only
    split
    · split
      · exact hfree
      · exact .inconsistentIndex (by simp)
    · exact hfree

/-- **Why a system cannot be split**: one of its equations is rejected. -/
theorem yields_ofSystem (system : EquationSystem K) :
    Yields (fun err => ∃ e ∈ system.equations, Rejects e err) (fun _ => True) (ofSystem system) :=
  .foldlM trivial fun e he s _ =>
    (s.yields_add e).mono (fun _ herr => ⟨e, he, herr⟩) fun _ _ => trivial

/-- No index is free in a split system that the equation does not range over. -/
theorem free_of_ofSystem {system : EquationSystem K} (h : ofSystem system = .ok s) :
    ∀ e ∈ system.equations, e.free ⊆ e.lhs.indices := by
  refine foldlM_induction (fun done _ => ∀ e ∈ done, e.free ⊆ e.lhs.indices) h (by simp) ?_
  intro done s e s' hdone hadd
  simpa [or_imp, forall_and] using ⟨hdone, (s.yields_add e).ok hadd⟩

theorem ranges_of_ofSystem {system : EquationSystem K} (htagged : system.Tagged)
    (h : ofSystem system = .ok s) : ∀ e ∈ system.equations, e.Ranges := fun e he =>
  e.ranges (htagged e he) (free_of_ofSystem h e he)

theorem Divides.mem_of_scalars {es : List (Equation K)} (h : s.Divides es) (he : e ∈ s.scalars) :
    e ∈ es := (List.mem_filter.mp (h.scalars ▸ he)).1

theorem Divides.mem_of_families {es : List (Equation K)} {q : Equation K × Index} (h : s.Divides es)
    (hq : q ∈ s.families) : q.1 ∈ es :=
  (List.mem_filter.mp (h.equations_families ▸ List.mem_map_of_mem hq)).1

end Split

/-! ## Layouts -/

section Layouts

variable {F : Error K → Prop}

theorem ParamLayout.yields_declare (hF : ∀ fault, F (.invalidParameter fault)) (l : ParamLayout)
    (param : Expr K) : Yields F (fun _ => True) (l.declare param) := by
  unfold declare
  split
  · split
    · exact hF _
    · trivial
  · split
    · exact hF _
    · refine Yields.bind (P := fun _ => ∀ _ ∈ _, True) (.mapM fun i _ => ?_) fun _ _ => trivial
      split
      · trivial
      · exact hF _
  · exact hF _

theorem ParamLayout.yields_ofParams (hF : ∀ fault, F (.invalidParameter fault))
    (params : List (Expr K)) : Yields F (fun _ => True) (ofParams params) :=
  .foldlM trivial fun param _ l _ => l.yields_declare hF param

variable [Literal K]

theorem yields_scalarNodes (hF : ∀ fault, F (.invalidParameter fault)) (states : StateLayout K)
    (layout : ParamLayout) (time : Option String) :
    Yields F (fun names => ∀ q ∈ names, q.2.Finished []) (scalarNodes states layout time) := by
  unfold scalarNodes
  split
  · exact hF _
  · intro q hq
    simp only [List.mem_append, List.mem_map] at hq
    rcases hq with (⟨x, -, rfl⟩ | ⟨⟨x, n⟩, -, rfl⟩) | ⟨⟨x, n⟩, -, rfl⟩
    · exact ⟨⟨trivial, by simp [Node.children]⟩, List.nil_subset _⟩
    · exact .access (b := .param) (by decide) _
    · exact .access (b := .state) (by decide) _

/-! ## Rules -/

theorem ParamLayout.freeVars_rangeSize (l : ParamLayout) (i : Index) :
    (l.rangeSize i : Node K).freeVars ⊆ [] := by
  have hbound := l.freeVars_boundNode (K := K)
  unfold rangeSize
  dsimp only
  split
  · exact Node.freeVars_plus (hbound _) (List.nil_subset _)
  · exact Node.freeVars_plus (Node.freeVars_minus (hbound _) (hbound _)) (List.nil_subset _)

theorem StateLayout.freeVars_start {s : Split K} {l : ParamLayout} {f : StateFamily K}
    (hf : f ∈ (ofSplit s l).families) : f.start.freeVars ⊆ [] :=
  start_induction (P := fun n => n.freeVars ⊆ []) (List.nil_subset _)
    (fun _ i hstart => Node.freeVars_plus hstart (l.freeVars_rangeSize i)) hf

theorem StateLayout.finished_slot {s : Split K} {l : ParamLayout} {f : StateFamily K}
    (hf : f ∈ (ofSplit s l).families) (x : String) : (f.slot l (.var x)).Finished [x] := by
  refine ⟨(plain_slot hf x).settled, Node.freeVars_plus ?_ (Node.freeVars_minus ?_ ?_)⟩
  · exact List.Subset.trans (freeVars_start hf) (List.nil_subset _)
  · exact List.Subset.refl _
  · exact List.Subset.trans (l.freeVars_boundNode _) (List.nil_subset _)

theorem RuleSet.closed_declarations {s : Split K} {l : ParamLayout} :
    ∀ d ∈ declarations (.ofSplit s l) l, d.rule.Closed := by
  intro d hd
  rcases List.mem_append.mp hd with hd | hd
  · obtain ⟨f, hf, rfl⟩ := List.mem_map.mp hd
    refine ⟨StateLayout.freeVars_start hf, List.forall_mem_singleton.mpr ?_⟩
    exact ⟨l.freeVars_boundNode _, List.nil_subset _⟩
  · obtain ⟨f, hf, rfl⟩ := List.mem_map.mp hd
    refine ⟨List.nil_subset _, List.forall_mem_map.mpr fun d _ => ?_⟩
    exact ⟨List.nil_subset _, List.nil_subset _⟩

/-- **What symbols and families of a system stand for takes no variable from outside.** -/
theorem closed_context {s : Split K} {l : ParamLayout} {names : List (String × Node K)}
    (hnames : ∀ q ∈ names, q.2.Finished []) (declared : List Index) (zeroFill : Bool)
    (reserved : List String) (equation : Target) : LoweringContext.Closed ⟨names,
      .ofDecls declared (RuleSet.declarations (.ofSplit s l) l), l, zeroFill, reserved,
        equation⟩ := by
  refine ⟨hnames, fun t rule hrule => ?_⟩
  obtain ⟨d, hd, -, rfl⟩ := RuleSet.refers_of_resolve hrule
  exact RuleSet.closed_declarations d hd

end Layouts

/-! ## Bodies -/

section Bodies

open Lowering (Fails)

variable [Literal K] {c : LoweringContext K} {e : Equation K} {es : List (Equation K)}

/-- **An equation that ranges over its free indices** is lowered with its own index as a variable,
or fails for another reason than an index. -/
theorem Equation.Ranges.yields_lower (h : e.Ranges) (c : LoweringContext K) (x : String) :
    Lowering.Yields (Fails c.zeroFill)
      (fun n => c.Closed → n.freeVars ⊆ e.lhs.indices.map fun _ => x)
      (e.rhs.lower c (e.lhs.indices.map (·, x))) := by
  have hcovers : IndexScope.Covers (e.lhs.indices.map (·, x)) (e.rhs.occurrences []) :=
    fun i hi => by
    simpa using h i hi
  have hlower : Lowering.Yields (Fails c.zeroFill) (c.Fits _ false) (e.rhs.lower c _) :=
    e.rhs.yields_lower c [] _ (List.nil_subset _) hcovers nofun
  refine hlower.mono fun n hn hc => ?_
  simpa [Function.comp_def] using hn.vars hc

/-- Lowering does not miss an index. -/
theorem Equation.Ranges.lower_ne_inconsistent (h : e.Ranges) (c : LoweringContext K) (x : String)
    (n : Nat) (equation : Target) (fault : IndexFault) :
    e.rhs.lower c (e.lhs.indices.map (·, x)) n ≠ .error (.inconsistentIndex equation fault) := by
  intro herr
  cases (h.yields_lower c x n).error herr

theorem yields_scalarBody (hc : c.Closed) (hes : ∀ e ∈ es, e.Ranges ∧ e.lhs.indices = [])
    (k : Nat) :
    Lowering.Yields (Fails c.zeroFill) (fun body => ∀ s ∈ body, s.Finished 1 [])
      (scalarBody c k es) := by
  induction es generalizing k with
  | nil => exact .pure (List.forall_mem_nil _)
  | cons e es ih =>
    obtain ⟨⟨hranges, hindices⟩, hes⟩ := List.forall_mem_cons.mp hes
    have hlower := hranges.yields_lower { c with equation := e.lhs } ""
    rw [hindices] at hlower
    refine hlower.bind fun value hvalue => (ih hes (k + 1)).bind fun body hbody => ?_
    exact .pure (List.forall_mem_cons.mpr
      ⟨.assign (.const _) (.normalize (hvalue ⟨hc.names, hc.rules⟩)), hbody⟩)

theorem yields_familyBody {x : String} {fs : List (StateFamily K)} (hc : c.Closed)
    (hes : List.Forall₂ (fun e f => e.Ranges ∧ e.lhs.indices = [f.index]) es fs)
    (hslots : ∀ f ∈ fs, (f.slot c.params (.var x)).Finished [x]) :
    Lowering.Yields (Fails c.zeroFill) (fun body => ∀ s ∈ body, s.Finished 0 [x])
      (familyBody c x es fs) := by
  induction hes with
  | nil => exact .pure (List.forall_mem_nil _)
  | @cons e f es fs he _ ih =>
    obtain ⟨hslot, hslots⟩ := List.forall_mem_cons.mp hslots
    have hlower := he.1.yields_lower { c with equation := e.lhs } x
    rw [he.2] at hlower
    refine hlower.bind fun value hvalue => (ih hslots).bind fun body hbody => ?_
    exact .pure (List.forall_mem_cons.mpr
      ⟨.assign hslot (.normalize (hvalue ⟨hc.names, hc.rules⟩)), hbody⟩)

theorem ParamLayout.finished_boundNode (l : ParamLayout) (b : Bound) :
    (l.boundNode b : Node K).Finished [] :=
  ⟨(Node.Plain.boundNode l b).settled, l.freeVars_boundNode b⟩

theorem yields_familyLoop {fs : List (StateFamily K)} (hc : c.Closed)
    (hes : List.Forall₂ (fun e f => e.Ranges ∧ e.lhs.indices = [f.index]) es fs)
    (hslots : ∀ x, ∀ f ∈ fs, (f.slot c.params (.var x)).Finished [x]) :
    Lowering.Yields (Fails c.zeroFill) (fun body => ∀ s ∈ body, s.Finished 1 [])
      (familyLoop c es fs) := by
  unfold familyLoop
  split
  · exact .pure (List.forall_mem_nil _)
  · refine Lowering.Yields.bind (P := fun _ => True) (fun _ => trivial) fun x _ => ?_
    have hbody := yields_familyBody (c := { c with reserved := x :: c.reserved }) (x := x)
      ⟨hc.names, hc.rules⟩ hes (hslots x)
    refine hbody.bind fun body hbody => .pure (List.forall_mem_singleton.mpr ?_)
    exact .loop (c.params.finished_boundNode _) (c.params.finished_boundNode _) hbody

/-- **The statements of a split system are finished.** -/
theorem yields_splitBody {split : Split K} {layout : ParamLayout}
    (hdivides : split.Divides es) (hranges : ∀ e ∈ es, e.Ranges) (hc : c.Closed)
    (hlayout : c.params = layout) :
    Lowering.Yields (Fails c.zeroFill) (fun body => ∀ s ∈ body, s.Finished 1 []) (do
      let scalars ← scalarBody c 0 split.scalars
      let loop ← familyLoop c (split.families.map (·.1)) (StateLayout.ofSplit split layout).families
      return scalars ++ loop) := by
  subst hlayout
  have hscalars : ∀ e ∈ split.scalars, e.Ranges ∧ e.lhs.indices = [] := fun e he =>
    ⟨hranges e (hdivides.mem_of_scalars he), hdivides.indices_scalars e he⟩
  have hfamilies : ∀ e ∈ split.families.map (·.1), e.Ranges :=
    List.forall_mem_map.mpr fun q hq => hranges q.1 (hdivides.mem_of_families hq)
  have hloop := yields_familyLoop hc
    ((List.forall₂_and_left _ _).mpr ⟨hfamilies, hdivides.forall₂_families⟩)
    fun x f hf => StateLayout.finished_slot hf x
  exact (yields_scalarBody hc hscalars 0).bind fun scalars hscalars => hloop.bind fun loop hloop =>
    .pure (List.forall_mem_append.mpr ⟨hscalars, hloop⟩)

theorem yields_flatBody {pairs : List (String × Expr K)} (hc : c.Closed)
    (hpairs : ∀ q ∈ pairs, q.2.hasIndexStructure = false) (k : Nat) :
    Lowering.Yields (Fails c.zeroFill) (fun body => ∀ s ∈ body, s.Finished 1 [])
      (flatBody c k pairs) := by
  induction pairs generalizing k with
  | nil => exact .pure (List.forall_mem_nil _)
  | cons q pairs ih =>
    obtain ⟨hq, hpairs⟩ := List.forall_mem_cons.mp hpairs
    have hcovers : IndexScope.Covers [] (q.2.occurrences []) := by
      intro i hi
      obtain ⟨name, hname⟩ := Expr.occurrences_scalar [] q.2 hq _ hi
      cases hname
    let c' : LoweringContext K := { c with equation := .scalar q.1 }
    have hclosed : c'.Closed := ⟨hc.names, hc.rules⟩
    have hlower : Lowering.Yields (Fails c'.zeroFill) (c'.Fits [] true) (q.2.lower c' []) :=
      q.2.yields_lower c' [] [] (List.nil_subset _) hcovers fun _ => hq
    refine hlower.bind fun value hvalue => (ih hpairs (k + 1)).bind fun body hbody => ?_
    exact .pure (List.forall_mem_cons.mpr
      ⟨.assign (.const _) ⟨hvalue.settled hclosed rfl, hvalue.vars hclosed⟩, hbody⟩)

end Bodies

/-! ## Generating -/

variable [Literal K]

/-- The system with what is missing set to zero, as it is split. -/
def EquationSystem.completed (system : EquationSystem K) (params : List (Expr K)) :
    EquationSystem K :=
  system.eliminate (missingIndexed system.rhss system.targets (params ++ timeExpr system.time))

/-- **Why a system has no procedure.** -/
inductive EquationSystem.Refused (system : EquationSystem K) (params : List (Expr K))
    (options : Options) : Error K → Prop
  | missingSymbols {symbols : List FreeSymbol} (hfill : options.unknownsZero = false)
      (hsymbols : symbols ≠ []) : Refused system params options (.missingSymbols symbols)
  /-- The only left-hand side that is refused is an indexed symbol without indices. -/
  | invalidTarget {e : Equation K} {base : String} (he : e ∈ system.equations)
      (hlhs : e.lhs = .indexed ⟨base, []⟩) :
      Refused system params options (.system (.invalidTarget (.indexed ⟨base, []⟩)))
  | invalidParameter (fault : ParameterFault K) :
      Refused system params options (.invalidParameter fault)
  | unsupportedDepth {e : Equation K} (depth : Nat) (he : e ∈ system.equations)
      (hindices : 2 ≤ e.lhs.indices.length) :
      Refused system params options (.unsupportedDepth e.lhs depth)
  /-- Indices are inconsistent only if the system cannot be split for that reason. -/
  | inconsistentIndex {equation : Target} {fault : IndexFault}
      (hsplit : Split.ofSystem (system.completed params) =
        .error (.inconsistentIndex equation fault))
      (hfault : ∀ i, fault ≠ .notBound i) :
      Refused system params options (.inconsistentIndex equation fault)
  | incompatibleIndex (s : Indexed) : Refused system params options (.incompatibleIndex s)
  | relabelLimit {required : Nat} (h : options.maxRelabelRules < required) :
      Refused system params options (.relabelLimit required options.maxRelabelRules)

section Generate

open EquationSystem (Refused)

variable {system : EquationSystem K} {params : List (Expr K)} {options : Options}

theorem refused_of_fails {e : Error K} (h : Lowering.Fails options.unknownsZero e) :
    system.Refused params options e := by
  cases h with
  | missingSymbols hfill hsymbols => exact .missingSymbols hfill hsymbols
  | incompatibleIndex s => exact .incompatibleIndex s

theorem yields_ensureComplete (missing : List FreeSymbol) :
    Yields (system.Refused params options) (fun _ => True)
      (ensureComplete missing options.unknownsZero) := by
  unfold ensureComplete
  split
  · trivial
  · next hcomplete =>
    rw [Bool.not_eq_true, Bool.or_eq_false_iff] at hcomplete
    exact .missingSymbols hcomplete.2 fun hnil => by simp [hnil] at hcomplete

theorem yields_build (states : StateLayout K) (layout : ParamLayout) (declared : List Index) :
    Yields (system.Refused params options)
      (fun rules => rules = .ofDecls declared (RuleSet.declarations states layout))
      (RuleSet.build states layout declared options.maxRelabelRules) := by
  unfold RuleSet.build
  dsimp only
  split
  · next hlimit => exact .relabelLimit hlimit
  · exact rfl

/-- A system that cannot be split is refused. -/
theorem refused_of_split {err : Error K}
    (h : Split.ofSystem (system.completed params) = .error err) :
    system.Refused params options err := by
  obtain ⟨e, he, hrejects⟩ := (Split.yields_ofSystem _).error h
  obtain ⟨e', he', hlhs⟩ := EquationSystem.exists_of_mem_eliminate he
  cases hrejects with
  | unsupportedDepth depth hindices =>
    rw [← hlhs] at hindices ⊢
    exact .unsupportedDepth depth he' hindices
  | inconsistentIndex hfault => exact .inconsistentIndex h hfault

/-- Statements that are finished are put together to a procedure. -/
theorem yields_finishProcedure {x : Lowering K (List (Stmt K))}
    (hx : Lowering.Yields (Lowering.Fails options.unknownsZero)
      (fun body => ∀ s ∈ body, s.Finished 1 []) x) (states : StateLayout K)
    (layout : ParamLayout) :
    Yields (system.Refused params options) (fun _ => True)
      (x.run 0 >>= fun r => finishProcedure options states layout r.1) := by
  refine ((hx 0).mono (fun _ => refused_of_fails) fun _ => id).bind fun r hr => ?_
  obtain ⟨p, hp⟩ := finishProcedure_of_finished hr
  exact .of_ok trivial hp

theorem yields_generateIndexed (htagged : system.Tagged) :
    Yields (system.Refused params options) (fun _ => True)
      (generateIndexed system params options) := by
  refine (yields_ensureComplete _).bind fun _ _ => ?_
  refine (Yields.of_error fun _ => refused_of_split).bind fun split hsplit => ?_
  refine (ParamLayout.yields_ofParams .invalidParameter params).bind fun layout _ => ?_
  refine (yields_scalarNodes .invalidParameter _ layout _).bind fun names hnames => ?_
  refine (yields_build _ layout _).bind fun rules hrules => ?_
  obtain rfl := hrules
  have hranges := Split.ranges_of_ofSystem (htagged.eliminate _) hsplit
  exact yields_finishProcedure (yields_splitBody (Split.divides_ofSystem hsplit) hranges
    (closed_context hnames _ _ _ _) rfl) _ _

theorem yields_flatStates {es : List (Equation K)} {seen : List String}
    (hes : ∀ e ∈ es, e ∈ system.equations ∧ e.lhs.indices = [])
    (hnodup : (es.map (·.lhs.state)).Nodup) (hseen : ∀ e ∈ es, e.lhs.state ∉ seen) :
    Yields (system.Refused params options) (fun _ => True)
      (flatStates seen (es.map (·.lhs.toExpr))) := by
  induction es generalizing seen with
  | nil => trivial
  | cons e es ih =>
    obtain ⟨⟨he, hindices⟩, hes⟩ := List.forall_mem_cons.mp hes
    obtain ⟨hnew, hnodup⟩ := List.nodup_cons.mp hnodup
    obtain ⟨hunseen, hseen⟩ := List.forall_mem_cons.mp hseen
    rw [List.map_cons]
    cases hlhs : e.lhs with
    | indexed t =>
      obtain ⟨base, indices⟩ := t
      rw [hlhs] at hindices
      obtain rfl : indices = [] := hindices
      exact .invalidTarget he hlhs
    | scalar name =>
      obtain rfl : e.lhs.state = name := congrArg Target.state hlhs
      rw [Target.toExpr, flatStates, if_neg hunseen]
      refine (ih hes hnodup fun e' he' => ?_).bind fun _ _ => trivial
      refine List.not_mem_cons_of_ne_of_not_mem (fun hstate => hnew ?_) (hseen e' he')
      exact List.mem_map.mpr ⟨e', he', hstate⟩

theorem hasIndexStructure_cleared {missing : List FreeSymbol} {e : Expr K}
    (h : e.hasIndexStructure = false) : (e.cleared missing).hasIndexStructure = false := by
  unfold Expr.cleared
  split
  · exact h
  · exact Expr.hasIndexStructure_eliminate h

theorem yields_generateFlat (hnodup : (system.equations.map (·.lhs.state)).Nodup)
    (hflat : ∀ e ∈ system.equations, e.lhs.indices = [] ∧ e.rhs.hasIndexStructure = false) :
    Yields (system.Refused params options) (fun _ => True)
      (generateFlat system.rhss system.targets params system.time options) := by
  have hlength : system.rhss.length = system.targets.length := by
    simp [EquationSystem.rhss, EquationSystem.targets]
  rw [generateFlat, if_neg (not_not.mpr hlength)]
  refine (yields_flatStates (fun e he => ⟨he, (hflat e he).1⟩) hnodup (by simp)).bind
    fun states _ => ?_
  refine (yields_ensureComplete _).bind fun _ _ => ?_
  refine (ParamLayout.yields_ofParams .invalidParameter params).bind fun layout _ => ?_
  refine (yields_scalarNodes .invalidParameter _ layout _).bind fun names hnames => ?_
  refine yields_finishProcedure (yields_flatBody ⟨hnames, fun s rule hrule => ?_⟩ ?_ 0) _ _
  · change (RuleSet.ofDecls [] []).resolve s = .access rule at hrule
    obtain ⟨d, hd, -⟩ := RuleSet.refers_of_resolve hrule
    cases hd
  · intro q hq
    rw [eliminateAll_eq] at hq
    obtain ⟨rhs, hrhs, hcleared⟩ := List.mem_map.mp (List.of_mem_zip hq).2
    obtain ⟨e, he, rfl⟩ := List.mem_map.mp hrhs
    exact hcleared ▸ hasIndexStructure_cleared (hflat e he).2

/-- **Generating a procedure gives one, or the system is refused.** -/
theorem yields_generate (hnodup : (system.equations.map (·.lhs.state)).Nodup)
    (htagged : system.Tagged) :
    Yields (system.Refused params options) (fun _ => True) (system.generate params options) := by
  unfold EquationSystem.generate
  split
  · next hflat =>
    rw [Bool.and_eq_true, Bool.not_eq_true'] at hflat
    exact yields_generateFlat hnodup (htagged.of_not_isIndexed hflat.1)
  · exact yields_generateIndexed htagged

end Generate

namespace EquationSystem

/-- **A system that has no procedure is refused for a reason of its own.**  What comes out of
generating one is one of the listed errors, so what is put together is never rejected by the check
of a procedure.  And once the system can be split, lowering finds every index, whatever the symbols
stand for. -/
theorem refused_of_generate {pairs : List (Expr K × Expr K)} {s : EquationSystem K}
    (hs : ofPairs pairs = .ok s) (time : Option String) (params : List (Expr K))
    (options : Options) :
    (∀ err, generate ⟨s.equations, time⟩ params options = .error err →
      Refused ⟨s.equations, time⟩ params options err) ∧
    ∀ split, Split.ofSystem (completed ⟨s.equations, time⟩ params) = .ok split →
      ∀ (c : LoweringContext K) (n : Nat) (equation : Target) (fault : IndexFault),
        (∀ e ∈ split.scalars, e.rhs.lower c [] n ≠ .error (.inconsistentIndex equation fault)) ∧
        ∀ q ∈ split.families, ∀ x,
          q.1.rhs.lower c [(q.2, x)] n ≠ .error (.inconsistentIndex equation fault) := by
  have htagged : Tagged ⟨s.equations, time⟩ := fun e he => tagged_ofPairs hs e he
  have hnodup : (s.equations.map (·.lhs.state)).Nodup := nodup_states hs
  have hyields : Yields (Refused ⟨s.equations, time⟩ params options) (fun _ => True)
    (generate ⟨s.equations, time⟩ params options) := yields_generate hnodup htagged
  refine ⟨fun err herr => hyields.error herr, ?_⟩
  intro split hsplit c n equation fault
  have hdivides := Split.divides_ofSystem hsplit
  have hranges := Split.ranges_of_ofSystem (htagged.eliminate _) hsplit
  refine ⟨fun e he => ?_, fun q hq x => ?_⟩
  · have hlower :=
      (hranges e (hdivides.mem_of_scalars he)).lower_ne_inconsistent c "" n equation fault
    rwa [hdivides.indices_scalars e he] at hlower
  · have hlower :=
      (hranges q.1 (hdivides.mem_of_families hq)).lower_ne_inconsistent c x n equation fault
    rwa [hdivides.own q hq] at hlower

/-- Parameters over one site more than the states. -/
def longParams : List (Expr ℚ) := [.symbol "a", .indexed ⟨"J", [⟨"k", .literal 1, .literal 3⟩]⟩]

theorem refused_of_generate_drivenChain :
    ofPairs (drivenChain.map fun e => (e.lhs.toExpr, e.rhs)) = .ok ⟨drivenChain, none⟩ ∧
      generate ⟨drivenChain, some "t"⟩ longParams {}
        = .error (.incompatibleIndex ⟨"J", [twoSites "i"]⟩) ∧
      Refused ⟨drivenChain, some "t"⟩ longParams {} (.incompatibleIndex ⟨"J", [twoSites "i"]⟩) ∧
      ∃ split, Split.ofSystem (completed ⟨drivenChain, some "t"⟩ longParams) = .ok split ∧
        ∀ c n equation fault, ∀ q ∈ split.families, ∀ x,
          q.1.rhs.lower c [(q.2, x)] n ≠ .error (.inconsistentIndex equation fault) := by
  have hs : ofPairs (drivenChain.map fun e => (e.lhs.toExpr, e.rhs)) = .ok ⟨drivenChain, none⟩ :=
    rfl
  have herr : generate ⟨drivenChain, some "t"⟩ longParams {}
    = .error (.incompatibleIndex ⟨"J", [twoSites "i"]⟩) := rfl
  obtain ⟨split, hsplit⟩ :
      ∃ split, Split.ofSystem (completed ⟨drivenChain, some "t"⟩ longParams) = .ok split := ⟨_, rfl⟩
  obtain ⟨hrefused, hlower⟩ := refused_of_generate hs (some "t") longParams {}
  exact ⟨hs, herr, hrefused _ herr, split, hsplit, fun c n equation fault =>
    (hlower split hsplit c n equation fault).2⟩

end EquationSystem

end Fluxion
