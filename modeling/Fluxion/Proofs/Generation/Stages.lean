import Fluxion.Generate
import Fluxion.Proofs.Lowering.FreshNames
import Fluxion.Proofs.Layout.ParamPlaces

/-!
# Proofs/Generation/Stages — what a generated procedure is made of

A procedure is generated in stages, each of which may fail.  `Stages` is what there is when none
has: the layouts of parameters and states, what symbols stand for, and how each equation was
lowered.  Both generators give the same picture (`EquationSystem.generate_stages`), a flat system
being one without families whose values are taken as they are:

    equation k without an index   ──▸   du[k] := value
    family f over an index        ──▸   for x in its range { du[slot f x] := value }

Everything about a generated procedure is read off its stages.
-/

namespace Fluxion

variable {K : Type}

/-! ## Splitting a system -/

theorem Index.sameRange_iff {i j : Index} :
    i.sameRange j = true ↔ i.lower = j.lower ∧ i.upper = j.upper := by
  rw [sameRange, Bool.and_eq_true, beq_iff_eq, beq_iff_eq]

/-- **How the equations of a system are split** by kind. -/
structure Split.Divides (s : Split K) (equations : List (Equation K)) : Prop where
  scalars : s.scalars = equations.filter (·.lhs.indices.isEmpty)
  families : s.families = equations.filterMap fun e => e.lhs.indices.head?.map (e, ·)
  own : ∀ f ∈ s.families, f.1.lhs.indices = [f.2]
  sameRange : ∀ f ∈ s.families, ∀ g ∈ s.families, f.2.lower = g.2.lower ∧ f.2.upper = g.2.upper

namespace Split

variable {s s' : Split K} {done : List (Equation K)} {e : Equation K}

/-- An equation has no index, or the one it ranges over. -/
theorem ownIndex_eq_ok {i : Option Index} (h : ownIndex e = .ok i) :
    e.lhs.indices = i.toList := by
  rw [ownIndex] at h
  split at h
  · obtain rfl := Except.ok.inj h
    assumption
  · cases h
  · obtain rfl := Except.ok.inj h
    assumption
  · cases h
  · cases h

theorem divides_scalar (h : s.Divides done) (he : e.lhs.indices = []) :
    Divides { s with scalars := s.scalars ++ [e] } (done ++ [e]) where
  scalars := by simp [h.scalars, he]
  families := by simp [h.families, he]
  own := h.own
  sameRange := h.sameRange

theorem divides_family {i : Index} (h : s.Divides done) (he : e.lhs.indices = [i])
    (hrange : ∀ f ∈ s.families, f.2.lower = i.lower ∧ f.2.upper = i.upper) :
    Divides { s with families := s.families ++ [(e, i)] } (done ++ [e]) where
  scalars := by simp [h.scalars, he]
  families := by simp [h.families, he]
  own f hf := by
    rcases List.mem_append.mp hf with hf | hf
    · exact h.own f hf
    · rw [List.mem_singleton.mp hf]
      exact he
  sameRange f hf g hg := by
    have hall : ∀ f ∈ s.families ++ [(e, i)], f.2.lower = i.lower ∧ f.2.upper = i.upper := by
      intro f hf
      rcases List.mem_append.mp hf with hf | hf
      · exact hrange f hf
      · rw [List.mem_singleton.mp hf]
        exact ⟨rfl, rfl⟩
    obtain ⟨hl, hu⟩ := hall f hf
    obtain ⟨hl', hu'⟩ := hall g hg
    exact ⟨hl.trans hl'.symm, hu.trans hu'.symm⟩

/-- Adding an equation splits it off by its kind. -/
theorem divides_add (h : s.Divides done) (hadd : s.add e = .ok s') : s'.Divides (done ++ [e]) := by
  obtain ⟨i, hi, hadd⟩ := ok_of_bind hadd
  have he := ownIndex_eq_ok hi
  cases i with
  | none =>
    obtain rfl := Except.ok.inj hadd
    exact divides_scalar h he
  | some i =>
    dsimp only at hadd
    split at hadd
    · next e₀ first rest hfamilies =>
      split at hadd
      · next hrange =>
        obtain rfl := Except.ok.inj hadd
        refine divides_family h he fun f hf => ?_
        have hfirst := h.sameRange f hf (e₀, first) (hfamilies ▸ List.mem_cons_self)
        obtain ⟨hl, hu⟩ := Index.sameRange_iff.mp hrange
        exact ⟨hfirst.1.trans hl, hfirst.2.trans hu⟩
      · cases hadd
    · next hfamilies =>
      obtain rfl := Except.ok.inj hadd
      have hsplit := divides_family h he fun f hf => absurd (hfamilies ▸ hf) List.not_mem_nil
      rwa [hfamilies] at hsplit

/-- **The equations of a system, split.** -/
theorem divides_ofSystem {system : EquationSystem K} (h : ofSystem system = .ok s) :
    s.Divides system.equations :=
  foldlM_induction (fun done s => s.Divides done) h ⟨rfl, rfl, nofun, nofun⟩
    fun _ _ _ _ => divides_add

theorem Divides.indices_scalars (h : s.Divides done) : ∀ e ∈ s.scalars, e.lhs.indices = [] := by
  intro e he
  rw [h.scalars] at he
  exact List.isEmpty_iff.mp (List.mem_filter.mp he).2

end Split

/-! ## Missing symbols -/

/-- What scalar symbols are declared: states, parameters and the time. -/
def EquationSystem.DeclaresScalar (system : EquationSystem K) (params : List (Expr K))
    (name : String) : Prop :=
  .scalar name ∈ system.equations.map (·.lhs) ∨ .symbol name ∈ params ∨ system.time = some name

section Missing

variable {s : FreeSymbol} {name : String} {known : List FreeSymbol} {rhs lhs params : List (Expr K)}
  {system : EquationSystem K}

theorem mem_freeSymbols {e : Expr K} : s ∈ e.freeSymbols ↔ s ∈ e.occurrences [] := mem_firsts

theorem mem_missingAmong :
    s ∈ missingAmong known rhs ↔ (∃ e ∈ rhs, s ∈ e.freeSymbols) ∧ s ∉ known := by
  rw [missingAmong, mem_firsts, List.mem_filter, List.mem_flatMap, decide_eq_true_iff]

theorem mem_missingIndexed : s ∈ missingIndexed rhs lhs params ↔ (∃ e ∈ rhs, s ∈ e.freeSymbols) ∧
    s ∉ (lhs ++ params).flatMap Expr.freeSymbols ∧ ∃ name, s = .scalar name := by
  rw [missingIndexed, List.mem_filter, mem_missingAmong, and_assoc]
  cases s <;> simp [FreeSymbol.isIndexLike]

theorem mem_missingFlat : s ∈ missingFlat rhs lhs params ↔ (∃ e ∈ rhs, s ∈ e.freeSymbols) ∧
    s ∉ (lhs ++ params).filterMap Expr.declared? := mem_missingAmong

/-- The only scalar that is free in a symbol is itself, and none is free in an indexed symbol. -/
theorem scalar_mem_freeSymbols {e : Expr K} {d : FreeSymbol} (he : e.declared? = some d) :
    .scalar name ∈ e.freeSymbols ↔ e = .symbol name := by
  rw [mem_freeSymbols]
  cases e with
  | symbol x => simp [Expr.occurrences, eq_comm]
  | indexed t => simp [Expr.occurrences, Expr.unbound]
  | _ => cases he

theorem declared?_eq_scalar {e : Expr K} :
    e.declared? = some (.scalar name) ↔ e = .symbol name := by
  cases e <;> simp [Expr.declared?]

/-- **What is declared** stands among the states, the parameters and the time. -/
theorem symbol_mem_iff : .symbol name ∈ system.targets ++ (params ++ timeExpr system.time) ↔
    system.DeclaresScalar params name := by
  have htarget : ∀ t : Target, (t.toExpr : Expr K) = .symbol name ↔ t = .scalar name := by
    intro t
    cases t <;> simp [Target.toExpr]
  rw [EquationSystem.DeclaresScalar, EquationSystem.targets, timeExpr, List.mem_append,
    List.mem_append, List.mem_map, List.mem_map, List.mem_map]
  simp [htarget]

/-- Every declaration declares something. -/
def Declares (es : List (Expr K)) : Prop := ∀ e ∈ es, ∃ d, e.declared? = some d

theorem declares_targets : Declares system.targets := by
  intro e he
  obtain ⟨q, -, rfl⟩ := List.mem_map.mp he
  cases hq : q.lhs with
  | scalar x => exact ⟨_, rfl⟩
  | indexed t => exact ⟨_, rfl⟩

theorem ParamLayout.Places.declares {layout : ParamLayout} (h : layout.Places params) :
    Declares params := by
  intro e he
  rcases h.placed e he with ⟨x, -, rfl, -⟩ | ⟨f, -, rfl⟩
  · exact ⟨_, rfl⟩
  · exact ⟨_, rfl⟩

theorem declares_all (h : Declares params) :
    Declares (system.targets ++ (params ++ timeExpr system.time)) := by
  intro e he
  rcases List.mem_append.mp he with he | he
  · exact declares_targets e he
  rcases List.mem_append.mp he with he | he
  · exact h e he
  · obtain ⟨x, -, rfl⟩ := List.mem_map.mp he
    exact ⟨_, rfl⟩

theorem scalar_mem_flatMap {es : List (Expr K)} (h : Declares es) :
    .scalar name ∈ es.flatMap Expr.freeSymbols ↔ .symbol name ∈ es := by
  rw [List.mem_flatMap]
  constructor
  · rintro ⟨e, he, hname⟩
    obtain ⟨d, hd⟩ := h e he
    exact (scalar_mem_freeSymbols hd).mp hname ▸ he
  · intro he
    exact ⟨_, he, (scalar_mem_freeSymbols rfl).mpr rfl⟩

theorem scalar_mem_filterMap {es : List (Expr K)} :
    .scalar name ∈ es.filterMap Expr.declared? ↔ .symbol name ∈ es := by
  rw [List.mem_filterMap]
  simp only [declared?_eq_scalar, exists_eq_right]

/-- **What is missing**: scalars that are not declared, and all of them. -/
structure EquationSystem.Undeclared (system : EquationSystem K) (params : List (Expr K))
    (missing : List FreeSymbol) : Prop where
  undeclared : ∀ s ∈ missing, ∃ name, s = .scalar name ∧ ¬system.DeclaresScalar params name
  covered : ∀ e ∈ system.equations, ∀ name, .scalar name ∈ e.rhs.freeSymbols →
    .scalar name ∉ missing → system.DeclaresScalar params name

theorem undeclared_missingIndexed (h : Declares params) :
    system.Undeclared params
      (missingIndexed system.rhss system.targets (params ++ timeExpr system.time)) where
  undeclared s hs := by
    obtain ⟨-, hknown, name, rfl⟩ := mem_missingIndexed.mp hs
    rw [scalar_mem_flatMap (declares_all h), symbol_mem_iff] at hknown
    exact ⟨name, rfl, hknown⟩
  covered e he name hname hmissing := by
    rw [mem_missingIndexed, scalar_mem_flatMap (declares_all h), symbol_mem_iff] at hmissing
    by_contra hdeclared
    exact hmissing ⟨⟨e.rhs, List.mem_map_of_mem he, hname⟩, hdeclared, name, rfl⟩

mutual

/-- Without index structure only scalars occur. -/
theorem Expr.occurrences_scalar (bound : List Index) : ∀ e : Expr K, e.hasIndexStructure = false →
    ∀ s ∈ e.occurrences bound, ∃ name, s = .scalar name
  | .number _, _ => nofun
  | .imaginaryUnit, _ => nofun
  | .symbol name, _ => fun s hs => ⟨name, List.mem_singleton.mp hs⟩
  | .add terms, h => occurrencesAll_scalar bound terms h
  | .mul factors, h => occurrencesAll_scalar bound factors h
  | .call _ args, h => occurrencesAll_scalar bound args h
  | .neg inner, h => occurrences_scalar bound inner h
  | .pow base exponent, h => fun s hs => by
    obtain ⟨hb, he⟩ := Bool.or_eq_false_iff.mp h
    rcases List.mem_append.mp hs with hs | hs
    · exact occurrences_scalar bound base hb s hs
    · exact occurrences_scalar bound exponent he s hs

theorem Expr.occurrencesAll_scalar (bound : List Index) : ∀ es : List (Expr K),
    Expr.hasIndexStructureAny es = false → ∀ s ∈ Expr.occurrencesAll bound es, ∃ name, s =
      .scalar name
  | [], _ => nofun
  | e :: es, h => fun s hs => by
    obtain ⟨he, hes⟩ := Bool.or_eq_false_iff.mp h
    rcases List.mem_append.mp hs with hs | hs
    · exact occurrences_scalar bound e he s hs
    · exact occurrencesAll_scalar bound es hes s hs

end

theorem undeclared_missingFlat (h : ∀ e ∈ system.equations, e.rhs.hasIndexStructure = false) :
    system.Undeclared params
      (missingFlat system.rhss system.targets (params ++ timeExpr system.time)) where
  undeclared s hs := by
    obtain ⟨⟨e, he, hs⟩, hknown⟩ := mem_missingFlat.mp hs
    obtain ⟨q, hq, rfl⟩ := List.mem_map.mp he
    obtain ⟨name, rfl⟩ := Expr.occurrences_scalar [] q.rhs (h q hq) s (mem_freeSymbols.mp hs)
    rw [scalar_mem_filterMap, symbol_mem_iff] at hknown
    exact ⟨name, rfl, hknown⟩
  covered e he name hname hmissing := by
    rw [mem_missingFlat, scalar_mem_filterMap, symbol_mem_iff] at hmissing
    by_contra hdeclared
    exact hmissing ⟨⟨e.rhs, List.mem_map_of_mem he, hname⟩, hdeclared⟩

theorem ensureComplete_eq_ok {missing : List FreeSymbol} {zeroFill : Bool}
    (h : ensureComplete (K := K) missing zeroFill = .ok ())
    (hmissing : missing ≠ []) : zeroFill = true := by
  rw [ensureComplete] at h
  split at h
  · next hor =>
    rcases Bool.or_eq_true_iff.mp hor with hempty | hzero
    · exact absurd (List.isEmpty_iff.mp hempty) hmissing
    · exact hzero
  · cases h

end Missing

/-! ## Systems without indices -/

section Flat

variable {system : EquationSystem K}

theorem flatStates_eq_ok {seen states : List String} {lhs : List (Expr K)}
    (h : flatStates seen lhs = .ok states) : lhs = states.map .symbol := by
  induction lhs generalizing seen states with
  | nil =>
    obtain rfl := Except.ok.inj h
    rfl
  | cons e lhs ih =>
    cases e with
    | symbol name =>
      rw [flatStates] at h
      split at h
      · cases h
      · obtain ⟨rest, hrest, h⟩ := ok_of_bind h
        obtain rfl := Except.ok.inj h
        rw [ih hrest, List.map_cons]
    | _ => cases h

@[simp] theorem Target.ofExpr?_toExpr (t : Target) :
    Target.ofExpr? (t.toExpr : Expr K) = some t := by
  cases t <;> rfl

/-- The states of a flat system are scalars. -/
theorem lhs_of_flatStates {seen states : List String}
    (h : flatStates seen system.targets = .ok states) :
    system.equations.map (·.lhs) = states.map .scalar := by
  have htargets := congrArg (List.map Target.ofExpr?) (flatStates_eq_ok h)
  rw [EquationSystem.targets, List.map_map, List.map_map] at htargets
  refine List.map_injective_iff.mpr (fun _ _ => Option.some.inj) ?_
  simp only [Function.comp_def, Target.ofExpr?_toExpr] at htargets
  rw [List.map_map, List.map_map]
  exact htargets

/-- The equations of states and right-hand sides side by side. -/
def flatEquations (pairs : List (String × Expr K)) : List (Equation K) :=
  pairs.map fun q => .of (.scalar q.1) q.2

theorem divides_flatEquations (pairs : List (String × Expr K)) :
    Split.Divides ⟨flatEquations pairs, []⟩ (flatEquations pairs) where
  scalars := by
    refine (List.filter_eq_self.mpr fun e he => ?_).symm
    obtain ⟨q, -, rfl⟩ := List.mem_map.mp he
    rfl
  families := by
    refine (List.filterMap_eq_nil_iff.mpr fun e he => ?_).symm
    obtain ⟨q, -, rfl⟩ := List.mem_map.mp he
    rfl
  own := nofun
  sameRange := nofun

/-- Parameters that are plain symbols make no family. -/
theorem ParamLayout.families_of_symbols {params : List (Expr K)} {layout : ParamLayout}
    (hparams : params.all Expr.isSymbol = true) (h : ParamLayout.ofParams params = .ok layout) :
    layout.families = [] := by
  refine List.eq_nil_iff_forall_not_mem.mpr fun f hf => ?_
  cases List.all_eq_true.mp hparams _ ((ParamLayout.places_ofParams h).family f hf).1

end Flat

variable [Literal K]

/-! ## Bodies -/

/-- An expression lowers to a node, whatever names have been made up before. -/
def Expr.LowersTo (c : LoweringContext K) (scope : IndexScope) (e : Expr K) (n : Node K) : Prop :=
  ∃ i j, e.lower c scope i = .ok (n, j)

/-- The right-hand side of an equation lowers to a node, its own index being a variable. -/
def Equation.LowersTo (c : LoweringContext K) (x : String) (e : Equation K) (n : Node K) : Prop :=
  e.rhs.LowersTo { c with equation := e.lhs } (e.lhs.indices.map (·, x)) n

/-- Consecutive slots. -/
def slotsFrom (k count : Nat) : List (Node K) := (List.range' k count).map fun j : Nat => .ofInt j

/-- The loop over some families that assigns these values, if there are any families. -/
def loopOver (layout : ParamLayout) (x : String) (fs : List (StateFamily K))
    (values : List (Node K)) : List (Stmt K) :=
  match fs with
  | [] => []
  | f :: _ => [.loop x (layout.boundNode f.index.lower) (layout.boundNode f.index.upper)
      (.zipWith .assign (fs.map (·.slot layout (.var x))) values)]

section Bodies

variable {c : LoweringContext K} {es : List (Equation K)} {k n : Nat} {r : List (Stmt K) × Nat}

theorem scalarBody_eq_ok (h : scalarBody c k es n = .ok r) (hes : ∀ e ∈ es, e.lhs.indices = [])
    (x : String) :
    ∃ values, List.Forall₂ (Equation.LowersTo c x) es values ∧
      r.1 = .zipWith .assign (slotsFrom k es.length) (values.map Node.normalize) := by
  induction es generalizing k n r with
  | nil =>
    obtain rfl := Except.ok.inj h
    exact ⟨[], .nil, rfl⟩
  | cons e es ih =>
    obtain ⟨value, n₁, hvalue, h⟩ := Lowering.ok_of_bind h
    obtain ⟨body, n₂, hbody, h⟩ := Lowering.ok_of_bind h
    obtain rfl := Except.ok.inj h
    obtain ⟨he, hes⟩ := List.forall_mem_cons.mp hes
    obtain ⟨values, hvalues, hrest⟩ := ih hbody hes
    refine ⟨value :: values, .cons ⟨n, n₁, ?_⟩ hvalues, congrArg (_ :: ·) hrest⟩
    rwa [he]

theorem flatBody_eq_ok {pairs : List (String × Expr K)} (h : flatBody c k pairs n = .ok r)
    (x : String) :
    ∃ values, List.Forall₂ (Equation.LowersTo c x)
      (pairs.map fun q => .of (.scalar q.1) q.2) values ∧
      r.1 = .zipWith .assign (slotsFrom k pairs.length) values := by
  induction pairs generalizing k n r with
  | nil =>
    obtain rfl := Except.ok.inj h
    exact ⟨[], .nil, rfl⟩
  | cons q pairs ih =>
    obtain ⟨value, n₁, hvalue, h⟩ := Lowering.ok_of_bind h
    obtain ⟨body, n₂, hbody, h⟩ := Lowering.ok_of_bind h
    obtain rfl := Except.ok.inj h
    obtain ⟨values, hvalues, hrest⟩ := ih hbody
    exact ⟨value :: values, .cons ⟨n, n₁, hvalue⟩ hvalues, congrArg (_ :: ·) hrest⟩

theorem familyBody_eq_ok {x : String} {fs : List (StateFamily K)}
    (h : familyBody c x es fs n = .ok r)
    (hes : List.Forall₂ (fun e f => e.lhs.indices = [f.index]) es fs) :
    ∃ values, List.Forall₂ (Equation.LowersTo c x) es values ∧
      r.1 = .zipWith .assign (fs.map (·.slot c.params (.var x))) (values.map Node.normalize) := by
  induction hes generalizing n r with
  | nil =>
    obtain rfl := Except.ok.inj h
    exact ⟨[], .nil, rfl⟩
  | cons he _ ih =>
    obtain ⟨value, n₁, hvalue, h⟩ := Lowering.ok_of_bind h
    obtain ⟨body, n₂, hbody, h⟩ := Lowering.ok_of_bind h
    obtain rfl := Except.ok.inj h
    obtain ⟨values, hvalues, hrest⟩ := ih hbody
    refine ⟨value :: values, .cons ⟨n, n₁, ?_⟩ hvalues, congrArg (_ :: ·) hrest⟩
    rwa [he]

theorem familyLoop_eq_ok {fs : List (StateFamily K)} (h : familyLoop c es fs n = .ok r)
    (hes : List.Forall₂ (fun e f => e.lhs.indices = [f.index]) es fs) :
    ∃ x values, (es ≠ [] → x ∉ c.reserved) ∧
      List.Forall₂ (Equation.LowersTo { c with reserved := x :: c.reserved } x) es values ∧
      r.1 = loopOver c.params x fs (values.map Node.normalize) := by
  cases hes with
  | nil =>
    obtain rfl := Except.ok.inj h
    exact ⟨"", [], fun hne => absurd rfl hne, .nil, rfl⟩
  | cons he hes =>
    obtain ⟨x, n₁, hx, h⟩ := Lowering.ok_of_bind h
    obtain ⟨body, n₂, hbody, h⟩ := Lowering.ok_of_bind h
    obtain rfl := Except.ok.inj h
    obtain ⟨values, hvalues, rfl⟩ := familyBody_eq_ok hbody (.cons he hes)
    have hfresh := LoweringContext.not_mem_taken hx
    exact ⟨x, values, fun _ hmem => hfresh (List.mem_append_left _ hmem), hvalues, rfl⟩

end Bodies

/-! ## Stages -/

/-- A right-hand side as it is lowered, with missing symbols set to zero. -/
def Expr.cleared (missing : List FreeSymbol) (e : Expr K) : Expr K :=
  if missing.isEmpty then e else e.eliminate missing

/-- **What generating a procedure has gone through.** -/
structure Stages (K : Type) where
  /-- The symbols that are set to zero. -/
  missing : List FreeSymbol
  /-- The equations, with missing symbols set to zero. -/
  equations : List (Equation K)
  split : Split K
  layout : ParamLayout
  /-- What scalar symbols stand for. -/
  names : List (String × Node K)
  /-- What is done to a lowered value. -/
  finish : Node K → Node K
  /-- The variable of the loop over all families. -/
  var : String
  /-- The lowered values of scalar equations. -/
  scalars : List (Node K)
  /-- The lowered values of families. -/
  families : List (Node K)

namespace Stages

variable (g : Stages K)

/-- Where states live. -/
def states : StateLayout K := .ofSplit g.split g.layout

/-- What indexed symbols refer to. -/
def rules : RuleSet K :=
  .ofDecls (declaredIndices ⟨g.equations, none⟩ g.layout) (RuleSet.declarations g.states g.layout)

/-- What scalar equations are lowered in. -/
def context (options : Options) : LoweringContext K :=
  ⟨g.names, g.rules, g.layout, options.unknownsZero, options.naming.reserved, .scalar ""⟩

/-- What families are lowered in: the variable of the loop is taken. -/
def familyContext (options : Options) : LoweringContext K :=
  { g.context options with reserved := g.var :: options.naming.reserved }

/-- The statements, before names get one spelling. -/
def body : List (Stmt K) :=
  .zipWith .assign (slotsFrom 0 g.split.scalars.length) (g.scalars.map g.finish) ++
    loopOver g.layout g.var g.states.families (g.families.map g.finish)

end Stages

/-- **Stages that lead from a system to its procedure.** -/
structure Stages.Lead (g : Stages K) (system : EquationSystem K) (params : List (Expr K))
    (options : Options) (p : Procedure K) : Prop where
  equations : g.equations.map (fun e => (e.lhs, e.rhs))
    = system.equations.map fun e => (e.lhs, e.rhs.cleared g.missing)
  zeroFill : g.missing ≠ [] → options.unknownsZero = true
  missing : system.Undeclared params g.missing
  divides : g.split.Divides g.equations
  layout : ParamLayout.ofParams params = .ok g.layout
  names : scalarNodes g.states g.layout system.time = .ok g.names
  finish : g.finish = id ∨ g.finish = Node.normalize
  scalars : List.Forall₂ (Equation.LowersTo (g.context options) g.var) g.split.scalars g.scalars
  families : List.Forall₂ (Equation.LowersTo (g.familyContext options) g.var)
    (g.split.families.map (·.1)) g.families
  procedure : p = ⟨options.naming, g.states.entries, g.layout.entries, Stmt.canonical g.body,
    options.checkBounds⟩
  checked : p.checkStructure = .ok ()

/-- **What the generators take care of**: the variable of the loop is no argument, and values are
brought to normal form unless there is no index in them. -/
structure Stages.Neat (g : Stages K) (system : EquationSystem K) (options : Options) : Prop where
  var : g.split.families ≠ [] → g.var ∉ options.naming.reserved
  finish : g.finish = Node.normalize ∨
    g.finish = id ∧ ∀ e ∈ system.equations, e.rhs.hasIndexStructure = false

/-- A procedure is finished as it is, once its structure is checked. -/
theorem finishProcedure_eq_ok {options : Options} {states : StateLayout K} {layout : ParamLayout}
    {body : List (Stmt K)} {p : Procedure K}
    (h : finishProcedure options states layout body = .ok p) :
    p = ⟨options.naming, states.entries, layout.entries, Stmt.canonical body, options.checkBounds⟩ ∧
      p.checkStructure = .ok () := by
  rw [finishProcedure] at h
  split at h
  · next hchecked =>
    obtain rfl := Except.ok.inj h
    exact ⟨rfl, hchecked⟩
  · cases h

theorem finishProcedure_of_checked {options : Options} {states : StateLayout K}
    {layout : ParamLayout} {body : List (Stmt K)} {p : Procedure K}
    (hp : p = ⟨options.naming, states.entries, layout.entries, Stmt.canonical body,
      options.checkBounds⟩)
    (hchecked : p.checkStructure = .ok ()) :
    finishProcedure options states layout body = .ok p := by
  subst hp
  unfold finishProcedure
  simp only [hchecked]

section Generate

variable {system : EquationSystem K} {params : List (Expr K)} {options : Options} {p : Procedure K}
  {missing : List FreeSymbol}

theorem eliminateAll_eq (missing : List FreeSymbol) (es : List (Expr K)) :
    eliminateAll missing es = es.map (Expr.cleared missing) := by
  unfold eliminateAll Expr.cleared
  split
  · exact (List.map_id _).symm
  · rfl

/-- The state of an equation is declared, so no equation is dropped. -/
theorem EquationSystem.Undeclared.eliminate (h : system.Undeclared params missing) :
    (system.eliminate missing).equations.map (fun e => (e.lhs, e.rhs))
      = system.equations.map fun e => (e.lhs, e.rhs.cleared missing) := by
  have hkept : ∀ e ∈ system.equations, e.lhs.toFree ∉ missing := by
    intro e he hmissing
    obtain ⟨name, hname, hdeclared⟩ := h.undeclared _ hmissing
    cases hlhs : e.lhs with
    | indexed t =>
      rw [hlhs] at hname
      cases hname
    | scalar x =>
      rw [hlhs] at hname
      obtain rfl := FreeSymbol.scalar.inj hname
      exact hdeclared (.inl (hlhs ▸ List.mem_map_of_mem he))
  rw [EquationSystem.eliminate]
  split
  · next hempty => simp [Expr.cleared, hempty]
  · next hempty =>
    rw [List.filter_eq_self.mpr (by simpa using hkept), List.map_map]
    simp [Function.comp_def, Expr.cleared, hempty, Equation.of]

/-- The families of a layout are those of the split, in order. -/
theorem forall₂_placeFamilies (layout : ParamLayout) (start : Node K)
    (fs : List (Equation K × Index)) :
    List.Forall₂ (fun q f => f.base = q.1.lhs.state ∧ f.index = q.2) fs
      (StateLayout.placeFamilies layout start fs) := by
  induction fs generalizing start with
  | nil => exact .nil
  | cons q fs ih => exact .cons ⟨rfl, rfl⟩ (ih _)

theorem EquationSystem.time_eliminate (missing : List FreeSymbol) (system : EquationSystem K) :
    (system.eliminate missing).time = system.time := by
  rw [EquationSystem.eliminate]
  split <;> rfl

namespace Split.Divides

variable {split : Split K} {equations : List (Equation K)}

/-- Each family of the layout ranges over the index of its equation. -/
theorem forall₂_families (h : split.Divides equations) {layout : ParamLayout} {start : Node K} :
    List.Forall₂ (fun e f => e.lhs.indices = [f.index]) (split.families.map (·.1))
      (StateLayout.placeFamilies layout start split.families) := by
  rw [List.forall₂_map_left_iff]
  refine ((List.forall₂_and_left _ _).mpr ⟨h.own, forall₂_placeFamilies layout start _⟩).imp ?_
  rintro q f ⟨hown, -, hindex⟩
  rw [hown, hindex]

end Split.Divides

theorem RuleSet.build_eq_ok {states : StateLayout K} {layout : ParamLayout} {declared : List Index}
    {limit : Nat} {rules : RuleSet K} (h : RuleSet.build states layout declared limit = .ok rules) :
    rules = .ofDecls declared (declarations states layout) := by
  rw [RuleSet.build] at h
  split at h
  · cases h
  · exact (Except.ok.inj h).symm

theorem generateIndexed_stages (h : generateIndexed system params options = .ok p) :
    ∃ g : Stages K, g.Lead system params options p ∧ g.Neat system options := by
  obtain ⟨⟨⟩, hcomplete, h⟩ := ok_of_bind h
  obtain ⟨split, hsplit, h⟩ := ok_of_bind h
  obtain ⟨layout, hlayout, h⟩ := ok_of_bind h
  obtain ⟨names, hnames, h⟩ := ok_of_bind h
  obtain ⟨rules, hrules, h⟩ := ok_of_bind h
  obtain ⟨⟨body, n⟩, hbody, h⟩ := ok_of_bind h
  obtain ⟨scalars, n₁, hscalars, hbody⟩ := Lowering.ok_of_bind hbody
  obtain ⟨loop, n₂, hloop, hbody⟩ := Lowering.ok_of_bind hbody
  obtain ⟨rfl, rfl⟩ := Prod.mk.inj (Except.ok.inj hbody)
  obtain ⟨hp, hchecked⟩ := finishProcedure_eq_ok h
  have hmissing : system.Undeclared params _ :=
    undeclared_missingIndexed (ParamLayout.places_ofParams hlayout).declares
  generalize missingIndexed system.rhss system.targets (params ++ timeExpr system.time) =
    missing at *
  rw [EquationSystem.time_eliminate] at hnames
  obtain rfl := RuleSet.build_eq_ok hrules
  have hdivides := Split.divides_ofSystem hsplit
  obtain ⟨x, families, hvar, hfamilies, rfl⟩ := familyLoop_eq_ok hloop hdivides.forall₂_families
  obtain ⟨scalars, hlowered, rfl⟩ := scalarBody_eq_ok hscalars hdivides.indices_scalars x
  refine ⟨⟨missing, (system.eliminate missing).equations, split, layout, names, Node.normalize, x,
      scalars, families⟩, {
    equations := hmissing.eliminate
    zeroFill := ensureComplete_eq_ok hcomplete
    missing := hmissing
    divides := hdivides
    layout := hlayout
    names := hnames
    finish := .inr rfl
    scalars := hlowered
    families := hfamilies
    procedure := hp
    checked := hchecked }, ?_, .inl rfl⟩
  exact fun hne => hvar (List.map_eq_nil_iff.not.mpr hne)

theorem generateFlat_stages (hrhs : ∀ e ∈ system.equations, e.rhs.hasIndexStructure = false)
    (hparams : params.all Expr.isSymbol = true)
    (h : generateFlat system.rhss system.targets params system.time options = .ok p) :
    ∃ g : Stages K, g.Lead system params options p ∧ g.Neat system options := by
  rw [generateFlat] at h
  split at h
  · cases h
  next hlength =>
  obtain ⟨states, hstates, h⟩ := ok_of_bind h
  obtain ⟨⟨⟩, hcomplete, h⟩ := ok_of_bind h
  obtain ⟨layout, hlayout, h⟩ := ok_of_bind h
  obtain ⟨names, hnames, h⟩ := ok_of_bind h
  obtain ⟨⟨body, n⟩, hbody, h⟩ := ok_of_bind h
  obtain ⟨hp, hchecked⟩ := finishProcedure_eq_ok h
  have hmissing : system.Undeclared params _ := undeclared_missingFlat hrhs
  generalize missingFlat system.rhss system.targets (params ++ timeExpr system.time) = missing at *
  rw [eliminateAll_eq] at hbody
  have hlhs := lhs_of_flatStates hstates
  have hrhss : states.length ≤ (system.rhss.map (Expr.cleared missing)).length := by
    rw [← List.length_map (f := Target.scalar), ← hlhs]
    simp [EquationSystem.rhss]
  obtain ⟨values, hvalues, rfl⟩ := flatBody_eq_ok hbody ""
  have hstates : StateLayout.ofSplit
      ⟨flatEquations (states.zip (system.rhss.map (Expr.cleared missing))), []⟩ layout
      = .ofScalars states := by
    rw [StateLayout.ofSplit, flatEquations, List.map_map]
    exact congrArg StateLayout.ofScalars (List.map_fst_zip hrhss)
  have hfamilies : layout.families = [] := ParamLayout.families_of_symbols hparams hlayout
  let g : Stages K := ⟨missing, flatEquations (states.zip (system.rhss.map (Expr.cleared missing))),
    ⟨flatEquations (states.zip (system.rhss.map (Expr.cleared missing))), []⟩, layout,
    names, id, "",
    values, []⟩
  have hcontext : g.context options
      = ⟨names, .empty, layout, options.unknownsZero, options.naming.reserved, .scalar ""⟩ := by
    rw [Stages.context, Stages.rules, RuleSet.declarations, Stages.states, hstates, hfamilies]
    rfl
  refine ⟨g, {
    equations := ?_
    zeroFill := ensureComplete_eq_ok hcomplete
    missing := hmissing
    divides := divides_flatEquations _
    layout := hlayout
    names := by rwa [Stages.states, hstates]
    finish := .inl rfl
    scalars := by rwa [hcontext]
    families := .nil
    procedure := ?_
    checked := hchecked }, fun hne => absurd rfl hne, .inr ⟨rfl, hrhs⟩⟩
  · change (flatEquations _).map _ = _
    rw [flatEquations, List.map_map]
    change (states.zip _).map (Prod.map Target.scalar id) = _
    rw [← List.zip_map, ← hlhs, EquationSystem.rhss, List.map_id, List.map_map, List.zip_map']
    rfl
  · rw [hp, Stages.states, hstates, Stages.body, Stages.states, hstates]
    simp [g, flatEquations, loopOver, StateLayout.ofScalars]

/-- **A procedure that was generated has gone through the stages**, with care. -/
theorem EquationSystem.generate_neatStages (h : system.generate params options = .ok p) :
    ∃ g : Stages K, g.Lead system params options p ∧ g.Neat system options := by
  rw [EquationSystem.generate] at h
  split at h
  · next hflat =>
    obtain ⟨hindexed, hparams⟩ := Bool.and_eq_true_iff.mp hflat
    refine generateFlat_stages (fun e he => ?_) hparams h
    rw [Bool.not_eq_true', EquationSystem.isIndexed, List.any_eq_false] at hindexed
    have hequation := hindexed e he
    rw [Equation.isIndexed, Bool.not_eq_true, Bool.or_eq_false_iff] at hequation
    exact hequation.2
  · exact generateIndexed_stages h

theorem EquationSystem.generate_stages (h : system.generate params options = .ok p) :
    ∃ g : Stages K, g.Lead system params options p :=
  (generate_neatStages h).imp fun _ => And.left

end Generate

end Fluxion
