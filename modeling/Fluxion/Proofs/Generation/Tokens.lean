import Fluxion.Proofs.Machine.Lockstep
import Fluxion.Proofs.Generation.Renaming

/-!
# Proofs/Generation/Tokens — the names of arguments do not matter

The names of the four arguments are reserved, so other names for them can change the names of
variables.  That is all they change:

    options          ──▸   p   ──compile──▸   program with naming ν
    other tokens     ──▸   q   ──compile──▸   program with naming ν'

A system has a procedure under both or is refused with the same error; the programs have the same
code (`EquationSystem.agrees_withTokens`), and a run of one ends like a run of the other, apart from
the name of the array in its error.
-/

namespace Fluxion

variable {K : Type}

/-! ## Statements that differ in the names of variables -/

namespace Stmt

/-- **Statements that differ in the names of their variables.** -/
inductive Alike : Links → Stmt K → Stmt K → Prop
  | assign {ρ : Links} {slot slot' value value' : Node K} (hslot : slot.Alike ρ slot')
      (hvalue : value.Alike ρ value') : Alike ρ (.assign slot value) (.assign slot' value')
  | loop {ρ : Links} {x y : String} {lo lo' hi hi' : Node K} {ss ts : List (Stmt K)}
      (hx : x ∉ ρ.map (·.1)) (hy : y ∉ ρ.map (·.2)) (hlo : lo.Alike ρ lo') (hhi : hi.Alike ρ hi')
      (hlength : ss.length = ts.length) (h : ∀ q ∈ ss.zip ts, Alike ((x, y) :: ρ) q.1 q.2) :
      Alike ρ (.loop x lo hi ss) (.loop y lo' hi' ts)

variable {ρ : Links} {s t : Stmt K} {ss ts : List (Stmt K)}

theorem Alike.respell (h : s.Alike ρ t) :
    (s.transform Node.respell).Alike ρ (t.transform Node.respell) := by
  have hnode {ρ : Links} {m n : Node K} (h : m.Alike ρ n) :
      (m.transform Node.respell).Alike ρ (n.transform Node.respell) :=
    h.transform (fun _ => rfl) Node.Alike.respell
  induction h with
  | assign hslot hvalue => exact .assign (hnode hslot) (hnode hvalue)
  | loop hx hy hlo hhi hlength _ ih =>
    simp only [transform, transformAll_eq]
    refine .loop hx hy (hnode hlo) (hnode hhi) (by simpa using hlength) ?_
    rw [List.zip_map]
    exact List.forall_mem_map.mpr ih

theorem tokensAll_eq
    (h : List.Forall₂ (fun s t => s.subnodes.map Node.checkToken =
      t.subnodes.map Node.checkToken) ss ts) :
    (subnodesAll ss).map Node.checkToken = (subnodesAll ts).map Node.checkToken := by
  induction h with
  | nil => rfl
  | cons hst _ ih => simp [subnodesAll, hst, ih]

theorem Alike.tokens_eq (h : s.Alike ρ t) :
    s.subnodes.map Node.checkToken = t.subnodes.map Node.checkToken := by
  induction h with
  | assign hslot hvalue => simp [subnodes, hslot.tokens_eq, hvalue.tokens_eq]
  | loop _ _ hlo hhi hlength _ ih =>
    have hbody := tokensAll_eq (List.forall₂_iff_zip.mpr ⟨hlength, fun hq => ih _ hq⟩)
    simp [subnodes, hlo.tokens_eq, hhi.tokens_eq, hbody]

variable [Literal K]

theorem compileAll_eq {sc sc' : Scope}
    (h : List.Forall₂ (fun s t => ∀ start, s.compile sc start = t.compile sc' start) ss ts)
    (start : Place) : compileAll sc start ss = compileAll sc' start ts := by
  induction h generalizing start with
  | nil => rfl
  | cons hst _ ih => simp only [compileAll, hst, ih]

/-- **Alike statements have the same code.** -/
theorem Alike.compile_eq (h : s.Alike ρ t) {sc sc' : Scope} (hs : ρ.Placed sc sc') (start : Place) :
    s.compile sc start = t.compile sc' start := by
  induction h generalizing sc sc' start with
  | assign hslot hvalue => simp only [compile, hslot.compile_eq hs, hvalue.compile_eq hs]
  | loop hx hy hlo hhi hlength _ ih =>
    have hbody (k : Nat) := compileAll_eq
      (List.forall₂_iff_zip.mpr ⟨hlength, fun hq => ih _ hq (hs.cons hx hy k)⟩)
    simp only [compile, hlo.compile_eq hs, hhi.compile_eq hs, hbody]

end Stmt

/-! ## Procedures that differ in the names of variables -/

/-- **Procedures that differ in names**: those of their arguments and of their variables. -/
structure Procedure.Alike (p q : Procedure K) : Prop where
  states : p.states = q.states
  params : p.params = q.params
  body : List.Forall₂ (Stmt.Alike []) p.body q.body
  checkBounds : p.checkBounds = q.checkBounds
  left : p.checkStructure = .ok ()
  right : q.checkStructure = .ok ()

namespace Procedure.Alike

variable {p q : Procedure K}

theorem forM_congr {α ε : Type} {f : α → Except ε Unit} {l r : List α} (h : l.map f = r.map f) :
    l.forM f = r.forM f := by
  have hmap (l : List α) : l.forM f = (l.map f).forM id := by
    induction l with
    | nil => rfl
    | cons a l ih => exact congrArg (f a >>= fun _ => ·) ih
  rw [hmap, hmap, h]

theorem checkTokens_eq (h : p.Alike q) : p.checkTokens = q.checkTokens :=
  forM_congr (Stmt.tokensAll_eq (h.body.imp fun _ _ hst => hst.tokens_eq))

variable [Literal K]

/-- **The code is the same.** -/
theorem agrees_compile (h : p.Alike q) :
    Agrees (fun a b => b = ({ a.1 with naming := q.naming }, a.2)) p.compile q.compile := by
  have hcode : Stmt.compileAll [] ⟨0, 0, 0⟩ p.body = Stmt.compileAll [] ⟨0, 0, 0⟩ q.body :=
    Stmt.compileAll_eq (h.body.imp fun _ _ hst => hst.compile_eq (List.forall_mem_nil _)) _
  rw [Procedure.compile, Procedure.compile, ← hcode, ← h.checkBounds]
  exact .bindSame fun piece _ => rfl

theorem agrees_materialize (h : p.Alike q) (dialect : Dialect) :
    Agrees (fun c d => c.procedure = p ∧ d.procedure = q ∧
      d.program = { c.program with naming := q.naming }) (p.materialize dialect)
        (q.materialize dialect) := by
  rw [Procedure.materialize, Procedure.materialize, h.left, h.right, h.checkTokens_eq]
  refine .bindSame fun _ _ => .bindSame fun _ _ => h.agrees_compile.bind ?_
  rintro ⟨program, imaginary⟩ _ rfl
  dsimp only
  split
  exacts [rfl, ⟨rfl, rfl, rfl⟩]

end Procedure.Alike

/-! ## Bodies -/

/-- **Two statements as procedures can contain them**, alike. -/
structure Stmt.Twin (d : Nat) (ρ : Links) (s t : Stmt K) : Prop where
  alike : s.Alike ρ t
  left : s.Finished d (ρ.map (·.1))
  right : t.Finished d (ρ.map (·.2))

theorem Stmt.Twin.assign {d : Nat} {ρ : Links} {slot slot' value value' : Node K}
    (hslot : slot.Alike ρ slot') (hvalue : value.Alike ρ value')
    (hslots : slot.Everywhere Node.Settled ∧ slot'.Everywhere Node.Settled)
    (hvalues : value.Everywhere Node.Settled ∧ value'.Everywhere Node.Settled) :
    Stmt.Twin d ρ (.assign slot value) (.assign slot' value') where
  alike := .assign hslot hvalue
  left := .assign ⟨hslots.1, hslot.freeVars_left⟩ ⟨hvalues.1, hvalue.freeVars_left⟩
  right := .assign ⟨hslots.2, hslot.freeVars_right⟩ ⟨hvalues.2, hvalue.freeVars_right⟩

variable [Literal K]

section Bodies

variable {c : LoweringContext K} (reserved : List String)

theorem agrees_flatBody (hc : c.Constant) (hnames : ∀ q ∈ c.names, q.2.Scalar)
    {pairs : List (String × Expr K)} (hpairs : ∀ q ∈ pairs, q.2.hasIndexStructure = false)
    (k : Nat) :
    Lowering.Agrees (List.Forall₂ (Stmt.Twin 1 [])) (flatBody c k pairs)
      (flatBody (c.reserving reserved) k pairs) := by
  induction pairs generalizing k with
  | nil => exact .pure .nil
  | cons q pairs ih =>
    obtain ⟨hq, hpairs⟩ := List.forall_mem_cons.mp hpairs
    let c' : LoweringContext K := { c with equation := .scalar q.1 }
    have hscalar {c : LoweringContext K} (hnames : ∀ q ∈ c.names, q.2.Scalar) (m : Nat)
        (r : Node K × Nat) (h : q.2.lower c [] m = .ok r) : r.1.Scalar :=
      Expr.scalar_of_lowered hnames (Expr.lowered_of_lower c _ h) hq
    have hlower := (q.2.agrees_lower (c := c') ⟨hc.names, hc.rules⟩ reserved []).and
      (hscalar hnames) (hscalar hnames)
    refine hlower.bind fun m n h => (ih hpairs (k + 1)).bind fun ss ts hrest =>
      .pure (.cons ?_ hrest)
    obtain ⟨halike, hm, hn⟩ := h
    exact .assign (.const _) halike ⟨Node.settled_const _, Node.settled_const _⟩
      ⟨hm.settled, hn.settled⟩

theorem agrees_scalarBody (hc : c.Constant) (es : List (Equation K)) (k : Nat) :
    Lowering.Agrees (List.Forall₂ (Stmt.Twin 1 [])) (scalarBody c k es)
      (scalarBody (c.reserving reserved) k es) := by
  induction es generalizing k with
  | nil => exact .pure .nil
  | cons e es ih =>
    let c' : LoweringContext K := { c with equation := e.lhs }
    have hlower := e.rhs.agrees_lower (c := c') ⟨hc.names, hc.rules⟩ reserved []
    refine hlower.bind fun m n h => (ih (k + 1)).bind fun ss ts hrest => .pure (.cons ?_ hrest)
    exact .assign (.const _) h.normalize ⟨Node.settled_const _, Node.settled_const _⟩
      ⟨Node.settled_normalize m, Node.settled_normalize n⟩

theorem alike_slot {split : Split K} {layout : ParamLayout} {f : StateFamily K}
    (hf : f ∈ (StateLayout.ofSplit split layout).families) (x y : String) :
    (f.slot layout (.var x)).Alike [(x, y)] (f.slot layout (.var y)) :=
  .plus (.of_closed (StateLayout.plain_start hf).bare (StateLayout.freeVars_start hf))
    (.minus (.var (v := (x, y)) List.mem_cons_self) (Expr.alike_boundNode layout f.index.lower _))

theorem agrees_familyBody (hc : c.Constant) {split : Split K} (x y : String) :
    ∀ (es : List (Equation K)) (fs : List (StateFamily K)),
      fs ⊆ (StateLayout.ofSplit split c.params).families →
      Lowering.Agrees (List.Forall₂ (Stmt.Twin 0 [(x, y)])) (familyBody c x es fs)
        (familyBody (c.reserving reserved) y es fs)
  | [], _, _ => .pure .nil
  | _ :: _, [], _ => .pure .nil
  | e :: es, f :: fs, hfs => by
    obtain ⟨hf, hfs⟩ := List.cons_subset.mp hfs
    let c' : LoweringContext K := { c with equation := e.lhs }
    have hlower := e.rhs.agrees_lower (c := c') ⟨hc.names, hc.rules⟩ reserved [(f.index, x, y)]
    refine hlower.bind fun m n h => (agrees_familyBody hc x y es fs hfs).bind fun ss ts hrest =>
      .pure (.cons ?_ hrest)
    exact .assign (alike_slot hf x y) h.normalize
      ⟨(StateLayout.plain_slot hf x).settled, (StateLayout.plain_slot hf y).settled⟩
      ⟨Node.settled_normalize m, Node.settled_normalize n⟩

theorem agrees_familyLoop (hc : c.Constant) {split : Split K} (es : List (Equation K))
    {fs : List (StateFamily K)} (hfs : fs ⊆ (StateLayout.ofSplit split c.params).families) :
    Lowering.Agrees (List.Forall₂ (Stmt.Twin 1 [])) (familyLoop c es fs)
      (familyLoop (c.reserving reserved) es fs) := by
  unfold familyLoop
  split
  · exact .pure .nil
  · next f _ =>
    refine (agrees_fresh (σ := []) f.index).bind fun x y _ => ?_
    have hbody := agrees_familyBody (c := { c with reserved := x :: c.reserved }) (y :: reserved)
      ⟨hc.names, hc.rules⟩ x y es _ hfs
    refine hbody.bind fun ss ts h => .pure (.cons ⟨?_, ?_, ?_⟩ .nil)
    · have hzip := List.forall₂_iff_zip.mp (h.imp fun _ _ hst => hst.alike)
      exact .loop List.not_mem_nil List.not_mem_nil (Expr.alike_boundNode _ _ _)
        (Expr.alike_boundNode _ _ _) h.length_eq fun q hq => hzip.2 hq
    · refine .loop (c.params.finished_boundNode _) (c.params.finished_boundNode _) fun s hs => ?_
      obtain ⟨t, -, hst⟩ := exists_of_forall₂ h hs
      exact hst.left
    · refine .loop (c.params.finished_boundNode _) (c.params.finished_boundNode _) fun t ht => ?_
      obtain ⟨s, -, hst⟩ := exists_of_forall₂ h.flip ht
      exact hst.right

/-- **The statements of a split system are twins.** -/
theorem agrees_splitBody (hc : c.Constant) (split : Split K) :
    Lowering.Agrees (List.Forall₂ (Stmt.Twin 1 []))
      (do
        let scalars ← scalarBody c 0 split.scalars
        let loop ← familyLoop c (split.families.map (·.1))
          (StateLayout.ofSplit split c.params).families
        return scalars ++ loop)
      (do
        let scalars ← scalarBody (c.reserving reserved) 0 split.scalars
        let loop ← familyLoop (c.reserving reserved) (split.families.map (·.1))
          (StateLayout.ofSplit split c.params).families
        return scalars ++ loop) := by
  have hloop := agrees_familyLoop reserved hc (split.families.map (·.1))
    (List.Subset.refl (StateLayout.ofSplit split c.params).families)
  exact (agrees_scalarBody reserved hc split.scalars 0).bind fun _ _ hscalars =>
    hloop.bind fun _ _ hloop => .pure (List.rel_append hscalars hloop)

end Bodies

/-! ## Generating -/

/-- The options with other names for the arguments. -/
def Options.withTokens (o : Options) (state param time : String) (derivative : Option String) :
    Options :=
  { o with
    stateToken := state, paramToken := param, timeToken := time, derivativeToken := derivative }

section Generate

variable {o : Options} {system : EquationSystem K} {params : List (Expr K)}
  (state param time : String)
  (derivative : Option String)

theorem constant_rules {split : Split K} {layout : ParamLayout} {declared : List Index}
    {limit : Nat} {rules : RuleSet K}
    (h : RuleSet.build (.ofSplit split layout) layout declared limit = .ok rules)
    (s : Indexed) (rule : AccessRule K) (hrule : rules.resolve s = .access rule) :
    rule.Constant := by
  have hconst (v : K) (ρ : Links) : (Node.const v).Alike ρ (.const v) := .const v
  obtain rfl := RuleSet.build_eq_ok h
  obtain ⟨d, hd, -, rfl⟩ := RuleSet.refers_of_resolve hrule
  rcases List.mem_append.mp hd with hd | hd
  · obtain ⟨f, hf, rfl⟩ := List.mem_map.mp hd
    refine ⟨fun ρ => .of_closed (StateLayout.plain_start hf).bare (StateLayout.freeVars_start hf),
      fun ρ => ?_⟩
    exact List.forall_mem_singleton.mpr ⟨Expr.alike_boundNode layout _ ρ, hconst _ ρ⟩
  · obtain ⟨f, -, rfl⟩ := List.mem_map.mp hd
    exact ⟨hconst _, fun ρ => List.forall_mem_map.mpr fun q _ => ⟨hconst _ ρ, hconst _ ρ⟩⟩

/-- **Statements that are finished make procedures**, under all names of arguments. -/
theorem agrees_finishProcedure (states : StateLayout K) (layout : ParamLayout)
    {ss ts : List (Stmt K)} (h : List.Forall₂ (Stmt.Twin 1 []) ss ts) :
    Agrees Procedure.Alike (finishProcedure o states layout ss)
      (finishProcedure (o.withTokens state param time derivative) states layout ts) := by
  obtain ⟨p, hp⟩ : ∃ p, finishProcedure o states layout ss = .ok p :=
    finishProcedure_of_finished fun s hs => (exists_of_forall₂ h hs).elim fun _ hst => hst.2.left
  obtain ⟨q, hq⟩ : ∃ q,
      finishProcedure (o.withTokens state param time derivative) states layout ts = .ok q :=
    finishProcedure_of_finished fun t ht => (exists_of_forall₂ h.flip ht).elim fun _ hst =>
      hst.2.right
  obtain ⟨hpeq, hleft⟩ := finishProcedure_eq_ok hp
  obtain ⟨hqeq, hright⟩ := finishProcedure_eq_ok hq
  have hbody : List.Forall₂ (Stmt.Alike []) (Stmt.canonical ss) (Stmt.canonical ts) := by
    rw [Stmt.canonical, Stmt.canonical, Stmt.transformAll_eq, Stmt.transformAll_eq,
      List.forall₂_map_left_iff, List.forall₂_map_right_iff]
    exact h.imp fun _ _ hst => hst.alike.respell
  rw [hp, hq]
  exact ⟨by rw [hpeq, hqeq], by rw [hpeq, hqeq], by rw [hpeq, hqeq]; exact hbody,
    by rw [hpeq, hqeq]; rfl, hleft, hright⟩

theorem agrees_generateIndexed :
    Agrees Procedure.Alike (generateIndexed system params o)
      (generateIndexed system params (o.withTokens state param time derivative)) := by
  refine .bindSame fun _ _ => .bindSame fun split _ => .bindSame fun layout _ =>
    .bindSame fun names hnames => .bindSame fun rules hrules => ?_
  let c : LoweringContext K := ⟨names, rules, layout, o.unknownsZero, o.naming.reserved, .scalar ""⟩
  have hc : c.Constant := ⟨fun q hq _ => .of_scalar (scalar_of_scalarNodes hnames q hq),
    constant_rules hrules⟩
  have hbody := agrees_splitBody (o.withTokens state param time derivative).naming.reserved hc split
  exact (hbody 0 0).bind fun _ _ h => agrees_finishProcedure _ _ _ _ _ _ h

theorem agrees_generateFlat {rhs lhs : List (Expr K)} {t : Option String}
    (hrhs : ∀ e ∈ rhs, e.hasIndexStructure = false) :
    Agrees Procedure.Alike (generateFlat rhs lhs params t o)
      (generateFlat rhs lhs params t (o.withTokens state param time derivative)) := by
  rw [generateFlat, generateFlat]
  split
  · exact rfl
  refine .bindSame fun states _ => .bindSame fun _ _ => .bindSame fun layout _ =>
    .bindSame fun names hnames => ?_
  let c : LoweringContext K :=
    ⟨names, .empty, layout, o.unknownsZero, o.naming.reserved, .scalar ""⟩
  have hscalar := scalar_of_scalarNodes hnames
  have hc : c.Constant := ⟨fun q hq _ => .of_scalar (hscalar q hq), fun _ _ hrule => by cases hrule⟩
  have hpairs : ∀ q ∈ states.zip (eliminateAll (missingFlat rhs lhs (params ++ timeExpr t)) rhs),
      q.2.hasIndexStructure = false := by
    intro q hq
    rw [eliminateAll_eq] at hq
    obtain ⟨e, he, hcleared⟩ := List.mem_map.mp (List.of_mem_zip hq).2
    exact hcleared ▸ hasIndexStructure_cleared (hrhs e he)
  have hbody :=
    agrees_flatBody (o.withTokens state param time derivative).naming.reserved hc hscalar hpairs 0
  exact (hbody 0 0).bind fun _ _ h => agrees_finishProcedure _ _ _ _ _ _ h

/-- **Names of arguments do not matter for generating**, apart from names. -/
theorem agrees_generate :
    Agrees Procedure.Alike (system.generate params o)
      (system.generate params (o.withTokens state param time derivative)) := by
  rw [EquationSystem.generate, EquationSystem.generate]
  split
  · next hflat =>
    refine agrees_generateFlat state param time derivative (List.forall_mem_map.mpr fun e he => ?_)
    rw [Bool.and_eq_true, Bool.not_eq_true', EquationSystem.isIndexed, List.any_eq_false] at hflat
    have hequation := hflat.1 e he
    rw [Equation.isIndexed, Bool.not_eq_true, Bool.or_eq_false_iff] at hequation
    exact hequation.2
  · exact agrees_generateIndexed state param time derivative

end Generate

/-! ## Runs -/

/-- An error without the name of the array in it. -/
def RunError.anonymous {K : Type} : RunError K → RunError K
  | .unresolvedSymbol name => .unresolvedSymbol name
  | .indexOutOfBounds _ index size => .indexOutOfBounds "" index size
  | .invalidIndex _ value => .invalidIndex "" value

/-- How a run ends, without the name of an array. -/
def Status.anonymous {K : Type} : Status K → Status K
  | .failed e => .failed e.anonymous
  | s => s

/-- The end of a run, without the name of an array. -/
def Outcome.anonymous {K V : Type} (o : Outcome K V) : Outcome K V := ⟨o.status.anonymous, o.du⟩

section Runs

variable {V : Type} [Arithmetic K V] (prog : Program K) (ν : Naming) (inputs : Inputs K V)

namespace Program

/-- **An instruction does the same under all names of arguments.** -/
theorem inStep_named :
    InStep (fun s s' => s.anonymous = s'.anonymous) inputs prog { prog with naming := ν } := by
  have halike (array array' : String) :
      StopsAlike (fun s s' => s.anonymous = s'.anonymous) prog { prog with naming := ν }
        array array' := by
    refine ⟨fun _ => rfl, fun index size => ?_⟩
    unfold outOfRange
    split <;> rfl
  apply InStep.of_accesses
  exacts [rfl, rfl, rfl, fun _ => halike _ _, halike _ _, fun _ => rfl]

/-- **A run ends in the same way under all names of arguments**, with the same derivative. -/
theorem run_named (fuel : Nat) (du : Array V) :
    ({ prog with naming := ν }.run fuel du inputs).anonymous =
    (prog.run fuel du inputs).anonymous := by
  obtain ⟨hstatus, hdu⟩ := (inStep_named prog ν inputs).runFrom rfl rfl fuel (prog.start du)
  exact congrArg₂ Outcome.mk hstatus.symm hdu

end Program

end Runs

/-! ## The theorem -/

/-- **The names of the arguments do not influence the computation.**  Under other names a system is
refused with the same error or has a procedure too; the two compile to the same code, and a call of
one writes what a call of the other writes and ends as it does, apart from the name of the array in
its error. -/
theorem EquationSystem.agrees_withTokens (system : EquationSystem K) (params : List (Expr K))
    (o : Options) (state param time : String) (derivative : Option String) :
    Agrees
      (fun p q =>
        Agrees (fun a b => b = ({ a.1 with naming := q.naming }, a.2)) p.compile q.compile ∧
        ∀ dialect, Agrees
          (fun c d => d.program = { c.program with naming := q.naming } ∧
            ∀ (V : Type) [Arithmetic K V] (fuel : Nat) (du : Array V) (inputs : Inputs K V),
              (d.call fuel du inputs).anonymous = (c.call fuel du inputs).anonymous)
          (p.materialize dialect) (q.materialize dialect))
      (system.generate params o)
      (system.generate params (o.withTokens state param time derivative)) := by
  refine (agrees_generate state param time derivative).mono fun p q h =>
    ⟨h.agrees_compile, fun dialect => ?_⟩
  refine (h.agrees_materialize dialect).mono fun c d hcd => ?_
  obtain ⟨-, -, hd⟩ := hcd
  refine ⟨hd, fun V _ fuel du inputs => ?_⟩
  rw [Callable.call, Callable.call, hd]
  exact c.program.run_named q.naming inputs fuel du

end Fluxion
