import Fluxion.Proofs.Machine.Refinement

/-!
# Proofs/Machine/Materialization — the checks of a procedure are what compiling it needs

    materialize over complex numbers   ⟺   checkStructure ∧ checkTokens
    materialize over real numbers      ⟺   checkStructure ∧ checkTokens ∧ no imaginary unit

Checks and compilation go through a body on their own: one with the names of the variables in scope,
one node by node, one with the locals of the variables.  They agree on what is in scope
(`Scope.Binds`), so that a node that passes both checks has code at every place (`Node.compiles`),
and the code notes the imaginary unit exactly if it occurs in the node.
-/

namespace Fluxion

variable {K : Type} [Literal K]

/-! ## Code for every place -/

/-- **Code for every place**, which notes the imaginary unit or not. -/
def Compiles (code : Place → Except ProgramError (Piece K)) (imaginary : Bool) : Prop :=
  ∀ start, ∃ piece, code start = .ok piece ∧ piece.imaginary = imaginary

omit [Literal K] in
@[simp] theorem Piece.imaginary_append (x y : Piece K) :
    (x ++ y).imaginary = (x.imaginary || y.imaginary) := rfl

omit [Literal K] in
@[simp] theorem Piece.imaginary_ofCode (code : List (Opcode K)) :
    (Piece.ofCode code).imaginary = false := rfl

namespace Compiles

variable {f g upper lower body : Place → Except ProgramError (Piece K)} {i j k : Bool}

omit [Literal K] in
theorem noting (h : Compiles f i) (hij : i = j) : Compiles f j := hij ▸ h

omit [Literal K] in
theorem ofCode (ops : List (Opcode K)) : Compiles (fun _ => .ok (.ofCode ops)) false :=
  fun _ => ⟨_, rfl, rfl⟩

omit [Literal K] in
/-- Some more instructions. -/
theorem before (hf : Compiles f i) (ops : List (Opcode K)) :
    Compiles (fun start => do return (← f start) ++ .ofCode ops) i := by
  intro start
  obtain ⟨x, hx, rfl⟩ := hf start
  exact ⟨_, bind_of_ok hx, by simp⟩

omit [Literal K] in
/-- One piece behind the other. -/
theorem both (hf : Compiles f i) (hg : Compiles g j) :
    Compiles (fun start => do
      let x ← f start
      return x ++ (← g (start.after x))) (i || j) := by
  intro start
  obtain ⟨x, hx, rfl⟩ := hf start
  obtain ⟨y, hy, rfl⟩ := hg (start.after x)
  exact ⟨_, (bind_of_ok hx).trans (bind_of_ok hy), rfl⟩

omit [Literal K] in
/-- Two pieces and some more instructions. -/
theorem bothBefore (hf : Compiles f i) (hg : Compiles g j) (ops : List (Opcode K)) :
    Compiles (fun start => do
      let x ← f start
      let y ← g (start.after x)
      return x ++ y ++ .ofCode ops) (i || j) := by
  intro start
  obtain ⟨x, hx, rfl⟩ := hf start
  obtain ⟨y, hy, rfl⟩ := hg (start.after x)
  exact ⟨_, (bind_of_ok hx).trans (bind_of_ok hy), by simp⟩

/-- A counted loop has code if its bounds and its body have. -/
theorem loop (hupper : Compiles upper i) (hlower : Compiles lower j) (hbody : Compiles body k) :
    Compiles (countedLoop · upper lower body) (j || i || k) := by
  intro start
  obtain ⟨u, hu, rfl⟩ := hupper (start.reserve 2)
  obtain ⟨l, hl, rfl⟩ := hlower (((start.reserve 2).after u).skip 1)
  obtain ⟨b, hb, rfl⟩ := hbody _
  refine ⟨_, (bind_of_ok hu).trans ((bind_of_ok hl).trans (bind_of_ok hb)), ?_⟩
  change (loopHead _ _ _ u l ++ b ++ loopTail _ _).imaginary = _
  simp [loopHead, loopTail, Bool.or_comm]

end Compiles

/-! ## Nodes -/

/-- **Variables in scope have locals.** -/
def Scope.Binds (scope : Scope) (names : List String) : Prop :=
  ∀ x ∈ names, ∃ slot, scope.lookup x = some slot

theorem Scope.Binds.cons {scope : Scope} {names : List String} (h : scope.Binds names) (x : String)
    (slot : Nat) : Scope.Binds ((x, slot) :: scope) (x :: names) := by
  intro y hy
  by_cases hyx : y = x
  · exact ⟨slot, by simp [hyx]⟩
  · obtain ⟨slot', hslot⟩ := h y (by simpa [hyx] using hy)
    exact ⟨slot', by simp [List.lookup_cons, beq_false_of_ne hyx, hslot]⟩

open Procedure (isImaginaryUnit)

/-- The code of a sum: bounds as in a loop, and a body that adds to the running sum. -/
theorem compiles_sum {x : String} {lo hi body : Node K} {scope : Scope} {i j k : Bool}
    (hlo : Compiles (fun p => lo.compile scope p) i)
    (hhi : Compiles (fun p => hi.compile scope p) j)
    (hbody : ∀ slot, Compiles (fun p => body.compile ((x, slot) :: scope) p) k) :
    Compiles (fun p => (Node.sum x lo hi [] body).compile scope p) (i || j || k) := by
  intro start
  have hround : Compiles (fun p => do
      let term ← body.compile ((x, start.locals + 1) :: scope) (p.skip 1)
      return .ofCode [.loadLocal start.locals] ++ term ++
          .ofCode [.add, .storeLocal start.locals]) k := by
    intro p
    obtain ⟨term, hterm, rfl⟩ := hbody (start.locals + 1) (p.skip 1)
    exact ⟨_, bind_of_ok hterm, by simp⟩
  obtain ⟨loop, hloop, himaginary⟩ := hhi.loop hlo hround ((start.skip 2).reserve 1)
  refine ⟨_, bind_of_ok hloop, ?_⟩
  change (.ofCode _ ++ loop ++ .ofCode _ : Piece K).imaginary = _
  simp [himaginary]

mutual

/-- **A node that passes the checks has code**, which notes the imaginary unit if it occurs. -/
theorem Node.compiles : ∀ (n : Node K) {names : List String} {scope : Scope}, scope.Binds names →
    n.check names = .ok () → (∀ q ∈ n.subnodes, q.checkToken = .ok ()) →
      Compiles (fun p => n.compile scope p) (n.subnodes.any isImaginaryUnit)
  | .const _, _, _, _, _, _ => .ofCode _
  | .time, _, _, _, _, _ => .ofCode _
  | .imaginaryUnit, _, _, _, _, _ => fun _ => ⟨_, rfl, rfl⟩
  | .unresolved _, _, _, _, _, _ => fun _ => ⟨_, rfl, rfl⟩
  | .named _, _, _, _, _, htokens => by cases htokens _ List.mem_cons_self
  | .var x, names, scope, hscope, hcheck, _ => by
    rw [Node.check] at hcheck
    split at hcheck
    · next hx =>
      obtain ⟨slot, hslot⟩ := hscope x hx
      intro start
      exact ⟨.ofCode [.loadLocal slot], by simp only [Node.compile, hslot], rfl⟩
    · cases hcheck
  | .access .zero _, _, _, _, hcheck, _ => by cases hcheck
  | .access .state a, _, _, hscope, hcheck, htokens =>
    (Node.compiles a hscope hcheck fun q hq => htokens q (.tail _ hq)).before _
  | .access .param a, _, _, hscope, hcheck, htokens =>
    (Node.compiles a hscope hcheck fun q hq => htokens q (.tail _ hq)).before _
  | .neg a, _, _, hscope, hcheck, htokens =>
    (Node.compiles a hscope hcheck fun q hq => htokens q (.tail _ hq)).before _
  | .binary op a b, _, _, hscope, hcheck, htokens => by
    obtain ⟨⟨⟩, ha, hb⟩ := ok_of_bind hcheck
    have hx := Node.compiles a hscope ha fun q hq => htokens q (by simp [Node.subnodes, hq])
    have hy := Node.compiles b hscope hb fun q hq => htokens q (by simp [Node.subnodes, hq])
    exact (hx.bothBefore hy _).noting (by simp [Node.subnodes, isImaginaryUnit])
  | .indicator a b, _, _, hscope, hcheck, htokens => by
    obtain ⟨⟨⟩, ha, hb⟩ := ok_of_bind hcheck
    have hx := Node.compiles a hscope ha fun q hq => htokens q (by simp [Node.subnodes, hq])
    have hy := Node.compiles b hscope hb fun q hq => htokens q (by simp [Node.subnodes, hq])
    exact (hx.bothBefore hy _).noting (by simp [Node.subnodes, isImaginaryUnit])
  | .call func args, _, _, hscope, hcheck, htokens => by
    obtain ⟨b, hb, -⟩ := Program.checkToken_call (htokens _ List.mem_cons_self)
    have hargs := Node.compilesAll args hscope hcheck fun q hq => htokens q (.tail _ hq)
    intro start
    obtain ⟨piece, hpiece, himaginary⟩ := hargs.before [.call b] start
    exact ⟨piece, by simpa only [Node.compile, hb] using hpiece, himaginary⟩
  | .sum x lo hi [] body, _, _, hscope, hcheck, htokens => by
    obtain ⟨⟨⟩, hlo, hcheck⟩ := ok_of_bind hcheck
    obtain ⟨⟨⟩, hhi, hbody⟩ := ok_of_bind hcheck
    have hl := Node.compiles lo hscope hlo fun q hq => htokens q (by simp [Node.subnodes, hq])
    have hu := Node.compiles hi hscope hhi fun q hq => htokens q (by simp [Node.subnodes, hq])
    have hb slot := Node.compiles body (hscope.cons x slot) hbody
      fun q hq => htokens q (by simp [Node.subnodes, hq])
    refine (compiles_sum hl hu hb).noting ?_
    simp [Node.subnodes, Node.subnodesExclusions, isImaginaryUnit, Bool.or_assoc]
  | .sum _ _ _ (_ :: _) _, _, _, _, hcheck, _ => by cases hcheck
  | .boundedSum .., _, _, _, hcheck, _ => by cases hcheck
  | .guarded .., _, _, _, hcheck, _ => by cases hcheck

theorem Node.compilesAll : ∀ (ns : List (Node K)) {names : List String} {scope : Scope},
    scope.Binds names → Node.checkAll names ns = .ok () →
      (∀ q ∈ Node.subnodesAll ns, q.checkToken = .ok ()) →
        Compiles (fun p => Node.compileAll scope p ns) ((Node.subnodesAll ns).any isImaginaryUnit)
  | [], _, _, _, _, _ => fun _ => ⟨_, rfl, rfl⟩
  | n :: ns, _, _, hscope, hcheck, htokens => by
    obtain ⟨⟨⟩, hn, hns⟩ := ok_of_bind hcheck
    have hx := Node.compiles n hscope hn fun q hq => htokens q (by simp [Node.subnodesAll, hq])
    have hy := Node.compilesAll ns hscope hns fun q hq => htokens q (by simp [Node.subnodesAll, hq])
    exact (hx.both hy).noting (by simp [Node.subnodesAll])

end

/-! ## Statements -/

mutual

/-- A statement that passes the checks has code. -/
theorem Stmt.compiles : ∀ (s : Stmt K) {names : List String} {scope : Scope}, scope.Binds names →
    s.check names = .ok () → (∀ q ∈ s.subnodes, q.checkToken = .ok ()) →
      Compiles (fun p => s.compile scope p) (s.subnodes.any isImaginaryUnit)
  | .assign slot value, _, _, hscope, hcheck, htokens => by
    obtain ⟨⟨⟩, hslot, hvalue⟩ := ok_of_bind hcheck
    have hx := slot.compiles hscope hslot fun q hq => htokens q (by simp [Stmt.subnodes, hq])
    have hy := value.compiles hscope hvalue fun q hq => htokens q (by simp [Stmt.subnodes, hq])
    exact (hx.bothBefore hy _).noting (by simp [Stmt.subnodes])
  | .loop x lo hi body, _, _, hscope, hcheck, htokens => by
    obtain ⟨⟨⟩, hlo, hcheck⟩ := ok_of_bind hcheck
    obtain ⟨⟨⟩, hhi, hbody⟩ := ok_of_bind hcheck
    have hl := lo.compiles hscope hlo fun q hq => htokens q (by simp [Stmt.subnodes, hq])
    have hu := hi.compiles hscope hhi fun q hq => htokens q (by simp [Stmt.subnodes, hq])
    intro start
    have hb := Stmt.compilesAll body (hscope.cons x start.locals) hbody
      fun q hq => htokens q (by simp [Stmt.subnodes, hq])
    exact ((hu.loop hl hb).noting (by simp [Stmt.subnodes, Bool.or_assoc])) start

theorem Stmt.compilesAll : ∀ (ss : List (Stmt K)) {names : List String} {scope : Scope},
    scope.Binds names → Stmt.checkAll names ss = .ok () →
      (∀ q ∈ Stmt.subnodesAll ss, q.checkToken = .ok ()) →
        Compiles (fun p => Stmt.compileAll scope p ss) ((Stmt.subnodesAll ss).any isImaginaryUnit)
  | [], _, _, _, _, _ => fun _ => ⟨_, rfl, rfl⟩
  | s :: ss, _, _, hscope, hcheck, htokens => by
    obtain ⟨⟨⟩, hs, hss⟩ := ok_of_bind hcheck
    have hx := Stmt.compiles s hscope hs fun q hq => htokens q (by simp [Stmt.subnodesAll, hq])
    have hy := Stmt.compilesAll ss hscope hss fun q hq => htokens q (by simp [Stmt.subnodesAll, hq])
    exact (hx.both hy).noting (by simp [Stmt.subnodesAll])

end

/-! ## Procedures -/

namespace Procedure

variable {p : Procedure K}

omit [Literal K] in
theorem usesImaginaryUnit_iff : p.usesImaginaryUnit = true ↔ .imaginaryUnit ∈ p.nodes := by
  have hunit (n : Node K) : isImaginaryUnit n = true ↔ n = .imaginaryUnit := by
    cases n <;> simp [isImaginaryUnit]
  simp [usesImaginaryUnit, hunit]

/-- **A procedure that passes both checks compiles**, and its program needs the imaginary unit
exactly if the body does. -/
theorem compile_of_checked (hstructure : p.checkStructure = .ok ())
    (htokens : p.checkTokens = .ok ()) :
    ∃ prog, p.compile = .ok (prog, p.usesImaginaryUnit) := by
  have hscope : Scope.Binds [] [] := fun x hx => absurd hx List.not_mem_nil
  obtain ⟨piece, hpiece, himaginary⟩ := Stmt.compilesAll p.body hscope
    (checkStructure_eq_ok.mp hstructure).2 (forall_of_forM htokens) ⟨0, 0, 0⟩
  exact ⟨_, (bind_of_ok hpiece).trans (congrArg (fun b => Except.ok (_, b)) himaginary)⟩

/-- What a procedure needs to be called over the numbers of a dialect. -/
theorem exists_materialize_iff (dialect : Dialect) : (∃ c, p.materialize dialect = .ok c) ↔
    p.checkStructure = .ok () ∧ p.checkTokens = .ok () ∧
      (.imaginaryUnit ∈ p.nodes → dialect.complex = true) := by
  rw [← usesImaginaryUnit_iff]
  constructor
  · rintro ⟨c, h⟩
    obtain ⟨⟨⟩, hstructure, h⟩ := ok_of_bind h
    obtain ⟨⟨⟩, htokens, h⟩ := ok_of_bind h
    obtain ⟨prog, hcompile⟩ := compile_of_checked hstructure htokens
    rw [bind_of_ok hcompile] at h
    refine ⟨hstructure, htokens, fun himaginary => ?_⟩
    by_contra hreal
    dsimp only at h
    rw [if_pos (by simp [himaginary, hreal])] at h
    cases h
  · rintro ⟨hstructure, htokens, hcomplex⟩
    obtain ⟨prog, hcompile⟩ := compile_of_checked hstructure htokens
    refine ⟨⟨p, prog⟩, ?_⟩
    rw [materialize, bind_of_ok hstructure, bind_of_ok htokens, bind_of_ok hcompile]
    exact if_neg (by simpa using hcomplex)

/-- **The checks of a procedure are exactly what materialization needs.**  A checked procedure
compiles, with the imaginary unit noted if it occurs in any slot, bound, subscript or value; so it
can be called over complex numbers, and over real numbers if the imaginary unit does not occur. -/
theorem materializes_iff_checked (p : Procedure K) :
    (p.checkStructure = .ok () → p.checkTokens = .ok () →
      ∃ prog, p.compile = .ok (prog, p.usesImaginaryUnit)) ∧
    ((∃ c, p.materialize .complexNumbers = .ok c) ↔
      p.checkStructure = .ok () ∧ p.checkTokens = .ok ()) ∧
    ((∃ c, p.materialize .real = .ok c) ↔
      p.checkStructure = .ok () ∧ p.checkTokens = .ok () ∧ .imaginaryUnit ∉ p.nodes) := by
  refine ⟨compile_of_checked, ?_, ?_⟩
  · simp [exists_materialize_iff, Dialect.complexNumbers]
  · simp [exists_materialize_iff, Dialect.real]

/-- A procedure that reads a state at a subscript with the imaginary unit in it. -/
def turned : Procedure ℚ where
  naming := ⟨"du", "u", "p", "t"⟩
  states := []
  params := []
  body := [.assign (.ofInt 0) (.sum "k" (.ofInt 0) (.ofInt 1) []
    (.access .state (.call "abs" [.binary .mul .imaginaryUnit (.var "k")])))]
  checkBounds := true

theorem materializes_iff_checked_turned :
    (∃ c, turned.materialize .complexNumbers = .ok c) ∧ ¬ ∃ c, turned.materialize .real =
    .ok c := by
  obtain ⟨-, hcomplex, hreal⟩ := turned.materializes_iff_checked
  refine ⟨hcomplex.mpr ⟨rfl, rfl⟩, fun h => (hreal.mp h).2.2 ?_⟩
  exact usesImaginaryUnit_iff.mp rfl

end Procedure

end Fluxion
