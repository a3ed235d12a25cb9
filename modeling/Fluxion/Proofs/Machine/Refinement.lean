import Fluxion.Proofs.Numbers.ExactArithmetic
import Fluxion.Proofs.Machine.Simulation
import Fluxion.Scalar.Complex

/-!
# Proofs/Machine/Refinement — compiled procedures have exactly the outcomes of their meaning

    Procedure ──compile──▸ Program ──run──▸ Outcome
        └───────────── Means ─────────────────┘

Statements are carried out like nodes: their code changes the derivative as the meaning does
(`performs`).  Placed at the start of a program this is the whole run, and since `Implements` goes
both ways, a call returns an outcome exactly when the meaning of the procedure has it
(`Callable.returns_iff_means`).
-/

namespace Fluxion

variable {K V : Type} [Literal K] [Arithmetic K V]

open Arithmetic

namespace Program

variable {prog : Program K} {inputs : Inputs K V} {p : Procedure K} {start : Place} {scope : Scope}
  {env : Env V} {m : Machine V}

/-! ## Statements -/

/-- Stopped by an instruction, with the outcome of the run. -/
def Ended (prog : Program K) (inputs : Inputs K V) (o : Outcome K V) (m : Machine V) : Prop :=
  StopsAt prog inputs m o.status ∧ m.du = o.du

/-- Behind a piece that leaves the stack alone, with this derivative. -/
def Passed (base len : Nat) (m : Machine V) (du : Array V) (m' : Machine V) : Prop :=
  ∃ locals, Kept base m.locals locals ∧ m' = ⟨m.pc + len, m.stack, locals, du⟩

/-- The locals of a loop of statements between two rounds: all below its own as they were. -/
def BodyView (base : Nat) (m : Machine V) (du : Array V) (locals du' : Array V) : Prop :=
  Kept base m.locals locals ∧ du' = du

omit [Literal K] in
theorem loopView_bodyView (hholds : Holds start.locals m.locals scope env) :
    LoopView start.locals scope env (BodyView start.locals m) where
  stable _ _ _ _ hk := fun ⟨hkept, hdu⟩ => ⟨hkept.trans hk (Nat.le_refl _), hdu⟩
  holds _ _ _ := fun ⟨hkept, _⟩ => hholds.kept hkept (Nat.le_refl _)

/-- Writing an element takes index and value off the stack, unless it stops the run. -/
theorem step_storeDerivative (index v : V) (pc : Nat) (stk : List V) (locals du : Array V) :
    prog.step inputs ⟨pc, v :: index :: stk, locals, du⟩ .storeDerivative
      = (prog.write du index v).map (⟨pc + 1, stk, locals, ·⟩) := by
  cases hwrite : prog.write du index v with
  | ok du' => simp [step, Machine.top, Machine.drop, Machine.next, hwrite, Except.map]
  | error s => simp [step, Machine.top, Machine.drop, hwrite, Except.map]

/-- What is said of the code of a statement: it changes the derivative as the statement does. -/
def Performs (prog : Program K) (inputs : Inputs K V) (p : Procedure K) (s : Stmt K) : Prop :=
  ∀ ⦃scope : Scope⦄ ⦃start : Place⦄ ⦃piece : Piece K⦄ ⦃env : Env V⦄ ⦃m : Machine V⦄,
    s.compile scope start = .ok piece → PieceAt prog start piece → Ready prog start scope env m →
      Implements prog inputs (Ended prog inputs) (Passed start.locals piece.code.length m)
        (s.meaning p inputs env m.du) m

/-- What is said of the code of some statements. -/
def PerformsAll (prog : Program K) (inputs : Inputs K V) (p : Procedure K) (ss : List (Stmt K)) :
    Prop :=
  ∀ ⦃scope : Scope⦄ ⦃start : Place⦄ ⦃piece : Piece K⦄ ⦃env : Env V⦄ ⦃m : Machine V⦄,
    Stmt.compileAll scope start ss = .ok piece → PieceAt prog start piece →
      Ready prog start scope env m →
        Implements prog inputs (Ended prog inputs) (Passed start.locals piece.code.length m)
          (Stmt.meaningAll p inputs ss env m.du) m

/-- An assignment evaluates slot and value and writes. -/
theorem performs_assign (hs : prog.Serves p) {slot value : Node K}
    (hslot : Carries prog inputs p slot) (hvalue : Carries prog inputs p value) :
    Performs prog inputs p (.assign slot value) := by
  intro scope start piece env m h hpiece hready
  rw [Stmt.compile] at h
  obtain ⟨x, hx, h⟩ := ok_of_bind h
  obtain ⟨y, hy, h⟩ := ok_of_bind h
  obtain rfl := Except.ok.inj h
  rw [Stmt.meaning]
  refine Implements.stopping (σ := Status K) ?_ fun s m' (hstop : Stopped prog inputs m.du s m') =>
    hstop
  refine (hslot hx hpiece.left.left hready).andThen ?_
  rintro index _ ⟨locals, hk, rfl⟩
  refine (hvalue.starting hy hpiece.left.right _ (hready.after x hk) rfl).andThen ?_
  rintro v _ ⟨locals', hk', rfl⟩
  have hcode := hpiece.tail
  rw [← hready.pc, Piece.length_append, ← Nat.add_assoc] at hcode
  rw [← hs.write_eq]
  refine .instruction hcode (step_storeDerivative index v _ _ _ _) fun du =>
    ⟨locals', hk.trans hk' (Nat.le_add_right _ _), ?_⟩
  rw [Piece.length_append, Piece.length_append, ← Nat.add_assoc, ← Nat.add_assoc]
  rfl

/-- A loop carries out its body round by round. -/
theorem performs_loop [TruthValues K V] {x : String} {lo hi : Node K} {body : List (Stmt K)}
    (hlo : Carries prog inputs p lo) (hhi : Carries prog inputs p hi)
    (hbody : PerformsAll prog inputs p body) : Performs prog inputs p (.loop x lo hi body) := by
  intro scope start piece env m h hpiece hready
  rw [Stmt.compile] at h
  obtain ⟨u, l, b, hu, hl, hb, hlen, hat⟩ := loopAt_of_countedLoop h hpiece
  rw [Stmt.meaning]
  refine Implements.behind (hat.implements (x := x) (c := m.du) (loopView_bodyView hready.holds)
    hready.pc hready.size ⟨.refl _ _, rfl⟩ ?_ ?_ ?_) ?_
  · exact fun m' hr hdu => (hhi.starting hu hat.upper m' hr hdu).stopping fun _ _ hstop => hstop
  · exact fun m' hr hdu => (hlo.starting hl hat.lower m' hr hdu).stopping fun _ _ hstop => hstop
  · rintro v du m' hr hstk ⟨hkept, rfl⟩
    refine (hbody hb hat.body hr).behind ?_
    rintro du' _ ⟨locals, hk, rfl⟩
    have hbase : start.locals + 2 ≤ ((start.reserve 2).after
        (loopHead start.locals (start.locals + 1) 0 u l)).locals := Nat.le_add_right _ _
    refine ⟨0, _, .refl _, locals, du', ?_, hk.size, hk.below _ (by omega), hk.below _ (by omega),
      hkept.trans hk (by omega), rfl⟩
    rw [hstk]
  · rintro du _ ⟨locals, _, rfl, hsize, hkept, rfl⟩
    refine ⟨0, _, .refl _, locals, hkept, ?_⟩
    rw [hready.pc, hlen]

mutual

/-- **The code of a statement changes the derivative as the statement does.** -/
theorem performs [TruthValues K V] (hs : prog.Serves p) :
    ∀ s : Stmt K, (∀ q ∈ s.subnodes, q.checkToken = .ok ()) → Performs prog inputs p s
  | .assign slot value, hn =>
    performs_assign hs (carries hs slot fun q hq => hn q (List.mem_append_left _ hq))
      (carries hs value fun q hq => hn q (List.mem_append_right _ hq))
  | .loop x lo hi body, hn => by
    refine performs_loop (carries hs lo fun q hq => ?_) (carries hs hi fun q hq => ?_)
      (performsAll hs body fun q hq => ?_)
    · exact hn q (List.mem_append_left _ (List.mem_append_left _ hq))
    · exact hn q (List.mem_append_left _ (List.mem_append_right _ hq))
    · exact hn q (List.mem_append_right _ hq)

/-- The code of some statements changes the derivative as they do. -/
theorem performsAll [TruthValues K V] (hs : prog.Serves p) :
    ∀ ss : List (Stmt K), (∀ q ∈ Stmt.subnodesAll ss, q.checkToken = .ok ()) →
      PerformsAll prog inputs p ss
  | [], _ => by
    intro scope start piece env m h hpiece hready
    obtain rfl := Except.ok.inj h
    exact .of_lands ⟨m.locals, .refl _ _, rfl⟩
  | s :: rest, hn => by
    intro scope start piece env m h hpiece hready
    obtain ⟨x, hx, h⟩ := ok_of_bind h
    obtain ⟨y, hy, h⟩ := ok_of_bind h
    obtain rfl := Except.ok.inj h
    rw [Stmt.meaningAll]
    have hhead := performs hs s fun q hq => hn q (List.mem_append_left _ hq)
    have htail := performsAll hs rest fun q hq => hn q (List.mem_append_right _ hq)
    refine (hhead hx hpiece.left hready).andThen ?_
    rintro du _ ⟨locals, hk, rfl⟩
    refine (htail hy hpiece.right (hready.after x hk)).behind ?_
    rintro du' _ ⟨locals', hk', rfl⟩
    refine ⟨0, _, .refl _, locals', hk.trans hk' (Nat.le_add_right _ _), ?_⟩
    rw [Piece.length_append, ← Nat.add_assoc]

end

end Program

/-! ## Procedures -/

namespace Procedure

variable {dialect : Dialect} {p : Procedure K} {c : Callable K}

/-- The program of a procedure has the procedure's own names, and its code in place. -/
theorem compile_eq_ok {prog : Program K} {imaginary : Bool}
    (h : p.compile = .ok (prog, imaginary)) :
    prog.Serves p ∧ ∃ piece, Stmt.compileAll [] ⟨0, 0, 0⟩ p.body = .ok piece ∧
      Program.PieceAt prog ⟨0, 0, 0⟩ piece ∧ prog.code.size = piece.code.length := by
  obtain ⟨piece, hpiece, h⟩ := ok_of_bind h
  obtain ⟨rfl, -⟩ := Prod.mk.inj (Except.ok.inj h)
  refine ⟨⟨rfl, rfl⟩, piece, hpiece, ⟨?_, ?_, ?_⟩, List.size_toArray⟩
  · intro i op hi
    rw [Nat.zero_add]
    exact (List.getElem?_toArray ..).trans hi
  · exact Nat.le_of_eq (Nat.zero_add _)
  · intro i name hi
    rw [Nat.zero_add]
    exact hi

/-- What materialization has checked and compiled. -/
theorem materialize_eq_ok (h : p.materialize dialect = .ok c) :
    p.checkStructure = .ok () ∧ (∀ n ∈ p.nodes, n.checkToken = .ok ()) ∧ c.procedure = p ∧
      ∃ imaginary, p.compile = .ok (c.program, imaginary) := by
  obtain ⟨⟨⟩, hstructure, h⟩ := ok_of_bind h
  obtain ⟨⟨⟩, htokens, h⟩ := ok_of_bind h
  obtain ⟨⟨prog, imaginary⟩, hcompile, h⟩ := ok_of_bind h
  refine ⟨hstructure, forall_of_forM htokens, ?_⟩
  dsimp only at h
  split at h
  · cases h
  · obtain rfl := Except.ok.inj h
    exact ⟨rfl, imaginary, hcompile⟩

end Procedure

namespace Program

variable {prog : Program K} {inputs : Inputs K V} {m m' : Machine V}

/-- Where the result of a body leaves the machine, one more instruction shows it. -/
theorem runFrom_of_lands {r : Except (Outcome K V) (Array V)} {base : Nat} (hpc : m.pc = 0)
    (h : Lands (Ended prog inputs) (Passed base prog.code.size m) r m') (n : Nat) :
    prog.runFrom inputs (n + 1) m' = .ofBody r ∧ (Outcome.ofBody r).status ≠ .outOfFuel := by
  cases r with
  | error o =>
    obtain ⟨hstop, hdu⟩ := h
    rw [runFrom_of_stopsAt hstop, hdu]
    exact ⟨rfl, hstop.ne_outOfFuel⟩
  | ok du =>
    obtain ⟨locals, -, rfl⟩ := h
    rw [runFrom_of_end]
    · exact ⟨rfl, fun h => by cases h⟩
    · rw [hpc, Nat.zero_add]
      exact Array.getElem?_size

end Program

/-! ## Calls

The one thing a machine assumes of its numbers holds of those that programs run on. -/

instance : TruthValues Floating Floating := ⟨by decide +kernel, by decide +kernel⟩

instance : TruthValues Floating (Complex Floating) := ⟨by decide +kernel, by decide +kernel⟩

namespace Callable

variable {dialect : Dialect} {p : Procedure K} {c : Callable K}

/-- **A call returns an outcome**: with some fuel it ends, and this is how. -/
def Returns (c : Callable K) (inputs : Inputs K V) (du : Array V) (o : Outcome K V) : Prop :=
  o.status ≠ .outOfFuel ∧ ∃ fuel, c.call fuel du inputs = o

/-- Running the program of a procedure carries out its statements. -/
theorem implements_body [TruthValues K V] (h : p.materialize dialect = .ok c) (inputs : Inputs K V)
    (du : Array V) :
    Program.Implements c.program inputs (Program.Ended c.program inputs)
      (Program.Passed 0 c.program.code.size (c.program.start du))
      (Stmt.meaningAll p inputs p.body [] du) (c.program.start du) := by
  obtain ⟨-, htokens, -, imaginary, hcompile⟩ := Procedure.materialize_eq_ok h
  obtain ⟨hs, piece, hpiece, hat, hsize⟩ := Procedure.compile_eq_ok hcompile
  rw [hsize]
  exact Program.performsAll hs p.body htokens hpiece hat ⟨rfl, Array.size_replicate, trivial⟩

theorem means_of_returns [TruthValues K V] (h : p.materialize dialect = .ok c)
    {inputs : Inputs K V} {du : Array V} {o : Outcome K V} (ho : c.Returns inputs du o) :
    p.Means inputs du o := by
  obtain ⟨hfuel, fuel, rfl⟩ := ho
  have himp := implements_body h inputs du
  obtain ⟨r, hr⟩ := himp.ends fuel hfuel
  obtain ⟨k, m', hsteps, hland⟩ := himp.lands r hr
  refine ⟨r, hr, ?_⟩
  rw [← (Program.runFrom_of_lands rfl hland fuel).1, ← Program.runFrom_of_steps hsteps]
  exact (Program.Terminates.runFrom_eq hfuel (by omega)).symm

theorem returns_of_means [TruthValues K V] (h : p.materialize dialect = .ok c)
    {inputs : Inputs K V} {du : Array V} {o : Outcome K V} (ho : p.Means inputs du o) :
    c.Returns inputs du o := by
  obtain ⟨r, hr, rfl⟩ := ho
  obtain ⟨k, m', hsteps, hland⟩ := (implements_body h inputs du).lands r hr
  obtain ⟨hrun, hfuel⟩ := Program.runFrom_of_lands rfl hland 0
  exact ⟨hfuel, k + 1, (Program.runFrom_of_steps hsteps).trans hrun⟩

/-- A call that finishes has carried out all statements. -/
theorem meaningAll_of_finished [TruthValues K V] (h : p.materialize dialect = .ok c)
    {inputs : Inputs K V} {du : Array V} {fuel : Nat}
    (hfinished : (c.call fuel du inputs).status = .finished) :
    Stmt.meaningAll p inputs p.body [] du (.ok (c.call fuel du inputs).du) := by
  have hends : (c.call fuel du inputs).status ≠ .outOfFuel := fun hfuel => by
    cases hfinished.symm.trans hfuel
  obtain ⟨r, hr, heq⟩ := means_of_returns h ⟨hends, fuel, rfl⟩
  cases r with
  | error o =>
    -- what stops a run is another status
    obtain ⟨_, _, _, hstop, -⟩ := (implements_body h inputs du).lands _ hr
    exact absurd ((congrArg Outcome.status heq).symm.trans hfinished) hstop.ne_finished
  | ok du' =>
    rw [heq]
    exact hr

/-- **A call returns exactly the outcomes of the meaning of its procedure**, with the derivative as
it is then: finished, an error of the run, or an unchecked access outside an array.  All that is
asked of numbers is that truth values are told apart (`TruthValues`), as is proved above of floating
point numbers and of complex numbers over them. -/
theorem returns_iff_means [TruthValues K V] (h : p.materialize dialect = .ok c)
    (inputs : Inputs K V) (du : Array V) (o : Outcome K V) :
    c.Returns inputs du o ↔ p.Means inputs du o :=
  ⟨means_of_returns h, returns_of_means h⟩

/-- A procedure that writes, at each of two sites, the sum of the states from there on, and then
stops at an unresolved symbol. -/
def tailSums : Procedure ℚ where
  naming := ⟨"du", "u", "p", "t"⟩
  states := []
  params := []
  body := [
    .loop "i" (.ofInt 0) (.ofInt 1)
      [.assign (.var "i") (.sum "j" (.var "i") (.ofInt 1) [] (.access .state (.var "j")))],
    .assign (.ofInt 0) (.unresolved "N")]
  checkBounds := true

theorem returns_iff_means_tailSums : ∃ c, tailSums.materialize .real = .ok c ∧
    c.Returns (V := ℚ) ⟨#[5, 7], #[], 0⟩ #[0, 0] ⟨.failed (.unresolvedSymbol "N"), #[12, 7]⟩ ∧
    tailSums.Means (V := ℚ) ⟨#[5, 7], #[], 0⟩ #[0, 0]
      ⟨.failed (.unresolvedSymbol "N"), #[12, 7]⟩ := by
  obtain ⟨c, hc⟩ : ∃ c, tailSums.materialize .real = .ok c := ⟨_, rfl⟩
  have hrun : c.Returns (V := ℚ) ⟨#[5, 7], #[], 0⟩ #[0, 0]
      ⟨.failed (.unresolvedSymbol "N"), #[12, 7]⟩ := by
    obtain rfl := Except.ok.inj hc
    exact ⟨nofun, 100, by decide +kernel⟩
  exact ⟨c, hc, hrun, (returns_iff_means hc _ _ _).mp hrun⟩

/-- A call returns in one way only. -/
theorem Returns.unique {inputs : Inputs K V} {du : Array V} {o o' : Outcome K V}
    (h : c.Returns inputs du o) (h' : c.Returns inputs du o') : o = o' := by
  obtain ⟨hfuel, n, rfl⟩ := h
  obtain ⟨hfuel', n', rfl⟩ := h'
  exact (Program.Terminates.runFrom_eq hfuel (Nat.le_max_left n n')).symm.trans
    (Program.Terminates.runFrom_eq hfuel' (Nat.le_max_right n n'))

end Callable

end Fluxion
