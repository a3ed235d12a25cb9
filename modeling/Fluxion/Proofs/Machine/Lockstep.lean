import Fluxion.Proofs.Machine.Refinement

/-!
# Proofs/Machine/Lockstep — programs that run in step

Two programs with the same code that differ in what they report go through the same machines, up to
the instruction that stops them both:

    prog    m₀ ──▸ m₁ ──▸ … ──▸ mₙ ──▸ s
            ‖      ‖            ‖      R
    prog'   m₀ ──▸ m₁ ──▸ … ──▸ mₙ ──▸ s'

`InStep R` says that every instruction does the same in both or stops both, in ways that `R`
relates.  Only accesses to arrays have to be looked at for that (`InStep.of_accesses`), and whole
runs follow (`InStep.runFrom`).

The bounds checks of a procedure are such a difference: they decide how an access outside an array
is reported, and nothing else (`Callable.reports_only`).
-/

namespace Fluxion

variable {K V : Type}

/-- What two computations give is the same, or what stops them is related. -/
def SameUpTo {α : Type} (R : Status K → Status K → Prop) (x y : Except (Status K) α) : Prop :=
  (∃ a, x = .ok a ∧ y = .ok a) ∨ ∃ s s', x = .error s ∧ y = .error s' ∧ R s s'

variable [Literal K] [Arithmetic K V]

namespace Program

variable {R : Status K → Status K → Prop} {prog prog' : Program K} {inputs : Inputs K V}
  {m m' : Machine V} {s s' : Status K} {n : Nat}

/-- **Two programs run in step**: an instruction does the same in both, or it stops both. -/
structure InStep (R : Status K → Status K → Prop) (inputs : Inputs K V) (prog prog' : Program K) :
    Prop where
  code : prog'.code = prog.code
  locals : prog'.locals = prog.locals
  step : ∀ m op, SameUpTo R (prog.step inputs m op) (prog'.step inputs m op)

/-! ## Accesses to arrays -/

/-- What stops an access to an array is related, under the names that the two programs have for
it. -/
structure StopsAlike (R : Status K → Status K → Prop) (prog prog' : Program K)
    (array array' : String) :
    Prop where
  invalid : ∀ v, R (.failed (.invalidIndex array v)) (.failed (.invalidIndex array' v))
  range : ∀ index size, R (prog.outOfRange array index size) (prog'.outOfRange array' index size)

/-- Whether a value is a slot does not depend on the name of the array. -/
theorem slot_cases (array array' : String) (v : V) :
    (∃ n, slot (K := K) array v = .ok n ∧ slot (K := K) array' v = .ok n) ∨
      ∃ x : K, slot array v = .error (.invalidIndex array x) ∧
        slot array' v = .error (.invalidIndex array' x) := by
  unfold slot
  split
  · exact .inl ⟨_, rfl, rfl⟩
  · exact .inr ⟨_, rfl, rfl⟩

theorem StopsAlike.read {b : Buffer}
    (h : StopsAlike R prog prog' (prog.bufferName b) (prog'.bufferName b))
    (inputs : Inputs K V) (v : V) : SameUpTo R (prog.read inputs b v) (prog'.read inputs b v) := by
  unfold Program.read
  dsimp only
  obtain ⟨n, hn, hn'⟩ | ⟨x, hx, hx'⟩ :=
    slot_cases (K := K) (prog.bufferName b) (prog'.bufferName b) v
  · rw [hn, hn']
    dsimp only
    split
    · exact .inl ⟨_, rfl, rfl⟩
    · exact .inr ⟨_, _, rfl, rfl, h.range _ _⟩
  · rw [hx, hx']
    exact .inr ⟨_, _, rfl, rfl, h.invalid x⟩

theorem StopsAlike.write
    (h : StopsAlike R prog prog' prog.naming.derivative prog'.naming.derivative)
    (du : Array V) (index v : V) : SameUpTo R (prog.write du index v) (prog'.write du index v) := by
  unfold Program.write
  dsimp only
  obtain ⟨n, hn, hn'⟩ | ⟨x, hx, hx'⟩ :=
    slot_cases (K := K) prog.naming.derivative prog'.naming.derivative index
  · rw [hn, hn']
    dsimp only
    split
    · exact .inl ⟨_, rfl, rfl⟩
    · exact .inr ⟨_, _, rfl, rfl, h.range _ _⟩
  · rw [hx, hx']
    exact .inr ⟨_, _, rfl, rfl, h.invalid x⟩

/-- **Programs run in step if what stops their accesses is related**, and so are the symbols that
they do not know. -/
theorem InStep.of_accesses (hcode : prog'.code = prog.code) (hlocals : prog'.locals = prog.locals)
    (hunresolved : prog'.unresolved = prog.unresolved)
    (hread : ∀ b, StopsAlike R prog prog' (prog.bufferName b) (prog'.bufferName b))
    (hwrite : StopsAlike R prog prog' prog.naming.derivative prog'.naming.derivative)
    (hsymbol : ∀ x, R (.failed (.unresolvedSymbol x)) (.failed (.unresolvedSymbol x)))
    (inputs : Inputs K V) : InStep R inputs prog prog' := by
  refine ⟨hcode, hlocals, fun m op => ?_⟩
  cases op with
  | load b =>
    rw [Program.step, Program.step]
    obtain ⟨v, h, h'⟩ | ⟨s, s', h, h', hs⟩ := (hread b).read inputs m.top <;> rw [h, h']
    exacts [.inl ⟨_, rfl, rfl⟩, .inr ⟨s, s', rfl, rfl, hs⟩]
  | storeDerivative =>
    rw [Program.step, Program.step]
    obtain ⟨du, h, h'⟩ | ⟨s, s', h, h', hs⟩ := hwrite.write m.du m.drop.top m.top <;> rw [h, h']
    exacts [.inl ⟨_, rfl, rfl⟩, .inr ⟨s, s', rfl, rfl, hs⟩]
  | jumpIfFalse target =>
    rw [Program.step, Program.step]
    split <;> exact .inl ⟨_, rfl, rfl⟩
  | fail n =>
    rw [Program.step, Program.step, hunresolved]
    exact .inr ⟨_, _, rfl, rfl, hsymbol _⟩
  | _ => exact .inl ⟨_, rfl, rfl⟩

/-! ## Runs in step -/

namespace InStep

theorem symm (h : InStep R inputs prog prog') : InStep (fun s s' => R s' s) inputs prog' prog where
  code := h.code.symm
  locals := h.locals.symm
  step m op := by
    obtain ⟨m', hm, hm'⟩ | ⟨s, s', hs, hs', hR⟩ := h.step m op
    exacts [.inl ⟨m', hm', hm⟩, .inr ⟨s', s, hs', hs, hR⟩]

theorem start (h : InStep R inputs prog prog') (du : Array V) : prog'.start du = prog.start du := by
  rw [Program.start, Program.start, h.locals]

theorem steps (h : InStep R inputs prog prog') (hsteps : Steps prog inputs n m m') :
    Steps prog' inputs n m m' := by
  induction n generalizing m with
  | zero => exact hsteps
  | succ n ih =>
    obtain ⟨op, m₁, hop, hstep, hrest⟩ := hsteps
    obtain ⟨m₂, hm, hm'⟩ | ⟨s, s', hs, -⟩ := h.step m op
    · obtain rfl := Except.ok.inj (hm.symm.trans hstep)
      exact ⟨op, m₂, h.code ▸ hop, hm', ih hrest⟩
    · cases hs.symm.trans hstep

/-- **The same machines on the way.** -/
theorem steps_iff (h : InStep R inputs prog prog') :
    Steps prog inputs n m m' ↔ Steps prog' inputs n m m' :=
  ⟨h.steps, h.symm.steps⟩

/-- What stops one program stops the other one at the same machine. -/
theorem stopsAt (h : InStep R inputs prog prog') (hstop : StopsAt prog inputs m s) :
    ∃ s', StopsAt prog' inputs m s' ∧ R s s' := by
  obtain ⟨op, hop, hstep⟩ := hstop
  obtain ⟨m', hm, -⟩ | ⟨s₁, s', hs, hs', hR⟩ := h.step m op
  · cases hm.symm.trans hstep
  · obtain rfl := Except.error.inj (hs.symm.trans hstep)
    exact ⟨s', ⟨op, h.code ▸ hop, hs'⟩, hR⟩

/-- **Runs in step end together**, with the same derivative and in related ways. -/
theorem runFrom (h : InStep R inputs prog prog') (hfinished : R .finished .finished)
    (hfuel : R .outOfFuel .outOfFuel) (fuel : Nat) (m : Machine V) :
    R (prog.runFrom inputs fuel m).status (prog'.runFrom inputs fuel m).status ∧
      (prog'.runFrom inputs fuel m).du = (prog.runFrom inputs fuel m).du := by
  induction fuel generalizing m with
  | zero =>
    cases hop : prog.code[m.pc]? with
    | none =>
      rw [runFrom_of_end hop, runFrom_of_end (h.code ▸ hop)]
      exact ⟨hfinished, rfl⟩
    | some op =>
      rw [runFrom_zero hop, runFrom_zero (h.code ▸ hop)]
      exact ⟨hfuel, rfl⟩
  | succ fuel ih =>
    cases hop : prog.code[m.pc]? with
    | none =>
      rw [runFrom_of_end hop, runFrom_of_end (h.code ▸ hop)]
      exact ⟨hfinished, rfl⟩
    | some op =>
      have hop' : prog'.code[m.pc]? = some op := h.code ▸ hop
      obtain ⟨m₁, hm, hm'⟩ | ⟨s, s', hs, hs', hR⟩ := h.step m op
      · rw [runFrom_succ hop hm, runFrom_succ hop' hm']
        exact ih m₁
      · rw [runFrom_of_stopsAt ⟨op, hop, hs⟩, runFrom_of_stopsAt ⟨op, hop', hs'⟩]
        exact ⟨hR, rfl⟩

end InStep

end Program

/-! ## Bounds checks -/

/-- **The end of a run with bounds checks beside the end without them.**  An access outside an array
is an error in the one and stops the machine in the other; everything else is the same. -/
inductive Status.Unreported : Status K → Status K → Prop
  | access (array : String) (index size : Nat) :
      Unreported (.failed (.indexOutOfBounds array index size)) (.outside index size)
  | invalidIndex (array : String) (v : K) :
      Unreported (.failed (.invalidIndex array v)) (.failed (.invalidIndex array v))
  | unresolvedSymbol (x : String) :
      Unreported (.failed (.unresolvedSymbol x)) (.failed (.unresolvedSymbol x))
  | finished : Unreported .finished .finished
  | outOfFuel : Unreported .outOfFuel .outOfFuel

namespace Status.Unreported

variable {s s' : Status K}

omit [Literal K] in
theorem access_iff (h : s.Unreported s') (index size : Nat) :
    (∃ array, s = .failed (.indexOutOfBounds array index size)) ↔ s' = .outside index size := by
  cases h with
  | access array i n => simp
  | _ => simp

omit [Literal K] in
theorem eq_of_ne (h : s.Unreported s')
    (hs : ∀ array index size, s ≠ .failed (.indexOutOfBounds array index size)) : s' = s := by
  cases h with
  | access array index size => exact absurd rfl (hs array index size)
  | _ => rfl

end Status.Unreported

/-- **The same program with and without bounds checks runs in step.** -/
theorem Program.inStep_unchecked (prog : Program K) (inputs : Inputs K V) :
    InStep Status.Unreported inputs { prog with checkBounds := true }
      { prog with checkBounds := false } := by
  have halike (array : String) : StopsAlike Status.Unreported { prog with checkBounds := true }
      { prog with checkBounds := false } array array :=
    ⟨.invalidIndex array, .access array⟩
  apply InStep.of_accesses
  exacts [rfl, rfl, rfl, fun _ => halike _, halike _, .unresolvedSymbol]

namespace Callable

open Program

variable {dialect : Dialect} {p : Procedure K} {checked unchecked : Callable K}

/-- The programs of two procedures that differ in the bounds checks differ in them only. -/
theorem exists_program (hc : { p with checkBounds := true }.materialize dialect = .ok checked)
    (hu : { p with checkBounds := false }.materialize dialect = .ok unchecked) :
    ∃ prog : Program K, checked.program = { prog with checkBounds := true } ∧
      unchecked.program = { prog with checkBounds := false } := by
  obtain ⟨-, -, -, _, hcompile⟩ := Procedure.materialize_eq_ok hc
  obtain ⟨-, -, -, _, hcompile'⟩ := Procedure.materialize_eq_ok hu
  obtain ⟨piece, hpiece, h⟩ := ok_of_bind hcompile
  obtain ⟨piece', hpiece', h'⟩ := ok_of_bind hcompile'
  obtain rfl : piece = piece' := Except.ok.inj (hpiece.symm.trans hpiece')
  have hprogram := (Prod.mk.inj (Except.ok.inj h)).1
  have hprogram' := (Prod.mk.inj (Except.ok.inj h')).1
  refine ⟨checked.program, ?_, ?_⟩
  · rw [← hprogram]
  · rw [← hprogram, ← hprogram']

/-- **Bounds checks change only how an access outside an array is reported.**  With and without them
a call goes through the same machines.  The checked call fails with an index out of bounds exactly
when the unchecked one is stopped for the same index and size, by the same instruction of the same
machine; in all other cases both end in the same way.  The derivative is always the same. -/
theorem reports_only (hc : { p with checkBounds := true }.materialize dialect = .ok checked)
    (hu : { p with checkBounds := false }.materialize dialect = .ok unchecked) (inputs : Inputs K V)
    (du : Array V) :
    (∀ fuel, (unchecked.call fuel du inputs).du = (checked.call fuel du inputs).du ∧
      (∀ index size,
        (∃ array, (checked.call fuel du inputs).status =
        .failed (.indexOutOfBounds array index size)) ↔
          (unchecked.call fuel du inputs).status = .outside index size) ∧
      ((∀ array index size,
          (checked.call fuel du inputs).status ≠ .failed (.indexOutOfBounds array index size)) →
        (unchecked.call fuel du inputs).status = (checked.call fuel du inputs).status)) ∧
    unchecked.program.code = checked.program.code ∧
    ∀ n m, (Steps checked.program inputs n (checked.program.start du) m ↔
        Steps unchecked.program inputs n (unchecked.program.start du) m) ∧
      ∀ index size,
        (∃ array, StopsAt checked.program inputs m (.failed (.indexOutOfBounds array index size))) ↔
          StopsAt unchecked.program inputs m (.outside index size) := by
  obtain ⟨prog, hchecked, hunchecked⟩ := exists_program hc hu
  have hstep : InStep Status.Unreported inputs checked.program unchecked.program := by
    rw [hchecked, hunchecked]
    exact prog.inStep_unchecked inputs
  refine ⟨fun fuel => ?_, hstep.code, fun n m => ⟨?_, fun index size => ⟨?_, fun hstop => ?_⟩⟩⟩
  · rw [call, call, run, run, hstep.start]
    obtain ⟨hstatus, hdu⟩ := hstep.runFrom .finished .outOfFuel fuel (checked.program.start du)
    exact ⟨hdu, hstatus.access_iff, hstatus.eq_of_ne⟩
  · rw [hstep.start]
    exact hstep.steps_iff
  · rintro ⟨array, hstop⟩
    obtain ⟨s', hstop', hs⟩ := hstep.stopsAt hstop
    exact (hs.access_iff index size).mp ⟨array, rfl⟩ ▸ hstop'
  · obtain ⟨s, hstop', hs⟩ := hstep.symm.stopsAt hstop
    obtain ⟨array, rfl⟩ := (hs.access_iff index size).mpr rfl
    exact ⟨array, hstop'⟩

/-- A procedure that copies three states, one after the other. -/
def threeCopies : Procedure ℚ where
  naming := ⟨"du", "u", "p", "t"⟩
  states := []
  params := []
  body := [.loop "i" (.ofInt 0) (.ofInt 2) [.assign (.var "i") (.access .state (.var "i"))]]
  checkBounds := true

/-- With two states only, both calls stop at the third copy, behind the first two. -/
theorem reports_only_threeCopies : ∃ checked unchecked,
    { threeCopies with checkBounds := true }.materialize .real = .ok checked ∧
    { threeCopies with checkBounds := false }.materialize .real = .ok unchecked ∧
    checked.call (V := ℚ) 100 #[0, 0, 0] ⟨#[5, 7], #[], 0⟩
      = ⟨.failed (.indexOutOfBounds "u" 2 2), #[5, 7, 0]⟩ ∧
    unchecked.call (V := ℚ) 100 #[0, 0, 0] ⟨#[5, 7], #[], 0⟩ = ⟨.outside 2 2, #[5, 7, 0]⟩ := by
  obtain ⟨checked, hc⟩ : ∃ c, { threeCopies with checkBounds := true }.materialize .real = .ok c :=
    ⟨_, rfl⟩
  obtain ⟨unchecked, hu⟩ : ∃ c, { threeCopies with checkBounds := false }.materialize .real =
      .ok c :=
    ⟨_, rfl⟩
  have hrun : checked.call (V := ℚ) 100 #[0, 0, 0] ⟨#[5, 7], #[], 0⟩
      = ⟨.failed (.indexOutOfBounds "u" 2 2), #[5, 7, 0]⟩ := by
    obtain rfl := Except.ok.inj hc
    decide +kernel
  obtain ⟨hdu, houtside, -⟩ := (reports_only (V := ℚ) hc hu ⟨#[5, 7], #[], 0⟩ #[0, 0, 0]).1 100
  rw [hrun] at hdu houtside
  refine ⟨checked, unchecked, hc, hu, hrun, ?_⟩
  have hstatus := (houtside 2 2).mp ⟨"u", rfl⟩
  calc unchecked.call (V := ℚ) 100 #[0, 0, 0] ⟨#[5, 7], #[], 0⟩
      = ⟨(unchecked.call 100 #[0, 0, 0] ⟨#[5, 7], #[], 0⟩).status,
          (unchecked.call 100 #[0, 0, 0] ⟨#[5, 7], #[], 0⟩).du⟩ := rfl
    _ = ⟨.outside 2 2, #[5, 7, 0]⟩ := by rw [hstatus, hdu]

end Callable

end Fluxion
