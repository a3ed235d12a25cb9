import Fluxion.Proofs.Machine.Refinement
import Fluxion.Proofs.Numbers.ExactArithmetic

/-!
# Proofs/Machine/Termination — every call ends in exact arithmetic

Code can only go round in circles in its loops, and the variable of a loop goes up by one a round
while the upper bound stays as it is.  So all that values need for every run to end is that adding
one often enough brings any of them above any other (`CountsUp`).  They do if real parts are numbers
of an Archimedean field and adding one to a value adds one to its real part
(`countsUp_of_real_add_one`), whatever the other operations are.

The argument is about the code alone.  `Reaches m Q` says that the machine gets to `Q` unless an
instruction stops it before, `Passes P a n` that it gets behind `n` instructions in this sense, with
the locals in `P` as they were.  Code passes if its parts do, and a loop passes if its body leaves
the variable and the bound of the loop alone (`LoopAt.passes`).
-/

namespace Fluxion

open Arithmetic

/-- **Values that count up**: adding one often enough brings a value above any other, and zero is
read as false. -/
class CountsUp (K : outParam Type) (V : Type) [Literal K] [Arithmetic K V] : Prop where
  isZero_real_zero : Literal.isZero (real (zero : V) : K) = true
  above (v w : V) : ∃ n, atMost ((add · one)^[n] v) w = false

section Archimedean

variable {K V : Type} [Field K] [LinearOrder K] [IsStrictOrderedRing K] [Archimedean K] [Literal K]
  [Arithmetic K V]

omit [LinearOrder K] [IsStrictOrderedRing K] [Archimedean K] in
theorem real_iterate_add_one (hone : ∀ v : V, real (add v one) = (real v + 1 : K)) (v : V) (n : ℕ) :
    real ((add · one)^[n] v) = (real v + n : K) := by
  induction n with
  | zero => rw [Function.iterate_zero, id, Nat.cast_zero, add_zero]
  | succ n ih => rw [Function.iterate_succ_apply', hone, ih, Nat.cast_succ, add_assoc]

/-- **Values count up with their real parts.** -/
theorem countsUp_of_real_add_one (hle : ∀ a b : K, Literal.le a b = true ↔ a ≤ b)
    (hzero : Literal.isZero (real (zero : V) : K) = true)
    (hone : ∀ v : V, real (add v one) = (real v + 1 : K)) : CountsUp K V where
  isZero_real_zero := hzero
  above v w := by
    obtain ⟨n, hn⟩ := exists_nat_gt (real w - real v : K)
    refine ⟨n, ?_⟩
    rw [Bool.eq_false_iff, ne_eq, atMost, hle, real_iterate_add_one hone, not_le]
    exact sub_lt_iff_lt_add'.mp hn

end Archimedean

/-- **An instruction that goes on to the next one** and leaves the locals in `P` alone. -/
def Opcode.Spares {K : Type} (P : ℕ → Prop) : Opcode K → Prop
  | .jump _ | .jumpIfFalse _ => False
  | .storeLocal slot => ¬P slot
  | _ => True

namespace Program

variable {K V : Type} [Literal K] [Arithmetic K V] {prog : Program K} {inputs : Inputs K V}
  {m m' : Machine V}

/-! ## Getting somewhere -/

/-- **A machine gets to `Q`**, unless an instruction stops it before. -/
def Reaches (prog : Program K) (inputs : Inputs K V) (m : Machine V) (Q : Machine V → Prop) :
    Prop :=
  ∃ n m', Steps prog inputs n m m' ∧ (Q m' ∨ ∃ s, StopsAt prog inputs m' s)

namespace Reaches

variable {Q R : Machine V → Prop} {n : ℕ} {op : Opcode K}

theorem here (h : Q m) : Reaches prog inputs m Q := ⟨0, m, .refl m, .inl h⟩

theorem of_steps (hsteps : Steps prog inputs n m m') (h : Reaches prog inputs m' Q) :
    Reaches prog inputs m Q := by
  obtain ⟨k, m'', hsteps', hend⟩ := h
  exact ⟨n + k, m'', hsteps.trans hsteps', hend⟩

/-- First to one place, then from there to another. -/
theorem andThen (h : Reaches prog inputs m Q) (hnext : ∀ m', Q m' → Reaches prog inputs m' R) :
    Reaches prog inputs m R := by
  obtain ⟨n, m', hsteps, hQ | hstop⟩ := h
  · exact of_steps hsteps (hnext m' hQ)
  · exact ⟨n, m', hsteps, .inr hstop⟩

theorem imp (h : Reaches prog inputs m Q) (hQR : ∀ m', Q m' → R m') : Reaches prog inputs m R :=
  h.andThen fun m' hm' => here (hQR m' hm')

/-- A single instruction, which may stop the run. -/
theorem of_step (hop : prog.code[m.pc]? = some op)
    (h : ∀ m', prog.step inputs m op = .ok m' → Q m') : Reaches prog inputs m Q := by
  cases hstep : prog.step inputs m op with
  | error s => exact ⟨0, m, .refl m, .inr ⟨s, op, hop, hstep⟩⟩
  | ok m' => exact ⟨1, m', ⟨op, m', hop, hstep, .refl m'⟩, .inl (h m' hstep)⟩

/-- Storing the top of the stack in a local. -/
theorem store {a slot : ℕ} {c : List (Opcode K)}
    (hcode : CodeAt prog a (.storeLocal slot :: c)) (hpc : m.pc = a)
    (h : ∀ m', m'.pc = a + 1 → m'.locals = m.locals.setIfInBounds slot m.top →
      Reaches prog inputs m' Q) : Reaches prog inputs m Q := by
  subst hpc
  exact .of_steps (.cons hcode rfl (.refl _)) (h _ rfl rfl)

end Reaches

/-! ## Code that lets the machine through -/

/-- Locals of which those in `P` have not changed; `Kept` is the case of those below a bound. -/
structure Untouched (P : ℕ → Prop) (locals locals' : Array V) : Prop where
  size : locals'.size = locals.size
  same : ∀ i, P i → locals'[i]? = locals[i]?

theorem Untouched.refl (P : ℕ → Prop) (locals : Array V) : Untouched P locals locals :=
  ⟨rfl, fun _ _ => rfl⟩

theorem Untouched.trans {P : ℕ → Prop} {l l' l'' : Array V} (h : Untouched P l l')
    (h' : Untouched P l' l'') : Untouched P l l'' :=
  ⟨h'.size.trans h.size, fun i hi => (h'.same i hi).trans (h.same i hi)⟩

theorem Untouched.mono {P Q : ℕ → Prop} {l l' : Array V} (h : Untouched P l l')
    (hQP : ∀ i, Q i → P i) : Untouched Q l l' :=
  ⟨h.size, fun i hi => h.same i (hQP i hi)⟩

theorem Untouched.set {P : ℕ → Prop} {slot : ℕ} (hslot : ¬P slot) (locals : Array V) (v : V) :
    Untouched P locals (locals.setIfInBounds slot v) where
  size := Array.size_setIfInBounds
  same i hi := by
    refine Array.getElem?_setIfInBounds_ne ?_
    rintro rfl
    exact hslot hi

theorem untouched_step {P : ℕ → Prop} {op : Opcode K} (hop : op.Spares P)
    (hstep : prog.step inputs m op = .ok m') :
    m'.pc = m.pc + 1 ∧ Untouched P m.locals m'.locals := by
  cases op with
  | jump => exact hop.elim
  | jumpIfFalse => exact hop.elim
  | storeLocal slot =>
    obtain rfl := Except.ok.inj hstep
    exact ⟨rfl, .set hop _ _⟩
  | load b =>
    rw [step] at hstep
    split at hstep
    · obtain rfl := Except.ok.inj hstep
      exact ⟨rfl, .refl P _⟩
    · cases hstep
  | storeDerivative =>
    rw [step] at hstep
    split at hstep
    · obtain rfl := Except.ok.inj hstep
      exact ⟨rfl, .refl P _⟩
    · cases hstep
  | fail n => cases hstep
  | _ =>
    obtain rfl := Except.ok.inj hstep
    exact ⟨rfl, .refl P _⟩

/-- **Code that lets every machine through**: from an address it gets behind the next `n`
instructions, unless one of them stops it, and the locals in `P` stay as they are. -/
def Passes (prog : Program K) (inputs : Inputs K V) (P : ℕ → Prop) (a n : ℕ) : Prop :=
  ∀ m : Machine V, m.pc = a → m.locals.size = prog.locals →
    Reaches prog inputs m fun m' => m'.pc = a + n ∧ Untouched P m.locals m'.locals

namespace Passes

variable {P Q : ℕ → Prop} {a n k : ℕ}

theorem refl (P : ℕ → Prop) (a : ℕ) : Passes prog inputs P a 0 :=
  fun m hpc _ => .here ⟨hpc, .refl P m.locals⟩

theorem mono (h : Passes prog inputs P a n) (hQP : ∀ i, Q i → P i) : Passes prog inputs Q a n :=
  fun m hpc hsize => (h m hpc hsize).imp fun _ hm' => ⟨hm'.1, hm'.2.mono hQP⟩

/-- Some instructions, then those behind them. -/
theorem trans (h : Passes prog inputs P a n) (h' : Passes prog inputs P (a + n) k) :
    Passes prog inputs P a (n + k) := by
  intro m hpc hsize
  refine (h m hpc hsize).andThen ?_
  rintro m₁ ⟨hpc₁, hsame₁⟩
  refine (h' m₁ hpc₁ (hsame₁.size.trans hsize)).imp ?_
  rintro m₂ ⟨hpc₂, hsame₂⟩
  exact ⟨hpc₂.trans (Nat.add_assoc a n k), hsame₁.trans hsame₂⟩

/-- Code without jumps. -/
theorem code {c : List (Opcode K)} (hcode : CodeAt prog a c) (hc : ∀ op ∈ c, op.Spares P) :
    Passes prog inputs P a c.length := by
  induction c generalizing a with
  | nil => exact refl P a
  | cons op c ih =>
    have hfirst : Passes prog inputs P a 1 := by
      rintro m rfl -
      exact .of_step hcode.head fun m' hstep => untouched_step (hc op (.head c)) hstep
    rw [List.length_cons, Nat.add_comm]
    exact hfirst.trans (ih hcode.tail fun op' hop' => hc op' (.tail op hop'))

end Passes

/-! ## Loops -/

/-- **The locals that outlast a round** of a loop: those below a bound, and the variable and the
upper bound of the loop itself. -/
abbrev Lasting (base slot i : ℕ) : Prop := i < base ∨ i = slot ∨ i = slot + 1

section Loop

variable [CountsUp K V] {start : Place} {u l b : Piece K} {base : ℕ}

/-- The test of a loop leads out of the loop or into the body, and there only if the variable is not
above the bound. -/
theorem exists_steps_test (inputs : Inputs K V) {slot exit : ℕ} {v w : V}
    (hcode : CodeAt prog m.pc [.loadLocal slot, .loadLocal (slot + 1), .le, .jumpIfFalse exit])
    (hv : m.locals[slot]? = some v) (hw : m.locals[slot + 1]? = some w) :
    ∃ m', Steps prog inputs 4 m m' ∧ m'.locals = m.locals ∧
      (m'.pc = exit ∨ m'.pc = m.pc + 4 ∧ atMost v w = true) := by
  obtain ⟨pc, stk, locals, du⟩ := m
  have hcompared : ∀ {m'}, prog.step inputs ⟨pc + 3, ofBool (atMost v w) :: stk, locals, du⟩
      (.jumpIfFalse exit) = .ok m' → Steps prog inputs 4 ⟨pc, stk, locals, du⟩ m' := fun hstep =>
    .cons hcode (step_loadLocal hv) (.cons hcode.tail (step_loadLocal hw)
      (.cons hcode.tail.tail rfl (.cons hcode.tail.tail.tail hstep (.refl _))))
  cases hzero : Literal.isZero (real (ofBool (atMost v w) : V) : K) with
  | true => exact ⟨_, hcompared (if_pos hzero), rfl, .inl rfl⟩
  | false =>
    refine ⟨_, hcompared (if_neg (Bool.eq_false_iff.mp hzero)), rfl, .inr ⟨rfl, ?_⟩⟩
    by_contra hle
    rw [Bool.eq_false_iff.mpr hle] at hzero
    exact absurd (hzero.symm.trans CountsUp.isZero_real_zero) Bool.false_ne_true

/-- **From its test a loop gets behind its end.**  The induction is on a number of rounds that
brings the variable above the bound. -/
theorem LoopAt.reaches_exit (loop : LoopAt prog start u l b) (hbase : base ≤ start.locals)
    (hb : Passes prog inputs (Lasting base start.locals)
      (start.address + u.code.length + 1 + l.code.length + 5) b.code.length)
    {v w : V} {rounds : ℕ} (hpc : m.pc = start.address + u.code.length + 1 + l.code.length + 1)
    (hsize : m.locals.size = prog.locals) (hv : m.locals[start.locals]? = some v)
    (hw : m.locals[start.locals + 1]? = some w)
    (hrounds : atMost ((add · one)^[rounds] v) w = false) :
    Reaches prog inputs m fun m' =>
      m'.pc = start.address + (u.code.length + l.code.length + b.code.length + 11) ∧
        Untouched (· < base) m.locals m'.locals := by
  induction rounds generalizing m v with
  | zero =>
    obtain ⟨m₁, htest, hlocals, hpc₁ | ⟨-, hle⟩⟩ :=
      exists_steps_test inputs (hpc ▸ loop.test.tail) hv hw
    · exact .of_steps htest (.here ⟨hpc₁, hlocals ▸ .refl _ _⟩)
    · exact absurd (hrounds.symm.trans hle) Bool.false_ne_true
  | succ rounds ih =>
    obtain ⟨m₁, htest, hlocals, hpc₁ | ⟨hpc₁, -⟩⟩ :=
      exists_steps_test inputs (hpc ▸ loop.test.tail) hv hw
    · exact .of_steps htest (.here ⟨hpc₁, hlocals ▸ .refl _ _⟩)
    refine .of_steps htest ((hb m₁ (by omega) (hlocals ▸ hsize)).andThen ?_)
    rintro ⟨pc₂, stk, locals, du⟩ ⟨hpc₂, hsame⟩
    obtain rfl : pc₂ = _ := hpc₂
    rw [hlocals] at hsame
    replace hsame : Untouched _ m.locals locals := hsame
    -- the body has left the variable and the bound alone
    have hv₂ : locals[start.locals]? = some v := (hsame.same _ (.inr (.inl rfl))).trans hv
    have hw₂ : locals[start.locals + 1]? = some w := (hsame.same _ (.inr (.inr rfl))).trans hw
    have hslot : start.locals < locals.size := by
      have hfits := loop.fits
      have hsize₂ := hsame.size
      omega
    have hset : Untouched (· ≠ start.locals) locals
        (locals.setIfInBounds start.locals (add v one)) := .set (fun h => h rfl) _ _
    refine .of_steps (steps_tail loop.tail hv₂) ((ih rfl ?_ (getElem?_stored hslot) ?_ ?_).imp ?_)
    · exact hset.size.trans (hsame.size.trans hsize)
    · exact (hset.same _ (Nat.succ_ne_self _)).trans hw₂
    · exact hrounds
    · rintro m' ⟨hpc', hsame'⟩
      exact ⟨hpc', (hsame.mono fun i hi => .inl hi).trans
        ((hset.mono fun i hi => Nat.ne_of_lt (Nat.lt_of_lt_of_le hi hbase)).trans hsame')⟩

/-- **A loop passes** whatever its bounds are, if they do and its body does, and if the body leaves
the variable and the bound of the loop alone. -/
theorem LoopAt.passes (loop : LoopAt prog start u l b) (hbase : base ≤ start.locals)
    (hu : Passes prog inputs (· < start.locals + 2) start.address u.code.length)
    (hl : Passes prog inputs (· < start.locals + 2) (start.address + u.code.length + 1)
      l.code.length)
    (hb : Passes prog inputs (Lasting base start.locals)
      (start.address + u.code.length + 1 + l.code.length + 5) b.code.length) :
    Passes prog inputs (· < base) start.address
      (u.code.length + l.code.length + b.code.length + 11) := by
  intro m hpc hsize
  have hfits := loop.fits
  refine (hu m hpc hsize).andThen ?_
  rintro m₁ ⟨hpc₁, hsame₁⟩
  refine .store loop.storeUpper hpc₁ fun m₂ hpc₂ hlocals₂ => ?_
  have hsame₂ : Untouched (· ≠ start.locals + 1) m₁.locals m₂.locals :=
    hlocals₂ ▸ .set (fun h => h rfl) _ _
  have hsize₁ := hsame₁.size.trans hsize
  have hsize₂ := hsame₂.size.trans hsize₁
  refine (hl m₂ hpc₂ hsize₂).andThen ?_
  rintro m₃ ⟨hpc₃, hsame₃⟩
  refine .store loop.test hpc₃ fun m₄ hpc₄ hlocals₄ => ?_
  have hsame₄ : Untouched (· ≠ start.locals) m₃.locals m₄.locals :=
    hlocals₄ ▸ .set (fun h => h rfl) _ _
  have hsize₃ := hsame₃.size.trans hsize₂
  have hw : m₄.locals[start.locals + 1]? = some m₁.top := by
    rw [hsame₄.same _ (Nat.succ_ne_self _), hsame₃.same _ (Nat.lt_succ_self _), hlocals₂]
    exact getElem?_stored (by omega)
  have hv : m₄.locals[start.locals]? = some m₃.top := by
    rw [hlocals₄]
    exact getElem?_stored (by omega)
  obtain ⟨rounds, hrounds⟩ := CountsUp.above m₃.top m₁.top
  refine (loop.reaches_exit hbase hb hpc₄ (hsame₄.size.trans hsize₃) hv hw hrounds).imp ?_
  rintro m' ⟨hpc', hsame'⟩
  refine ⟨hpc', .trans ?_ hsame'⟩
  have hbelow : Untouched (· < base) m₁.locals m₃.locals :=
    (hsame₂.mono fun i hi => by omega).trans (hsame₃.mono fun i hi => by omega)
  exact (hsame₁.mono fun i hi => by omega).trans (hbelow.trans (hsame₄.mono fun i hi => by omega))

end Loop

/-! ## Compiled code -/

/-- **A way to compile passes**: what it makes passes wherever it stands, and leaves the locals
below its own alone. -/
def Passable (prog : Program K) (inputs : Inputs K V)
    (code : Place → Except ProgramError (Piece K)) : Prop :=
  ∀ ⦃start : Place⦄ ⦃piece : Piece K⦄, code start = .ok piece → PieceAt prog start piece →
    Passes prog inputs (· < start.locals) start.address piece.code.length

/-- Behind a piece, what follows leaves the locals below that piece alone as well. -/
theorem Passes.after {start : Place} {x y : Piece K}
    (hx : Passes prog inputs (· < start.locals) start.address x.code.length)
    (hy : Passes prog inputs (· < (start.after x).locals) (start.after x).address y.code.length) :
    Passes prog inputs (· < start.locals) start.address (x ++ y).code.length := by
  rw [Piece.length_append]
  exact hx.trans (hy.mono fun i hi => Nat.lt_of_lt_of_le hi (Nat.le_add_right _ _))

namespace Passable

variable {f g : Place → Except ProgramError (Piece K)} {op : Opcode K}

theorem of_error {e : ProgramError} (hf : ∀ start, f start = .error e) :
    Passable prog inputs f := by
  intro start piece hok
  rw [hf] at hok
  cases hok

theorem empty (hf : ∀ start, f start = .ok .empty) : Passable prog inputs f := by
  intro start piece hok _
  obtain rfl := Except.ok.inj ((hf start).symm.trans hok)
  exact .refl _ _

/-- A single instruction. -/
theorem leaf (hf : ∀ start piece, f start = .ok piece → ∃ op, piece.code = [op] ∧
      ∀ P, op.Spares P) :
    Passable prog inputs f := by
  intro start piece hok hpiece
  obtain ⟨op, hcode, hop⟩ := hf start piece hok
  refine .code hpiece.code ?_
  rw [hcode]
  exact List.forall_mem_singleton.mpr (hop _)

/-- One piece behind the other. -/
theorem both (hf : Passable prog inputs f) (hg : Passable prog inputs g) :
    Passable prog inputs (fun start => do
      let x ← f start
      return x ++ (← g (start.after x))) := by
  intro start piece hok hpiece
  obtain ⟨x, hx, hok⟩ := ok_of_bind hok
  obtain ⟨y, hy, hok⟩ := ok_of_bind hok
  obtain rfl := Except.ok.inj hok
  exact (hf hx hpiece.left).after (hg hy hpiece.right)

/-- An instruction behind a piece. -/
theorem before (hf : Passable prog inputs f) (hop : ∀ P, op.Spares P) :
    Passable prog inputs (fun start => do return (← f start) ++ .ofCode [op]) :=
  hf.both (g := fun _ => .ok (.ofCode [op])) (leaf fun _ _ hok => ⟨op, by cases hok; rfl, hop⟩)

/-- An instruction behind two pieces. -/
theorem bothBefore (hf : Passable prog inputs f) (hg : Passable prog inputs g)
    (hop : ∀ P, op.Spares P) : Passable prog inputs (fun start => do
      let x ← f start
      let y ← g (start.after x)
      return x ++ y ++ .ofCode [op]) := by
  intro start piece hok hpiece
  obtain ⟨x, hx, hok⟩ := ok_of_bind hok
  obtain ⟨y, hy, hok⟩ := ok_of_bind hok
  obtain rfl := Except.ok.inj hok
  refine ((hf hx hpiece.left.left).after (hg hy hpiece.left.right)).after
    (.code hpiece.right.code ?_)
  exact List.forall_mem_singleton.mpr (hop _)

end Passable

/-! ### Nodes and statements -/

theorem passable_var (scope : Scope) (x : String) :
    Passable prog inputs (fun start => (Node.var x).compile scope start) := by
  refine .leaf fun start piece hok => ?_
  rw [Node.compile] at hok
  cases hslot : scope.lookup x with
  | none =>
    rw [hslot] at hok
    cases hok
  | some slot =>
    rw [hslot] at hok
    obtain rfl := Except.ok.inj hok
    exact ⟨_, rfl, fun _ => trivial⟩

theorem passable_access {scope : Scope} {i : Node K}
    (hi : Passable prog inputs (fun start => i.compile scope start)) :
    ∀ b : Buffer, Passable prog inputs (fun start => (Node.access b i).compile scope start)
  | .zero => .of_error fun _ => rfl
  | .state => hi.before fun _ => trivial
  | .param => hi.before fun _ => trivial

theorem passable_call {scope : Scope} {args : List (Node K)}
    (hargs : Passable prog inputs (fun start => Node.compileAll scope start args)) (func : String) :
    Passable prog inputs (fun start => (Node.call func args).compile scope start) := by
  intro start piece hok
  dsimp only at hok
  rw [Node.compile] at hok
  cases hfunc : Builtin.ofName? func with
  | none =>
    rw [hfunc] at hok
    cases hok
  | some b =>
    rw [hfunc] at hok
    have hcall : ∀ P, (Opcode.call b : Opcode K).Spares P := fun _ => trivial
    exact hargs.before hcall hok

omit [Literal K] in
theorem spares_binary (op : BinaryOp) (P : ℕ → Prop) : (op.opcode : Opcode K).Spares P := by
  cases op <;> trivial

/-- A round of a sum writes the running sum, whose local is right below those of the loop, and
leaves the variable and the bound of the loop alone. -/
theorem passes_round {scope : Scope} {body : Node K}
    (hbody : Passable prog inputs (fun start => body.compile scope start)) {acc : ℕ} {place : Place}
    {term : Piece K} (hplace : acc + 3 ≤ place.locals)
    (hterm : body.compile scope (place.skip 1) = .ok term)
    (hat : PieceAt prog place (.ofCode [.loadLocal acc] ++ term ++
      .ofCode [.add, .storeLocal acc])) :
    Passes prog inputs (Lasting acc (acc + 1)) place.address
      (.ofCode [.loadLocal acc] ++ term ++
        .ofCode [.add, .storeLocal acc] : Piece K).code.length := by
  have hload : Passes prog inputs (Lasting acc (acc + 1)) place.address 1 :=
    .code (c := [.loadLocal acc]) hat.left.left.code (by simp [Opcode.Spares])
  have hterm : Passes prog inputs (Lasting acc (acc + 1)) (place.address + 1) term.code.length :=
    (hbody hterm hat.left.right).mono fun i hi => by
      dsimp only [Place.skip]
      omega
  have hlast : CodeAt prog (place.address + (_ ++ term : Piece K).code.length)
      [.add, .storeLocal acc] := hat.tail
  rw [Piece.length_append] at hlast
  have hacc : ¬Lasting acc (acc + 1) acc := by omega
  have hstore : Passes prog inputs (Lasting acc (acc + 1)) _ 2 :=
    .code hlast (List.forall_mem_cons.mpr ⟨trivial, List.forall_mem_singleton.mpr hacc⟩)
  rw [Piece.length_append, Piece.length_append]
  exact (hload.trans hterm).trans hstore

/-- A compiled loop passes, if its bounds and its body do. -/
theorem passes_countedLoop [CountsUp K V] {start : Place} {base : ℕ} (hbase : base ≤ start.locals)
    {upper lower body : Place → Except ProgramError (Piece K)} {piece : Piece K}
    (hok : countedLoop start upper lower body = .ok piece) (hpiece : PieceAt prog start piece)
    (hupper : Passable prog inputs upper) (hlower : Passable prog inputs lower)
    (hbody : ∀ place b, start.locals + 2 ≤ place.locals → body place = .ok b →
      PieceAt prog place b →
      Passes prog inputs (Lasting base start.locals) place.address b.code.length) :
    Passes prog inputs (· < base) start.address piece.code.length := by
  obtain ⟨u, l, b, hu, hl, hb, hlen, loop⟩ := loopAt_of_countedLoop hok hpiece
  have hentered : ((start.reserve 2).after (loopHead start.locals (start.locals + 1) 0 u l)).address
      = start.address + u.code.length + 1 + l.code.length + 5 := by
    rw [Place.after, length_loopHead]
    dsimp only [Place.reserve]
    omega
  have hb := hbody _ b (Nat.le_add_right _ _) hb loop.body
  rw [hentered] at hb
  rw [hlen]
  exact loop.passes hbase (hupper hu loop.upper)
    ((hlower hl loop.lower).mono fun i hi => Nat.lt_of_lt_of_le hi (Nat.le_add_right _ _)) hb

/-- A sum has its terms added to a local, and loads it in the end. -/
theorem passable_sum [CountsUp K V] {scope : Scope} {x : String} {lo hi body : Node K}
    (hlo : Passable prog inputs (fun start => lo.compile scope start))
    (hhi : Passable prog inputs (fun start => hi.compile scope start))
    (hbody : ∀ scope, Passable prog inputs (fun start => body.compile scope start)) :
    Passable prog inputs (fun start => (Node.sum x lo hi [] body).compile scope start) := by
  intro start piece hok hpiece
  obtain ⟨loop, hloop, hok⟩ := ok_of_bind hok
  obtain rfl := Except.ok.inj hok
  have hwhole := hpiece.reserved
  have hfirst : CodeAt prog start.address [.pushConst Literal.zero, .storeLocal start.locals] :=
    hwhole.left.left.code
  have hinit : Passes prog inputs (· < start.locals) start.address 2 :=
    .code hfirst (by simp [Opcode.Spares])
  have hrounds : Passes prog inputs (· < start.locals) (start.address + 2) loop.code.length := by
    refine passes_countedLoop (Nat.le_succ _) hloop hwhole.left.right hhi hlo ?_
    intro place b hplace hb hat
    obtain ⟨term, hterm, hb⟩ := ok_of_bind hb
    obtain rfl := Except.ok.inj hb
    exact passes_round (hbody _) hplace hterm hat
  have hlast : CodeAt prog (start.address + (_ ++ loop : Piece K).code.length)
      [.loadLocal start.locals] := hwhole.tail
  rw [Piece.length_append] at hlast
  have hload : Passes prog inputs (· < start.locals) _ 1 := .code hlast (by simp [Opcode.Spares])
  change Passes prog inputs _ _ (_ ++ loop ++ _ : Piece K).code.length
  rw [Piece.length_append, Piece.length_append]
  exact (hinit.trans hrounds).trans hload

mutual

/-- **The code of a node passes.** -/
theorem passable_node [CountsUp K V] : ∀ (n : Node K) (scope : Scope),
    Passable prog inputs (fun start => n.compile scope start)
  | .const v, _ => .leaf fun _ _ hok => ⟨.pushConst v, by cases hok; rfl, fun _ => trivial⟩
  | .imaginaryUnit, _ => .leaf fun _ _ hok => ⟨.pushImag, by cases hok; rfl, fun _ => trivial⟩
  | .time, _ => .leaf fun _ _ hok => ⟨.loadTime, by cases hok; rfl, fun _ => trivial⟩
  | .unresolved _, _ => .leaf fun start _ hok =>
    ⟨.fail start.unresolved, by cases hok; rfl, fun _ => trivial⟩
  | .var x, scope => passable_var scope x
  | .access b i, scope => passable_access (passable_node i scope) b
  | .neg a, scope => (passable_node a scope).before fun _ => trivial
  | .binary op a b, scope =>
    (passable_node a scope).bothBefore (passable_node b scope) (spares_binary op)
  | .indicator l r, scope =>
    (passable_node l scope).bothBefore (passable_node r scope) fun _ => trivial
  | .call func args, scope => passable_call (passable_nodes args scope) func
  | .sum _ lo hi [] body, scope =>
    passable_sum (passable_node lo scope) (passable_node hi scope) (passable_node body)
  | .sum _ _ _ (_ :: _) _, _ => .of_error fun _ => rfl
  | .named _, _ => .of_error fun _ => rfl
  | .boundedSum .., _ => .of_error fun _ => rfl
  | .guarded .., _ => .of_error fun _ => rfl

theorem passable_nodes [CountsUp K V] : ∀ (ns : List (Node K)) (scope : Scope),
    Passable prog inputs (fun start => Node.compileAll scope start ns)
  | [], _ => .empty fun _ => rfl
  | n :: ns, scope => (passable_node n scope).both (passable_nodes ns scope)

end

mutual

/-- **The code of a statement passes.** -/
theorem passable_stmt [CountsUp K V] : ∀ (s : Stmt K) (scope : Scope),
    Passable prog inputs (fun start => s.compile scope start)
  | .assign slot value, scope =>
    (passable_node slot scope).bothBefore (passable_node value scope) fun _ => trivial
  | .loop _ lo hi body, scope => by
    intro start piece hok hpiece
    dsimp only at hok
    rw [Stmt.compile] at hok
    refine passes_countedLoop (Nat.le_refl _) hok hpiece (passable_node hi scope)
      (passable_node lo scope) fun place b hplace hb hat => ?_
    exact (passable_stmts body _ hb hat).mono fun i hi => by omega

theorem passable_stmts [CountsUp K V] : ∀ (ss : List (Stmt K)) (scope : Scope),
    Passable prog inputs (fun start => Stmt.compileAll scope start ss)
  | [], _ => .empty fun _ => rfl
  | s :: ss, scope => (passable_stmt s scope).both (passable_stmts ss scope)

end

end Program

/-! ## Calls -/

namespace Callable

variable {K V : Type} [Literal K] [Arithmetic K V] {dialect : Dialect} {p : Procedure K}
  {c : Callable K} {inputs : Inputs K V} {du : Array V}

theorem reaches_end [CountsUp K V] (h : p.materialize dialect = .ok c) (inputs : Inputs K V)
    (du : Array V) :
    c.program.Reaches inputs (c.program.start du) fun m => m.pc = c.program.code.size := by
  obtain ⟨-, -, -, imaginary, hcompile⟩ := Procedure.materialize_eq_ok h
  obtain ⟨-, piece, hpiece, hat, hsize⟩ := Procedure.compile_eq_ok hcompile
  have hpasses : c.program.Passes inputs _ 0 piece.code.length :=
    Program.passable_stmts p.body [] hpiece hat
  refine (hpasses (c.program.start du) rfl Array.size_replicate).imp ?_
  rintro m ⟨hpc, -⟩
  rw [hpc, hsize, Nat.zero_add]

/-- A run that gets to the end of the code, or is stopped before, is a call that returns. -/
theorem returns_of_reaches_end
    (h : c.program.Reaches inputs (c.program.start du) fun m => m.pc = c.program.code.size) :
    ∃ o, c.Returns inputs du o := by
  obtain ⟨n, m, hsteps, hend | ⟨s, hstop⟩⟩ := h
  · have hnone : c.program.code[m.pc]? = none := Array.getElem?_eq_none (Nat.le_of_eq hend.symm)
    refine ⟨⟨.finished, m.du⟩, (fun h => by cases h), n + 0, ?_⟩
    exact (Program.runFrom_of_steps hsteps).trans (Program.runFrom_of_end hnone)
  · refine ⟨⟨s, m.du⟩, hstop.ne_outOfFuel, n + 1, ?_⟩
    exact (Program.runFrom_of_steps hsteps).trans (Program.runFrom_of_stopsAt hstop)

/-- **Every call ends in exact arithmetic**, whatever the bounds of the loops come out as: finitely
many instructions lead to the end of the code or to one that stops the run.  Of the operations only
the comparison, the zero that it is read from and the step of a variable are known. -/
theorem always_returns {K V : Type} [Field K] [LinearOrder K] [IsStrictOrderedRing K]
    [Archimedean K] [Literal K] [Arithmetic K V] (hle : ∀ a b : K, Literal.le a b = true ↔ a ≤ b)
    (hzero : Literal.isZero (real (zero : V) : K) = true)
    (hone : ∀ v : V, real (add v one) = (real v + 1 : K)) {dialect : Dialect} {p : Procedure K}
    {c : Callable K} (h : p.materialize dialect = .ok c) (inputs : Inputs K V) (du : Array V) :
    c.program.Reaches inputs (c.program.start du) (fun m => m.pc = c.program.code.size) ∧
      ∃ o, c.Returns inputs du o := by
  have hcounts : CountsUp K V := countsUp_of_real_add_one hle hzero hone
  have hend := reaches_end h inputs du
  exact ⟨hend, returns_of_reaches_end hend⟩

/-- A procedure whose loops start between two sites and end between two sites. -/
def betweenSites : Procedure ℚ where
  naming := ⟨"du", "u", "p", "t"⟩
  states := []
  params := []
  body := [
    .loop "i" (.const (1 / 2)) (.access .state (.ofInt 0))
      [.assign (.ofInt 0) (.sum "j" (.neg (.var "i")) (.binary .mul (.var "i") (.const (2 / 3))) []
        (.access .state (.ofInt 0)))]]
  checkBounds := true

theorem always_returns_betweenSites : ∃ c, betweenSites.materialize .real = .ok c ∧
    c.program.Reaches (V := ℚ) ⟨#[7 / 2], #[], 0⟩ (c.program.start #[0])
      (fun m => m.pc = c.program.code.size) ∧
    (∃ o, c.Returns (V := ℚ) ⟨#[7 / 2], #[], 0⟩ #[0] o) ∧
    c.Returns (V := ℚ) ⟨#[7 / 2], #[], 0⟩ #[0] ⟨.finished, #[21]⟩ := by
  obtain ⟨c, hc⟩ : ∃ c, betweenSites.materialize .real = .ok c := ⟨_, rfl⟩
  have hends :=
    always_returns (V := ℚ) (fun _ _ => ExactLiteral.le_iff) TruthValues.isZero_real_zero
    (fun _ => rfl) hc ⟨#[7 / 2], #[], 0⟩ #[0]
  refine ⟨c, hc, hends.1, hends.2, ?_⟩
  obtain rfl := Except.ok.inj hc
  exact ⟨by decide, 1000, by decide +kernel⟩

end Callable

end Fluxion
