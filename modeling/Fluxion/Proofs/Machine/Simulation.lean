import Fluxion.Proofs.Lowering.Fallible
import Fluxion.Proofs.Machine.Implements

/-!
# Proofs/Machine/Simulation — the code of a procedure carries out its meaning

    Procedure ──compile──▸ Program ──run──▸ Outcome
        └───────────── Means ─────────────────┘

The code of a node pushes the value of the node (`Node.compile_implements`), the code of a statement
changes the derivative as the statement does (`Stmt.compile_implements`).  Both leave every local
below their own alone (`Kept`), so variables in scope, bounds and running sums survive whatever runs
inside; and both are placed anywhere in a program, so absolute jumps need no relocation.

Values are opaque: the code performs the operations of the meaning one by one, in the same order.
-/

namespace Fluxion

variable {K V : Type} [Literal K] [Arithmetic K V]

open Arithmetic

namespace Program

/-- A program under the names and the bounds check of a procedure. -/
structure Serves (prog : Program K) (p : Procedure K) : Prop where
  naming : prog.naming = p.naming
  checkBounds : prog.checkBounds = p.checkBounds

theorem Serves.read_eq {prog : Program K} {p : Procedure K} (h : prog.Serves p)
    (inputs : Inputs K V) (b : Buffer) (v : V) : prog.read inputs b v = p.fetch inputs b v := by
  have hname : prog.bufferName b = p.bufferName b := by
    cases b <;> simp only [bufferName, Procedure.bufferName, h.naming]
  have hcheck := h.checkBounds
  unfold read Procedure.fetch outOfRange Procedure.outOfRange
  generalize prog.bufferName b = name, prog.checkBounds = check at hname hcheck ⊢
  subst hname hcheck
  rfl

theorem Serves.write_eq {prog : Program K} {p : Procedure K} (h : prog.Serves p) (du : Array V)
    (index v : V) : prog.write du index v = p.store du index v := by
  obtain ⟨hnaming, hcheck⟩ := h
  unfold write Procedure.store outOfRange Procedure.outOfRange
  generalize prog.naming = naming, prog.checkBounds = check at hnaming hcheck ⊢
  subst hnaming hcheck
  rfl

/-! ## Locals -/

/-- Locals of which those below a bound have not changed. -/
structure Kept (base : Nat) (locals locals' : Array V) : Prop where
  size : locals'.size = locals.size
  below : ∀ i < base, locals'[i]? = locals[i]?

theorem Kept.refl (base : Nat) (locals : Array V) : Kept base locals locals :=
  ⟨rfl, fun _ _ => rfl⟩

theorem Kept.trans {base base' : Nat} {l l' l'' : Array V} (h : Kept base l l')
    (h' : Kept base' l' l'') (hb : base ≤ base') : Kept base l l'' :=
  ⟨h'.size.trans h.size, fun i hi =>
    (h'.below i (Nat.lt_of_lt_of_le hi hb)).trans (h.below i hi)⟩

theorem Kept.mono {base base' : Nat} {l l' : Array V} (h : Kept base' l l') (hb : base ≤ base') :
    Kept base l l' := ⟨h.size, fun i hi => h.below i (Nat.lt_of_lt_of_le hi hb)⟩

/-- Writing a local keeps those below it. -/
theorem Kept.set {base slot : Nat} (locals : Array V) (v : V) (h : base ≤ slot) :
    Kept base locals (locals.setIfInBounds slot v) where
  size := Array.size_setIfInBounds
  below i hi := Array.getElem?_setIfInBounds_ne (by omega)

/-- **Variables in their locals**, all of them below a bound. -/
def Holds (base : Nat) (locals : Array V) : Scope → Env V → Prop
  | [], [] => True
  | (x, slot) :: scope, (y, v) :: env =>
    (x = y ∧ slot < base ∧ locals[slot]? = some v) ∧ Holds base locals scope env
  | _, _ => False

theorem Holds.kept {base base' : Nat} {l l' : Array V} (hk : Kept base l l') (hb : base ≤ base') :
    ∀ {scope : Scope} {env : Env V}, Holds base l scope env → Holds base' l' scope env
  | [], [], _ => trivial
  | (_, slot) :: _, (_, _) :: _, ⟨⟨hx, hslot, hv⟩, hrest⟩ =>
    ⟨⟨hx, Nat.lt_of_lt_of_le hslot hb, (hk.below slot hslot).trans hv⟩, hrest.kept hk hb⟩
  | [], _ :: _, h => h.elim
  | _ :: _, [], h => h.elim

/-- The local of a variable holds the value of its innermost binder. -/
theorem Holds.lookup {base : Nat} {locals : Array V} {x : String} {slot : Nat} :
    ∀ {scope : Scope} {env : Env V}, Holds base locals scope env → scope.lookup x = some slot →
      ∃ v, env.lookup x = some v ∧ locals[slot]? = some v
  | [], [], _, hs => by simp at hs
  | (y, slot') :: scope, (_, v) :: env, ⟨⟨rfl, _, hv⟩, hrest⟩, hs => by
    rw [List.lookup_cons] at hs ⊢
    cases hxy : x == y with
    | true =>
      rw [hxy] at hs
      obtain rfl := Option.some.inj hs
      exact ⟨v, rfl, hv⟩
    | false =>
      rw [hxy] at hs
      exact hrest.lookup hs
  | [], _ :: _, h, _ => h.elim
  | _ :: _, [], h, _ => h.elim

/-- A machine at the start of a piece, with the variables in scope in their locals. -/
structure Ready (prog : Program K) (start : Place) (scope : Scope) (env : Env V) (m : Machine V) :
    Prop where
  pc : m.pc = start.address
  size : m.locals.size = prog.locals
  holds : Holds start.locals m.locals scope env

/-- Stopped by an instruction, with this derivative. -/
def Stopped (prog : Program K) (inputs : Inputs K V) (du : Array V) (s : Status K)
    (m : Machine V) : Prop :=
  StopsAt prog inputs m s ∧ m.du = du

/-- Behind a piece that pushes values, the last on top. -/
def Pushed (base len : Nat) (m : Machine V) (vs : List V) (m' : Machine V) : Prop :=
  ∃ locals, Kept base m.locals locals ∧ m' = ⟨m.pc + len, vs.reverse ++ m.stack, locals, m.du⟩

end Program

/-! ## Counted loops -/

omit [Literal K] in
theorem Piece.length_append (x y : Piece K) :
    (x ++ y).code.length = x.code.length + y.code.length := List.length_append

namespace Place

variable (here : Place) (x y : Piece K)

omit [Literal K] in
theorem after_append : here.after (x ++ y) = (here.after x).after y := by
  have hnames : (x ++ y).unresolved.length = x.unresolved.length + y.unresolved.length :=
    List.length_append
  rw [after, Piece.length_append, hnames]
  simp only [after, Nat.add_assoc]
  rfl

end Place

namespace Program

variable {prog : Program K} {inputs : Inputs K V}

/-- **A counted loop in its place**: its three pieces and the instructions between them. -/
structure LoopAt (prog : Program K) (start : Place) (u l b : Piece K) : Prop where
  upper : PieceAt prog (start.reserve 2) u
  storeUpper : CodeAt prog (start.address + u.code.length) [.storeLocal (start.locals + 1)]
  lower : PieceAt prog (((start.reserve 2).after u).skip 1) l
  test : CodeAt prog (start.address + u.code.length + 1 + l.code.length)
    [.storeLocal start.locals, .loadLocal start.locals, .loadLocal (start.locals + 1), .le,
      .jumpIfFalse (start.address + (u.code.length + l.code.length + b.code.length + 11))]
  body : PieceAt prog
    ((start.reserve 2).after (loopHead start.locals (start.locals + 1) 0 u l)) b
  tail : CodeAt prog (start.address + u.code.length + 1 + l.code.length + 5 + b.code.length)
    [.loadLocal start.locals, .pushConst Literal.one, .add, .storeLocal start.locals,
      .jump (start.address + u.code.length + 1 + l.code.length + 1)]
  fits : start.locals + 2 ≤ prog.locals

omit [Literal K] in
theorem length_loopHead (slot hi exit : Nat) (u l : Piece K) :
    (loopHead slot hi exit u l).code.length = u.code.length + 1 + l.code.length + 5 := by
  change (u.code ++ [_] ++ l.code ++ [_, _, _, _, _]).length = _
  simp only [List.length_append, List.length_cons, List.length_nil]

omit [Literal K] in
/-- A piece that takes some more locals, behind them. -/
theorem PieceAt.reserved {start : Place} {piece : Piece K} {n : Nat}
    (h : PieceAt prog start { piece with locals := piece.locals + n }) :
    PieceAt prog (start.reserve n) piece where
  code := h.code
  locals := by
    have := h.locals
    change start.locals + (piece.locals + n) ≤ _ at this
    change start.locals + n + piece.locals ≤ _
    omega
  unresolved := h.unresolved

/-- A compiled loop consists of its pieces, each in its place. -/
theorem loopAt_of_countedLoop {ε : Type} {start : Place} {upper lower body : Place →
    Except ε (Piece K)} {piece : Piece K} (h : countedLoop start upper lower body = .ok piece)
    (hpiece : PieceAt prog start piece) :
    ∃ u l b, upper (start.reserve 2) = .ok u ∧
      lower (((start.reserve 2).after u).skip 1) = .ok l ∧
      body ((start.reserve 2).after (loopHead start.locals (start.locals + 1) 0 u l)) = .ok b ∧
      piece.code.length = u.code.length + l.code.length + b.code.length + 11 ∧
      LoopAt prog start u l b := by
  obtain ⟨u, hu, h⟩ := ok_of_bind h
  obtain ⟨l, hl, h⟩ := ok_of_bind h
  obtain ⟨b, hb, h⟩ := ok_of_bind h
  obtain rfl := Except.ok.inj h
  have hhead := length_loopHead (K := K) start.locals (start.locals + 1)
  have hexit : start.address + (u.code.length + 1 + l.code.length + 5) + b.code.length + 5
      = start.address + (u.code.length + l.code.length + b.code.length + 11) := by omega
  have htop : start.address + u.code.length + l.code.length + 2
      = start.address + u.code.length + 1 + l.code.length + 1 := by omega
  rw [hhead, hexit, htop] at hpiece
  have hwhole := hpiece.reserved
  have hu' := hwhole.left.left.left.left.left
  have hl' := hwhole.left.left.left.right
  have hb' := hwhole.left.right
  rw [Place.after_append] at hl'
  refine ⟨u, l, b, hu, hl, hb, ?_, hu', hwhole.left.left.left.left.tail, hl', ?_, ?_, ?_, ?_⟩
  · change (_ ++ b.code ++ _).length = _
    rw [List.length_append, List.length_append, hhead]
    change _ + 5 = _
    omega
  · have htest := hwhole.left.left.tail
    change CodeAt prog (start.address + (u.code ++ [_] ++ l.code).length) _ at htest
    rwa [List.length_append, List.length_append, ← Nat.add_assoc, ← Nat.add_assoc] at htest
  · have hplace (e : Nat) :
        (start.reserve 2).after (loopHead start.locals (start.locals + 1) e u l)
        = (start.reserve 2).after (loopHead start.locals (start.locals + 1) 0 u l) := by
      rw [Place.after, Place.after, hhead, hhead]
      rfl
    rwa [hplace] at hb'
  · have htail := hwhole.tail
    change CodeAt prog (start.address + (_ ++ b.code).length) _ at htail
    rw [List.length_append, hhead] at htail
    simpa only [← Nat.add_assoc] using htail
  · have := hpiece.locals
    change start.locals + (_ + 2) ≤ _ at this
    omega

/-! ### Single instructions -/

variable {pc slot : Nat} {stk : List V} {locals du : Array V} {v : V}

/-- The instruction at the head of a piece of code, then the rest. -/
theorem Steps.cons {n : Nat} {op : Opcode K} {c : List (Opcode K)} {m m₁ m' : Machine V}
    (hcode : CodeAt prog m.pc (op :: c)) (hstep : prog.step inputs m op = .ok m₁)
    (h : Steps prog inputs n m₁ m') : Steps prog inputs (n + 1) m m' :=
  ⟨op, m₁, hcode.head, hstep, h⟩

/-- Reading a local that holds a value. -/
theorem step_loadLocal (h : locals[slot]? = some v) :
    prog.step inputs ⟨pc, stk, locals, du⟩ (.loadLocal slot)
      = .ok ⟨pc + 1, v :: stk, locals, du⟩ := by
  have hget : locals.getD slot zero = v := by
    rw [Array.getD_eq_getD_getElem?, h]
    rfl
  rw [step, Machine.next, Machine.push, hget]

/-- Writing a local. -/
theorem steps_storeLocal {c : List (Opcode K)} (hcode : CodeAt prog pc (.storeLocal slot :: c)) :
    Steps prog inputs 1 ⟨pc, v :: stk, locals, du⟩
      ⟨pc + 1, stk, locals.setIfInBounds slot v, du⟩ :=
  .cons hcode rfl (.refl _)

/-- A local that is written holds what was written. -/
theorem getElem?_stored (hsize : slot < locals.size) :
    (locals.setIfInBounds slot v)[slot]? = some v :=
  Array.getElem?_setIfInBounds_self_of_lt hsize

/-- The end of a round: the variable steps, and the test comes again. -/
theorem steps_tail {top : Nat} (hcode : CodeAt prog pc
      [.loadLocal slot, .pushConst Literal.one, .add, .storeLocal slot, .jump top])
    (hv : locals[slot]? = some v) :
    Steps prog inputs 5 ⟨pc, stk, locals, du⟩
      ⟨top, stk, locals.setIfInBounds slot (add v one), du⟩ :=
  .cons hcode (step_loadLocal hv) (.cons hcode.tail rfl (.cons hcode.tail.tail rfl
    (.cons hcode.tail.tail.tail rfl (.cons hcode.tail.tail.tail.tail rfl (.refl _)))))

variable [TruthValues K V]

/-- A conditional jump reads a truth value as what it is. -/
theorem step_jumpIfFalse (exit : Nat) (b : Bool) :
    prog.step inputs ⟨pc, ofBool b :: stk, locals, du⟩ (.jumpIfFalse exit)
      = .ok ⟨if b then pc + 1 else exit, stk, locals, du⟩ := by
  cases b with
  | false => exact if_pos TruthValues.isZero_real_zero
  | true =>
    refine if_neg fun h => ?_
    exact Bool.false_ne_true (TruthValues.isZero_real_one.symm.trans h)

/-- The test of a loop: into the body, or out of the loop. -/
theorem steps_test {exit : Nat} {w : V} (hcode : CodeAt prog pc
      [.loadLocal slot, .loadLocal (slot + 1), .le, .jumpIfFalse exit])
    (hv : locals[slot]? = some v) (hw : locals[slot + 1]? = some w) :
    Steps prog inputs 4 ⟨pc, stk, locals, du⟩
      ⟨if atMost v w then pc + 4 else exit, stk, locals, du⟩ :=
  .cons hcode (step_loadLocal hv) (.cons hcode.tail (step_loadLocal hw)
    (.cons hcode.tail.tail rfl (.cons hcode.tail.tail.tail (step_jumpIfFalse exit _) (.refl _))))

/-! ### The rounds of a loop

Between two rounds, locals and derivative represent the state of the loop — the running sum, or the
derivative itself.  `View c` is that representation of a state `c`; it may look at the locals below
those of the loop only, and variables in scope are among them. -/

section Loop

variable {σ β : Type} {start : Place} {u l b : Piece K} {scope : Scope} {env : Env V} {x : String}
  {stop : σ → Machine V → Prop} {upper lower : Computation σ V} {body : V → β → Computation σ β}
  {View : β → Array V → Array V → Prop} {c : β} {w : V} {m : Machine V}

/-- What a representation of loop states has to satisfy. -/
structure LoopView (base : Nat) (scope : Scope) (env : Env V)
    (View : β → Array V → Array V → Prop) : Prop where
  stable : ∀ c l l' du, Kept base l l' → View c l du → View c l' du
  holds : ∀ c l du, View c l du → Holds base l scope env

/-- The machine before a round with this value of the variable and this state. -/
def AtTop (prog : Program K) (slot top : Nat) (stk : List V) (View : β → Array V → Array V → Prop)
    (w v : V) (c : β) (m : Machine V) : Prop :=
  ∃ locals du, m = ⟨top, stk, locals, du⟩ ∧ locals.size = prog.locals ∧
    locals[slot]? = some v ∧ locals[slot + 1]? = some w ∧ View c locals du

/-- The machine behind the body: the locals of the loop are as they were before it. -/
def BehindBody (slot pc : Nat) (stk : List V) (View : β → Array V → Array V → Prop)
    (before : Array V) (c : β) (m : Machine V) : Prop :=
  ∃ locals du, m = ⟨pc, stk, locals, du⟩ ∧ locals.size = before.size ∧
    locals[slot]? = before[slot]? ∧ locals[slot + 1]? = before[slot + 1]? ∧ View c locals du

/-- The machine behind the loop. -/
def BehindLoop (prog : Program K) (pc : Nat) (stk : List V)
    (View : β → Array V → Array V → Prop) (c : β) (m : Machine V) : Prop :=
  ∃ locals du, m = ⟨pc, stk, locals, du⟩ ∧ locals.size = prog.locals ∧ View c locals du

omit [Literal K] [Arithmetic K V] [TruthValues K V] in
/-- Behind the test of a loop its body can start, with the variable of the loop in scope. -/
theorem ready_loopBody (hsize : locals.size = prog.locals) (hv : locals[start.locals]? = some v)
    (hholds : Holds start.locals locals scope env) :
    Ready prog ((start.reserve 2).after (loopHead start.locals (start.locals + 1) 0 u l))
      ((x, start.locals) :: scope) ((x, v) :: env)
      ⟨start.address + u.code.length + 1 + l.code.length + 1 + 4, stk, locals, du⟩ where
  pc := by
    rw [Place.after, length_loopHead]
    change start.address + u.code.length + 1 + l.code.length + 1 + 4
      = start.address + (u.code.length + 1 + l.code.length + 5)
    omega
  size := hsize
  holds := by
    refine ⟨⟨rfl, ?_, hv⟩, hholds.kept (.refl _ _) ?_⟩
    · change start.locals < start.locals + 2 + _
      omega
    · change start.locals ≤ start.locals + 2 + _
      omega

omit [Arithmetic K V] [TruthValues K V] in
/-- A round can start once the variable of the loop has its value. -/
theorem LoopAt.atTop (loop : LoopAt prog start u l b) (hview : LoopView start.locals scope env View)
    {top : Nat} (hsize : locals.size = prog.locals) (hw : locals[start.locals + 1]? = some w)
    (hc : View c locals du) : AtTop prog start.locals top stk View w v c
      ⟨top, stk, locals.setIfInBounds start.locals v, du⟩ := by
  have hlt : start.locals < locals.size := by
    have := loop.fits
    omega
  refine ⟨_, du, rfl, Array.size_setIfInBounds.trans hsize, getElem?_stored hlt, ?_,
    hview.stable _ _ _ _ (.set _ _ (Nat.le_refl _)) hc⟩
  rw [Array.getElem?_setIfInBounds_ne (Nat.ne_of_lt (Nat.lt_succ_self _)), hw]

/-- **A loop carries out its rounds**, if its body carries out one. -/
theorem LoopAt.rounds (loop : LoopAt prog start u l b)
    (hview : LoopView start.locals scope env View) (hbody : ∀ v c m', Ready prog
        ((start.reserve 2).after (loopHead start.locals (start.locals + 1) 0 u l))
        ((x, start.locals) :: scope) ((x, v) :: env) m' → m'.stack = stk →
      View c m'.locals m'.du → Implements prog inputs stop
        (BehindBody start.locals (m'.pc + b.code.length) stk View m'.locals) (body v c) m')
    (htop : AtTop prog start.locals (start.address + u.code.length + 1 + l.code.length + 1) stk View
      w v c m) :
    Implements prog inputs stop
      (BehindLoop prog (start.address + (u.code.length + l.code.length + b.code.length + 11)) stk
        View) (Rounds w body v c) m := by
  refine Implements.rounds (AtTop prog start.locals
    (start.address + u.code.length + 1 + l.code.length + 1) stk View w) ?_ ?_ htop
  · rintro v c _ ⟨locals, du, rfl, hsize, hv, hw, hc⟩ hle
    have htest : Steps prog inputs 4 ⟨_, stk, locals, du⟩ _ := steps_test loop.test.tail hv hw
    rw [hle, if_neg Bool.false_ne_true] at htest
    exact ⟨4, _, htest, locals, du, rfl, hsize, hc⟩
  · rintro v c _ ⟨locals, du, rfl, hsize, hv, hw, hc⟩ hle
    have htest : Steps prog inputs 4 ⟨_, stk, locals, du⟩ _ := steps_test loop.test.tail hv hw
    rw [hle, if_pos rfl] at htest
    refine ⟨4, _, Nat.succ_pos 3, htest, (hbody v c _ (ready_loopBody hsize hv
      (hview.holds _ _ _ hc)) rfl hc).behind ?_⟩
    rintro c' _ ⟨locals', du', rfl, hsize', hv', hw', hc'⟩
    have hpc : start.address + u.code.length + 1 + l.code.length + 1 + 4 + b.code.length
        = start.address + u.code.length + 1 + l.code.length + 5 + b.code.length := by omega
    exact ⟨5, _, steps_tail (v := v) (hpc ▸ loop.tail) (hv'.trans hv),
      loop.atTop hview (hsize'.trans hsize) (hw'.trans hw) hc'⟩

/-- **A counted loop carries out its bounds and its rounds.** -/
theorem LoopAt.implements (loop : LoopAt prog start u l b)
    (hview : LoopView start.locals scope env View) (hpc : m.pc = start.address)
    (hsize : m.locals.size = prog.locals) (hc : View c m.locals m.du)
    (hupper : ∀ m', Ready prog (start.reserve 2) scope env m' → m'.du = m.du →
      Implements prog inputs stop
        (fun v => Pushed (start.reserve 2).locals u.code.length m' [v]) upper m')
    (hlower : ∀ m', Ready prog (((start.reserve 2).after u).skip 1) scope env m' → m'.du = m.du →
      Implements prog inputs stop (fun v =>
        Pushed (((start.reserve 2).after u).skip 1).locals l.code.length m' [v]) lower m')
    (hbody : ∀ v c m', Ready prog
        ((start.reserve 2).after (loopHead start.locals (start.locals + 1) 0 u l))
        ((x, start.locals) :: scope) ((x, v) :: env) m' → m'.stack = m.stack →
      View c m'.locals m'.du → Implements prog inputs stop
        (BehindBody start.locals (m'.pc + b.code.length) m.stack View m'.locals) (body v c) m') :
    Implements prog inputs stop
      (BehindLoop prog (start.address + (u.code.length + l.code.length + b.code.length + 11))
        m.stack View) (upper.andThen fun w => lower.andThen fun v => Rounds w body v c) m := by
  obtain ⟨pc, stk, locals₀, du₀⟩ := m
  obtain rfl : pc = start.address := hpc
  replace hsize : locals₀.size = prog.locals := hsize
  have hfits := loop.fits
  refine (hupper _ ⟨rfl, hsize, ?_⟩ rfl).andThen ?_
  · exact (hview.holds _ _ _ hc).kept (.refl _ _) (Nat.le_add_right _ _)
  rintro w _ ⟨locals₁, hk₁, rfl⟩
  -- the upper bound goes to its local, which evaluating the lower one leaves alone
  refine .before (steps_storeLocal loop.storeUpper) ?_
  have hsize₁ : locals₁.size = prog.locals := hk₁.size.trans hsize
  have hk₂ : Kept start.locals locals₀ (locals₁.setIfInBounds (start.locals + 1) w) :=
    (hk₁.mono (Nat.le_add_right _ _)).trans (.set _ _ (Nat.le_add_right _ _)) (Nat.le_refl _)
  have hsize₂ : (locals₁.setIfInBounds (start.locals + 1) w).size = prog.locals :=
    Array.size_setIfInBounds.trans hsize₁
  have hc₂ := hview.stable _ _ _ _ hk₂ hc
  refine (hlower ⟨start.address + u.code.length + 1, stk, _, du₀⟩ ⟨rfl, hsize₂, ?_⟩ rfl).andThen ?_
  · exact (hview.holds _ _ _ hc₂).kept (.refl _ _) (by change _ ≤ start.locals + 2 + _; omega)
  rintro v _ ⟨locals₃, hk₃, rfl⟩
  have hbase : start.locals + 2 ≤ (((start.reserve 2).after u).skip 1).locals :=
    Nat.le_add_right _ _
  have hw : locals₃[start.locals + 1]? = some w :=
    (hk₃.below _ (by omega)).trans (getElem?_stored (by omega))
  exact .before (steps_storeLocal loop.test) (loop.rounds hview hbody (loop.atTop hview
    (hk₃.size.trans hsize₂) hw (hview.stable _ _ _ _ (hk₃.mono (by omega)) hc₂)))

end Loop

end Program

/-! ## Nodes -/

namespace Program

variable {prog : Program K} {inputs : Inputs K V} {p : Procedure K} {start : Place} {scope : Scope}
  {env : Env V} {m : Machine V} {stop : Status K → Machine V → Prop}

omit [Literal K] [Arithmetic K V] in
/-- Behind a piece that keeps its locals, the next piece can start. -/
theorem Ready.after (h : Ready prog start scope env m) (x : Piece K) {stk : List V}
    {locals du : Array V} (hk : Kept start.locals m.locals locals) :
    Ready prog (start.after x) scope env ⟨m.pc + x.code.length, stk, locals, du⟩ where
  pc := by
    rw [h.pc]
    rfl
  size := hk.size.trans h.size
  holds := h.holds.kept hk (Nat.le_add_right _ _)

/-- An instruction that pushes a value. -/
theorem Implements.push {base : Nat} {op : Opcode K} {v : V} (hcode : CodeAt prog m.pc [op])
    (hstep : prog.step inputs m op = .ok (m.push v).next) :
    Implements prog inputs stop (fun v => Pushed base 1 m [v]) (.of (.ok v)) m :=
  .before (.cons hcode hstep (.refl _)) (.of_lands ⟨m.locals, .refl _ _, rfl⟩)

/-- A piece that pushes a value, and an instruction that replaces it. -/
theorem Implements.unary {x : Piece K} {op : Opcode K} {f : V → V} {a : Computation (Status K) V}
    (hready : Ready prog start scope env m) (hpiece : PieceAt prog start (x ++ .ofCode [op]))
    (hx : Implements prog inputs stop (fun v => Pushed start.locals x.code.length m [v]) a m)
    (hop : ∀ m', prog.step inputs m' op = .ok (m'.unary f)) :
    Implements prog inputs stop
      (fun v => Pushed start.locals (x ++ .ofCode [op]).code.length m [v])
      (a.andThen fun v => .of (.ok (f v))) m := by
  refine hx.andThen ?_
  rintro v _ ⟨locals, hk, rfl⟩
  have hcode := hpiece.tail
  rw [← hready.pc] at hcode
  refine .before (.cons hcode (hop _) (.refl _)) (.of_lands ⟨locals, hk, ?_⟩)
  rw [Piece.length_append]
  rfl

/-- Two pieces that push a value each, and an instruction that combines them. -/
theorem Implements.binary {x y : Piece K} {op : Opcode K} {f : V → V → V}
    {a b : Computation (Status K) V} (hready : Ready prog start scope env m)
    (hpiece : PieceAt prog start (x ++ y ++ .ofCode [op]))
    (hx : Implements prog inputs stop (fun v => Pushed start.locals x.code.length m [v]) a m)
    (hy : ∀ m', Ready prog (start.after x) scope env m' → m'.du = m.du → Implements prog inputs stop
      (fun v => Pushed (start.after x).locals y.code.length m' [v]) b m')
    (hop : ∀ m', prog.step inputs m' op = .ok (m'.binary f)) :
    Implements prog inputs stop
      (fun v => Pushed start.locals (x ++ y ++ .ofCode [op]).code.length m [v])
      (a.andThen fun v => b.andThen fun w => .of (.ok (f v w))) m := by
  refine hx.andThen ?_
  rintro v _ ⟨locals, hk, rfl⟩
  refine (hy _ (hready.after x hk) rfl).andThen ?_
  rintro w _ ⟨locals', hk', rfl⟩
  have hcode := hpiece.tail
  rw [← hready.pc, Piece.length_append, ← Nat.add_assoc] at hcode
  refine .before (.cons hcode (hop _) (.refl _))
    (.of_lands ⟨locals', hk.trans hk' (Nat.le_add_right _ _), ?_⟩)
  rw [Piece.length_append, Piece.length_append, ← Nat.add_assoc, ← Nat.add_assoc]
  rfl

/-- An instruction that computes something, or stops the run. -/
theorem Implements.instruction {α : Type} {op : Opcode K} {r : Except (Status K) α}
    {after : α → Machine V → Prop} {f : α → Machine V} (hcode : CodeAt prog m.pc [op])
    (hstep : prog.step inputs m op = r.map f) (hafter : ∀ a, after a (f a)) :
    Implements prog inputs (Stopped prog inputs m.du) after (.of r) m := by
  cases r with
  | error s => exact .of_lands ⟨⟨op, hcode.head, hstep⟩, rfl⟩
  | ok a => exact .before (.cons hcode hstep (.refl _)) (.of_lands (hafter a))

/-- Reading an element replaces the index, unless it stops the run. -/
theorem step_load (b : Buffer) (index : V) (pc : Nat) (stk : List V) (locals du : Array V) :
    prog.step inputs ⟨pc, index :: stk, locals, du⟩ (.load b)
      = (prog.read inputs b index).map (⟨pc + 1, · :: stk, locals, du⟩) := by
  rw [step, Machine.top, List.headD_cons]
  cases prog.read inputs b index <;> rfl

/-- What is said of the code of a node: it pushes the value of the node. -/
def Carries (prog : Program K) (inputs : Inputs K V) (p : Procedure K) (n : Node K) : Prop :=
  ∀ ⦃scope : Scope⦄ ⦃start : Place⦄ ⦃piece : Piece K⦄ ⦃env : Env V⦄ ⦃m : Machine V⦄,
    n.compile scope start = .ok piece → PieceAt prog start piece → Ready prog start scope env m →
      Implements prog inputs (Stopped prog inputs m.du)
        (fun v => Pushed start.locals piece.code.length m [v]) (n.meaning p inputs env) m

theorem Carries.starting {n : Node K} (hn : Carries prog inputs p n) {piece : Piece K}
    (h : n.compile scope start = .ok piece) (hpiece : PieceAt prog start piece) {du : Array V} :
    ∀ m : Machine V, Ready prog start scope env m → m.du = du →
      Implements prog inputs (Stopped prog inputs du)
        (fun v => Pushed start.locals piece.code.length m [v]) (n.meaning p inputs env) m := by
  rintro m hready rfl
  exact hn h hpiece hready

/-- The locals of a sum between two rounds: the running sum, and all below it as they were. -/
def SumView (base : Nat) (m : Machine V) (acc : V) (locals du : Array V) : Prop :=
  locals[base]? = some acc ∧ Kept base m.locals locals ∧ du = m.du

omit [Literal K] in
theorem loopView_sumView (hholds : Holds start.locals m.locals scope env) :
    LoopView (start.locals + 1) scope env (SumView start.locals m) where
  stable _ _ _ _ hk := fun ⟨hacc, hkept, hdu⟩ =>
    ⟨(hk.below _ (Nat.lt_succ_self _)).trans hacc, hkept.trans hk (Nat.le_succ _), hdu⟩
  holds _ _ _ := fun ⟨_, hkept, _⟩ => hholds.kept hkept (Nat.le_succ _)

/-- One round of a sum: the summand is added to the running sum. -/
theorem sumBody_implements {place : Place} {body : Node K} {x : String} {v acc : V}
    {term : Piece K} {m' : Machine V} (hbody : Carries prog inputs p body)
    (hterm : body.compile ((x, start.locals + 1) :: scope) (place.skip 1) = .ok term)
    (hpiece : PieceAt prog place (.ofCode [.loadLocal start.locals] ++ term
      ++ .ofCode [.add, .storeLocal start.locals]))
    (hplace : start.locals + 3 ≤ place.locals)
    (hready : Ready prog place ((x, start.locals + 1) :: scope) ((x, v) :: env) m')
    (hview : SumView start.locals m acc m'.locals m'.du) :
    Implements prog inputs (Stopped prog inputs m.du)
      (BehindBody (start.locals + 1) (m'.pc + (.ofCode [.loadLocal start.locals] ++ term
        ++ .ofCode [.add, .storeLocal start.locals] : Piece K).code.length) m'.stack
        (SumView start.locals m) m'.locals)
      ((body.meaning p inputs ((x, v) :: env)).andThen fun w => .of (.ok (add acc w))) m' := by
  obtain ⟨pc, stk, locals, du⟩ := m'
  obtain ⟨hacc, hkept, hdu⟩ := hview
  obtain rfl : du = m.du := hdu
  have hpc : pc = place.address := hready.pc
  have hload : CodeAt prog pc [.loadLocal start.locals] := hpc ▸ hpiece.left.left.code
  have hready' : Ready prog (place.skip 1) ((x, start.locals + 1) :: scope) ((x, v) :: env)
      ⟨pc + 1, acc :: stk, locals, m.du⟩ :=
        hready.after (.ofCode [.loadLocal start.locals]) (.refl _ _)
  refine .before (.cons hload (step_loadLocal hacc) (.refl _)) ?_
  refine (hbody hterm hpiece.left.right hready').andThen ?_
  rintro w _ ⟨locals', hk, rfl⟩
  have hlt : start.locals < locals'.size := by
    have hsize : locals'.size = prog.locals := hk.size.trans hready'.size
    have := hpiece.locals
    omega
  have hcode := hpiece.tail
  rw [← hpc, Piece.length_append, ← Nat.add_assoc] at hcode
  refine .before (.cons hcode rfl (steps_storeLocal hcode.tail))
    (.of_lands ⟨_, _, ?_, Array.size_setIfInBounds.trans hk.size, ?_, ?_, getElem?_stored hlt,
      ?_, rfl⟩)
  · rw [Piece.length_append, Piece.length_append, ← Nat.add_assoc, ← Nat.add_assoc]
    rfl
  · rw [Array.getElem?_setIfInBounds_ne (Nat.ne_of_lt (Nat.lt_succ_self _))]
    exact hk.below _ (by change _ < place.locals; omega)
  · rw [Array.getElem?_setIfInBounds_ne (by omega)]
    exact hk.below _ (by change _ < place.locals; omega)
  · refine (hkept.trans (hk.mono (Nat.le_refl _)) ?_).trans (.set _ _ (Nat.le_refl _))
      (Nat.le_refl _)
    change start.locals ≤ place.locals
    omega

/-- The code of an access pushes the element at the value of its subscript, or stops there. -/
theorem carries_access (hs : prog.Serves p) {b : Buffer} {i : Node K}
    (hi : Carries prog inputs p i) :
    Carries prog inputs p (.access b i) := by
  intro scope start piece env m h hpiece hready
  by_cases hb : b = .zero
  · rw [hb, Node.compile] at h
    cases h
  rw [Node.compile] at h
  rotate_left
  · exact hb
  obtain ⟨x, hx, h⟩ := ok_of_bind h
  obtain rfl := Except.ok.inj h
  rw [Node.meaning]
  refine (hi hx hpiece.left hready).andThen ?_
  rintro index _ ⟨locals, hk, rfl⟩
  have hcode := hpiece.tail
  rw [← hready.pc] at hcode
  rw [← hs.read_eq]
  refine .instruction hcode (step_load b index _ _ _ _) fun v => ⟨locals, hk, ?_⟩
  rw [Piece.length_append]
  rfl

/-- **The code of a sum** pushes the sum, if the code of its parts does what it should. -/
theorem carries_sum [TruthValues K V] {x : String} {lo hi body : Node K}
    (hlo : Carries prog inputs p lo) (hhi : Carries prog inputs p hi)
    (hbody : Carries prog inputs p body) :
    Carries prog inputs p (.sum x lo hi [] body) := by
  intro scope start piece env m h hpiece hready
  obtain ⟨loop, hloop, h⟩ := ok_of_bind h
  obtain rfl := Except.ok.inj h
  have hwhole := hpiece.reserved
  obtain ⟨u, l, b, hu, hl, hb, hlen, hat⟩ := loopAt_of_countedLoop hloop hwhole.left.right
  obtain ⟨term, hterm, hb⟩ := ok_of_bind hb
  obtain rfl := Except.ok.inj hb
  obtain ⟨pc, stk, locals, du⟩ := m
  obtain rfl : pc = start.address := hready.pc
  have hlt : start.locals < locals.size := by
    have hsize : locals.size = prog.locals := hready.size
    have := hpiece.locals
    change start.locals + (_ + 1) ≤ _ at this
    omega
  have hinit : Steps prog inputs 2 ⟨start.address, stk, locals, du⟩
      ⟨start.address + 2, stk, locals.setIfInBounds start.locals zero, du⟩ :=
    .cons hwhole.left.left.code rfl (steps_storeLocal hwhole.left.left.code.tail)
  simp only [Node.meaning, true_and]
  refine .before hinit (Implements.behind (hat.implements (x := x) (c := zero)
    (loopView_sumView hready.holds) rfl (Array.size_setIfInBounds.trans hready.size)
    ⟨getElem?_stored hlt, .set _ _ (Nat.le_refl _), rfl⟩ (hhi.starting hu hat.upper)
    (hlo.starting hl hat.lower) ?_) ?_)
  · intro v acc m' hr hstk hview
    have hround := sumBody_implements hbody hterm hat.body ?_ hr hview
    · rwa [hstk] at hround
    · change _ ≤ start.locals + 1 + 2 + _
      omega
  · rintro v _ ⟨locals', _, rfl, hsize, hacc, hkept, rfl⟩
    have hlength : start.address + (.ofCode [.pushConst Literal.zero, .storeLocal start.locals]
        ++ loop ++ .ofCode [.loadLocal start.locals] : Piece K).code.length
        = start.address + 2 + loop.code.length + 1 := by
      rw [Piece.length_append, Piece.length_append, ← Nat.add_assoc, ← Nat.add_assoc]
      rfl
    have hcode := hwhole.tail
    rw [Piece.length_append, hlen, ← Nat.add_assoc] at hcode
    refine ⟨1, _, .cons hcode (step_loadLocal hacc) (.refl _), locals', hkept, ?_⟩
    rw [Machine.mk.injEq]
    refine ⟨?_, rfl, rfl, rfl⟩
    rw [hlength, hlen]
    rfl

/-- What is said of the code of some nodes: it pushes their values. -/
def CarriesAll (prog : Program K) (inputs : Inputs K V) (p : Procedure K) (ns : List (Node K)) :
    Prop :=
  ∀ ⦃scope : Scope⦄ ⦃start : Place⦄ ⦃piece : Piece K⦄ ⦃env : Env V⦄ ⦃m : Machine V⦄,
    Node.compileAll scope start ns = .ok piece → PieceAt prog start piece →
      Ready prog start scope env m → Implements prog inputs (Stopped prog inputs m.du)
        (fun vs m' => vs.length = ns.length ∧ Pushed start.locals piece.code.length m vs m')
        (Node.meaningAll p inputs ns env) m

/-- A node of one instruction. -/
theorem carries_leaf {n : Node K} {op : Opcode K} {v : V} (imaginary : Bool)
    (hcompile : ∀ scope start, n.compile scope start = .ok { Piece.ofCode [op] with imaginary })
    (hmeaning : ∀ env, n.meaning p inputs env = .of (.ok v))
    (hstep : ∀ m, prog.step inputs m op = .ok (m.push v).next) : Carries prog inputs p n := by
  intro scope start piece env m h hpiece hready
  rw [hcompile] at h
  obtain rfl := Except.ok.inj h
  rw [hmeaning]
  exact .push (hready.pc ▸ hpiece.code) (hstep m)

/-- A variable is read from its local. -/
theorem carries_var (x : String) : Carries prog inputs p (.var x) := by
  intro scope start piece env m h hpiece hready
  rw [Node.compile] at h
  cases hslot : scope.lookup x with
  | none =>
    rw [hslot] at h
    cases h
  | some slot =>
    rw [hslot] at h
    obtain rfl := Except.ok.inj h
    obtain ⟨v, hv, hlocal⟩ := hready.holds.lookup hslot
    obtain ⟨pc, stk, locals, du⟩ := m
    rw [Node.meaning]
    refine .congr (x := .of (.ok v)) (fun r => ?_)
      (.push (hready.pc ▸ hpiece.code) (step_loadLocal hlocal))
    constructor
    · exact fun hr => ⟨v, hv, hr⟩
    · rintro ⟨w, hw, hr⟩
      obtain rfl : v = w := Option.some.inj (hv.symm.trans hw)
      exact hr

/-- A node with one operand. -/
theorem carries_operand {n a : Node K} {op : Opcode K} {f : V → V} (ha : Carries prog inputs p a)
    (hcompile : ∀ scope start, n.compile scope start = do
      let x ← a.compile scope start
      return x ++ .ofCode [op])
    (hmeaning : ∀ env, n.meaning p inputs env =
      (a.meaning p inputs env).andThen fun v => .of (.ok (f v)))
    (hop : ∀ m, prog.step inputs m op = .ok (m.unary f)) : Carries prog inputs p n := by
  intro scope start piece env m h hpiece hready
  rw [hcompile] at h
  obtain ⟨x, hx, h⟩ := ok_of_bind h
  obtain rfl := Except.ok.inj h
  rw [hmeaning]
  exact .unary hready hpiece (ha hx hpiece.left hready) hop

/-- A node with two operands. -/
theorem carries_operands {n a b : Node K} {op : Opcode K} {f : V → V → V}
    (ha : Carries prog inputs p a) (hb : Carries prog inputs p b)
    (hcompile : ∀ scope start, n.compile scope start = do
      let x ← a.compile scope start
      let y ← b.compile scope (start.after x)
      return x ++ y ++ .ofCode [op])
    (hmeaning : ∀ env, n.meaning p inputs env = (a.meaning p inputs env).andThen fun v =>
      (b.meaning p inputs env).andThen fun w => .of (.ok (f v w)))
    (hop : ∀ m, prog.step inputs m op = .ok (m.binary f)) : Carries prog inputs p n := by
  intro scope start piece env m h hpiece hready
  rw [hcompile] at h
  obtain ⟨x, hx, h⟩ := ok_of_bind h
  obtain ⟨y, hy, h⟩ := ok_of_bind h
  obtain rfl := Except.ok.inj h
  rw [hmeaning]
  exact .binary hready hpiece (ha hx hpiece.left.left hready) (hb.starting hy hpiece.left.right) hop

omit [Literal K] in
/-- A call that passes the check is one of a builtin on one argument. -/
theorem checkToken_call {func : String} {args : List (Node K)}
    (h : (Node.call func args).checkToken = .ok ()) :
    ∃ b, Builtin.ofName? func = some b ∧ args.length = 1 := by
  rw [Node.checkToken, Builtin.arity?] at h
  cases hb : Builtin.ofName? func with
  | none =>
    rw [hb] at h
    cases h
  | some b =>
    rw [hb, Option.map_some] at h
    refine ⟨b, rfl, Decidable.byContradiction fun hne => ?_⟩
    change (if args.length = 1 then _ else _) = _ at h
    rw [if_neg hne] at h
    cases h

/-- A call replaces its one argument. -/
theorem carries_call {func : String} {args : List (Node K)} (hargs : CarriesAll prog inputs p args)
    (hknown : (Node.call func args).checkToken = .ok ()) :
    Carries prog inputs p (.call func args) := by
  intro scope start piece env m h hpiece hready
  obtain ⟨b, hb, hone⟩ := checkToken_call hknown
  rw [Node.compile, hb] at h
  obtain ⟨x, hx, h⟩ := ok_of_bind h
  obtain rfl := Except.ok.inj h
  rw [Node.meaning]
  refine (hargs hx hpiece.left hready).andThen ?_
  rintro vs _ ⟨hlen, locals, hk, rfl⟩
  obtain ⟨v, rfl⟩ := List.length_eq_one_iff.mp (hlen.trans hone)
  have hcode := hpiece.tail
  rw [← hready.pc] at hcode
  refine .congr (x := .of (.ok (apply b v))) (fun r => ?_)
    (.before (.cons hcode rfl (.refl _)) (.of_lands ⟨locals, hk, ?_⟩))
  · constructor
    · exact fun hr => ⟨b, v, hb, rfl, hr⟩
    · rintro ⟨b', w, hb', hw, hr⟩
      obtain rfl : b = b' := Option.some.inj (hb.symm.trans hb')
      obtain rfl : v = w := (List.cons.inj hw).1
      exact hr
  · rw [Piece.length_append]
    rfl

/-- An unresolved symbol stops the run. -/
theorem carries_unresolved (name : String) : Carries prog inputs p (.unresolved name) := by
  intro scope start piece env m h hpiece hready
  obtain rfl := Except.ok.inj h
  rw [Node.meaning]
  have hcode : CodeAt prog m.pc [.fail start.unresolved] := hready.pc ▸ hpiece.code
  refine .of_lands ⟨⟨_, hcode.head, ?_⟩, rfl⟩
  have hname : prog.unresolved[start.unresolved]? = some name := hpiece.unresolved.head
  rw [step, List.getD_eq_getElem?_getD, hname]
  rfl

/-- Nothing has to be said of a node that does not compile. -/
theorem carries_of_error {n : Node K} {e : ProgramError}
    (h : ∀ scope start, n.compile scope start = .error e) : Carries prog inputs p n := by
  intro scope start piece env m hok
  rw [h] at hok
  cases hok

mutual

/-- **The code of a node pushes the value of the node.** -/
theorem carries [TruthValues K V] (hs : prog.Serves p) :
    ∀ n : Node K, (∀ q ∈ n.subnodes, q.checkToken = .ok ()) → Carries prog inputs p n
  | .const _, _ => carries_leaf false (fun _ _ => rfl) (fun _ => rfl) fun _ => rfl
  | .imaginaryUnit, _ => carries_leaf true (fun _ _ => rfl) (fun _ => rfl) fun _ => rfl
  | .time, _ => carries_leaf false (fun _ _ => rfl) (fun _ => rfl) fun _ => rfl
  | .var x, _ => carries_var x
  | .unresolved name, _ => carries_unresolved name
  | .access _ i, hn => carries_access hs (carries hs i fun q hq => hn q (.tail _ hq))
  | .neg a, hn => carries_operand (carries hs a fun q hq => hn q (.tail _ hq))
      (fun _ _ => rfl) (fun _ => rfl) fun _ => rfl
  | .binary op a b, hn => by
    refine carries_operands (carries hs a fun q hq => ?_) (carries hs b fun q hq => ?_)
      (fun _ _ => rfl) (fun _ => rfl) fun m => ?_
    · exact hn q (.tail _ (List.mem_append_left _ hq))
    · exact hn q (.tail _ (List.mem_append_right _ hq))
    · cases op <;> rfl
  | .indicator l r, hn => by
    refine carries_operands (carries hs l fun q hq => ?_) (carries hs r fun q hq => ?_)
      (fun _ _ => rfl) (fun _ => rfl) fun m => rfl
    · exact hn q (.tail _ (List.mem_append_left _ hq))
    · exact hn q (.tail _ (List.mem_append_right _ hq))
  | .call _ args, hn =>
    carries_call (carriesAll hs args fun q hq => hn q (.tail _ hq)) (hn _ (.head _))
  | .sum x lo hi [] body, hn => by
    refine carries_sum (carries hs lo fun q hq => ?_) (carries hs hi fun q hq => ?_)
      (carries hs body fun q hq => ?_)
    · exact hn q (.tail _
        (List.mem_append_left _ (List.mem_append_left _ (List.mem_append_left _ hq))))
    · exact hn q (.tail _
        (List.mem_append_left _ (List.mem_append_left _ (List.mem_append_right _ hq))))
    · exact hn q (.tail _ (List.mem_append_right _ hq))
  | .sum _ _ _ (_ :: _) _, _ => carries_of_error fun _ _ => rfl
  | .named _, _ => carries_of_error fun _ _ => rfl
  | .boundedSum .., _ => carries_of_error fun _ _ => rfl
  | .guarded .., _ => carries_of_error fun _ _ => rfl

/-- The code of some nodes pushes their values. -/
theorem carriesAll [TruthValues K V] (hs : prog.Serves p) :
    ∀ ns : List (Node K), (∀ q ∈ Node.subnodesAll ns, q.checkToken = .ok ()) →
      CarriesAll prog inputs p ns
  | [], _ => by
    intro scope start piece env m h hpiece hready
    obtain rfl := Except.ok.inj h
    exact .of_lands ⟨rfl, m.locals, .refl _ _, rfl⟩
  | n :: rest, hn => by
    intro scope start piece env m h hpiece hready
    obtain ⟨x, hx, h⟩ := ok_of_bind h
    obtain ⟨y, hy, h⟩ := ok_of_bind h
    obtain rfl := Except.ok.inj h
    rw [Node.meaningAll]
    have hhead := carries hs n fun q hq => hn q (List.mem_append_left _ hq)
    have htail := carriesAll hs rest fun q hq => hn q (List.mem_append_right _ hq)
    refine (hhead hx hpiece.left hready).andThen ?_
    rintro v _ ⟨locals, hk, rfl⟩
    refine (htail hy hpiece.right (hready.after x hk)).andThen ?_
    rintro vs _ ⟨hlen, locals', hk', rfl⟩
    refine .of_lands ⟨congrArg (· + 1) hlen, locals', hk.trans hk' (Nat.le_add_right _ _), ?_⟩
    have hstack : (v :: vs).reverse ++ m.stack = vs.reverse ++ v :: m.stack := by
      rw [List.reverse_cons, List.append_assoc]
      rfl
    rw [Piece.length_append, ← Nat.add_assoc, hstack]
    rfl

end

end Program

end Fluxion
