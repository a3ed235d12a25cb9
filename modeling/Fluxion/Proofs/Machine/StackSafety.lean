import Fluxion.Proofs.Nodes.Traversal
import Fluxion.Proofs.Machine.WriteLog

/-!
# Proofs/Machine/StackSafety — compiled code finds its operands on the stack

The machine takes zero for a value that the stack does not have.  Compiled code never makes use of
that: every address has a *height*, the number of values that its predecessors leave if they are
executed one after the other (`Program.height`), and

    code that is sound at its heights    (`Sound`: operands below, jumps to an equal height)
      ⟹ the stack of a run has the height of the address it is at          (`AtHeight.steps`)

so what is left to show is that code of nodes, statements and loops is sound wherever it stands.  It
is built up as the code is: a node adds one value to any height, a statement none (`Adds`).
-/

namespace Fluxion

variable {K V : Type}

/-! ## Instructions -/

namespace Opcode

/-- How many values an instruction takes off the stack. -/
def pops : Opcode K → ℕ
  | .pushConst _ | .pushImag | .loadTime | .loadLocal _ | .jump _ | .fail _ => 0
  | .storeLocal _ | .load _ | .neg | .jumpIfFalse _ | .call _ => 1
  | .add | .sub | .mul | .div | .pow | .ne | .le | .storeDerivative => 2

/-- How many values an instruction puts on the stack.  An unresolved symbol stands for a value,
although no run gets to see it. -/
def pushes : Opcode K → ℕ
  | .storeLocal _ | .jump _ | .jumpIfFalse _ | .storeDerivative => 0
  | _ => 1

/-- The height of the stack behind an instruction. -/
def behind (op : Opcode K) (h : ℕ) : ℕ := h - op.pops + op.pushes

/-- Where a jump goes. -/
def target? : Opcode K → Option ℕ
  | .jump t | .jumpIfFalse t => some t
  | _ => none

/-- **Operands in range**: a local, an address or an unresolved symbol that the program has.  A jump
may go to the end of the code. -/
def InRange (prog : Program K) : Opcode K → Prop
  | .loadLocal n | .storeLocal n => n < prog.locals
  | .jump t | .jumpIfFalse t => t ≤ prog.code.size
  | .fail n => n < prog.unresolved.length
  | _ => True

theorem InRange.target {prog : Program K} {op : Opcode K} (h : op.InRange prog) {t : ℕ}
    (ht : t ∈ op.target?) : t ≤ prog.code.size := by
  cases op with
  | jump t' | jumpIfFalse t' =>
    obtain rfl := Option.some.inj ht
    exact h
  | _ => cases ht

end Opcode

/-! ## Heights -/

namespace Program

variable {prog : Program K} {op : Opcode K} {a n k h h₁ h₂ : ℕ}

/-- **The height of the stack at an address**, if the instructions before it are executed one after
the other. -/
def height (prog : Program K) (pc : ℕ) : ℕ :=
  (prog.code.toList.take pc).foldl (fun h op => op.behind h) 0

theorem height_succ (hop : prog.code[a]? = some op) :
    prog.height (a + 1) = op.behind (prog.height a) := by
  simp [height, List.take_add_one, hop]

/-- The height behind a piece of code. -/
theorem height_code {code : List (Opcode K)} (hcode : CodeAt prog a code) :
    prog.height (a + code.length) = code.foldl (fun h op => op.behind h) (prog.height a) := by
  induction code generalizing a with
  | nil => rfl
  | cons op code ih =>
    rw [List.foldl_cons, ← height_succ hcode.head, ← ih hcode.tail, List.length_cons]
    congr 1
    omega

/-- **An instruction that is sound where it stands**: the stack is high enough, its operand is in
range, and where it jumps to the stack has the height it leaves. -/
structure Sound (prog : Program K) (pc : ℕ) (op : Opcode K) : Prop where
  operands : op.pops ≤ prog.height pc
  inRange : op.InRange prog
  level : ∀ t ∈ op.target?, prog.height t = op.behind (prog.height pc)

/-- Instructions that are sound one after the other, from a height on. -/
def Fits (prog : Program K) : List (Opcode K) → ℕ → Prop
  | [], _ => True
  | op :: code, h => op.pops ≤ h ∧ op.InRange prog ∧
    (∀ t ∈ op.target?, prog.height t = op.behind h) ∧ Fits prog code (op.behind h)

/-- **Code that lifts the stack from a height to another**, over sound instructions only. -/
def Lifts (prog : Program K) (a n h h' : ℕ) : Prop :=
  prog.height a = h → prog.height (a + n) = h' ∧
    ∀ pc op, a ≤ pc → pc < a + n → prog.code[pc]? = some op → Sound prog pc op

/-- An instruction that goes on to the next one, with `k` values in place of `n`. -/
structure Straight (prog : Program K) (op : Opcode K) (n k : ℕ) : Prop where
  pops : op.pops = n
  pushes : op.pushes = k
  inRange : op.InRange prog
  target : op.target? = none

theorem straight_binary (op : BinaryOp) : Straight prog op.opcode 2 1 := by
  cases op <;> exact ⟨rfl, rfl, trivial, rfl⟩

namespace Lifts

theorem refl (prog : Program K) (a h : ℕ) : Lifts prog a 0 h h :=
  fun ha => ⟨ha, fun _ _ hle hlt => absurd hlt (by omega)⟩

/-- Code behind code. -/
theorem trans (hx : Lifts prog a n h h₁) (hy : Lifts prog (a + n) k h₁ h₂) :
    Lifts prog a (n + k) h h₂ := by
  intro ha
  obtain ⟨hmid, hleft⟩ := hx ha
  obtain ⟨hend, hright⟩ := hy hmid
  rw [← Nat.add_assoc]
  refine ⟨hend, fun pc op hle hlt hop => ?_⟩
  by_cases hpc : pc < a + n
  · exact hleft pc op hle hpc hop
  · exact hright pc op (by omega) hlt hop

/-- Some instructions, each of them sound where it stands. -/
theorem ofCode {code : List (Opcode K)} (hcode : CodeAt prog a code) (hfits : Fits prog code h) :
    Lifts prog a code.length h (code.foldl (fun h op => op.behind h) h) := by
  induction code generalizing a h with
  | nil => exact refl prog a h
  | cons op code ih =>
    obtain ⟨hpops, hrange, hlevel, hrest⟩ := hfits
    have hhead : Lifts prog a 1 h (op.behind h) := by
      rintro rfl
      refine ⟨height_succ hcode.head, fun pc op' hle hlt hop => ?_⟩
      obtain rfl : pc = a := by omega
      obtain rfl : op = op' := Option.some.inj (hcode.head.symm.trans hop)
      exact ⟨hpops, hrange, hlevel⟩
    rw [List.length_cons, Nat.add_comm]
    exact hhead.trans (ih hcode.tail hrest)

/-- A single instruction that does not jump. -/
theorem straight (hcode : CodeAt prog a [op]) (hop : Straight prog op n k) (h : ℕ) :
    Lifts prog a 1 (h + n) (h + k) := by
  have hbehind : op.behind (h + n) = h + k := by
    rw [Opcode.behind, hop.pops, hop.pushes, Nat.add_sub_cancel]
  have hfits : Fits prog [op] (h + n) := by
    simp [Fits, hop.pops, hop.inRange, hop.target]
  exact hbehind ▸ ofCode hcode hfits

end Lifts

end Program

/-! ## Nodes and statements

The code of a node adds one value to the stack, that of a list of nodes one for each, and that of a
statement none.  Variables in scope have locals of the program. -/

variable [Literal K]

/-- Variables with locals below a bound. -/
def Scope.Within (scope : Scope) (bound : ℕ) : Prop :=
  ∀ x slot, scope.lookup x = some slot → slot < bound

theorem Scope.Within.cons {scope : Scope} {bound slot : ℕ} (h : scope.Within bound) (x : String)
    (hslot : slot < bound) : Scope.Within ((x, slot) :: scope) bound := by
  intro y slot' hy
  rw [List.lookup_cons] at hy
  split at hy
  · obtain rfl := Option.some.inj hy
    exact hslot
  · exact h y slot' hy

namespace Program

variable {prog : Program K} {op : Opcode K} {a n k h h₁ h₂ : ℕ}

omit [Literal K] in
/-- Code does not go beyond that of the program. -/
theorem CodeAt.end_le {code : List (Opcode K)} (hcode : CodeAt prog a code) (hne : code ≠ []) :
    a + code.length ≤ prog.code.size := by
  have hpos := List.length_pos_iff.mpr hne
  have hlast := hcode (code.length - 1) _ (List.getElem?_eq_getElem (by omega))
  have := (Array.getElem?_eq_some_iff.mp hlast).1
  omega

section Loop

variable {start : Place} {u l b : Piece K} (hat : LoopAt prog start u l b)
  (hu : ∀ h, Lifts prog start.address u.code.length h (h + 1))
  (hl : ∀ h, Lifts prog (start.address + u.code.length + 1) l.code.length h (h + 1))
  (hb : ∀ h, Lifts prog (start.address + u.code.length + 1 + l.code.length + 5) b.code.length h h)

include hat hu hl

/-- The height at the test of a loop is the one before the loop. -/
theorem LoopAt.height_top (hstart : prog.height start.address = h) :
    prog.height (start.address + u.code.length + 1 + l.code.length) = h + 1 ∧
      prog.height (start.address + u.code.length + 1 + l.code.length + 1) = h := by
  have hstored : prog.height (start.address + u.code.length + 1) = h := by
    rw [height_succ hat.storeUpper.head, (hu h hstart).1]
    rfl
  have hlower := (hl h hstored).1
  refine ⟨hlower, ?_⟩
  rw [height_succ hat.test.head, hlower]
  rfl

include hb

/-- The height behind a loop is the one before it. -/
theorem LoopAt.height_exit (hstart : prog.height start.address = h) :
    prog.height (start.address + u.code.length + 1 + l.code.length + 5 + b.code.length + 5) =
      h := by
  have hentered : prog.height (start.address + u.code.length + 1 + l.code.length + 5) = h := by
    refine (height_code hat.test).trans ?_
    rw [(hat.height_top hu hl hstart).1]
    rfl
  refine (height_code hat.tail).trans ?_
  rw [(hb h hentered).1]
  rfl

/-- **A counted loop keeps the height**, if its bounds add one value each and its body none. -/
theorem LoopAt.lifts (h : ℕ) :
    Lifts prog start.address (u.code.length + l.code.length + b.code.length + 11) h h := by
  intro hstart
  have hslot : start.locals < prog.locals := Nat.lt_of_succ_lt hat.fits
  have hbound : start.locals + 1 < prog.locals := hat.fits
  have hend : start.address + (u.code.length + l.code.length + b.code.length + 11)
      = start.address + u.code.length + 1 + l.code.length + 5 + b.code.length + 5 := by omega
  -- The jumps go to the test and behind the loop, so the heights there come first.
  have htop := (hat.height_top hu hl hstart).2
  have hexit := hat.height_exit hu hl hb hstart
  have hsize : start.address + u.code.length + 1 + l.code.length + 5 + b.code.length + 5 ≤
      prog.code.size :=
    CodeAt.end_le hat.tail (List.cons_ne_nil _ _)
  have htopSize : start.address + u.code.length + 1 + l.code.length + 1 ≤ prog.code.size := by omega
  have hstore := Lifts.ofCode (h := h + 1) hat.storeUpper (by
    simp [Fits, Opcode.pops, Opcode.InRange, Opcode.target?, hbound])
  have htest := Lifts.ofCode (h := h + 1) hat.test (by
    simp [Fits, Opcode.pops, Opcode.pushes, Opcode.behind, Opcode.InRange, Opcode.target?,
      hslot, hbound, hexit, hend, hsize])
  have htail := Lifts.ofCode (h := h) hat.tail (by
    simp [Fits, Opcode.pops, Opcode.pushes, Opcode.behind, Opcode.InRange, Opcode.target?,
      hslot, htop, htopSize])
  have hlen : u.code.length + l.code.length + b.code.length + 11
      = u.code.length + (1 + (l.code.length + (5 + (b.code.length + 5)))) := by omega
  rw [hlen]
  exact (hu h).trans (hstore.trans ((hl h).trans (htest.trans ((hb h).trans htail)))) hstart

end Loop

/-- **Code that adds `k` values to the stack**, wherever it stands. -/
def Adds (prog : Program K) (k : ℕ) (code : Scope → Place → Except ProgramError (Piece K)) : Prop :=
  ∀ ⦃scope : Scope⦄ ⦃start : Place⦄ ⦃piece : Piece K⦄, code scope start = .ok piece →
    PieceAt prog start piece → scope.Within prog.locals →
      ∀ h, Lifts prog start.address piece.code.length h (h + k)

namespace Adds

variable {f g : Scope → Place → Except ProgramError (Piece K)}

omit [Literal K] in
theorem of_error {e : ProgramError} (hf : ∀ scope start, f scope start = .error e) :
    Adds prog k f := by
  intro scope start piece hok
  rw [hf] at hok
  cases hok

omit [Literal K] in
theorem empty (hf : ∀ scope start, f scope start = .ok .empty) : Adds prog 0 f := by
  intro scope start piece hok hpiece hscope h
  obtain rfl := Except.ok.inj ((hf scope start).symm.trans hok)
  exact .refl prog _ h

omit [Literal K] in
/-- A single instruction that takes nothing. -/
theorem leaf (imaginary : Bool)
    (hf : ∀ scope start, f scope start = .ok { Piece.ofCode [op] with imaginary })
    (hop : Straight prog op 0 k) : Adds prog k f := by
  intro scope start piece hok hpiece hscope h
  obtain rfl := Except.ok.inj ((hf scope start).symm.trans hok)
  exact .straight hpiece.code hop h

omit [Literal K] in
/-- One piece behind the other. -/
theorem both (hf : Adds prog n f) (hg : Adds prog k g) : Adds prog (n + k) (fun scope start => do
    let x ← f scope start
    return x ++ (← g scope (start.after x))) := by
  intro scope start piece hok hpiece hscope h
  obtain ⟨x, hx, hok⟩ := ok_of_bind hok
  obtain ⟨y, hy, hok⟩ := ok_of_bind hok
  obtain rfl := Except.ok.inj hok
  rw [Piece.length_append, ← Nat.add_assoc]
  exact (hf hx hpiece.left hscope h).trans (hg hy hpiece.right hscope (h + n))

omit [Literal K] in
/-- An instruction that takes what a piece has added. -/
theorem before (hf : Adds prog n f) (hop : Straight prog op n k) :
    Adds prog k (fun scope start => do return (← f scope start) ++ .ofCode [op]) := by
  intro scope start piece hok hpiece hscope h
  obtain ⟨x, hx, hok⟩ := ok_of_bind hok
  obtain rfl := Except.ok.inj hok
  rw [Piece.length_append]
  exact (hf hx hpiece.left hscope h).trans (.straight hpiece.tail hop h)

omit [Literal K] in
/-- An instruction that takes what two pieces have added. -/
theorem bothBefore (hf : Adds prog 1 f) (hg : Adds prog 1 g) (hop : Straight prog op 2 k) :
    Adds prog k (fun scope start => do
      let x ← f scope start
      let y ← g scope (start.after x)
      return x ++ y ++ .ofCode [op]) := by
  intro scope start piece hok hpiece hscope h
  obtain ⟨x, hx, hok⟩ := ok_of_bind hok
  obtain ⟨y, hy, hok⟩ := ok_of_bind hok
  obtain rfl := Except.ok.inj hok
  have htail := Lifts.straight hpiece.tail hop h
  rw [Piece.length_append] at htail
  rw [Piece.length_append, Piece.length_append]
  exact ((hf hx hpiece.left.left hscope h).trans (hg hy hpiece.left.right hscope (h + 1))).trans
    htail

/-- **A counted loop adds nothing**, if its bounds add one value each and its body none. -/
theorem loop {upper lower body : Scope → Place → Except ProgramError (Piece K)} (x : String)
    (hupper : Adds prog 1 upper) (hlower : Adds prog 1 lower) (hbody : Adds prog 0 body) :
    Adds prog 0 (fun scope start =>
      countedLoop start (upper scope) (lower scope) (body ((x, start.locals) :: scope))) := by
  intro scope start piece hok hpiece hscope h
  obtain ⟨u, l, b, hu, hl, hb, hlen, hat⟩ := loopAt_of_countedLoop hok hpiece
  have hu := hupper hu hat.upper hscope
  have hl := hlower hl hat.lower hscope
  have hb := hbody hb hat.body (hscope.cons x (Nat.lt_of_succ_lt hat.fits))
  have hentered : start.address + (u.code.length + 1 + l.code.length + 5)
      = start.address + u.code.length + 1 + l.code.length + 5 := by omega
  rw [Place.after, length_loopHead] at hb
  dsimp only [Place.reserve] at hb
  rw [hentered] at hb
  rw [hlen]
  exact hat.lifts hu hl hb h

end Adds

/-! ### Nodes -/

/-- The code of a node adds one value. -/
abbrev Pushes (prog : Program K) (node : Node K) : Prop :=
  Adds prog 1 (fun scope start => node.compile scope start)

theorem pushes_var (x : String) : Pushes prog (.var x) := by
  intro scope start piece hok hpiece hscope h
  dsimp only at hok
  rw [Node.compile] at hok
  cases hslot : scope.lookup x with
  | none =>
    rw [hslot] at hok
    cases hok
  | some slot =>
    rw [hslot] at hok
    obtain rfl := Except.ok.inj hok
    exact .straight hpiece.code ⟨rfl, rfl, hscope x slot hslot, rfl⟩ h

theorem pushes_unresolved (name : String) : Pushes prog (.unresolved name) := by
  intro scope start piece hok hpiece hscope h
  obtain rfl := Except.ok.inj hok
  have hnumber := (List.getElem?_eq_some_iff.mp hpiece.unresolved.head).1
  exact .straight hpiece.code ⟨rfl, rfl, hnumber, rfl⟩ h

theorem pushes_access {i : Node K} (hi : Pushes prog i) : ∀ b : Buffer, Pushes prog (.access b i)
  | .zero => .of_error fun _ _ => rfl
  | .state => hi.before ⟨rfl, rfl, trivial, rfl⟩
  | .param => hi.before ⟨rfl, rfl, trivial, rfl⟩

/-- A call takes its one argument. -/
theorem pushes_call {func : String} {args : List (Node K)}
    (hargs : Adds prog args.length (fun scope start => Node.compileAll scope start args))
    (hknown : (Node.call func args).checkToken = .ok ()) : Pushes prog (.call func args) := by
  obtain ⟨b, hb, hone⟩ := checkToken_call hknown
  have hcall : Straight prog (.call b) args.length 1 := ⟨hone.symm, rfl, trivial, rfl⟩
  intro scope start piece hok
  simp only [Node.compile, hb] at hok
  exact hargs.before hcall hok

/-- A round of a sum adds the term to a local. -/
theorem adds_round {acc : ℕ} (hacc : acc < prog.locals) {body : Node K} (hbody : Pushes prog body) :
    Adds prog 0 (fun scope p => do
      let term ← body.compile scope (p.skip 1)
      return .ofCode [.loadLocal acc] ++ term ++ .ofCode [.add, .storeLocal acc]) := by
  intro scope p piece hok hpiece hscope h
  obtain ⟨term, hterm, hok⟩ := ok_of_bind hok
  obtain rfl := Except.ok.inj hok
  have hload := Lifts.straight hpiece.left.left.code ⟨rfl, rfl, hacc, rfl⟩ h
  have hterm := hbody hterm hpiece.left.right hscope (h + 1)
  have hstore := Lifts.ofCode (h := h + 2) hpiece.tail (by
    simp [Fits, Opcode.pops, Opcode.pushes, Opcode.behind, Opcode.InRange, Opcode.target?, hacc])
  rw [Piece.length_append] at hstore
  rw [Piece.length_append, Piece.length_append]
  exact (hload.trans hterm).trans hstore

/-- A sum has its terms added to a local, and loads it in the end. -/
theorem pushes_sum (x : String) {lo hi body : Node K} (hlo : Pushes prog lo) (hhi : Pushes prog hi)
    (hbody : Pushes prog body) : Pushes prog (.sum x lo hi [] body) := by
  intro scope start piece hok hpiece hscope h
  obtain ⟨loop, hloop, hok⟩ := ok_of_bind hok
  obtain rfl := Except.ok.inj hok
  have hwhole := hpiece.reserved
  have hacc : start.locals < prog.locals := by
    have hlocals := hwhole.locals
    change start.locals + 1 + _ ≤ _ at hlocals
    omega
  have hfirst : CodeAt prog start.address [.pushConst Literal.zero, .storeLocal start.locals] :=
    hwhole.left.left.code
  have hinit := Lifts.ofCode (h := h) hfirst (by
    simp [Fits, Opcode.pops, Opcode.pushes, Opcode.behind, Opcode.InRange, Opcode.target?, hacc])
  have hrounds := Adds.loop x hhi hlo (adds_round hacc hbody) hloop hwhole.left.right hscope h
  have hload := Lifts.straight hwhole.tail ⟨rfl, rfl, hacc, rfl⟩ h
  rw [Piece.length_append] at hload
  change Lifts prog start.address (_ ++ loop ++ _ : Piece K).code.length h (h + 1)
  rw [Piece.length_append, Piece.length_append]
  exact (hinit.trans hrounds).trans hload

mutual

/-- **The code of a node adds one value.** -/
theorem pushes : ∀ n : Node K, (∀ q ∈ n.subnodes, q.checkToken = .ok ()) → Pushes prog n
  | .const _, _ => .leaf false (fun _ _ => rfl) ⟨rfl, rfl, trivial, rfl⟩
  | .imaginaryUnit, _ => .leaf true (fun _ _ => rfl) ⟨rfl, rfl, trivial, rfl⟩
  | .time, _ => .leaf false (fun _ _ => rfl) ⟨rfl, rfl, trivial, rfl⟩
  | .var x, _ => pushes_var x
  | .unresolved name, _ => pushes_unresolved name
  | .access b i, hn => pushes_access (pushes i fun q hq => hn q (.tail _ hq)) b
  | .neg a, hn => (pushes a fun q hq => hn q (.tail _ hq)).before ⟨rfl, rfl, trivial, rfl⟩
  | .binary op a b, hn =>
    (pushes a fun q hq => hn q (by simp [Node.subnodes, hq])).bothBefore
      (pushes b fun q hq => hn q (by simp [Node.subnodes, hq])) (straight_binary op)
  | .indicator l r, hn =>
    (pushes l fun q hq => hn q (by simp [Node.subnodes, hq])).bothBefore
      (pushes r fun q hq => hn q (by simp [Node.subnodes, hq])) ⟨rfl, rfl, trivial, rfl⟩
  | .call _ args, hn => pushes_call (pushesAll args fun q hq => hn q (.tail _ hq)) (hn _ (.head _))
  | .sum x lo hi [] body, hn =>
    pushes_sum x (pushes lo fun q hq => hn q (by simp [Node.subnodes, hq]))
      (pushes hi fun q hq => hn q (by simp [Node.subnodes, hq]))
      (pushes body fun q hq => hn q (by simp [Node.subnodes, hq]))
  | .sum _ _ _ (_ :: _) _, _ => .of_error fun _ _ => rfl
  | .named _, _ => .of_error fun _ _ => rfl
  | .boundedSum .., _ => .of_error fun _ _ => rfl
  | .guarded .., _ => .of_error fun _ _ => rfl

theorem pushesAll : ∀ ns : List (Node K), (∀ q ∈ Node.subnodesAll ns, q.checkToken = .ok ()) →
    Adds prog ns.length (fun scope start => Node.compileAll scope start ns)
  | [], _ => .empty fun _ _ => rfl
  | n :: ns, hn => by
    rw [List.length_cons, Nat.add_comm]
    exact (pushes n fun q hq => hn q (by simp [Node.subnodesAll, hq])).both
      (pushesAll ns fun q hq => hn q (by simp [Node.subnodesAll, hq]))

end

/-! ### Statements -/

mutual

/-- **The code of a statement leaves the stack as high as it was.** -/
theorem levels : ∀ s : Stmt K, (∀ q ∈ s.subnodes, q.checkToken = .ok ()) →
    Adds prog 0 (fun scope start => s.compile scope start)
  | .assign slot value, hn =>
    (pushes slot fun q hq => hn q (by simp [Stmt.subnodes, hq])).bothBefore
      (pushes value fun q hq => hn q (by simp [Stmt.subnodes, hq])) ⟨rfl, rfl, trivial, rfl⟩
  | .loop x lo hi body, hn =>
    .loop x (pushes hi fun q hq => hn q (by simp [Stmt.subnodes, hq]))
      (pushes lo fun q hq => hn q (by simp [Stmt.subnodes, hq]))
      (levelsAll body fun q hq => hn q (by simp [Stmt.subnodes, hq]))

theorem levelsAll : ∀ ss : List (Stmt K), (∀ q ∈ Stmt.subnodesAll ss, q.checkToken = .ok ()) →
    Adds prog 0 (fun scope start => Stmt.compileAll scope start ss)
  | [], _ => .empty fun _ _ => rfl
  | s :: ss, hn =>
    (levels s fun q hq => hn q (by simp [Stmt.subnodesAll, hq])).both
      (levelsAll ss fun q hq => hn q (by simp [Stmt.subnodesAll, hq]))

end

end Program

/-! ## Runs -/

variable [Arithmetic K V]

namespace Machine

variable {m : Machine V}

/-- A machine with some more values below its stack. -/
def atop (m : Machine V) (below : List V) : Machine V := { m with stack := m.stack ++ below }

theorem top_atop (h : 1 ≤ m.stack.length) (below : List V) : (m.atop below).top = m.top := by
  obtain ⟨v, rest, hstack⟩ := List.length_pos_iff_exists_cons.mp h
  simp [top, atop, hstack]

theorem drop_atop (h : 1 ≤ m.stack.length) (below : List V) :
    (m.atop below).drop = m.drop.atop below := by
  obtain ⟨v, rest, hstack⟩ := List.length_pos_iff_exists_cons.mp h
  simp [drop, atop, hstack]

@[simp] theorem length_drop : m.drop.stack.length = m.stack.length - 1 := List.length_tail

theorem unary_atop (h : 1 ≤ m.stack.length) (f : V → V) (below : List V) :
    (m.atop below).unary f = (m.unary f).atop below := by
  rw [unary, top_atop h, drop_atop h]
  rfl

theorem binary_atop (h : 2 ≤ m.stack.length) (f : V → V → V) (below : List V) :
    (m.atop below).binary f = (m.binary f).atop below := by
  have hone : 1 ≤ m.stack.length := by omega
  have hdrop : 1 ≤ m.drop.stack.length := by
    rw [length_drop]
    omega
  rw [binary, top_atop hone, drop_atop hone, top_atop hdrop, drop_atop hdrop]
  rfl

end Machine

namespace Program

variable {prog : Program K} {inputs : Inputs K V} {m m' : Machine V} {op : Opcode K} {n : ℕ}

/-- **An instruction that finds its operands looks no further**: whatever is below them makes no
difference to it. -/
theorem step_atop (h : op.pops ≤ m.stack.length) (below : List V) :
    prog.step inputs (m.atop below) op = (prog.step inputs m op).map (·.atop below) := by
  cases op with
  | neg | call b => exact congrArg Except.ok (Machine.unary_atop h _ below)
  | add | sub | mul | div | pow | ne | le =>
    exact congrArg Except.ok (Machine.binary_atop h _ below)
  | storeLocal n =>
    rw [step, Machine.top_atop h, Machine.drop_atop h]
    rfl
  | jumpIfFalse t =>
    rw [step, step, Machine.top_atop h, Machine.drop_atop h]
    split <;> rfl
  | load b =>
    rw [step, step, Machine.top_atop h, Machine.drop_atop h]
    cases prog.read inputs b m.top <;> rfl
  | storeDerivative =>
    have hone : 1 ≤ m.stack.length := Nat.le_of_succ_le h
    have hdrop : 1 ≤ m.drop.stack.length := by
      rw [Machine.length_drop]
      exact Nat.le_sub_of_add_le h
    have hdu : (m.atop below).du = m.du := rfl
    rw [step, step, hdu, Machine.top_atop hone, Machine.drop_atop hone, Machine.top_atop hdrop,
      Machine.drop_atop hdrop]
    cases prog.write m.du m.drop.top m.top <;> rfl
  | _ => rfl

/-- What an instruction does to the height of the stack, and where it leads. -/
theorem step_height (hstep : prog.step inputs m op = .ok m') :
    m'.stack.length = op.behind m.stack.length ∧ (m'.pc = m.pc + 1 ∨ m'.pc ∈ op.target?) ∧
      m'.locals.size = m.locals.size := by
  rw [Opcode.behind]
  cases op with
  | load b =>
    rw [step] at hstep
    cases hread : prog.read inputs b m.top with
    | error s =>
      rw [hread] at hstep
      cases hstep
    | ok v =>
      rw [hread] at hstep
      obtain rfl := Except.ok.inj hstep
      simp [Machine.next, Machine.push, Machine.drop, Opcode.pops, Opcode.pushes]
  | storeDerivative =>
    rw [step] at hstep
    cases hwrite : prog.write m.du m.drop.top m.top with
    | error s =>
      rw [hwrite] at hstep
      cases hstep
    | ok du =>
      rw [hwrite] at hstep
      obtain rfl := Except.ok.inj hstep
      simp [Machine.next, Machine.drop, Opcode.pops, Opcode.pushes, Nat.sub_sub]
  | fail n => cases hstep
  | jumpIfFalse t =>
    rw [step] at hstep
    split at hstep
    · obtain rfl := Except.ok.inj hstep
      simp [Machine.drop, Opcode.pops, Opcode.pushes, Opcode.target?]
    · obtain rfl := Except.ok.inj hstep
      simp [Machine.next, Machine.drop, Opcode.pops, Opcode.pushes]
  | _ =>
    obtain rfl := Except.ok.inj hstep
    simp [Machine.next, Machine.push, Machine.drop, Machine.unary, Machine.binary, Opcode.pops,
      Opcode.pushes, Opcode.target?, Nat.sub_sub]

/-- **A machine at the height of its address**, inside the code and with all its locals. -/
structure AtHeight (prog : Program K) (m : Machine V) : Prop where
  height : m.stack.length = prog.height m.pc
  inside : m.pc ≤ prog.code.size
  locals : m.locals.size = prog.locals

namespace AtHeight

theorem step (hsound : ∀ pc op, prog.code[pc]? = some op → Sound prog pc op) (hm : AtHeight prog m)
    (hop : prog.code[m.pc]? = some op) (hstep : prog.step inputs m op = .ok m') :
    AtHeight prog m' := by
  have hs := hsound _ _ hop
  obtain ⟨hheight, hpc, hlocals⟩ := step_height hstep
  rw [hm.height] at hheight
  rcases hpc with hpc | hpc
  · refine ⟨?_, ?_, hlocals.trans hm.locals⟩
    · rw [hheight, hpc, height_succ hop]
    · rw [hpc]
      exact (Array.getElem?_eq_some_iff.mp hop).1
  · exact ⟨hheight.trans (hs.level _ hpc).symm, hs.inRange.target hpc, hlocals.trans hm.locals⟩

theorem steps (hsound : ∀ pc op, prog.code[pc]? = some op → Sound prog pc op) (hm : AtHeight prog m)
    (h : Steps prog inputs n m m') : AtHeight prog m' := by
  induction n generalizing m with
  | zero => exact h ▸ hm
  | succ n ih =>
    obtain ⟨op, m₁, hop, hstep, hrest⟩ := h
    exact ih (hm.step hsound hop hstep) hrest

end AtHeight

/-- A run that finishes gets to the end of the code. -/
theorem exists_steps_of_finished {fuel : ℕ} (h : (prog.runFrom inputs fuel m).status = .finished) :
    ∃ n m', Steps prog inputs n m m' ∧ prog.code[m'.pc]? = none ∧
      m'.du = (prog.runFrom inputs fuel m).du := by
  induction fuel generalizing m with
  | zero =>
    cases hop : prog.code[m.pc]? with
    | none => exact ⟨0, m, .refl m, hop, by rw [runFrom_of_end hop]⟩
    | some op =>
      rw [runFrom_zero hop] at h
      cases h
  | succ fuel ih =>
    cases hop : prog.code[m.pc]? with
    | none => exact ⟨0, m, .refl m, hop, by rw [runFrom_of_end hop]⟩
    | some op =>
      cases hstep : prog.step inputs m op with
      | error s =>
        have hstop : StopsAt prog inputs m s := ⟨op, hop, hstep⟩
        rw [runFrom_of_stopsAt hstop] at h
        exact absurd h hstop.ne_finished
      | ok m₁ =>
        rw [runFrom_succ hop hstep] at h ⊢
        obtain ⟨n, m', hsteps, hend⟩ := ih h
        exact ⟨n + 1, m', ⟨op, m₁, hop, hstep, hsteps⟩, hend⟩

end Program

/-! ## Calls -/

omit [Literal K] in
theorem Piece.empty_append (x : Piece K) : .empty ++ x = x :=
  (Piece.mk.injEq ..).mpr ⟨List.nil_append _, Nat.zero_add _, List.nil_append _, Bool.false_or _⟩

omit [Literal K] in
theorem Piece.append_assoc (x y z : Piece K) : x ++ y ++ z = x ++ (y ++ z) :=
  (Piece.mk.injEq ..).mpr ⟨List.append_assoc .., Nat.add_assoc .., List.append_assoc ..,
    Bool.or_assoc ..⟩

/-- The code of some statements and some more is that of the ones and that of the others. -/
theorem Stmt.compileAll_append {scope : Scope} {before rest : List (Stmt K)} {start : Place}
    {piece : Piece K} (h : Stmt.compileAll scope start (before ++ rest) = .ok piece) :
    ∃ x y, Stmt.compileAll scope start before = .ok x ∧
      Stmt.compileAll scope (start.after x) rest = .ok y ∧ piece = x ++ y := by
  induction before generalizing start piece with
  | nil => exact ⟨.empty, piece, rfl, h, (Piece.empty_append piece).symm⟩
  | cons s before ih =>
    obtain ⟨x, hx, h⟩ := ok_of_bind h
    obtain ⟨y, hy, h⟩ := ok_of_bind h
    obtain rfl := Except.ok.inj h
    obtain ⟨y, z, hbefore, hrest, rfl⟩ := ih hy
    refine ⟨x ++ y, z, (bind_of_ok hx).trans (bind_of_ok hbefore), ?_,
      (Piece.append_assoc x y z).symm⟩
    rwa [Place.after_append]

/-- **Where a top-level statement starts**: its code stands there, behind that of the statements
before it. -/
def Procedure.StartsAt (p : Procedure K) (prog : Program K) (k pc : ℕ) : Prop :=
  ∃ s x y, p.body[k]? = some s ∧ Stmt.compileAll [] ⟨0, 0, 0⟩ (p.body.take k) = .ok x ∧
    s.compile [] (.after ⟨0, 0, 0⟩ x) = .ok y ∧ pc = x.code.length ∧ Program.CodeAt prog pc y.code

namespace Callable

variable {dialect : Dialect} {p : Procedure K} {c : Callable K} {inputs : Inputs K V} {du : Array V}
  {m : Machine V}

open Program

/-- A machine that a call gets to. -/
def Reaches (c : Callable K) (inputs : Inputs K V) (du : Array V) (m : Machine V) : Prop :=
  ∃ n, Steps c.program inputs n (c.program.start du) m

/-- The code of the first statements of a procedure keeps an empty stack empty. -/
theorem lifts_first (htokens : ∀ q ∈ p.nodes, q.checkToken = .ok ()) {before rest : List (Stmt K)}
    (hbody : p.body = before ++ rest) {prog : Program K} {x : Piece K}
    (hx : Stmt.compileAll [] ⟨0, 0, 0⟩ before = .ok x) (hat : PieceAt prog ⟨0, 0, 0⟩ x) :
    prog.height x.code.length = 0 ∧
      ∀ pc op, pc < x.code.length → prog.code[pc]? = some op → Sound prog pc op := by
  have hsub : ∀ q ∈ Stmt.subnodesAll before, q.checkToken = .ok () := fun q hq => htokens q (by
    rw [Procedure.nodes, hbody, Stmt.subnodesAll_append]
    exact List.mem_append_left _ hq)
  have hscope : Scope.Within [] prog.locals := fun x slot hx => by simp at hx
  obtain ⟨hend, hsound⟩ := levelsAll before hsub hx hat hscope 0 rfl
  rw [Nat.zero_add] at hend hsound
  exact ⟨hend, fun pc op => hsound pc op (Nat.zero_le pc)⟩

/-- The program of a procedure is sound, and its stack is empty in the end. -/
theorem sound_program (h : p.materialize dialect = .ok c) :
    c.program.height c.program.code.size = 0 ∧
      ∀ pc op, c.program.code[pc]? = some op → Sound c.program pc op := by
  obtain ⟨-, htokens, -, imaginary, hcompile⟩ := Procedure.materialize_eq_ok h
  obtain ⟨-, piece, hpiece, hat, hsize⟩ := Procedure.compile_eq_ok hcompile
  obtain ⟨hend, hsound⟩ := lifts_first htokens (List.append_nil _).symm hpiece hat
  rw [hsize]
  refine ⟨hend, fun pc op hop => hsound pc op ?_ hop⟩
  exact hsize ▸ (Array.getElem?_eq_some_iff.mp hop).1

/-- Every top-level statement starts somewhere, with an empty stack. -/
theorem exists_startsAt (h : p.materialize dialect = .ok c) {k : ℕ} (hk : k < p.body.length) :
    ∃ pc, p.StartsAt c.program k pc ∧ c.program.height pc = 0 := by
  obtain ⟨-, htokens, -, imaginary, hcompile⟩ := Procedure.materialize_eq_ok h
  obtain ⟨-, piece, hpiece, hat, -⟩ := Procedure.compile_eq_ok hcompile
  have hbody : p.body = p.body.take k ++ p.body[k] :: p.body.drop (k + 1) := by
    rw [List.getElem_cons_drop, List.take_append_drop]
  rw [hbody] at hpiece
  obtain ⟨x, rest, hx, hrest, rfl⟩ := Stmt.compileAll_append hpiece
  obtain ⟨y, hy, hrest⟩ := ok_of_bind hrest
  obtain ⟨z, -, hrest⟩ := ok_of_bind hrest
  obtain rfl := Except.ok.inj hrest
  have hstart := hat.right.left.code
  rw [Place.after, Nat.zero_add] at hstart
  exact ⟨_, ⟨_, x, y, List.getElem?_eq_getElem hk, hx, hy, rfl, hstart⟩,
    (lifts_first htokens hbody hx hat.left).1⟩

/-- **The stack of a call has the height of the address it is at.** -/
theorem Reaches.atHeight (h : p.materialize dialect = .ok c) (hm : c.Reaches inputs du m) :
    AtHeight c.program m := by
  obtain ⟨n, hsteps⟩ := hm
  have hstart : AtHeight c.program (c.program.start du) :=
    ⟨rfl, Nat.zero_le _, Array.size_replicate⟩
  exact hstart.steps (sound_program h).2 hsteps

/-- **Compiled code is safe.**  Its locals, jumps and unresolved symbols are those of the program.
In every call, whatever the arrays, an instruction finds its operands on the stack and does not
depend on what would be below; and the stack is empty where a top-level statement starts and where
the call finishes. -/
theorem stack_safe (h : p.materialize dialect = .ok c) (inputs : Inputs K V) (du : Array V) :
    (∀ op ∈ c.program.code, op.InRange c.program) ∧
    (∀ m op, c.Reaches inputs du m → c.program.code[m.pc]? = some op →
      m.locals.size = c.program.locals ∧ op.pops ≤ m.stack.length ∧
      ∀ below, c.program.step inputs (m.atop below) op
        = (c.program.step inputs m op).map (·.atop below)) ∧
    (∀ k < p.body.length, ∃ pc, p.StartsAt c.program k pc ∧
      ∀ m, c.Reaches inputs du m → m.pc = pc → m.stack = []) ∧
    ∀ fuel, (c.call fuel du inputs).status = .finished → ∃ m, c.Reaches inputs du m ∧
      c.program.code[m.pc]? = none ∧ m.du = (c.call fuel du inputs).du ∧ m.stack = [] := by
  obtain ⟨hend, hsound⟩ := sound_program h
  refine ⟨fun op hop => ?_, fun m op hm hop => ?_, fun k hk => ?_, fun fuel hfinished => ?_⟩
  · obtain ⟨pc, hpc, rfl⟩ := Array.mem_iff_getElem.mp hop
    exact (hsound pc _ (Array.getElem?_eq_getElem hpc)).inRange
  · have hat := hm.atHeight h
    have hoperands : op.pops ≤ m.stack.length := by
      rw [hat.height]
      exact (hsound m.pc op hop).operands
    exact ⟨hat.locals, hoperands, step_atop hoperands⟩
  · obtain ⟨pc, hpc, hempty⟩ := exists_startsAt h hk
    refine ⟨pc, hpc, fun m hm hat => List.eq_nil_of_length_eq_zero ?_⟩
    rw [(hm.atHeight h).height, hat, hempty]
  · obtain ⟨n, m, hsteps, hout, hdu⟩ := exists_steps_of_finished hfinished
    have hm : c.Reaches inputs du m := ⟨n, hsteps⟩
    have hat := hm.atHeight h
    have hpc : m.pc = c.program.code.size :=
      Nat.le_antisymm hat.inside (Array.getElem?_eq_none_iff.mp hout)
    refine ⟨m, hm, hout, hdu, List.eq_nil_of_length_eq_zero ?_⟩
    rw [hat.height, hpc, hend]

/-- A procedure with a sum below which the stack is not empty, and a statement behind it. -/
def offsetSum : Procedure ℚ where
  naming := ⟨"du", "u", "p", "t"⟩
  states := []
  params := []
  body := [
    .assign (.ofInt 0)
      (.binary .add .time (.sum "j" (.ofInt 0) (.ofInt 1) [] (.access .state (.var "j")))),
    .assign (.ofInt 1) .time]
  checkBounds := true

theorem stack_safe_offsetSum : ∃ c, offsetSum.materialize .real = .ok c ∧
    (∃ pc, offsetSum.StartsAt c.program 1 pc ∧
      ∀ m : Machine ℚ, c.Reaches ⟨#[5, 7], #[], 3⟩ #[0, 0] m → m.pc = pc → m.stack = []) ∧
    ∃ m : Machine ℚ, c.Reaches ⟨#[5, 7], #[], 3⟩ #[0, 0] m ∧ c.program.code[m.pc]? = none ∧
      m.du = #[15, 3] ∧ m.stack = [] := by
  obtain ⟨c, hc, hfinished⟩ : ∃ c, offsetSum.materialize .real = .ok c ∧
      c.call (V := ℚ) 200 #[0, 0] ⟨#[5, 7], #[], 3⟩ = ⟨.finished, #[15, 3]⟩ :=
    ⟨_, rfl, by decide +kernel⟩
  obtain ⟨-, -, hstatements, hend⟩ := stack_safe (V := ℚ) hc ⟨#[5, 7], #[], 3⟩ #[0, 0]
  obtain ⟨m, hm, hout, hdu, hempty⟩ := hend 200 (congrArg Outcome.status hfinished)
  exact ⟨c, hc, hstatements 1 (by decide), m, hm, hout, hdu.trans (congrArg Outcome.du hfinished),
    hempty⟩

end Callable

end Fluxion
