import Fluxion.Bytecode.Basic
import Fluxion.Error

/-!
# Bytecode/Compile — from procedures to programs

Each node and statement compiles to a `Piece`: its instructions, the number of locals it takes and
the unresolved symbols it can stop at.  A piece is compiled *at a place* — the address, the first
free local and the number of the next unresolved symbol — so jumps get their targets right away and
pieces are simply put behind each other.

The code of a node leaves one value on the stack, the code of a statement none.
-/

namespace Fluxion

/-- Where a piece of code starts, in each of the three numberings. -/
structure Place where
  address : Nat
  locals : Nat
  unresolved : Nat
  deriving Repr, DecidableEq

/-- Compiled code with what it takes of the numberings. -/
structure Piece (K : Type) where
  code : List (Opcode K)
  locals : Nat
  unresolved : List String
  /-- Whether the imaginary unit occurs. -/
  imaginary : Bool

namespace Piece

variable {K : Type}

def empty : Piece K := ⟨[], 0, [], false⟩

/-- Instructions that take nothing of the other numberings. -/
def ofCode (code : List (Opcode K)) : Piece K := ⟨code, 0, [], false⟩

/-- One piece after the other. -/
def append (p q : Piece K) : Piece K :=
  ⟨p.code ++ q.code, p.locals + q.locals, p.unresolved ++ q.unresolved, p.imaginary || q.imaginary⟩

instance : Append (Piece K) := ⟨append⟩

end Piece

namespace Place

variable {K : Type}

/-- The place behind a piece. -/
def after (here : Place) (p : Piece K) : Place :=
  ⟨here.address + p.code.length, here.locals + p.locals, here.unresolved + p.unresolved.length⟩

/-- The place behind some more instructions. -/
def skip (here : Place) (n : Nat) : Place := { here with address := here.address + n }

/-- The place with some locals taken. -/
def reserve (here : Place) (n : Nat) : Place := { here with locals := here.locals + n }

end Place

/-- Variables in scope with their locals, the innermost first. -/
abbrev Scope := List (String × Nat)

variable {K : Type}

/-- The instruction of an operation. -/
def BinaryOp.opcode : BinaryOp → Opcode K
  | .add => .add
  | .sub => .sub
  | .mul => .mul
  | .div => .div
  | .pow => .pow

variable [Literal K]

/-- The start of a counted loop: the bounds are stored, then compared before each round.  `exit` is
the address behind the loop. -/
def loopHead (slot hi exit : Nat) (upper lower : Piece K) : Piece K :=
  upper ++ .ofCode [.storeLocal hi] ++ lower ++ .ofCode [.storeLocal slot, .loadLocal slot,
    .loadLocal hi, .le, .jumpIfFalse exit]

/-- The end of a counted loop: the variable steps, and the comparison comes again. -/
def loopTail (slot top : Nat) : Piece K :=
  .ofCode [.loadLocal slot, .pushConst Literal.one, .add, .storeLocal slot, .jump top]

/-- A counted loop at a place, whose two locals are the first free ones.  The body is compiled where
the head ends. -/
def countedLoop {ε : Type} (start : Place) (upper lower : Place → Except ε (Piece K))
    (body : Place → Except ε (Piece K)) : Except ε (Piece K) := do
  let slot := start.locals
  let hi := start.locals + 1
  let inner := start.reserve 2
  let upper ← upper inner
  let lower ← lower ((inner.after upper).skip 1)
  let top := start.address + upper.code.length + lower.code.length + 2
  let head := loopHead slot hi 0 upper lower
  let body ← body (inner.after head)
  let exit := start.address + head.code.length + body.code.length + 5
  let whole := loopHead slot hi exit upper lower ++ body ++ loopTail slot top
  return { whole with locals := whole.locals + 2 }

mutual

/-- The code of a node. -/
def Node.compile (scope : Scope) (start : Place) : Node K → Except ProgramError (Piece K)
  | .const v => .ok (.ofCode [.pushConst v])
  | .imaginaryUnit => .ok { Piece.ofCode [.pushImag] with imaginary := true }
  | .time => .ok (.ofCode [.loadTime])
  | .var name =>
    match scope.lookup name with
    | some slot => .ok (.ofCode [.loadLocal slot])
    | none => .error (.malformed (.unboundVariable name))
  | .access .zero _ => .error (.malformed .zeroAccess)
  | .access b i => do return (← i.compile scope start) ++ .ofCode [.load b]
  | .neg a => do return (← a.compile scope start) ++ .ofCode [.neg]
  | .binary op a b => do
    let x ← a.compile scope start
    let y ← b.compile scope (start.after x)
    return x ++ y ++ .ofCode [op.opcode]
  | .call func args =>
    match Builtin.ofName? func with
    | none => .error (.unknownToken func)
    | some b => do return (← compileAll scope start args) ++ .ofCode [.call b]
  | .sum x lo hi [] body => do
    let acc := start.locals
    let first := .ofCode [.pushConst Literal.zero, .storeLocal acc]
    let loop ← countedLoop ((start.skip 2).reserve 1) (fun p => hi.compile scope p)
      (fun p => lo.compile scope p) fun p => do
        let term ← body.compile ((x, start.locals + 1) :: scope) (p.skip 1)
        return .ofCode [.loadLocal acc] ++ term ++ .ofCode [.add, .storeLocal acc]
    let whole := first ++ loop ++ .ofCode [.loadLocal acc]
    return { whole with locals := whole.locals + 1 }
  | .sum x _ _ _ _ => .error (.malformed (.exclusionsInCode x))
  | .indicator l r => do
    let x ← l.compile scope start
    let y ← r.compile scope (start.after x)
    return x ++ y ++ .ofCode [.ne]
  | .unresolved name => .ok ⟨[.fail start.unresolved], 0, [name], false⟩
  | .named name => .error (.unknownToken name)
  | .boundedSum .. | .guarded .. => .error (.malformed .unloweredInCode)

/-- The code of some nodes, one after the other. -/
def Node.compileAll (scope : Scope) (start : Place) : List (Node K) → Except ProgramError (Piece K)
  | [] => .ok .empty
  | n :: rest => do
    let x ← n.compile scope start
    return x ++ (← compileAll scope (start.after x) rest)

end

mutual

/-- The code of a statement. -/
def Stmt.compile (scope : Scope) (start : Place) : Stmt K → Except ProgramError (Piece K)
  | .assign slot value => do
    let x ← slot.compile scope start
    let y ← value.compile scope (start.after x)
    return x ++ y ++ .ofCode [.storeDerivative]
  | .loop x lo hi body =>
    countedLoop start (fun p => hi.compile scope p) (fun p => lo.compile scope p)
      fun p => compileAll ((x, start.locals) :: scope) p body

/-- The code of some statements, one after the other. -/
def Stmt.compileAll (scope : Scope) (start : Place) : List (Stmt K) → Except ProgramError (Piece K)
  | [] => .ok .empty
  | s :: rest => do
    let x ← s.compile scope start
    return x ++ (← compileAll scope (start.after x) rest)

end

namespace Procedure

/-- The program of a procedure, and whether it needs the imaginary unit. -/
def compile (p : Procedure K) : Except ProgramError (Program K × Bool) := do
  let piece ← Stmt.compileAll [] ⟨0, 0, 0⟩ p.body
  return (⟨piece.code.toArray, piece.locals, piece.unresolved, p.naming, p.checkBounds⟩,
    piece.imaginary)

end Procedure

end Fluxion
