import Fluxion.Bytecode.Basic
import Fluxion.Scalar.Floating

/-!
# Bytecode/Machine — running a program

The machine state is the address of the next instruction, a stack, the locals and the derivative
being written.  `Program.step` executes one instruction, `Program.runFrom` as many as its fuel
allows; the program is finished when the address leaves the code.

Whatever a run ends with, it ends with the derivative as it was written so far.  An index that is no
slot, an unresolved symbol and, with bounds checks, an index out of range are errors of the run.
Without bounds checks an index out of range stops the machine itself.
-/

namespace Fluxion

/-- An error of a run.  Arrays are known by the names of the arguments. -/
inductive RunError (K : Type) where
  | unresolvedSymbol (name : String)
  | indexOutOfBounds (array : String) (index size : Nat)
  | invalidIndex (array : String) (value : K)
  deriving DecidableEq

/-- How a run ends. -/
inductive Status (K : Type) where
  | finished
  | failed (e : RunError K)
  /-- An unchecked access outside an array. -/
  | outside (index size : Nat)
  /-- The fuel was used up before the program ended. -/
  | outOfFuel
  deriving DecidableEq

/-- The end of a run: its status and the derivative. -/
structure Outcome (K V : Type) where
  status : Status K
  du : Array V
  deriving DecidableEq

/-- What a program reads. -/
structure Inputs (K V : Type) where
  u : Array V
  p : Array V
  t : K

/-- The state of the machine. -/
structure Machine (V : Type) where
  pc : Nat
  stack : List V
  locals : Array V
  du : Array V

variable {K V : Type} [Literal K] [Arithmetic K V]

namespace Machine

/-- The top of the stack, zero if there is none. -/
def top (m : Machine V) : V := m.stack.headD Arithmetic.zero

/-- The machine without the top of its stack. -/
def drop (m : Machine V) : Machine V := { m with stack := m.stack.tail }

def push (m : Machine V) (v : V) : Machine V := { m with stack := v :: m.stack }

/-- The machine at the next instruction. -/
def next (m : Machine V) : Machine V := { m with pc := m.pc + 1 }

/-- Replaces the top of the stack. -/
def unary (f : V → V) (m : Machine V) : Machine V := (m.drop.push (f m.top)).next

/-- Replaces the two topmost values, the lower one being the first operand. -/
def binary (f : V → V → V) (m : Machine V) : Machine V :=
  (m.drop.drop.push (f m.drop.top m.top)).next

end Machine

namespace Program

/-- The name of an array in errors. -/
def bufferName (prog : Program K) : Buffer → String
  | .state => prog.naming.state
  | .param => prog.naming.params
  | .zero => "zero"

/-- The slot a value stands for as an index of the named array. -/
def slot (array : String) (v : V) : Except (RunError K) Nat :=
  match Literal.slot? (Arithmetic.real v : K) with
  | some n => .ok n
  | none => .error (.invalidIndex array (Arithmetic.real v))

/-- How an access outside an array ends the run. -/
def outOfRange (prog : Program K) (array : String) (index size : Nat) : Status K :=
  if prog.checkBounds then .failed (.indexOutOfBounds array index size) else .outside index size

/-- Reads an element of an array at an index. -/
def read (prog : Program K) (inputs : Inputs K V) (b : Buffer) (v : V) : Except (Status K) V :=
  let array := prog.bufferName b
  let data := if b = .state then inputs.u else inputs.p
  match slot array v with
  | .error e => .error (.failed e)
  | .ok n =>
    match data[n]? with
    | some x => .ok x
    | none => .error (prog.outOfRange array n data.size)

/-- Writes an element of the derivative at an index. -/
def write (prog : Program K) (du : Array V) (index v : V) : Except (Status K) (Array V) :=
  let array := prog.naming.derivative
  match slot array index with
  | .error e => .error (.failed e)
  | .ok n =>
    if n < du.size then .ok (du.setIfInBounds n v)
    else .error (prog.outOfRange array n du.size)

/-- Executes one instruction. -/
def step (prog : Program K) (inputs : Inputs K V) (m : Machine V) :
    Opcode K → Except (Status K) (Machine V)
  | .pushConst v => .ok (m.push (Arithmetic.ofLiteral v)).next
  | .pushImag => .ok (m.push Arithmetic.imaginaryUnit).next
  | .loadTime => .ok (m.push (Arithmetic.ofLiteral inputs.t)).next
  | .loadLocal n => .ok (m.push (m.locals.getD n Arithmetic.zero)).next
  | .storeLocal n => .ok ({ m.drop with locals := m.locals.setIfInBounds n m.top }).next
  | .load b =>
    match prog.read inputs b m.top with
    | .ok v => .ok (m.drop.push v).next
    | .error s => .error s
  | .add => .ok (m.binary Arithmetic.add)
  | .sub => .ok (m.binary Arithmetic.sub)
  | .mul => .ok (m.binary Arithmetic.mul)
  | .div => .ok (m.binary Arithmetic.div)
  | .pow => .ok (m.binary Arithmetic.pow)
  | .neg => .ok (m.unary Arithmetic.neg)
  | .ne => .ok (m.binary fun a b =>
      Arithmetic.ofBool !(Literal.eq (Arithmetic.real a : K) (Arithmetic.real b)))
  | .le => .ok (m.binary fun a b =>
      Arithmetic.ofBool (Literal.le (Arithmetic.real a : K) (Arithmetic.real b)))
  | .jump target => .ok { m with pc := target }
  | .jumpIfFalse target =>
    if Literal.isZero (Arithmetic.real m.top : K) then .ok { m.drop with pc := target }
    else .ok m.drop.next
  | .call b => .ok (m.unary (Arithmetic.apply b))
  | .storeDerivative =>
    match prog.write m.du m.drop.top m.top with
    | .ok du => .ok ({ m.drop.drop with du }).next
    | .error s => .error s
  | .fail n => .error (.failed (.unresolvedSymbol (prog.unresolved.getD n "")))

/-- Runs the machine for at most `fuel` instructions. -/
def runFrom (prog : Program K) (inputs : Inputs K V) : Nat → Machine V → Outcome K V
  | fuel, m =>
    match prog.code[m.pc]? with
    | none => ⟨.finished, m.du⟩
    | some op =>
      match fuel with
      | 0 => ⟨.outOfFuel, m.du⟩
      | fuel + 1 =>
        match prog.step inputs m op with
        | .ok m => prog.runFrom inputs fuel m
        | .error s => ⟨s, m.du⟩

/-- The machine before the first instruction. -/
def start (prog : Program K) (du : Array V) : Machine V :=
  ⟨0, [], Array.replicate prog.locals Arithmetic.zero, du⟩

/-- **Runs a program**, writing into `du`. -/
def run (prog : Program K) (fuel : Nat) (du : Array V) (inputs : Inputs K V) : Outcome K V :=
  prog.runFrom inputs fuel (prog.start du)

end Program

namespace RunError

def message : RunError Floating → String
  | .unresolvedSymbol name => "Unresolved symbol '" ++ name ++ "' reached at execution time"
  | .indexOutOfBounds array index size =>
    "Index " ++ toString index ++ " out of bounds for '" ++ array ++ "' (len="
      ++ toString size ++ ")"
  | .invalidIndex array value =>
    "Invalid index " ++ Format.plain.write value.value ++ " for '" ++ array ++ "'"

end RunError

/-- The message of an unchecked access outside an array. -/
def outsideMessage (index size : Nat) : String :=
  "index out of bounds: the len is " ++ toString size ++ " but the index is " ++ toString index

end Fluxion
