import Fluxion.Procedure.Codec

/-!
# Bytecode/Basic — instructions and programs

The code of a procedure for a stack machine.  Instructions pop their operands from a stack of values
and push their results; variables and running sums live in numbered locals; jumps name the address
of an instruction.
-/

namespace Fluxion

/-- An instruction. -/
inductive Opcode (K : Type) where
  | pushConst (v : K)
  | pushImag
  | loadTime
  | loadLocal (slot : Nat)
  | storeLocal (slot : Nat)
  /-- Pops an index and pushes the element of an array. -/
  | load (buffer : Buffer)
  | add
  | sub
  | mul
  | div
  | pow
  | neg
  /-- Pushes one if the real parts differ, zero otherwise. -/
  | ne
  /-- Pushes one if the real parts are in order, zero otherwise. -/
  | le
  | jump (target : Nat)
  /-- Pops a condition and jumps if its real part is zero. -/
  | jumpIfFalse (target : Nat)
  | call (b : Builtin)
  /-- Pops a value, then an index, and writes an element of the derivative. -/
  | storeDerivative
  /-- Stops at the unresolved symbol with this number. -/
  | fail (number : Nat)

/-- The code of a procedure, with what it needs to run. -/
structure Program (K : Type) where
  code : Array (Opcode K)
  locals : Nat
  unresolved : List String
  naming : Naming
  checkBounds : Bool

namespace Opcode

variable {K : Type} [Codec K]

def toJson : Opcode K → Json
  | .pushConst v => .tagged "PushConst" (encode v)
  | .pushImag => .str "PushImag"
  | .loadTime => .str "LoadTime"
  | .loadLocal n => .tagged "LoadLocal" (.int n)
  | .storeLocal n => .tagged "StoreLocal" (.int n)
  | .load b => .tagged "Load" (encode b)
  | .add => .str "Add"
  | .sub => .str "Sub"
  | .mul => .str "Mul"
  | .div => .str "Div"
  | .pow => .str "Pow"
  | .neg => .str "Neg"
  | .ne => .str "Ne"
  | .le => .str "Le"
  | .jump n => .tagged "Jump" (.int n)
  | .jumpIfFalse n => .tagged "JumpIfFalse" (.int n)
  | .call b => .tagged "Call" (encode b)
  | .storeDerivative => .str "StoreDerivative"
  | .fail n => .tagged "Fail" (.int n)

/-- The instruction without operands of a name. -/
def ofName? : String → Option (Opcode K)
  | "PushImag" => some .pushImag
  | "LoadTime" => some .loadTime
  | "Add" => some .add
  | "Sub" => some .sub
  | "Mul" => some .mul
  | "Div" => some .div
  | "Pow" => some .pow
  | "Neg" => some .neg
  | "Ne" => some .ne
  | "Le" => some .le
  | "StoreDerivative" => some .storeDerivative
  | _ => none

def ofJson? (m : Medium) (j : Json) : Option (Opcode K) := do
  let (tag, payload) ← j.variant?
  match tag with
  | "PushConst" => return .pushConst (← decode? m (← payload))
  | "LoadLocal" => return .loadLocal (← (← payload).nat?)
  | "StoreLocal" => return .storeLocal (← (← payload).nat?)
  | "Load" => return .load (← decode? m (← payload))
  | "Jump" => return .jump (← (← payload).nat?)
  | "JumpIfFalse" => return .jumpIfFalse (← (← payload).nat?)
  | "Call" => return .call (← decode? m (← payload))
  | "Fail" => return .fail (← (← payload).nat?)
  | tag => if Json.isUnit payload then ofName? tag else none

end Opcode

instance {K : Type} [Codec K] : Codec (Opcode K) := ⟨Opcode.toJson, Opcode.ofJson?⟩

end Fluxion
