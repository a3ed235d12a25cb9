import Fluxion.Node.Codec
import Fluxion.Node.Transform

/-!
# Procedure/Basic — derivative procedures

A `Procedure` writes the derivative of a state vector: it is a list of assignments and loops over
the slots of the derivative, together with the names of its four arguments and a description of how
states and parameters are laid out.  It can be printed (`Procedure/Source`), stored
(`Procedure/Codec`) and compiled (`Bytecode/Compile`).
-/

namespace Fluxion

/-- A statement of a procedure. -/
inductive Stmt (K : Type) where
  /-- Writes `value` to a slot of the derivative. -/
  | assign (slot value : Node K)
  /-- Runs `body` for each integer step of `var` from `lower` up to `upper`. -/
  | loop (var : String) (lower upper : Node K) (body : List (Stmt K))

/-- The names of the four arguments. -/
structure Naming where
  derivative : String
  state : String
  params : String
  time : String
  deriving Repr, DecidableEq

/-- Where a state or parameter lives in its array. -/
inductive LayoutEntry (K : Type) where
  | scalar (name : String) (slot : Nat)
  /-- The slots from `start` on, as many as `size` says. -/
  | family (name : String) (start size : Node K)

/-- A procedure that computes derivatives. -/
structure Procedure (K : Type) where
  naming : Naming
  states : List (LayoutEntry K)
  params : List (LayoutEntry K)
  body : List (Stmt K)
  checkBounds : Bool

namespace LayoutEntry

variable {K : Type}

def name : LayoutEntry K → String
  | .scalar name _ => name
  | .family name _ _ => name

def beq [Literal K] : LayoutEntry K → LayoutEntry K → Bool
  | .scalar x n, .scalar y m => x == y && n == m
  | .family x s l, .family y t m => x == y && s == t && l == m
  | _, _ => false

instance [Literal K] : BEq (LayoutEntry K) := ⟨beq⟩

end LayoutEntry

namespace Stmt

variable {K : Type}

mutual

/-- Transforms every node of a statement. -/
def transform (f : Node K → Node K) : Stmt K → Stmt K
  | .assign slot value => .assign (slot.transform f) (value.transform f)
  | .loop x lo hi body => .loop x (lo.transform f) (hi.transform f) (transformAll f body)

/-- Transforms every node of some statements. -/
def transformAll (f : Node K → Node K) : List (Stmt K) → List (Stmt K)
  | [] => []
  | s :: rest => transform f s :: transformAll f rest

end

mutual

/-- Every node of a statement, in order. -/
def subnodes : Stmt K → List (Node K)
  | .assign slot value => slot.subnodes ++ value.subnodes
  | .loop _ lo hi body => lo.subnodes ++ hi.subnodes ++ subnodesAll body

/-- Every node of some statements, in order. -/
def subnodesAll : List (Stmt K) → List (Node K)
  | [] => []
  | s :: rest => subnodes s ++ subnodesAll rest

end

mutual

/-- How deep loops nest in a statement. -/
def depth : Stmt K → Nat
  | .assign .. => 0
  | .loop _ _ _ body => depthAll body + 1

/-- How deep loops nest in some statements. -/
def depthAll : List (Stmt K) → Nat
  | [] => 0
  | s :: rest => max (depth s) (depthAll rest)

end

variable [Literal K]

mutual

/-- Structural equality, with literals compared as numbers. -/
def beq : Stmt K → Stmt K → Bool
  | .assign s v, .assign t w => s == t && v == w
  | .loop x l u b, .loop y m v c => x == y && l == m && u == v && beqAll b c
  | _, _ => false

/-- Structural equality of lists of statements. -/
def beqAll : List (Stmt K) → List (Stmt K) → Bool
  | [], [] => true
  | s :: ss, t :: ts => beq s t && beqAll ss ts
  | _, _ => false

end

end Stmt

namespace Procedure

variable {K : Type}

/-- How deep loops nest in the body. -/
def loopDepth (p : Procedure K) : Nat := Stmt.depthAll p.body

/-- Every node of the body, in order. -/
def nodes (p : Procedure K) : List (Node K) := Stmt.subnodesAll p.body

/-- Whether a node is the imaginary unit. -/
def isImaginaryUnit : Node K → Bool
  | .imaginaryUnit => true
  | _ => false

/-- Whether the body needs complex arithmetic. -/
def usesImaginaryUnit (p : Procedure K) : Bool := p.nodes.any isImaginaryUnit

/-- Structural equality, with literals compared as numbers. -/
def beq [Literal K] (p q : Procedure K) : Bool :=
  p.naming == q.naming && p.states == q.states && p.params == q.params
    && Stmt.beqAll p.body q.body && p.checkBounds == q.checkBounds

instance [Literal K] : BEq (Procedure K) := ⟨beq⟩

end Procedure

end Fluxion
