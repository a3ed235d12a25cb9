import Fluxion.Expr.Subst

/-!
# Equation — differential equations and systems of them

An equation states the derivative of a *target*, a scalar symbol or an indexed one, and carries the
list of its free indices from the moment it is built: those of the target first, then the free
indices of the right-hand side.  An `EquationSystem` is a list of equations with pairwise different
states, and possibly a symbol for time.

`EquationSystem.eliminate` sets symbols to zero.  It drops the equations whose own target is set to
zero and recomputes the free indices of the others.
-/

namespace Fluxion

/-- What an equation gives the derivative of. -/
inductive Target where
  | scalar (name : String)
  | indexed (s : Indexed)
  deriving Repr, DecidableEq

namespace Target

/-- The state without its indices. -/
def state : Target → String
  | .scalar name => name
  | .indexed s => s.base

def indices : Target → List Index
  | .scalar _ => []
  | .indexed s => s.indices

def text : Target → String
  | .scalar name => name
  | .indexed s => s.text

def toFree : Target → FreeSymbol
  | .scalar name => .scalar name
  | .indexed s => .indexed s

def toExpr {K : Type} : Target → Expr K
  | .scalar name => .symbol name
  | .indexed s => .indexed s

def ofExpr? {K : Type} : Expr K → Option Target
  | .symbol name => some (.scalar name)
  | .indexed s => some (.indexed s)
  | _ => none

end Target

/-- A differential equation with its free indices. -/
structure Equation (K : Type) where
  lhs : Target
  rhs : Expr K
  free : List Index

namespace Equation

variable {K : Type}

/-- The free indices of an equation: those of the target as they stand, then the others by first
occurrence on the right-hand side. -/
def freeIndices (lhs : Target) (rhs : Expr K) : List Index :=
  lhs.indices ++ (rhs.freeSymbols.filterMap FreeSymbol.index?).filter (· ∉ lhs.indices)

/-- The equation of a target and a right-hand side. -/
def of (lhs : Target) (rhs : Expr K) : Equation K := ⟨lhs, rhs, freeIndices lhs rhs⟩

/-- Whether no index is free in the equation. -/
def isScalar (e : Equation K) : Bool := e.free.isEmpty

/-- Whether the equation has anything to do with indices. -/
def isIndexed (e : Equation K) : Bool := !e.isScalar || e.rhs.hasIndexStructure

end Equation

/-- Why a list of pairs is not a system. -/
inductive SystemError (K : Type) where
  /-- A left-hand side is neither a symbol nor an indexed symbol. -/
  | invalidTarget (lhs : Expr K)
  /-- Two equations have the same state. -/
  | duplicateState (name : String)

/-- Equations with pairwise different states, and the symbol of time if there is one. -/
structure EquationSystem (K : Type) where
  equations : List (Equation K)
  time : Option String

namespace EquationSystem

variable {K : Type}

/-- The first entry that occurs again before it in the list. -/
def firstRepeated? : List String → List String → Option String
  | _, [] => none
  | seen, x :: rest => if x ∈ seen then some x else firstRepeated? (x :: seen) rest

/-- An equation from two expressions. -/
def equation? (lhs rhs : Expr K) : Except (SystemError K) (Equation K) :=
  match Target.ofExpr? lhs with
  | some t => .ok (.of t rhs)
  | none => .error (.invalidTarget lhs)

/-- A system from pairs of expressions.  Every left-hand side is checked before repeated states are
looked for. -/
def ofPairs (pairs : List (Expr K × Expr K)) : Except (SystemError K) (EquationSystem K) := do
  let equations ← pairs.mapM fun (lhs, rhs) => equation? lhs rhs
  match firstRepeated? [] (equations.map (·.lhs.state)) with
  | some name => .error (.duplicateState name)
  | none => return ⟨equations, none⟩

/-- Declares the symbol of time. -/
def withTime (s : EquationSystem K) (name : String) : EquationSystem K :=
  { s with time := some name }

def targets (s : EquationSystem K) : List (Expr K) := s.equations.map (·.lhs.toExpr)

def rhss (s : EquationSystem K) : List (Expr K) := s.equations.map (·.rhs)

/-- Whether any equation has to do with indices. -/
def isIndexed (s : EquationSystem K) : Bool := s.equations.any Equation.isIndexed

variable [Literal K]

/-- Sets the symbols of a list to zero: their own equations go, the others are simplified. -/
def eliminate (missing : List FreeSymbol) (s : EquationSystem K) : EquationSystem K :=
  if missing.isEmpty then s
  else { s with
    equations := (s.equations.filter (·.lhs.toFree ∉ missing)).map fun e =>
      .of e.lhs (e.rhs.eliminate missing) }

end EquationSystem

end Fluxion
