import Fluxion.Procedure.Basic

/-!
# Procedure/Canonical — one spelling for each name

Expressions may name the imaginary unit and some functions in several ways.  A finished procedure
uses one spelling; every other name is left as it is, for `Procedure.checkTokens` to judge.
-/

namespace Fluxion

/-- The spelling that a procedure uses for a function. -/
def canonicalFunc (name : String) : String :=
  if name == "adjoint" || name == "dagger" || name == "conjugate" then "conj"
  else if name == "ln" then "log"
  else name

namespace Node

variable {K : Type}

/-- The name under which lowered expressions mention the imaginary unit. -/
def imaginaryName : String := "im"

/-- Respells a node itself. -/
def respell : Node K → Node K
  | .named name => if name == imaginaryName then .imaginaryUnit else .named name
  | .call func args => .call (canonicalFunc func) args
  | n => n

end Node

/-- Respells every name in some statements. -/
def Stmt.canonical {K : Type} (body : List (Stmt K)) : List (Stmt K) :=
  Stmt.transformAll Node.respell body

end Fluxion
