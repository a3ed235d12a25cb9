import Fluxion.Error
import Fluxion.Procedure.Basic

/-!
# Procedure/Check — what a procedure has to satisfy

- `Procedure.checkStructure`: loops nest at most once, every variable stands inside its loop or sum,
  and nothing is left that a finished procedure must not contain;
- `Procedure.checkTokens`: every name has a meaning and every call its one argument.

The first holds of every procedure that is built or restored.  The second is needed only to compile
one, since a procedure with foreign names can still be printed.
-/

namespace Fluxion

variable {K : Type}

namespace Node

mutual

/-- Checks a node under the variables in scope. -/
def check (scope : List String) : Node K → Except Malformed Unit
  | .const _ | .imaginaryUnit | .named _ | .time | .unresolved _ => .ok ()
  | .var name => if name ∈ scope then .ok () else .error (.variableOutside name)
  | .access .zero _ => .error .zeroAccess
  | .access _ i => check scope i
  | .neg a => check scope a
  | .binary _ a b => do
    check scope a
    check scope b
  | .call _ args => checkAll scope args
  | .indicator l r => do
    check scope l
    check scope r
  | .sum x lo hi [] body => do
    check scope lo
    check scope hi
    check (x :: scope) body
  | .sum x _ _ es _ => .error (.exclusionsLeft x es.length)
  | .boundedSum x .. => .error (.boundedSumLeft x)
  | .guarded .. => .error .guardLeft

/-- Checks each node of a list. -/
def checkAll (scope : List String) : List (Node K) → Except Malformed Unit
  | [] => .ok ()
  | n :: rest => do
    check scope n
    checkAll scope rest

end

/-- Checks that a node itself, apart from its children, means something. -/
def checkToken : Node K → Except ProgramError Unit
  | .named name => .error (.unknownToken name)
  | .call func args =>
    match Builtin.arity? func with
    | none => .error (.unknownToken func)
    | some n =>
      if args.length = n then .ok ()
      else .error (.malformed (.argumentCount func args.length))
  | _ => .ok ()

end Node

namespace Stmt

mutual

/-- Checks a statement under the variables in scope. -/
def check (scope : List String) : Stmt K → Except Malformed Unit
  | .assign slot value => do
    slot.check scope
    value.check scope
  | .loop x lo hi body => do
    lo.check scope
    hi.check scope
    checkAll (x :: scope) body

/-- Checks some statements in order. -/
def checkAll (scope : List String) : List (Stmt K) → Except Malformed Unit
  | [] => .ok ()
  | s :: rest => do
    check scope s
    checkAll scope rest

end

end Stmt

namespace Procedure

/-- Checks loop depth, the scopes of variables and that the body is fully resolved. -/
def checkStructure (p : Procedure K) : Except ProgramError Unit :=
  if 1 < p.loopDepth then .error (.nestedLoops p.loopDepth)
  else (Stmt.checkAll [] p.body).mapError .malformed

theorem checkStructure_eq_ok {p : Procedure K} :
    p.checkStructure = .ok () ↔ p.loopDepth ≤ 1 ∧ Stmt.checkAll [] p.body = .ok () := by
  rw [checkStructure]
  split
  · next hdepth => simp [Nat.not_le_of_lt hdepth]
  · next hdepth =>
    simp only [Nat.not_lt.mp hdepth, true_and]
    cases Stmt.checkAll [] p.body with
    | ok => exact iff_of_true rfl rfl
    | error fault => exact iff_of_false (fun h => by cases h) (fun h => by cases h)

/-- Checks that every name of the body has a meaning. -/
def checkTokens (p : Procedure K) : Except ProgramError Unit := p.nodes.forM Node.checkToken

end Procedure

end Fluxion
