import Fluxion.Lowering
import Fluxion.Missing
import Fluxion.Node.Normal
import Fluxion.Options
import Fluxion.Procedure.Check

/-!
# Generate — the procedure of a system

Two generators share the lowering.  `generateFlat` serves systems without indices: one assignment a
state, in order.  `generateIndexed` serves all others: scalar states first, then one loop over the
range that the families share, with nodes in normal form.  `EquationSystem.generate` chooses by
what the system and its parameters contain.

Generation is all or nothing, and the first fault found is the error.
-/

namespace Fluxion

variable {K : Type} [Literal K]

/-- The names that no variable may have. -/
def Naming.reserved (n : Naming) : List String := [n.derivative, n.state, n.params, n.time]

/-- A finished procedure: names in one spelling, structure checked. -/
def finishProcedure (options : Options) (states : StateLayout K) (params : ParamLayout)
    (body : List (Stmt K)) : Except (Error K) (Procedure K) :=
  let p : Procedure K :=
    ⟨options.naming, states.entries, params.entries, Stmt.canonical body, options.checkBounds⟩
  match p.checkStructure with
  | .ok _ => .ok p
  | .error e => .error (.program e)

/-- The symbol of time as an expression, if there is one. -/
def timeExpr (time : Option String) : List (Expr K) := time.toList.map .symbol

/-! ## Systems without indices -/

/-- The states of a flat system: symbols, each once.  `seen` are the states before. -/
def flatStates : List String → List (Expr K) → Except (Error K) (List String)
  | _, [] => .ok []
  | seen, .symbol name :: rest =>
    if name ∈ seen then .error (.system (.duplicateState name))
    else do return name :: (← flatStates (name :: seen) rest)
  | _, e :: _ => .error (.system (.invalidTarget e))

/-- Assignments to consecutive slots. -/
def flatBody (c : LoweringContext K) : Nat → List (String × Expr K) → Lowering K (List (Stmt K))
  | _, [] => return []
  | slot, (state, rhs) :: rest => do
    let value ← rhs.lower { c with equation := .scalar state } []
    return .assign (.ofInt slot) value :: (← flatBody c (slot + 1) rest)

/-- The procedure of a list of states and their derivatives. -/
def generateFlat (rhs lhs params : List (Expr K)) (time : Option String) (options : Options) :
    Except (Error K) (Procedure K) := do
  if rhs.length ≠ lhs.length then .error (.lengthMismatch lhs.length rhs.length) else
  let states ← flatStates [] lhs
  let missing := missingFlat rhs lhs (params ++ timeExpr time)
  ensureComplete missing options.unknownsZero
  let rhs := eliminateAll missing rhs
  let paramLayout ← ParamLayout.ofParams params
  let stateLayout := StateLayout.ofScalars states
  let names ← scalarNodes stateLayout paramLayout time
  let context : LoweringContext K :=
    ⟨names, .empty, paramLayout, options.unknownsZero, options.naming.reserved, .scalar ""⟩
  let (body, _) ← (flatBody context 0 (states.zip rhs)).run 0
  finishProcedure options stateLayout paramLayout body

/-! ## Systems with indices -/

/-- Assignments of scalar equations to consecutive slots. -/
def scalarBody (c : LoweringContext K) : Nat → List (Equation K) → Lowering K (List (Stmt K))
  | _, [] => return []
  | slot, e :: rest => do
    let value ← e.rhs.lower { c with equation := e.lhs } []
    return .assign (.ofInt slot) value.normalize :: (← scalarBody c (slot + 1) rest)

/-- Assignments of families at the site of the loop variable. -/
def familyBody (c : LoweringContext K) (x : String) :
    List (Equation K) → List (StateFamily K) → Lowering K (List (Stmt K))
  | e :: es, f :: fs => do
    let value ← e.rhs.lower { c with equation := e.lhs } [(f.index, x)]
    return .assign (f.slot c.params (.var x)) value.normalize :: (← familyBody c x es fs)
  | _, _ => return []

/-- The loop over the sites of all families, if there are any. -/
def familyLoop (c : LoweringContext K) (equations : List (Equation K))
    (families : List (StateFamily K)) : Lowering K (List (Stmt K)) :=
  match families with
  | [] => return []
  | first :: _ => do
    let x ← c.fresh [] first.index
    let body ← familyBody { c with reserved := x :: c.reserved } x equations families
    return [.loop x (c.params.boundNode first.index.lower) (c.params.boundNode first.index.upper)
      body]

/-- The procedure of a system that may have indices. -/
def generateIndexed (system : EquationSystem K) (params : List (Expr K)) (options : Options) :
    Except (Error K) (Procedure K) := do
  let missing := missingIndexed system.rhss system.targets (params ++ timeExpr system.time)
  ensureComplete missing options.unknownsZero
  let system := system.eliminate missing
  let split ← Split.ofSystem system
  let paramLayout ← ParamLayout.ofParams params
  let stateLayout := StateLayout.ofSplit split paramLayout
  let names ← scalarNodes stateLayout paramLayout system.time
  let rules ← RuleSet.build stateLayout paramLayout (declaredIndices system paramLayout)
    options.maxRelabelRules
  let context : LoweringContext K :=
    ⟨names, rules, paramLayout, options.unknownsZero, options.naming.reserved, .scalar ""⟩
  let (body, _) ← (do
    let scalars ← scalarBody context 0 split.scalars
    let loop ← familyLoop context (split.families.map (·.1)) stateLayout.families
    return scalars ++ loop : Lowering K (List (Stmt K))).run 0
  finishProcedure options stateLayout paramLayout body

/-- Whether a parameter is a plain symbol. -/
def Expr.isSymbol {K : Type} : Expr K → Bool
  | .symbol _ => true
  | _ => false

/-- **The procedure of a system.**  Without indices in the system and among its parameters it is
generated flat. -/
def EquationSystem.generate (system : EquationSystem K) (params : List (Expr K))
    (options : Options) : Except (Error K) (Procedure K) :=
  if !system.isIndexed && params.all Expr.isSymbol then
    generateFlat system.rhss system.targets params system.time options
  else generateIndexed system params options

end Fluxion
