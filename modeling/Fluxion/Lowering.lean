import Fluxion.Layout.Relabel
import Fluxion.Procedure.Canonical

/-!
# Lowering — from expressions to nodes

Lowering follows the structure of an expression.  Scalar symbols become what they stand for, indexed
symbols become accesses, differences and quotients are recovered from negated terms and reciprocal
factors, and a sum gets a variable of its own.

Variables are named after the labels of their indices.  A name that clashes with an argument or with
a variable in scope is followed by a number (`fresh`); the numbers count up through the whole
procedure, which is the state of the lowering monad.  They are natural numbers, so that the count
never overflows.
-/

namespace Fluxion

/-- What lowering needs to know about the system. -/
structure LoweringContext (K : Type) where
  /-- What scalar symbols stand for. -/
  names : List (String × Node K)
  rules : RuleSet K
  params : ParamLayout
  /-- Whether unknown families are read as zero. -/
  zeroFill : Bool
  /-- Names no variable may have. -/
  reserved : List String
  /-- The equation being lowered, for errors. -/
  equation : Target

/-- Indices in scope with their variables, the innermost first. -/
abbrev IndexScope := List (Index × String)

/-- Lowering counts the names it has made up, and may fail. -/
abbrev Lowering (K : Type) := StateT Nat (Except (Error K))

/-- The name of a label with a number. -/
def numberedName (label : String) (n : Nat) : String := label ++ "_" ++ toString n

/-- The first numbered name after `n` that is not taken.  As many attempts as there are taken names,
and one more, suffice. -/
def freshNumbered (taken : List String) (label : String) : Nat → Nat → String × Nat
  | 0, n => (numberedName label (n + 1), n + 1)
  | attempts + 1, n =>
    if numberedName label (n + 1) ∈ taken then freshNumbered taken label attempts (n + 1)
    else (numberedName label (n + 1), n + 1)

/-- A name for a label that is not taken, with the count after it. -/
def freshName (taken : List String) (label : String) (n : Nat) : String × Nat :=
  if label ∈ taken then freshNumbered taken label taken.length n else (label, n)

namespace LoweringContext

variable {K : Type}

/-- The names a new variable must avoid. -/
def taken (c : LoweringContext K) (scope : IndexScope) : List String :=
  c.reserved ++ scope.map (·.2)

/-- A variable for an index. -/
def fresh (c : LoweringContext K) (scope : IndexScope) (i : Index) : Lowering K String :=
  fun n => .ok (freshName (c.taken scope) i.label n)

/-- The variable an index stands for. -/
def indexNode (c : LoweringContext K) (scope : IndexScope) (i : Index) :
    Except (Error K) (Node K) :=
  match scope.lookup i with
  | some x => .ok (.var x)
  | none => .error (.inconsistentIndex c.equation (.notBound i))

/-- The variables some indices stand for. -/
def indexNodes (c : LoweringContext K) (scope : IndexScope) (is : List Index) :
    Except (Error K) (List (Node K)) := is.mapM (c.indexNode scope)

variable [Literal K]

/-- The node of an indexed symbol. -/
def indexedNode (c : LoweringContext K) (scope : IndexScope) (s : Indexed) :
    Except (Error K) (Node K) :=
  match c.rules.resolve s with
  | .access rule => do return rule.location (← c.indexNodes scope s.indices)
  | .incompatible => .error (.incompatibleIndex s)
  | .unknown =>
    if c.zeroFill then
      match s.indices with
      | [] => .ok (.access .zero (.ofInt 0))
      | i :: _ => do return .access .zero (← c.indexNode scope i)
    else .error (.missingSymbols [.indexed s])

end LoweringContext

namespace Expr

variable {K : Type} [Literal K]

/-- Whether the expression is the literal minus one. -/
def isMinusOne : Expr K → Bool
  | .number v => Literal.eq v (Literal.ofInt (-1))
  | _ => false

/-- A term behind the terms before it, if there are any. -/
def joinTerm (acc : Option (Node K)) (n : Node K) : Node K :=
  match acc with
  | none => n
  | some a => .binary .add a n

/-- A negated term behind the terms before it. -/
def joinNegated (acc : Option (Node K)) (n : Node K) : Node K :=
  match acc with
  | none => .neg n
  | some a => .binary .sub a n

/-- A factor behind the factors before it. -/
def joinFactor (acc : Option (Node K)) (n : Node K) : Node K :=
  match acc with
  | none => n
  | some a => .binary .mul a n

/-- A divisor behind the factors before it. -/
def joinDivisor (acc : Option (Node K)) (n : Node K) : Node K :=
  .binary .div (acc.getD (.const Literal.one)) n

mutual

/-- The node of an expression. -/
def lower (c : LoweringContext K) (scope : IndexScope) : Expr K → Lowering K (Node K)
  | .number v => return .const v
  | .imaginaryUnit => return .named Node.imaginaryName
  | .symbol name => return (c.names.lookup name).getD (.named name)
  | .indexed s => c.indexedNode scope s
  | .index i => c.indexNode scope i
  | .add terms => lowerTerms c scope none terms
  | .mul factors => lowerFactors c scope none factors
  | .pow base exponent => do
    let b ← lower c scope base
    let e ← lower c scope exponent
    return .binary .pow b e
  | .neg inner => return .neg (← lower c scope inner)
  | .call func args => return .call func.name (← lowerAll c scope args)
  | .sum i away body => do
    let excluded ← c.indexNodes scope away
    let x ← c.fresh scope i
    let body ← lower c ((i, x) :: scope) body
    return .boundedSum x (c.params.boundNode i.lower) (c.params.boundNode i.upper) excluded body
  | .distinct i j body => do
    let l ← c.indexNode scope i
    let r ← c.indexNode scope j
    return .guarded l r (← lower c scope body)

/-- The sum of some terms, behind those lowered before. -/
def lowerTerms (c : LoweringContext K) (scope : IndexScope) :
    Option (Node K) → List (Expr K) → Lowering K (Node K)
  | acc, [] => return acc.getD (.const Literal.zero)
  | acc, .neg inner :: rest => do
    let n ← lower c scope inner
    lowerTerms c scope (some (joinNegated acc n)) rest
  | acc, e :: rest => do
    let n ← lower c scope e
    lowerTerms c scope (some (joinTerm acc n)) rest

/-- The product of some factors, behind those lowered before. -/
def lowerFactors (c : LoweringContext K) (scope : IndexScope) :
    Option (Node K) → List (Expr K) → Lowering K (Node K)
  | acc, [] => return acc.getD (.const Literal.one)
  | acc, .pow base exponent :: rest => do
    let b ← lower c scope base
    if exponent.isMinusOne then lowerFactors c scope (some (joinDivisor acc b)) rest
    else
      let e ← lower c scope exponent
      lowerFactors c scope (some (joinFactor acc (.binary .pow b e))) rest
  | acc, e :: rest => do
    let n ← lower c scope e
    lowerFactors c scope (some (joinFactor acc n)) rest

/-- The nodes of some expressions. -/
def lowerAll (c : LoweringContext K) (scope : IndexScope) :
    List (Expr K) → Lowering K (List (Node K))
  | [] => return []
  | e :: rest => do
    let n ← lower c scope e
    return n :: (← lowerAll c scope rest)

end

end Expr

end Fluxion
