import Fluxion.Index
import Fluxion.Scalar.Arithmetic

/-!
# Expr/Basic — symbolic expressions

The right-hand sides of a system.  Sums and products carry any number of operands; a `sum` binds its
index in the body and leaves out the sites of other indices; a `distinct` term vanishes where its
two indices coincide.  Expressions are polymorphic in their literals.

The arithmetic constructors `+`, `-`, `*`, `/` flatten: adding to a sum extends it, a difference is
a sum with a negated term, and a quotient is a product with a reciprocal power.
-/

namespace Fluxion

/-- A function an expression can apply. -/
inductive Func where
  | builtin (b : Builtin)
  /-- The adjoint, which for numbers is the conjugate. -/
  | adjoint
  /-- Any other function, known by its name only. -/
  | named (name : String)
  deriving Repr, DecidableEq

/-- A symbolic expression. -/
inductive Expr (K : Type) where
  | number (v : K)
  | imaginaryUnit
  | symbol (name : String)
  | indexed (s : Indexed)
  /-- An index used as a value: the site it stands at. -/
  | index (i : Index)
  | add (terms : List (Expr K))
  | mul (factors : List (Expr K))
  | pow (base exponent : Expr K)
  | neg (inner : Expr K)
  | call (func : Func) (args : List (Expr K))
  /-- The sum of `body` over the sites of `i` at which no index of `away` stands. -/
  | sum (i : Index) (away : List Index) (body : Expr K)
  /-- `body` where `a` and `b` stand at different sites, zero elsewhere. -/
  | distinct (a b : Index) (body : Expr K)

namespace Func

def name : Func → String
  | .builtin b => b.name
  | .adjoint => "adjoint"
  | .named name => name

/-- Functions with `f 0 = 0`. -/
def preservesZero : Func → Bool
  | .builtin b => b.preservesZero
  | .adjoint => true
  | .named _ => false

def toJson : Func → Json
  | .builtin b => .str b.name
  | .adjoint => .str "adjoint"
  | .named name => .tagged "named" (.str name)

def ofJson? (j : Json) : Option Func := do
  let (tag, payload) ← j.variant?
  if tag == "named" then return .named (← (← payload).string?)
  else if !Json.isUnit payload then none
  else if tag == "adjoint" then return .adjoint
  else return .builtin (← Builtin.ofName? tag)

end Func

instance : Codec Func := ⟨Func.toJson, fun _ => Func.ofJson?⟩

namespace Expr

variable {K : Type}

/-- The terms of a sum; any other expression is its own only term. -/
def terms : Expr K → List (Expr K)
  | .add terms => terms
  | e => [e]

/-- The factors of a product; any other expression is its own only factor. -/
def factors : Expr K → List (Expr K)
  | .mul factors => factors
  | e => [e]

/-- The sum, with the terms of both operands side by side. -/
def plus (a b : Expr K) : Expr K := .add (a.terms ++ b.terms)

/-- The product, with the factors of both operands side by side. -/
def times (a b : Expr K) : Expr K := .mul (a.factors ++ b.factors)

/-- The difference, as a sum with a negated term. -/
def minus (a b : Expr K) : Expr K := a.plus (.neg b)

variable [Literal K]

/-- The literal zero. -/
def zero : Expr K := .number Literal.zero

/-- The quotient, as a product with a reciprocal. -/
def dividedBy (a b : Expr K) : Expr K := a.times (.pow b (.number (Literal.ofInt (-1))))

/-- Whether the expression is a literal zero, of either sign. -/
def isLiteralZero : Expr K → Bool
  | .number v => Literal.isZero v
  | _ => false

mutual

/-- Structural equality, with literals compared as numbers. -/
def beq : Expr K → Expr K → Bool
  | .number v, .number w => Literal.eq v w
  | .imaginaryUnit, .imaginaryUnit => true
  | .symbol x, .symbol y => x == y
  | .indexed s, .indexed r => s == r
  | .index i, .index j => i == j
  | .add xs, .add ys => beqAll xs ys
  | .mul xs, .mul ys => beqAll xs ys
  | .pow a e, .pow b f => beq a b && beq e f
  | .neg a, .neg b => beq a b
  | .call f xs, .call g ys => f == g && beqAll xs ys
  | .sum i ds a, .sum j es b => i == j && ds == es && beq a b
  | .distinct i j a, .distinct k l b => i == k && j == l && beq a b
  | _, _ => false

/-- Structural equality of lists of expressions. -/
def beqAll : List (Expr K) → List (Expr K) → Bool
  | [], [] => true
  | x :: xs, y :: ys => beq x y && beqAll xs ys
  | _, _ => false

end

instance : BEq (Expr K) := ⟨beq⟩

end Expr

end Fluxion
