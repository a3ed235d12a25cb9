import Fluxion.Expr.Free

/-!
# Expr/Subst — substitution and zero elimination

`Expr.substitute` replaces free symbols all at once; a sum shields its own index.  `Expr.simplify`
folds away what is identically zero and changes nothing else, and `Expr.eliminate` combines the two:
it sets some symbols to zero and folds what vanishes with them.
-/

namespace Fluxion

/-- What some free symbols stand for. -/
abbrev Substitution (K : Type) := FreeSymbol → Option (Expr K)

namespace Substitution

variable {K : Type}

/-- The replacements of a list, a later one for the same symbol winning. -/
def ofList (pairs : List (FreeSymbol × Expr K)) : Substitution K := fun s =>
  (pairs.reverse.find? (·.1 == s)).map (·.2)

/-- Zero for each symbol of a list. -/
def zeros [Literal K] (missing : List FreeSymbol) : Substitution K := fun s =>
  if s ∈ missing then some Expr.zero else none

end Substitution

namespace Expr

variable {K : Type}

mutual

/-- Substitution under the indices bound so far. -/
def substituteUnder (σ : Substitution K) (bound : List Index) : Expr K → Expr K
  | .number v => .number v
  | .imaginaryUnit => .imaginaryUnit
  | .symbol name => (σ (.scalar name)).getD (.symbol name)
  | .indexed s => (σ (.indexed s)).getD (.indexed s)
  | .index i => if i ∈ bound then .index i else (σ (.index i)).getD (.index i)
  | .add terms => .add (substituteAll σ bound terms)
  | .mul factors => .mul (substituteAll σ bound factors)
  | .pow base exponent => .pow (substituteUnder σ bound base) (substituteUnder σ bound exponent)
  | .neg inner => .neg (substituteUnder σ bound inner)
  | .call func args => .call func (substituteAll σ bound args)
  | .sum i away body =>
    .sum i away (substituteUnder σ (i :: bound) body)
  | .distinct a b body => .distinct a b (substituteUnder σ bound body)

/-- Substitution in each expression of a list. -/
def substituteAll (σ : Substitution K) (bound : List Index) : List (Expr K) → List (Expr K)
  | [] => []
  | e :: rest => substituteUnder σ bound e :: substituteAll σ bound rest

end

/-- Replaces the free symbols that a substitution maps. -/
def substitute (σ : Substitution K) (e : Expr K) : Expr K := e.substituteUnder σ []

variable [Literal K]

/-- A sum of terms that are not literally zero: nothing, one term, or a proper sum. -/
def sumOf : List (Expr K) → Expr K
  | [] => zero
  | [e] => e
  | es => .add es

mutual

/-- Folds away subterms that are identically zero: zero summands, products with a zero factor, zero
to a positive power, and negations, calls, sums and conditions of zero. -/
def simplify : Expr K → Expr K
  | .add terms => sumOf ((simplifyAll terms).filter (!·.isLiteralZero))
  | .mul factors =>
    let factors := simplifyAll factors
    if factors.any isLiteralZero then zero else .mul factors
  | .pow base exponent =>
    let base := simplify base
    let exponent := simplify exponent
    match base, exponent with
    | .number b, .number e =>
      if Literal.isZero b && Literal.isPositive e then zero else .pow base exponent
    | _, _ => .pow base exponent
  | .neg inner =>
    let inner := simplify inner
    if inner.isLiteralZero then zero else .neg inner
  | .call func args =>
    let args := simplifyAll args
    if func.preservesZero && args.length == 1 && args.all isLiteralZero then zero
    else .call func args
  | .sum i away body =>
    let body := simplify body
    if body.isLiteralZero then zero else .sum i away body
  | .distinct a b body =>
    let body := simplify body
    if body.isLiteralZero then zero else .distinct a b body
  | .number v => .number v
  | .imaginaryUnit => .imaginaryUnit
  | .symbol name => .symbol name
  | .indexed s => .indexed s
  | .index i => .index i

/-- Simplifies each expression of a list. -/
def simplifyAll : List (Expr K) → List (Expr K)
  | [] => []
  | e :: rest => simplify e :: simplifyAll rest

end

/-- Whether the expression simplifies to a literal zero. -/
def isZero (e : Expr K) : Bool := e.simplify.isLiteralZero

/-- Sets the symbols of a list to zero and folds what vanishes with them. -/
def eliminate (missing : List FreeSymbol) (e : Expr K) : Expr K :=
  (e.substitute (.zeros missing)).simplify

end Expr

end Fluxion
