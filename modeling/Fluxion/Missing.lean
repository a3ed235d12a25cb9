import Fluxion.Error

/-!
# Missing — symbols that nothing declares

Every symbol of a right-hand side must be a state, a parameter or the time.  What is not is either
an error or, on request, set to zero.  There are two notions of what can be missing: `missingFlat`
counts everything that is free, `missingIndexed` scalars only, since indices and indexed symbols are
resolved by their ranges.
-/

namespace Fluxion

variable {K : Type}

/-- The symbol a state or parameter declares. -/
def Expr.declared? : Expr K → Option FreeSymbol
  | .symbol name => some (.scalar name)
  | .indexed s => some (.indexed s)
  | _ => none

/-- The free symbols of some expressions that are not known, by first occurrence. -/
def missingAmong (known : List FreeSymbol) (rhs : List (Expr K)) : List FreeSymbol :=
  firsts ((rhs.flatMap Expr.freeSymbols).filter (· ∉ known))

/-- Free symbols that are declared neither as a state nor as a parameter. -/
def missingFlat (rhs lhs params : List (Expr K)) : List FreeSymbol :=
  missingAmong ((lhs ++ params).filterMap Expr.declared?) rhs

/-- Free scalar symbols that do not occur in any state or parameter. -/
def missingIndexed (rhs lhs params : List (Expr K)) : List FreeSymbol :=
  (missingAmong ((lhs ++ params).flatMap Expr.freeSymbols) rhs).filter (!·.isIndexLike)

/-- Missing symbols are an error unless they are to be set to zero. -/
def ensureComplete (missing : List FreeSymbol) (zeroFill : Bool) : Except (Error K) Unit :=
  if missing.isEmpty || zeroFill then .ok () else .error (.missingSymbols missing)

/-- Sets missing symbols to zero in each expression of a list. -/
def eliminateAll [Literal K] (missing : List FreeSymbol) (es : List (Expr K)) : List (Expr K) :=
  if missing.isEmpty then es else es.map (Expr.eliminate missing)

end Fluxion
