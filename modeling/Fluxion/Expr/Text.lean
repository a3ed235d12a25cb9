import Fluxion.Expr.Basic
import Fluxion.Scalar.Floating

/-!
# Expr/Text — expressions as text

Sums stand in parentheses, with a negated term after the first written as a difference.  Nothing
else is parenthesised, so the text is for reading and not for parsing.
-/

namespace Fluxion.Expr

/-- The head of a sum: its index, the bounds, and the indices it keeps away from. -/
def sumHead (i : Index) (away : List Index) : String :=
  "Σ(" ++ i.label ++ "=" ++ i.lower.text ++ ":" ++ i.upper.text
    ++ String.join (away.map fun j => ", " ++ i.label ++ "≠" ++ j.label) ++ ") "

mutual

/-- The text of an expression. -/
def text : Expr Floating → String
  | .number v => Format.plain.write v.value
  | .imaginaryUnit => "im"
  | .symbol name => name
  | .indexed s => s.text
  | .index i => i.label
  | .add [] => "()"
  | .add (t :: rest) => "(" ++ text t ++ String.join (laterTerms rest) ++ ")"
  | .mul factors => " * ".intercalate (texts factors)
  | .pow base exponent => text base ++ "^" ++ text exponent
  | .neg inner => "-" ++ text inner
  | .call func args => func.name ++ "(" ++ ", ".intercalate (texts args) ++ ")"
  | .sum i away body => sumHead i away ++ text body
  | .distinct a b body => "[" ++ a.label ++ "≠" ++ b.label ++ "](" ++ text body ++ ")"

/-- Terms after the first, each with the sign in front of it. -/
def laterTerms : List (Expr Floating) → List String
  | [] => []
  | .neg inner :: rest => (" - " ++ text inner) :: laterTerms rest
  | t :: rest => (" + " ++ text t) :: laterTerms rest

/-- The texts of some expressions. -/
def texts : List (Expr Floating) → List String
  | [] => []
  | t :: rest => text t :: texts rest

end

end Fluxion.Expr
