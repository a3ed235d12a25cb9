import Fluxion.Equation
import Fluxion.Expr.Text

/-!
# Error — why no procedure can be generated

Each error names its cause; `Error.message` words it.  Errors of the finished procedure, which also
arise when one is read back or made callable, form a type of their own.
-/

namespace Fluxion

/-- What is wrong with the body of a procedure. -/
inductive Malformed where
  | variableOutside (name : String)
  | zeroAccess
  | exclusionsLeft (var : String) (count : Nat)
  | boundedSumLeft (var : String)
  | guardLeft
  | argumentCount (func : String) (count : Nat)
  | unboundVariable (name : String)
  | exclusionsInCode (var : String)
  | unloweredInCode
  deriving Repr, DecidableEq

/-- Why a procedure cannot be made callable. -/
inductive ProgramError where
  | malformed (fault : Malformed)
  /-- Loops nest deeper than one level. -/
  | nestedLoops (depth : Nat)
  | unknownToken (name : String)
  /-- The imaginary unit occurs, but the value type is real. -/
  | complexUnsupported (scalar : String)
  deriving Repr, DecidableEq

/-- What is wrong with a parameter. -/
inductive ParameterFault (K : Type) where
  | notSymbol (e : Expr K)
  | declaredTwice (name : String)
  | symbolicBounds (s : Indexed) (i : Index)
  | shadowsState (name : String)

/-- How the use of indices contradicts the family of an equation. -/
inductive IndexFault where
  | strayOnScalar (stray : Index)
  | strayBeside (stray own : Index)
  | rangeDiffers (own first : Index)
  | notBound (i : Index)
  deriving Repr, DecidableEq

/-- Why a system has no procedure. -/
inductive Error (K : Type) where
  /-- Symbols that are neither states nor parameters. -/
  | missingSymbols (symbols : List FreeSymbol)
  | lengthMismatch (lhs rhs : Nat)
  | system (e : SystemError K)
  | invalidParameter (fault : ParameterFault K)
  | inconsistentIndex (equation : Target) (fault : IndexFault)
  /-- A family is accessed through indices of another range. -/
  | incompatibleIndex (s : Indexed)
  | relabelLimit (required limit : Nat)
  /-- An equation over more indices than there are loop levels. -/
  | unsupportedDepth (equation : Target) (depth : Nat)
  | program (e : ProgramError)

namespace Malformed

def message : Malformed → String
  | .variableOutside name => "variable '" ++ name ++ "' used outside its loop or sum"
  | .zeroAccess => "residual zero-array access"
  | .exclusionsLeft var count =>
    "sum over '" ++ var ++ "' still carries " ++ toString count ++ " exclusion(s)"
  | .boundedSumLeft var => "generic bounded sum over '" ++ var ++ "' was not lowered"
  | .guardLeft => "inequality guard was not rewritten into an indicator"
  | .argumentCount func count => "'" ++ func ++ "' called with " ++ toString count ++ " argument(s)"
  | .unboundVariable name => "unbound variable '" ++ name ++ "'"
  | .exclusionsInCode var => "sum over '" ++ var ++ "' still carries exclusions"
  | .unloweredInCode => "high-level node reached the bytecode compiler"

end Malformed

/-- The message for an equation that needs too many loops. -/
def depthMessage (equation : String) (depth : Nat) : String :=
  "Equation for '" ++ equation ++ "' is indexed over " ++ toString depth
    ++ " indices; only one loop level is supported"

namespace ProgramError

def message : ProgramError → String
  | .malformed fault => "Malformed procedure: " ++ fault.message
  | .nestedLoops depth => depthMessage "<procedure body>" depth
  | .unknownToken name => "Unknown runtime token '" ++ name ++ "'"
  | .complexUnsupported scalar =>
    "Procedure uses the imaginary unit but is materialized over the real type '" ++ scalar ++ "'"

end ProgramError

namespace SystemError

def message : SystemError Floating → String
  | .invalidTarget lhs =>
    "Left-hand side '" ++ lhs.text ++ "' must be a symbol or an indexed symbol"
  | .duplicateState name => "State '" ++ name ++ "' has more than one equation"

end SystemError

namespace ParameterFault

/-- The parameter as it was declared. -/
def subject : ParameterFault Floating → String
  | .notSymbol e => e.text
  | .declaredTwice name => name
  | .symbolicBounds s _ => s.text
  | .shadowsState name => name

def reason {K : Type} : ParameterFault K → String
  | .notSymbol _ => "expected a symbol or an indexed symbol"
  | .declaredTwice _ => "declared twice"
  | .symbolicBounds _ i => "index '" ++ i.label ++ "' needs literal bounds"
  | .shadowsState _ => "shadows a state"

end ParameterFault

namespace IndexFault

/-- The bounds of an index as a range. -/
def range (i : Index) : String := i.lower.text ++ "..=" ++ i.upper.text

def reason : IndexFault → String
  | .strayOnScalar stray => "scalar lhs but the rhs carries free index '" ++ stray.label ++ "'"
  | .strayBeside stray own =>
    "rhs carries free index '" ++ stray.label ++ "' besides the lhs index '" ++ own.label ++ "'"
  | .rangeDiffers own first =>
    "range " ++ range own ++ " differs from the loop range " ++ range first
  | .notBound i => "index '" ++ i.label ++ "' is not bound by the loop or a sum"

end IndexFault

namespace Error

def message : Error Floating → String
  | .missingSymbols symbols =>
    "Right-hand sides reference unknown symbols [" ++ ", ".intercalate (symbols.map FreeSymbol.text)
      ++ "]. Declare them as states or parameters, or enable `set_unknowns_zero` to substitute "
      ++ "them with zero"
  | .lengthMismatch lhs rhs =>
    "Got " ++ toString rhs ++ " right-hand sides for " ++ toString lhs ++ " states"
  | .system e => e.message
  | .invalidParameter fault => "Invalid parameter '" ++ fault.subject ++ "': " ++ fault.reason
  | .inconsistentIndex equation fault =>
    "Inconsistent index family in equation for '" ++ equation.text ++ "': " ++ fault.reason
  | .incompatibleIndex s =>
    "'" ++ s.base ++ "' cannot be accessed through index '" ++ labels s.indices
      ++ "': no relabeling matches its declared range"
  | .relabelLimit required limit =>
    "Index relabeling needs " ++ toString required ++ " rewrite rules, exceeding the limit of "
      ++ toString limit
  | .unsupportedDepth equation depth => depthMessage equation.text depth
  | .program e => e.message

end Error

end Fluxion
