import Fluxion.Expr.Basic

/-!
# Expr/Eval — the value of an expression

`Expr.evaluate` computes an expression directly from the values of its symbols, without compiling
anything; it is the reference that a compiled procedure is measured by.  Indices take their sites
from the enclosing sums, the innermost first, and then from the sites that are given.

Evaluation is strict from left to right and stops at the first symbol without a value.  A term of a
`distinct` condition, and the sites a sum leaves out, are not evaluated at all.
-/

namespace Fluxion

/-- Why an expression has no value. -/
inductive EvalError where
  | unboundScalar (name : String)
  | unboundIndex (i : Index)
  | unboundSite (base : String) (sites : List Int)
  | noArgument (func : Func)
  | unknownFunction (name : String)
  deriving Repr, DecidableEq

namespace EvalError

/-- What has no value, as it is written in messages. -/
def subject : EvalError → String
  | .unboundScalar name => name
  | .unboundIndex i => i.label
  | .unboundSite base sites => base ++ "[" ++ ", ".intercalate (sites.map toString) ++ "]"
  | .noArgument func => func.name ++ "()"
  | .unknownFunction name => name

def message (e : EvalError) : String := "Cannot evaluate '" ++ e.subject ++ "': no value bound"

end EvalError

/-- Values of scalar symbols and of the sites of indexed ones. -/
structure Bindings (V : Type) where
  scalar : String → Option V
  site : String → List Int → Option V

namespace Bindings

variable {V : Type}

/-- No symbol has a value. -/
def empty : Bindings V := ⟨fun _ => none, fun _ _ => none⟩

/-- Binds a scalar symbol. -/
def bind (b : Bindings V) (name : String) (v : V) : Bindings V :=
  { b with scalar := fun x => if x = name then some v else b.scalar x }

/-- Binds one site of an indexed symbol. -/
def bindSite (b : Bindings V) (base : String) (sites : List Int) (v : V) : Bindings V :=
  { b with site := fun x ns => if x = base ∧ ns = sites then some v else b.site x ns }

/-- The value of a scalar symbol. -/
def get (b : Bindings V) (name : String) : Except EvalError V :=
  match b.scalar name with
  | some v => .ok v
  | none => .error (.unboundScalar name)

/-- The value of an indexed symbol at some sites. -/
def getSite (b : Bindings V) (base : String) (sites : List Int) : Except EvalError V :=
  match b.site base sites with
  | some v => .ok v
  | none => .error (.unboundSite base sites)

/-- The site a bound stands for: symbols are rounded to the nearest one. -/
def bound {K : Type} [Literal K] [Arithmetic K V] (b : Bindings V) : Bound → Except EvalError Int
  | .literal n => .ok n
  | .symbol name => do return Literal.site (Arithmetic.real (← b.get name))

end Bindings

/-- Indices with the sites they stand at, the innermost first. -/
abbrev Sites := List (Index × Int)

/-- The site an index stands at. -/
def Sites.get (sites : Sites) (i : Index) : Except EvalError Int :=
  match sites.find? (·.1 == i) with
  | some (_, n) => .ok n
  | none => .error (.unboundIndex i)

/-- Adds up the terms of `count` sites from `site` on, leaving some out. -/
def sumSites {V : Type} (add : V → V → V) (excluded : List Int) (term : Int → Except EvalError V) :
    Nat → Int → V → Except EvalError V
  | 0, _, acc => .ok acc
  | count + 1, site, acc =>
    if site ∈ excluded then sumSites add excluded term count (site + 1) acc
    else
      match term site with
      | .ok v => sumSites add excluded term count (site + 1) (add acc v)
      | .error e => .error e

namespace Func

variable {K V : Type} [Arithmetic K V]

/-- The value of a function; only builtins and the adjoint have one. -/
def apply (f : Func) (v : V) : Except EvalError V :=
  match f with
  | .builtin b => .ok (Arithmetic.apply b v)
  | .adjoint => .ok (Arithmetic.apply .conj v)
  | .named name => .error (.unknownFunction name)

end Func

namespace Expr

variable {K V : Type} [Literal K] [Arithmetic K V]

mutual

/-- The value of an expression, with indices at the given sites. -/
def evaluateAt (b : Bindings V) (sites : Sites) : Expr K → Except EvalError V
  | .number v => .ok (Arithmetic.ofLiteral v)
  | .imaginaryUnit => .ok Arithmetic.imaginaryUnit
  | .symbol name => b.get name
  | .indexed s => do b.getSite s.base (← s.indices.mapM sites.get)
  | .index i => do return Arithmetic.ofLiteral (Literal.ofInt (← sites.get i))
  | .add terms => evaluateSum b sites terms Arithmetic.zero
  | .mul factors => evaluateProduct b sites factors Arithmetic.one
  | .pow base exponent => do
    let x ← evaluateAt b sites base
    let y ← evaluateAt b sites exponent
    return Arithmetic.pow x y
  | .neg inner => do return Arithmetic.neg (← evaluateAt b sites inner)
  | .call func [] => .error (.noArgument func)
  | .call func (arg :: _) => do func.apply (← evaluateAt b sites arg)
  | .sum i away body => do
    let lo ← b.bound i.lower
    let hi ← b.bound i.upper
    let excluded ← away.mapM sites.get
    sumSites Arithmetic.add excluded (fun n => evaluateAt b ((i, n) :: sites) body)
      (hi - lo + 1).toNat lo Arithmetic.zero
  | .distinct i j body => do
    let m ← sites.get i
    let n ← sites.get j
    if m = n then return Arithmetic.zero else evaluateAt b sites body

/-- The sum of some terms and what has been added up before. -/
def evaluateSum (b : Bindings V) (sites : Sites) : List (Expr K) → V → Except EvalError V
  | [], acc => .ok acc
  | e :: rest, acc => do evaluateSum b sites rest (Arithmetic.add acc (← evaluateAt b sites e))

/-- The product of some factors and what has been multiplied before. -/
def evaluateProduct (b : Bindings V) (sites : Sites) : List (Expr K) → V → Except EvalError V
  | [], acc => .ok acc
  | e :: rest, acc => do evaluateProduct b sites rest (Arithmetic.mul acc (← evaluateAt b sites e))

end

/-- The value of an expression. -/
def evaluate (b : Bindings V) (e : Expr K) : Except EvalError V := e.evaluateAt b []

end Expr

end Fluxion
