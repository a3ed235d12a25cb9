import Fluxion.Error
import Fluxion.Procedure.Basic

/-!
# Layout/Params — where parameters live

Parameters occupy the parameter array in the order of their declaration: a scalar takes one slot, a
family the product of its dimensions, row by row.  The dimensions of a family are literal, so that
every place is known when a procedure is generated.  Sizes and slots are natural numbers, and do not
overflow.

Bounds of loops and sums are read through the layout: a symbolic bound is the parameter of that
name.
-/

namespace Fluxion

/-- A parameter family with the slots it takes. -/
structure ParamFamily where
  base : String
  indices : List Index
  start : Nat
  /-- The lower bound and the size of each dimension. -/
  dims : List (Int × Nat)
  deriving Repr, DecidableEq

namespace ParamFamily

/-- The number of slots. -/
def size (f : ParamFamily) : Nat := (f.dims.map (·.2)).foldr (· * ·) 1

/-- The stride of each dimension: the product of the sizes behind it. -/
def stridesOf : List Nat → List Nat
  | [] => []
  | _ :: rest => rest.foldr (· * ·) 1 :: stridesOf rest

/-- The strides of the family, row by row. -/
def strides (f : ParamFamily) : List Nat := stridesOf (f.dims.map (·.2))

end ParamFamily

/-- The places of all parameters. -/
structure ParamLayout where
  scalars : List (String × Nat)
  families : List ParamFamily
  /-- The number of slots taken. -/
  size : Nat
  deriving Repr, DecidableEq

namespace ParamLayout

variable {K : Type}

def empty : ParamLayout := ⟨[], [], 0⟩

/-- Whether a parameter of this name is declared. -/
def declares (l : ParamLayout) (name : String) : Bool :=
  l.scalars.any (·.1 == name) || l.families.any (·.base == name)

/-- The dimension of an index with literal bounds. -/
def dim? (i : Index) : Option (Int × Nat) := do return (← i.lower.literal?, ← i.size?)

/-- The dimensions of a family, unless a bound is symbolic. -/
def dims (s : Indexed) : Except (Error K) (List (Int × Nat)) :=
  s.indices.mapM fun i =>
    match dim? i with
    | some d => .ok d
    | none => .error (.invalidParameter (.symbolicBounds s i))

/-- Places one more parameter behind the others. -/
def declare (l : ParamLayout) (param : Expr K) : Except (Error K) ParamLayout :=
  match param with
  | .symbol name =>
    if l.declares name then .error (.invalidParameter (.declaredTwice name))
    else .ok { l with scalars := l.scalars ++ [(name, l.size)], size := l.size + 1 }
  | .indexed s =>
    if l.declares s.base then .error (.invalidParameter (.declaredTwice s.base))
    else do
      let family : ParamFamily := ⟨s.base, s.indices, l.size, ← dims s⟩
      return { l with families := l.families ++ [family], size := l.size + family.size }
  | e => .error (.invalidParameter (.notSymbol e))

/-- The layout of a list of parameters. -/
def ofParams (params : List (Expr K)) : Except (Error K) ParamLayout := params.foldlM declare empty

/-- The slot of a scalar parameter. -/
def slot? (l : ParamLayout) (name : String) : Option Nat := l.scalars.lookup name

variable [Literal K]

/-- An element of the parameter array. -/
def accessAt (n : Nat) : Node K := .access .param (.ofInt n)

/-- A bound as an index: symbols are parameters, and what is no parameter stays unresolved. -/
def boundNode (l : ParamLayout) : Bound → Node K
  | .literal n => .ofInt n
  | .symbol name =>
    match l.slot? name with
    | some n => accessAt n
    | none => .unresolved name

/-- The number of sites of an index, as far as it is known. -/
def rangeSize (l : ParamLayout) (i : Index) : Node K :=
  let lower := l.boundNode i.lower
  let upper := l.boundNode i.upper
  match lower.const? with
  | some v => upper.plus (.const (Literal.sub Literal.one v))
  | none => (upper.minus lower).plus (.ofInt 1)

/-- Inserts an entry before the first one with a higher place. -/
def insertByPlace {α : Type} (x : Nat × α) : List (Nat × α) → List (Nat × α)
  | [] => [x]
  | y :: rest => if x.1 ≤ y.1 then x :: y :: rest else y :: insertByPlace x rest

/-- Entries by their places, those of one place in their old order. -/
def sortByPlace {α : Type} (entries : List (Nat × α)) : List (Nat × α) :=
  entries.foldr insertByPlace []

/-- The layout as it is reported: by place, scalars before families. -/
def entries (l : ParamLayout) : List (LayoutEntry K) :=
  let scalars := l.scalars.map fun (name, n) => (n, LayoutEntry.scalar name n)
  let families := l.families.map fun f =>
    (f.start, LayoutEntry.family f.base (.ofInt f.start) (.ofInt f.size))
  (sortByPlace (scalars ++ families)).map (·.2)

end ParamLayout

end Fluxion
