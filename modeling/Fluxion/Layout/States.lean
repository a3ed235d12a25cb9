import Fluxion.Layout.Params

/-!
# Layout/States — where states live

Scalar states come first, in the order of their equations; behind them each indexed family takes one
slot a site.  All families share one range, so that a single loop serves them; `split` checks this
and separates the two kinds of equations.

`scalarNodes` says what each scalar symbol of a right-hand side stands for.
-/

namespace Fluxion

variable {K : Type}

/-- The equations of a system by kind, families with their index. -/
structure Split (K : Type) where
  scalars : List (Equation K)
  families : List (Equation K × Index)

namespace Split

/-- The index an equation ranges over, none for a scalar one.  An equation has at most one index,
and no index is free that it does not range over. -/
def ownIndex (e : Equation K) : Except (Error K) (Option Index) :=
  let stray := e.free.find? (· ∉ e.lhs.indices)
  match e.lhs.indices, stray with
  | [], none => .ok none
  | [], some stray => .error (.inconsistentIndex e.lhs (.strayOnScalar stray))
  | [i], none => .ok (some i)
  | [i], some stray => .error (.inconsistentIndex e.lhs (.strayBeside stray i))
  | _, _ => .error (.unsupportedDepth e.lhs e.free.length)

/-- Adds an equation, which must share the range of the families before it. -/
def add (s : Split K) (e : Equation K) : Except (Error K) (Split K) := do
  match ← ownIndex e with
  | none => return { s with scalars := s.scalars ++ [e] }
  | some i =>
    match s.families with
    | (_, first) :: _ =>
      if first.sameRange i then return { s with families := s.families ++ [(e, i)] }
      else .error (.inconsistentIndex e.lhs (.rangeDiffers i first))
    | [] => return { s with families := [(e, i)] }

/-- Separates the equations of a system, each kind in its order. -/
def ofSystem (s : EquationSystem K) : Except (Error K) (Split K) := s.equations.foldlM add ⟨[], []⟩

end Split

/-- A family of states over one index. -/
structure StateFamily (K : Type) where
  base : String
  index : Index
  start : Node K
  size : Node K

/-- The places of all states. -/
structure StateLayout (K : Type) where
  scalars : List (String × Nat)
  families : List (StateFamily K)

namespace StateFamily

variable [Literal K]

/-- The slot of a site. -/
def slot (f : StateFamily K) (params : ParamLayout) (site : Node K) : Node K :=
  f.start.plus (site.minus (params.boundNode f.index.lower))

end StateFamily

namespace StateLayout

/-- Names with their positions in a list. -/
def numbered (names : List String) : List (String × Nat) := names.zipIdx

/-- The layout of scalar states alone. -/
def ofScalars (names : List String) : StateLayout K := ⟨numbered names, []⟩

variable [Literal K]

/-- Families one behind the other, from a place on. -/
def placeFamilies (params : ParamLayout) : Node K → List (Equation K × Index) → List (StateFamily K)
  | _, [] => []
  | start, (e, i) :: rest =>
    let size := params.rangeSize i
    ⟨e.lhs.state, i, start, size⟩ :: placeFamilies params (start.plus size) rest

/-- The layout of a system: scalars, then families. -/
def ofSplit (s : Split K) (params : ParamLayout) : StateLayout K :=
  ⟨numbered (s.scalars.map (·.lhs.state)),
    placeFamilies params (.ofInt s.scalars.length) s.families⟩

/-- The layout as it is reported. -/
def entries (l : StateLayout K) : List (LayoutEntry K) :=
  l.scalars.map (fun (name, n) => .scalar name n) ++
    l.families.map fun f => .family f.base f.start f.size

/-- Whether a state of this name exists. -/
def declares (l : StateLayout K) (name : String) : Bool :=
  l.scalars.any (·.1 == name) || l.families.any (·.base == name)

end StateLayout

variable [Literal K]

/-- What scalar symbols stand for, the first entry of a name counting: time, then parameters, then
states.  No parameter may have the name of a state. -/
def scalarNodes (states : StateLayout K) (params : ParamLayout) (time : Option String) :
    Except (Error K) (List (String × Node K)) :=
  match params.scalars.find? (states.declares ·.1) with
  | some (name, _) => .error (.invalidParameter (.shadowsState name))
  | none => .ok <|
    time.toList.map (·, .time)
      ++ params.scalars.map (fun (name, n) => (name, ParamLayout.accessAt n))
      ++ states.scalars.map (fun (name, n) => (name, .access .state (.ofInt n)))

end Fluxion
