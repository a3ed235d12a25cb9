import Fluxion.Layout.States

/-!
# Layout/Relabel — families under other indices

A family is declared over its own indices, but a right-hand side may refer to it through any indices
of the same ranges.  `RuleSet.build` lists every such relabelling with the place it reads from;
`RuleSet.resolve` looks an occurrence up.  The number of rules is limited, and counted before any
rule is made.
-/

namespace Fluxion

variable {K : Type}

/-- How the place of a family member follows from its sites. -/
structure AccessRule (K : Type) where
  buffer : Buffer
  start : Node K
  /-- The lower bound and the stride of each dimension. -/
  dims : List (Node K × Node K)

/-- A family with its declared indices. -/
structure FamilyDecl (K : Type) where
  base : String
  indices : List Index
  rule : AccessRule K

/-- The relabellings of all families, and the names of the families. -/
structure RuleSet (K : Type) where
  rules : List ((String × List Index) × AccessRule K)
  families : List String

/-- What an indexed occurrence refers to. -/
inductive Relabel (K : Type) where
  | access (rule : AccessRule K)
  /-- The family exists, but not over these indices. -/
  | incompatible
  | unknown

/-- The largest count that is kept apart from larger ones. -/
def countLimit : Nat := 0xFFFFFFFFFFFFFFFF

/-- Every index of a system and of its parameter families, by first occurrence. -/
def declaredIndices (s : EquationSystem K) (params : ParamLayout) : List Index :=
  firsts (s.equations.flatMap (fun e => (e.lhs.toExpr : Expr K).indices ++ e.rhs.indices)
    ++ params.families.flatMap (·.indices))

/-- The declared indices that can take the place of another one. -/
def candidates (declared : List Index) (own : Index) : List Index :=
  declared.filter (·.sameRange own)

/-- Every choice of one entry from each list. -/
def tuples {α : Type} : List (List α) → List (List α)
  | [] => [[]]
  | choices :: rest =>
    let tails := tuples rest
    choices.flatMap fun a => tails.map (a :: ·)

namespace AccessRule

variable [Literal K]

/-- The access to the member at some sites. -/
def location (r : AccessRule K) (sites : List (Node K)) : Node K :=
  .access r.buffer ((r.dims.zip sites).foldl
    (fun place ((lower, stride), site) => place.plus ((site.minus lower).times stride)) r.start)

end AccessRule

namespace FamilyDecl

variable [Literal K]

def ofState (params : ParamLayout) (f : StateFamily K) : FamilyDecl K :=
  ⟨f.base, [f.index], ⟨.state, f.start, [(params.boundNode f.index.lower, .ofInt 1)]⟩⟩

def ofParam (f : ParamFamily) : FamilyDecl K :=
  ⟨f.base, f.indices, ⟨.param, .ofInt f.start,
    (f.dims.zip f.strides).map fun ((lower, _), stride) => (.ofInt lower, .ofInt stride)⟩⟩

end FamilyDecl

namespace FamilyDecl

/-- The relabellings of a family, as index tuples. -/
def labellings (declared : List Index) (d : FamilyDecl K) : List (List Index) :=
  tuples (d.indices.map (candidates declared))

/-- How many relabellings a family has. -/
def count (declared : List Index) (d : FamilyDecl K) : Nat :=
  (d.indices.map fun i => (candidates declared i).length).foldr (· * ·) 1

end FamilyDecl

namespace RuleSet

def empty : RuleSet K := ⟨[], []⟩

/-- How many rules some families need, as far as counts are kept apart. -/
def required (declared : List Index) (decls : List (FamilyDecl K)) : Nat :=
  min ((decls.map (FamilyDecl.count declared)).foldr (· + ·) 0) countLimit

/-- The rules of some families. -/
def ofDecls (declared : List Index) (decls : List (FamilyDecl K)) : RuleSet K :=
  ⟨decls.flatMap fun d => (d.labellings declared).map fun t => ((d.base, t), d.rule),
    decls.map (·.base)⟩

/-- What an occurrence refers to; of several rules for it the last one counts. -/
def resolve (r : RuleSet K) (s : Indexed) : Relabel K :=
  match r.rules.reverse.find? (·.1 == (s.base, s.indices)) with
  | some (_, rule) => .access rule
  | none => if s.base ∈ r.families then .incompatible else .unknown

variable [Literal K]

/-- The families of states and parameters. -/
def declarations (states : StateLayout K) (params : ParamLayout) : List (FamilyDecl K) :=
  states.families.map (FamilyDecl.ofState params) ++ params.families.map FamilyDecl.ofParam

/-- The rules of all families, unless there are too many. -/
def build (states : StateLayout K) (params : ParamLayout) (declared : List Index) (limit : Nat) :
    Except (Error K) (RuleSet K) :=
  let decls := declarations states params
  let n := required declared decls
  if limit < n then .error (.relabelLimit n limit) else .ok (ofDecls declared decls)

end RuleSet

end Fluxion
