import Fluxion.Json.Codec

/-!
# Index — ranges of sites and the symbols replicated over them

An `Index` ranges over the sites between its bounds.  A bound is a literal or the name of a
parameter, so the number of sites may be known only when a procedure runs.  Two indices are the same
only if label and both bounds agree; `Index.sameRange` forgets the label.
-/

namespace Fluxion

/-- One end of a range: a literal or a symbol that stands for one. -/
inductive Bound where
  | literal (n : Int)
  | symbol (name : String)
  deriving Repr, DecidableEq

/-- A range of sites `lower, …, upper` under a label. -/
structure Index where
  label : String
  lower : Bound
  upper : Bound
  deriving Repr, DecidableEq

/-- A symbol replicated over indices: `n_i`, `J_{i,j}`. -/
structure Indexed where
  base : String
  indices : List Index
  deriving Repr, DecidableEq

namespace Bound

def literal? : Bound → Option Int
  | .literal n => some n
  | .symbol _ => none

def text : Bound → String
  | .literal n => toString n
  | .symbol name => name

def toJson : Bound → Json
  | .literal n => .tagged "literal" (.int n)
  | .symbol name => .tagged "symbol" (.str name)

def ofJson? (j : Json) : Option Bound := do
  let (tag, payload) ← j.variant?
  match tag with
  | "literal" => return .literal (← (← payload).int?)
  | "symbol" => return .symbol (← (← payload).string?)
  | _ => none

end Bound

instance : Codec Bound := ⟨Bound.toJson, fun _ => Bound.ofJson?⟩

namespace Index

/-- Whether both indices range over the same sites. -/
def sameRange (i j : Index) : Bool := i.lower == j.lower && i.upper == j.upper

/-- The number of sites, if both bounds are literals; none for an upper bound below the lower. -/
def size? (i : Index) : Option Nat := do
  let lo ← i.lower.literal?
  let hi ← i.upper.literal?
  return (hi - lo + 1).toNat

def toJson (i : Index) : Json :=
  .obj [("label", .str i.label), ("lower", encode i.lower), ("upper", encode i.upper)]

def ofJson? (m : Medium) (j : Json) : Option Index := do
  match ← j.record? ["label", "lower", "upper"] with
  | [label, lower, upper] => return ⟨← label.string?, ← decode? m lower, ← decode? m upper⟩
  | _ => none

end Index

instance : Codec Index := ⟨Index.toJson, Index.ofJson?⟩

/-- The labels of some indices, separated by commas. -/
def labels (indices : List Index) : String := ",".intercalate (indices.map Index.label)

namespace Indexed

/-- `base_label` for one index, `base_{…}` for any other number of them. -/
def text (s : Indexed) : String :=
  match s.indices with
  | [i] => s.base ++ "_" ++ i.label
  | indices => s.base ++ "_\x7b" ++ labels indices ++ "\x7d"

def toJson (s : Indexed) : Json :=
  .obj [("base", .str s.base), ("indices", .arr (s.indices.map encode))]

def ofJson? (m : Medium) (j : Json) : Option Indexed := do
  match ← j.record? ["base", "indices"] with
  | [base, indices] => return ⟨← base.string?, ← (← indices.list?).mapM (decode? m)⟩
  | _ => none

end Indexed

instance : Codec Indexed := ⟨Indexed.toJson, Indexed.ofJson?⟩

end Fluxion
