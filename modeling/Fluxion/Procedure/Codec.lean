import Fluxion.Procedure.Basic

/-!
# Procedure/Codec — procedures as JSON

Statements and layout entries are variants, names and procedures are records.
-/

namespace Fluxion

namespace Naming

def toJson (n : Naming) : Json :=
  .obj [("derivative", .str n.derivative), ("state", .str n.state), ("params", .str n.params),
    ("time", .str n.time)]

def ofJson? (j : Json) : Option Naming := do
  match ← j.record? ["derivative", "state", "params", "time"] with
  | [d, s, p, t] => return ⟨← d.string?, ← s.string?, ← p.string?, ← t.string?⟩
  | _ => none

end Naming

instance : Codec Naming := ⟨Naming.toJson, fun _ => Naming.ofJson?⟩

variable {K : Type} [Codec K]

namespace LayoutEntry

def toJson : LayoutEntry K → Json
  | .scalar name slot => .tagged "scalar" (.obj [("name", .str name), ("slot", .int slot)])
  | .family name start size =>
    .tagged "family" (.obj [("name", .str name), ("start", encode start), ("len", encode size)])

def ofJson? (m : Medium) (j : Json) : Option (LayoutEntry K) := do
  let (tag, payload) ← j.variant?
  match tag with
  | "scalar" =>
    match ← Json.fields? m ["name", "slot"] payload with
    | [name, slot] => return .scalar (← name.string?) (← slot.nat?)
    | _ => none
  | "family" =>
    match ← Json.fields? m ["name", "start", "len"] payload with
    | [name, start, size] => return .family (← name.string?) (← decode? m start) (← decode? m size)
    | _ => none
  | _ => none

end LayoutEntry

instance : Codec (LayoutEntry K) := ⟨LayoutEntry.toJson, LayoutEntry.ofJson?⟩

namespace Stmt

mutual

/-- The JSON form of a statement. -/
def toJson : Stmt K → Json
  | .assign slot value => .tagged "assign" (.obj [("slot", encode slot), ("value", encode value)])
  | .loop x lo hi body =>
    .tagged "loop" (.obj [("var", .str x), ("lower", encode lo), ("upper", encode hi),
      ("body", .arr (toJsonAll body))])

/-- The JSON forms of some statements. -/
def toJsonAll : List (Stmt K) → List Json
  | [] => []
  | s :: rest => toJson s :: toJsonAll rest

end

/-- Reads a statement with at most `fuel` levels of loops. -/
def ofJsonUpTo (m : Medium) : Nat → Json → Option (Stmt K)
  | 0, _ => none
  | fuel + 1, j => do
    let (tag, payload) ← j.variant?
    match tag with
    | "assign" =>
      match ← Json.fields? m ["slot", "value"] payload with
      | [slot, value] => return .assign (← decode? m slot) (← decode? m value)
      | _ => none
    | "loop" =>
      match ← Json.fields? m ["var", "lower", "upper", "body"] payload with
      | [x, lo, hi, body] =>
        return .loop (← x.string?) (← decode? m lo) (← decode? m hi)
          (← (← body.list?).mapM (ofJsonUpTo m fuel))
      | _ => none
    | _ => none

/-- The statement a JSON value stands for. -/
def ofJson? (m : Medium) (j : Json) : Option (Stmt K) := ofJsonUpTo m (j.nesting + 1) j

end Stmt

instance : Codec (Stmt K) := ⟨Stmt.toJson, Stmt.ofJson?⟩

namespace Procedure

def toJson (p : Procedure K) : Json :=
  .obj [("naming", encode p.naming), ("states", .arr (p.states.map encode)),
    ("params", .arr (p.params.map encode)), ("body", .arr (p.body.map encode)),
    ("check_bounds", .bool p.checkBounds)]

def ofJson? (m : Medium) (j : Json) : Option (Procedure K) := do
  match ← j.record? ["naming", "states", "params", "body", "check_bounds"] with
  | [naming, states, params, body, checkBounds] =>
    return ⟨← decode? m naming, ← (← states.list?).mapM (decode? m),
      ← (← params.list?).mapM (decode? m), ← (← body.list?).mapM (decode? m),
      ← checkBounds.bool?⟩
  | _ => none

end Procedure

instance : Codec (Procedure K) := ⟨Procedure.toJson, Procedure.ofJson?⟩

end Fluxion
