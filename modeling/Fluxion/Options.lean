import Fluxion.Procedure.Codec

/-!
# Options — how a procedure is generated

Every option has a default, so a JSON form may leave any of them out.  Unknown options are refused.
-/

namespace Fluxion

/-- Options of code generation. -/
structure Options where
  /-- The name of the state argument. -/
  stateToken : String := "u"
  /-- The name of the parameter argument. -/
  paramToken : String := "p"
  /-- The name of the time argument. -/
  timeToken : String := "t"
  /-- The name of the derivative argument, if it is not `d` before the name of the state. -/
  derivativeToken : Option String := none
  /-- Whether unknown symbols are set to zero instead of refused. -/
  unknownsZero : Bool := false
  /-- Whether array accesses are checked. -/
  checkBounds : Bool := true
  /-- How many rules for relabelled indices may be generated. -/
  maxRelabelRules : Nat := 65536
  deriving Repr, DecidableEq

namespace Options

/-- The names of the arguments. -/
def naming (o : Options) : Naming :=
  ⟨o.derivativeToken.getD ("d" ++ o.stateToken), o.stateToken, o.paramToken, o.timeToken⟩

def toJson (o : Options) : Json :=
  .obj [("state_token", .str o.stateToken), ("param_token", .str o.paramToken),
    ("time_token", .str o.timeToken),
    ("derivative_token", (o.derivativeToken.map Json.str).getD .null),
    ("set_unknowns_zero", .bool o.unknownsZero), ("check_bounds", .bool o.checkBounds),
    ("max_relabel_rules", .int o.maxRelabelRules)]

/-- The keys of the JSON form, in order. -/
def keys : List String :=
  ["state_token", "param_token", "time_token", "derivative_token", "set_unknowns_zero",
    "check_bounds", "max_relabel_rules"]

/-- Sets one option from its JSON form. -/
def set? (o : Options) (key : String) (j : Json) : Option Options :=
  match key with
  | "state_token" => return { o with stateToken := ← j.string? }
  | "param_token" => return { o with paramToken := ← j.string? }
  | "time_token" => return { o with timeToken := ← j.string? }
  | "derivative_token" =>
    match j with
    | .null => return { o with derivativeToken := none }
    | j => return { o with derivativeToken := some (← j.string?) }
  | "set_unknowns_zero" => return { o with unknownsZero := ← j.bool? }
  | "check_bounds" => return { o with checkBounds := ← j.bool? }
  | "max_relabel_rules" => return { o with maxRelabelRules := ← j.nat? }
  | _ => none

/-- Sets options one after the other. -/
def setAll? (o : Options) : List (String × Json) → Option Options
  | [] => some o
  | (key, j) :: rest => (o.set? key j).bind (setAll? · rest)

/-- The options a JSON value stands for: an object without repeated keys, or the array of the first
options in order. -/
def ofJson? : Json → Option Options
  | .obj entries => if (entries.map (·.1)).Nodup then setAll? {} entries else none
  | .arr items => if items.length ≤ keys.length then setAll? {} (keys.zip items) else none
  | _ => none

end Options

instance : Codec Options := ⟨Options.toJson, fun _ => Options.ofJson?⟩

end Fluxion
