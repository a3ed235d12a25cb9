import Fluxion.Node.Basic

/-!
# Node/Codec — nodes as JSON

A variant per constructor; the operations and arrays are variants of their own.
-/

namespace Fluxion

namespace Buffer

def name : Buffer → String
  | .state => "state"
  | .param => "param"
  | .zero => "zero"

def ofJson? (j : Json) : Option Buffer := do
  let (tag, payload) ← j.variant?
  if Json.isUnit payload then [state, param, zero].find? (·.name == tag) else none

end Buffer

instance : Codec Buffer := ⟨fun b => .str b.name, fun _ => Buffer.ofJson?⟩

namespace BinaryOp

def name : BinaryOp → String
  | .add => "add"
  | .sub => "sub"
  | .mul => "mul"
  | .div => "div"
  | .pow => "pow"

def ofName? (name : String) : Option BinaryOp := [add, sub, mul, div, pow].find? (·.name == name)

def ofJson? (j : Json) : Option BinaryOp := do
  let (tag, payload) ← j.variant?
  if Json.isUnit payload then ofName? tag else none

end BinaryOp

instance : Codec BinaryOp := ⟨fun op => .str op.name, fun _ => BinaryOp.ofJson?⟩

namespace Node

variable {K : Type} [Codec K]

mutual

/-- The JSON form of a node. -/
def toJson : Node K → Json
  | .const v => .tagged "const" (encode v)
  | .imaginaryUnit => .str "imaginary_unit"
  | .named name => .tagged "named" (.str name)
  | .time => .str "time"
  | .var name => .tagged "var" (.str name)
  | .access buffer i => .tagged "access" (.obj [("array", encode buffer), ("index", toJson i)])
  | .neg operand => .tagged "unary" (.obj [("op", .str "neg"), ("operand", toJson operand)])
  | .binary op lhs rhs =>
    .tagged "binary" (.obj [("op", encode op), ("lhs", toJson lhs), ("rhs", toJson rhs)])
  | .call func args => .tagged "call" (.obj [("func", .str func), ("args", .arr (toJsonAll args))])
  | .boundedSum x lo hi es body =>
    .tagged "bounded_sum" (.obj [("var", .str x), ("lower", toJson lo), ("upper", toJson hi),
      ("excluded", .arr (toJsonAll es)), ("body", toJson body)])
  | .sum x lo hi es body =>
    .tagged "sum" (.obj [("var", .str x), ("lower", toJson lo), ("upper", toJson hi),
      ("excluded", .arr (toJsonExclusions es)), ("body", toJson body)])
  | .guarded l r body =>
    .tagged "guarded" (.obj [("left", toJson l), ("right", toJson r), ("body", toJson body)])
  | .indicator l r => .tagged "indicator" (.obj [("left", toJson l), ("right", toJson r)])
  | .unresolved name => .tagged "unresolved" (.str name)

/-- The JSON forms of some nodes. -/
def toJsonAll : List (Node K) → List Json
  | [] => []
  | n :: rest => toJson n :: toJsonAll rest

/-- The JSON form of an exclusion. -/
def toJsonExclusion : Exclusion K → Json
  | .mk v absorbed => .obj [("value", toJson v), ("absorbed", .bool absorbed)]

/-- The JSON forms of some exclusions. -/
def toJsonExclusions : List (Exclusion K) → List Json
  | [] => []
  | e :: rest => toJsonExclusion e :: toJsonExclusions rest

end

/-- Whether a value names the only operation on one operand. -/
def isNeg (j : Json) : Bool :=
  match j.variant? with
  | some (tag, payload) => tag == "neg" && Json.isUnit payload
  | none => false

/-- Reads a node of at most `fuel` levels. -/
def ofJsonUpTo (m : Medium) : Nat → Json → Option (Node K)
  | 0, _ => none
  | fuel + 1, j => do
    let (tag, payload) ← j.variant?
    match tag with
    | "imaginary_unit" => if Json.isUnit payload then return .imaginaryUnit else none
    | "time" => if Json.isUnit payload then return .time else none
    | "const" => return .const (← decode? m (← payload))
    | "named" => return .named (← (← payload).string?)
    | "var" => return .var (← (← payload).string?)
    | "unresolved" => return .unresolved (← (← payload).string?)
    | "access" =>
      match ← Json.fields? m ["array", "index"] payload with
      | [buffer, i] => return .access (← decode? m buffer) (← ofJsonUpTo m fuel i)
      | _ => none
    | "unary" =>
      match ← Json.fields? m ["op", "operand"] payload with
      | [op, operand] => if isNeg op then return .neg (← ofJsonUpTo m fuel operand) else none
      | _ => none
    | "binary" =>
      match ← Json.fields? m ["op", "lhs", "rhs"] payload with
      | [op, lhs, rhs] =>
        return .binary (← decode? m op) (← ofJsonUpTo m fuel lhs) (← ofJsonUpTo m fuel rhs)
      | _ => none
    | "call" =>
      match ← Json.fields? m ["func", "args"] payload with
      | [func, args] => return .call (← func.string?) (← (← args.list?).mapM (ofJsonUpTo m fuel))
      | _ => none
    | "bounded_sum" =>
      match ← Json.fields? m ["var", "lower", "upper", "excluded", "body"] payload with
      | [x, lo, hi, es, body] =>
        return .boundedSum (← x.string?) (← ofJsonUpTo m fuel lo) (← ofJsonUpTo m fuel hi)
          (← (← es.list?).mapM (ofJsonUpTo m fuel)) (← ofJsonUpTo m fuel body)
      | _ => none
    | "sum" =>
      match ← Json.fields? m ["var", "lower", "upper", "excluded", "body"] payload with
      | [x, lo, hi, es, body] =>
        let excluded ← (← es.list?).mapM fun e => do
          match ← e.record? ["value", "absorbed"] with
          | [v, absorbed] => return Exclusion.mk (← ofJsonUpTo m fuel v) (← absorbed.bool?)
          | _ => none
        return .sum (← x.string?) (← ofJsonUpTo m fuel lo) (← ofJsonUpTo m fuel hi) excluded
          (← ofJsonUpTo m fuel body)
      | _ => none
    | "guarded" =>
      match ← Json.fields? m ["left", "right", "body"] payload with
      | [l, r, body] =>
        return .guarded (← ofJsonUpTo m fuel l) (← ofJsonUpTo m fuel r) (← ofJsonUpTo m fuel body)
      | _ => none
    | "indicator" =>
      match ← Json.fields? m ["left", "right"] payload with
      | [l, r] => return .indicator (← ofJsonUpTo m fuel l) (← ofJsonUpTo m fuel r)
      | _ => none
    | _ => none

/-- The node a JSON value stands for. -/
def ofJson? (m : Medium) (j : Json) : Option (Node K) := ofJsonUpTo m (j.nesting + 1) j

instance : Codec (Node K) := ⟨toJson, ofJson?⟩

end Node

end Fluxion
