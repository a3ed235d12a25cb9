import Fluxion.Expr.Basic

/-!
# Expr/Codec — expressions as JSON

A variant per constructor.  The reader descends one level of the value for each level of the
expression, so the nesting of the value bounds it.
-/

namespace Fluxion.Expr

variable {K : Type} [Codec K]

mutual

/-- The JSON form of an expression. -/
def toJson : Expr K → Json
  | .number v => .tagged "number" (encode v)
  | .imaginaryUnit => .str "imaginary_unit"
  | .symbol name => .tagged "symbol" (.str name)
  | .indexed s => .tagged "indexed" (encode s)
  | .index i => .tagged "index" (encode i)
  | .add terms => .tagged "add" (.arr (toJsonAll terms))
  | .mul factors => .tagged "mul" (.arr (toJsonAll factors))
  | .pow base exponent => .tagged "pow" (.arr [toJson base, toJson exponent])
  | .neg inner => .tagged "neg" (toJson inner)
  | .call func args => .tagged "call" (.arr [encode func, .arr (toJsonAll args)])
  | .sum i away body =>
    .tagged "sum" (.obj [("index", encode i), ("distinct_from", .arr (away.map encode)),
      ("body", toJson body)])
  | .distinct a b body =>
    .tagged "distinct" (.obj [("a", encode a), ("b", encode b), ("body", toJson body)])

/-- The JSON forms of some expressions. -/
def toJsonAll : List (Expr K) → List Json
  | [] => []
  | e :: rest => toJson e :: toJsonAll rest

end

/-- Reads an expression of at most `fuel` levels. -/
def ofJsonUpTo (m : Medium) : Nat → Json → Option (Expr K)
  | 0, _ => none
  | fuel + 1, j => do
    let (tag, payload) ← j.variant?
    match tag with
    | "imaginary_unit" => if Json.isUnit payload then return .imaginaryUnit else none
    | "number" => return .number (← decode? m (← payload))
    | "symbol" => return .symbol (← (← payload).string?)
    | "indexed" => return .indexed (← decode? m (← payload))
    | "index" => return .index (← decode? m (← payload))
    | "add" => return .add (← (← (← payload).list?).mapM (ofJsonUpTo m fuel))
    | "mul" => return .mul (← (← (← payload).list?).mapM (ofJsonUpTo m fuel))
    | "pow" =>
      match ← (← payload).list? with
      | [base, exponent] => return .pow (← ofJsonUpTo m fuel base) (← ofJsonUpTo m fuel exponent)
      | _ => none
    | "neg" => return .neg (← ofJsonUpTo m fuel (← payload))
    | "call" =>
      match ← (← payload).list? with
      | [func, args] => return .call (← decode? m func) (← (← args.list?).mapM (ofJsonUpTo m fuel))
      | _ => none
    | "sum" =>
      match ← Json.fields? m ["index", "distinct_from", "body"] payload with
      | [i, away, body] =>
        return .sum (← decode? m i) (← (← away.list?).mapM (decode? m)) (← ofJsonUpTo m fuel body)
      | _ => none
    | "distinct" =>
      match ← Json.fields? m ["a", "b", "body"] payload with
      | [a, b, body] => return .distinct (← decode? m a) (← decode? m b) (← ofJsonUpTo m fuel body)
      | _ => none
    | _ => none

/-- The expression a JSON value stands for. -/
def ofJson? (m : Medium) (j : Json) : Option (Expr K) := ofJsonUpTo m (j.nesting + 1) j

instance : Codec (Expr K) := ⟨toJson, ofJson?⟩

end Fluxion.Expr
