import Fluxion.Occurrence
import Fluxion.Expr.Basic

/-!
# Expr/Free — what an expression mentions

- `Expr.freeSymbols` — the symbols and indices that are free, by first occurrence;
- `Expr.indices` — every index, bound or free;
- `Expr.hasIndexStructure` — whether any index matters to it.

A sum binds its index in the body.  The indices it keeps away from are looked up outside it, so they
are free unless an enclosing sum binds them.  Symbols in the bounds of an index do not count.
-/

namespace Fluxion

/-- A symbol that can occur free. -/
inductive FreeSymbol where
  | scalar (name : String)
  | index (i : Index)
  | indexed (s : Indexed)
  deriving Repr, DecidableEq

namespace FreeSymbol

/-- Indices and indexed symbols are resolved by their ranges, not by their names. -/
def isIndexLike : FreeSymbol → Bool
  | .scalar _ => false
  | _ => true

def index? : FreeSymbol → Option Index
  | .index i => some i
  | _ => none

def text : FreeSymbol → String
  | .scalar name => name
  | .index i => i.label
  | .indexed s => s.text

def toJson : FreeSymbol → Json
  | .scalar name => .tagged "scalar" (.str name)
  | .index i => .tagged "index" (encode i)
  | .indexed s => .tagged "indexed" (encode s)

def ofJson? (m : Medium) (j : Json) : Option FreeSymbol := do
  let (tag, payload) ← j.variant?
  match tag with
  | "scalar" => return .scalar (← (← payload).string?)
  | "index" => return .index (← decode? m (← payload))
  | "indexed" => return .indexed (← decode? m (← payload))
  | _ => none

end FreeSymbol

instance : Codec FreeSymbol := ⟨FreeSymbol.toJson, FreeSymbol.ofJson?⟩

namespace Expr

variable {K : Type}

/-- The indices among some that no enclosing sum binds. -/
def unbound (bound indices : List Index) : List FreeSymbol :=
  (indices.filter (· ∉ bound)).map .index

mutual

/-- Every free occurrence, from left to right, under the indices bound so far. -/
def occurrences (bound : List Index) : Expr K → List FreeSymbol
  | .number _ | .imaginaryUnit => []
  | .symbol name => [.scalar name]
  | .indexed s => .indexed s :: unbound bound s.indices
  | .index i => unbound bound [i]
  | .add terms => occurrencesAll bound terms
  | .mul factors => occurrencesAll bound factors
  | .call _ args => occurrencesAll bound args
  | .pow base exponent => occurrences bound base ++ occurrences bound exponent
  | .neg inner => occurrences bound inner
  | .sum i away body =>
    unbound bound away ++ occurrences (i :: bound) body
  | .distinct a b body => unbound bound [a, b] ++ occurrences bound body

/-- The free occurrences in a list of expressions. -/
def occurrencesAll (bound : List Index) : List (Expr K) → List FreeSymbol
  | [] => []
  | e :: rest => occurrences bound e ++ occurrencesAll bound rest

end

/-- The free symbols, each once, in the order of their first occurrence. -/
def freeSymbols (e : Expr K) : List FreeSymbol := firsts (e.occurrences [])

mutual

/-- Every mention of an index, from left to right. -/
def mentions : Expr K → List Index
  | .number _ | .imaginaryUnit | .symbol _ => []
  | .indexed s => s.indices
  | .index i => [i]
  | .add terms => mentionsAll terms
  | .mul factors => mentionsAll factors
  | .call _ args => mentionsAll args
  | .pow base exponent => mentions base ++ mentions exponent
  | .neg inner => mentions inner
  | .sum i away body => i :: away ++ mentions body
  | .distinct a b body => a :: b :: mentions body

/-- The mentions of indices in a list of expressions. -/
def mentionsAll : List (Expr K) → List Index
  | [] => []
  | e :: rest => mentions e ++ mentionsAll rest

end

/-- The indices mentioned anywhere, each once, in the order of their first mention. -/
def indices (e : Expr K) : List Index := firsts e.mentions

mutual

/-- Whether an indexed symbol, an index, a sum or a distinctness condition occurs. -/
def hasIndexStructure : Expr K → Bool
  | .indexed _ | .index _ | .sum .. | .distinct .. => true
  | .number _ | .imaginaryUnit | .symbol _ => false
  | .add terms => hasIndexStructureAny terms
  | .mul factors => hasIndexStructureAny factors
  | .call _ args => hasIndexStructureAny args
  | .pow base exponent => hasIndexStructure base || hasIndexStructure exponent
  | .neg inner => hasIndexStructure inner

/-- Whether any expression of a list has index structure. -/
def hasIndexStructureAny : List (Expr K) → Bool
  | [] => false
  | e :: rest => hasIndexStructure e || hasIndexStructureAny rest

end

end Expr

end Fluxion
