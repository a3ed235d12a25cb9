import Fluxion.Procedure.Basic
import Fluxion.Scalar.Floating

/-!
# Procedure/Source — procedures as source text

`Procedure.source` prints a procedure as a function definition over real or complex numbers.  The
same node prints differently as an index, where arithmetic is on integers and values are truncated,
and as a value, where integers are lifted to the number type.  Without bounds checks every access is
unchecked and the body stands in an `unsafe` block.
-/

namespace Fluxion

/-- The number type of the printed source. -/
structure Dialect where
  scalar : String
  complex : Bool
  deriving Repr, DecidableEq

namespace Dialect

def real : Dialect := ⟨"f64", false⟩

def complexNumbers : Dialect := ⟨"Complex64", true⟩

/-- A real expression as a number of the dialect. -/
def lift (d : Dialect) (text : String) : String :=
  if d.complex then "Complex64::new(" ++ text ++ ", 0.0)" else text

def constant (d : Dialect) (v : Floating) : String := d.lift (Format.source.write v.value)

/-- A readable place of the dialect's type as an integer. -/
def placeAsIndex (d : Dialect) (text : String) : String :=
  if d.complex then "(" ++ text ++ ".re as i64)" else "(" ++ text ++ " as i64)"

/-- A value of the dialect's type as an integer. -/
def valueAsIndex (d : Dialect) (text : String) : String :=
  if d.complex then "((" ++ text ++ ").re as i64)" else "((" ++ text ++ ") as i64)"

/-- The call of a function on one argument. -/
def call (d : Dialect) (func x : String) : String :=
  let method (name : String) := "(" ++ x ++ ")." ++ name ++ "()"
  match func with
  | "sin" | "cos" | "exp" | "sqrt" => method func
  | "log" => method "ln"
  | "abs" => if d.complex then d.lift (method "norm") else method "abs"
  | "real" => if d.complex then d.lift ("(" ++ x ++ ").re") else x
  | "imag" => if d.complex then d.lift ("(" ++ x ++ ").im") else "0.0"
  | "conj" => if d.complex then method "conj" else x
  | _ => func ++ "(" ++ x ++ ")"

end Dialect

/-- What the text of a node depends on besides the node. -/
structure SourceStyle where
  dialect : Dialect
  naming : Naming
  checkBounds : Bool

namespace SourceStyle

def bufferName (s : SourceStyle) : Buffer → String
  | .state => s.naming.state
  | .param => s.naming.params
  | .zero => "ZERO"

/-- An element of an array. -/
def element (s : SourceStyle) (array subscript : String) (write : Bool) : String :=
  if s.checkBounds then array ++ "[" ++ subscript ++ "]"
  else "*" ++ array ++ (if write then ".get_unchecked_mut(" else ".get_unchecked(")
    ++ subscript ++ ")"

end SourceStyle

namespace Node

/-- A constant as an integer. -/
def integerText (v : Floating) : String := toString (Literal.toInt v)

/-- What a procedure does at a symbol that nothing resolves. -/
def unresolvedText (name : String) : String := "panic!(\"unresolved symbol '" ++ name ++ "'\")"

/-- A choice between two values by the difference of two indices. -/
def choiceText (l r yes no : String) : String :=
  "(if " ++ l ++ " != " ++ r ++ " \x7b " ++ yes ++ " \x7d else \x7b " ++ no ++ " \x7d)"

/-- A sum over a range, with the values that its variable leaves out. -/
def sumText (s : SourceStyle) (x lo hi : String) (excluded : List String) (body : String) :
    String :=
  "(" ++ lo ++ "..=" ++ hi ++ ")"
    ++ String.join (excluded.map fun e => ".filter(|&" ++ x ++ "| " ++ x ++ " != " ++ e ++ ")")
    ++ ".map(|" ++ x ++ "| " ++ body ++ ").sum::<" ++ s.dialect.scalar ++ ">()"

/-- The subscript that selects an element, given the text of the index itself. -/
def subscript (i : Node Floating) (text : String) : String :=
  match i with
  | .const _ => text
  | _ => "(" ++ text ++ ") as usize"

/-- The text of a value, turned into an index where one is asked for. -/
def position (s : SourceStyle) (asIndex : Bool) (text : String) : String :=
  if asIndex then s.dialect.valueAsIndex text else text

mutual

/-- The text of a node, as an index or as a value. -/
def source (s : SourceStyle) (asIndex : Bool) : Node Floating → String
  | .const v => if asIndex then integerText v else s.dialect.constant v
  | .imaginaryUnit =>
    position s asIndex (if s.dialect.complex then "Complex64::i()"
      else "compile_error!(\"imaginary unit in a real procedure\")")
  | .named name => position s asIndex name
  | .time => position s asIndex (s.dialect.lift s.naming.time)
  | .var name => if asIndex then name else s.dialect.lift ("(" ++ name ++ " as f64)")
  | .access b i =>
    let read := s.element (s.bufferName b) (subscript i (source s true i)) false
    if asIndex then s.dialect.placeAsIndex read
    else if b = .zero then s.dialect.constant Literal.zero
    else read
  | .neg a => if asIndex then "-" ++ source s true a else "-(" ++ source s false a ++ ")"
  | .binary op a b =>
    if op = .pow then
      position s asIndex ("(" ++ source s false a ++ ")." ++
        (if s.dialect.complex then "powc" else "powf") ++ "(" ++ source s false b ++ ")")
    else "(" ++ source s asIndex a ++ " " ++ op.symbol ++ " " ++ source s asIndex b ++ ")"
  | .call func args =>
    position s asIndex (match sources s false args with
      | [x] => s.dialect.call func x
      | xs => func ++ "(" ++ ", ".intercalate xs ++ ")")
  | .boundedSum x lo hi es body =>
    position s asIndex (sumText s x (source s true lo) (source s true hi) (sources s true es)
      (source s false body))
  | .sum x lo hi es body =>
    position s asIndex (sumText s x (source s true lo) (source s true hi) (exclusionSources s es)
      (source s false body))
  | .guarded l r body =>
    position s asIndex (choiceText (source s true l) (source s true r) (source s false body)
      (s.dialect.constant Literal.zero))
  | .indicator l r =>
    position s asIndex (choiceText (source s true l) (source s true r)
      (s.dialect.constant Literal.one) (s.dialect.constant Literal.zero))
  | .unresolved name => unresolvedText name

/-- The texts of some nodes. -/
def sources (s : SourceStyle) (asIndex : Bool) : List (Node Floating) → List String
  | [] => []
  | n :: rest => source s asIndex n :: sources s asIndex rest

/-- The text of an excluded value. -/
def exclusionSource (s : SourceStyle) : Exclusion Floating → String
  | .mk v _ => source s true v

/-- The texts of some excluded values. -/
def exclusionSources (s : SourceStyle) : List (Exclusion Floating) → List String
  | [] => []
  | e :: rest => exclusionSource s e :: exclusionSources s rest

end

end Node

/-- The indentation of a level. -/
def indentation (level : Nat) : String := String.ofList (List.replicate (4 * level) ' ')

namespace Stmt

mutual

/-- The lines of a statement at a level of indentation. -/
def source (s : SourceStyle) (level : Nat) : Stmt Floating → List String
  | .assign slot value =>
    let target := s.element s.naming.derivative (Node.subscript slot (slot.source s true)) true
    [indentation level ++ target ++ " = " ++ value.source s false ++ ";"]
  | .loop x lo hi body =>
    (indentation level ++ "for " ++ x ++ " in " ++ lo.source s true ++ "..=" ++ hi.source s true
      ++ " \x7b") :: sources s (level + 1) body ++ [indentation level ++ "\x7d"]

/-- The lines of some statements. -/
def sources (s : SourceStyle) (level : Nat) : List (Stmt Floating) → List String
  | [] => []
  | t :: rest => source s level t ++ sources s level rest

end

end Stmt

/-- A layout entry as its name, its place and, for a family, its size. -/
def LayoutEntry.source (s : SourceStyle) : LayoutEntry Floating → String
  | .scalar name slot => name ++ "@" ++ toString slot
  | .family name start size => name ++ "@" ++ start.source s true ++ "+" ++ size.source s true

namespace Procedure

/-- The source text of a procedure in a dialect. -/
def source (dialect : Dialect) (p : Procedure Floating) : String :=
  let s : SourceStyle := ⟨dialect, p.naming, p.checkBounds⟩
  let array (name ref : String) := name ++ ": &" ++ ref ++ "[" ++ dialect.scalar ++ "], "
  let head := "fn diffeq(" ++ array p.naming.derivative "mut " ++ array p.naming.state ""
    ++ array p.naming.params "" ++ p.naming.time ++ ": f64) \x7b"
  let layout := "    // states: " ++ ", ".intercalate (p.states.map (LayoutEntry.source s))
  let lines :=
    if p.checkBounds then Stmt.sources s 1 p.body
    else "    unsafe \x7b" :: Stmt.sources s 2 p.body ++ ["    \x7d"]
  "\n".intercalate (head :: layout :: lines ++ ["\x7d", ""])

end Procedure

end Fluxion
