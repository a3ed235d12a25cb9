import Fluxion.Json.Token

/-!
# Json/Parser — reading JSON text

The parser reads the tokens one by one and keeps the unfinished arrays and objects on a stack, so
that it recurses on the tokens alone and nesting costs no depth of its own.  `Json.parse?` accepts
exactly one value, surrounded by blanks.  `Json.parseShallow?` also clips what nests too deep, as
every text that enters from outside is read: deep parts hurt only a reader that descends into them.
-/

namespace Fluxion.Json

/-- An array or object whose end has not been read.  Finished parts are kept in reverse. -/
inductive Frame where
  | array (items : List Json)
  | object (entries : List (Option String × Json)) (key : Option String)

/-- What the parser expects next, inside the frames it has opened. -/
inductive Expect where
  /-- A value. -/
  | value
  /-- The first item of an array, or its end. -/
  | firstItem
  /-- The first key of an object, or its end. -/
  | firstKey
  /-- A key after a comma, inside the entries read so far. -/
  | key (entries : List (Option String × Json))
  /-- The colon after a key. -/
  | colon (entries : List (Option String × Json)) (key : Option String)
  /-- A comma or the end of the innermost frame, after this value. -/
  | after (j : Json)

/-- The value a token is by itself. -/
def atom? : Token → Option Json
  | .null => some .null
  | .bool b => some (.bool b)
  | .num n => some ((n.map .num).getD .unreadable)
  | .str s => some ((s.map .str).getD .unreadable)
  | _ => none

/-- The object of some entries, last entry first.  An object with a key that has no text is
unreadable as a whole. -/
def ofEntries (entries : List (Option String × Json)) : Json :=
  match entries.reverse.mapM fun (key, j) => key.map (·, j) with
  | some entries => .obj entries
  | none => .unreadable

/-- What follows a token where a value may start. -/
def begin? (frames : List Frame) (t : Token) : Option (List Frame × Expect) :=
  match t with
  | .openArray => some (.array [] :: frames, .firstItem)
  | .openObject => some (frames, .firstKey)
  | t => (atom? t).map fun j => (frames, .after j)

/-- What follows a token after a finished value. -/
def continue? (frames : List Frame) (j : Json) (t : Token) : Option (List Frame × Expect) :=
  match frames, t with
  | .array items :: frames, .comma => some (.array (j :: items) :: frames, .value)
  | .array items :: frames, .closeArray => some (frames, .after (.arr (j :: items).reverse))
  | .object entries key :: frames, .comma => some (frames, .key ((key, j) :: entries))
  | .object entries key :: frames, .closeObject =>
    some (frames, .after (ofEntries ((key, j) :: entries)))
  | _, _ => none

/-- One step of the parser. -/
def step? (frames : List Frame) (e : Expect) (t : Token) : Option (List Frame × Expect) :=
  match e, t with
  | .value, t => begin? frames t
  | .firstItem, .closeArray => some (frames.drop 1, .after (.arr []))
  | .firstItem, t => begin? frames t
  | .firstKey, .closeObject => some (frames, .after (.obj []))
  | .firstKey, .str key => some (frames, .colon [] key)
  | .key entries, .str key => some (frames, .colon entries key)
  | .colon entries key, .colon => some (.object entries key :: frames, .value)
  | .after j, t => continue? frames j t
  | _, _ => none

/-- Runs the parser over the remaining tokens. -/
def parseFrom : List Frame → Expect → List Token → Option Json
  | [], .after j, [] => some j
  | _, _, [] => none
  | frames, e, t :: ts =>
    match step? frames e t with
    | some (frames, e) => parseFrom frames e ts
    | none => none

/-- The value a text spells. -/
def parse? (text : String) : Option Json := do parseFrom [] .value (← Token.scan text)

/-- How many levels of a text read from outside can be read. -/
def levelLimit : Nat := 127

/-- The value a text spells, clipped to the levels that can be read. -/
def parseShallow? (text : String) : Option Json := do return (← parse? text).clip levelLimit

end Fluxion.Json
