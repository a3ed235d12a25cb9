import Fluxion.Json.Basic

/-!
# Json/Printer — writing JSON text

Two layouts: `Json.compact` without blanks, and `Json.pretty` with one entry a line, two spaces a
level and `[]`, `{}` for what is empty.  Strings escape quotes, backslashes and control characters
only.  What is unreadable is written `null`.
-/

namespace Fluxion.Json

/-- The digit of a number below sixteen, in lower case. -/
def hexDigit (n : Nat) : Char := (Nat.toDigits 16 n).headD '0'

/-- A character inside a string. -/
def escapeChar (c : Char) : List Char :=
  match c with
  | '"' => ['\\', '"']
  | '\\' => ['\\', '\\']
  | '\n' => ['\\', 'n']
  | '\t' => ['\\', 't']
  | '\r' => ['\\', 'r']
  | '\x08' => ['\\', 'b']
  | '\x0c' => ['\\', 'f']
  | c =>
    if c.toNat < 0x20 then ['\\', 'u', '0', '0', hexDigit (c.toNat / 16), hexDigit (c.toNat % 16)]
    else [c]

/-- A string with its quotes. -/
def quote (s : String) : String :=
  "\"" ++ String.ofList (s.toList.flatMap escapeChar) ++ "\""

mutual

/-- The value on one line, without blanks. -/
def compact : Json → String
  | .null | .unreadable => "null"
  | .bool b => if b then "true" else "false"
  | .num n => n.text
  | .str s => quote s
  | .arr items => "[" ++ ",".intercalate (compactItems items) ++ "]"
  | .obj entries => "\x7b" ++ ",".intercalate (compactEntries entries) ++ "\x7d"

/-- The items of an array, each by itself. -/
def compactItems : List Json → List String
  | [] => []
  | j :: rest => compact j :: compactItems rest

/-- The entries of an object, each by itself. -/
def compactEntries : List (String × Json) → List String
  | [] => []
  | e :: rest => compactEntry e :: compactEntries rest

/-- A key and its value. -/
def compactEntry : String × Json → String
  | (k, j) => quote k ++ ":" ++ compact j

end

/-- A line break and the indentation of a level. -/
def newline (level : Nat) : String := "\n" ++ String.ofList (List.replicate (2 * level) ' ')

/-- Lines of one level between brackets. -/
def block (level : Nat) (left right : String) (lines : List String) : String :=
  if lines.isEmpty then left ++ right
  else left ++ newline (level + 1) ++ ("," ++ newline (level + 1)).intercalate lines
    ++ newline level ++ right

mutual

/-- The value with one entry a line, at a level of indentation. -/
def prettyAt (level : Nat) : Json → String
  | .arr items => block level "[" "]" (prettyItems (level + 1) items)
  | .obj entries => block level "\x7b" "\x7d" (prettyEntries (level + 1) entries)
  | .null | .unreadable => "null"
  | .bool b => if b then "true" else "false"
  | .num n => n.text
  | .str s => quote s

/-- The items of an array, each by itself. -/
def prettyItems (level : Nat) : List Json → List String
  | [] => []
  | j :: rest => prettyAt level j :: prettyItems level rest

/-- The entries of an object, each by itself. -/
def prettyEntries (level : Nat) : List (String × Json) → List String
  | [] => []
  | e :: rest => prettyEntry level e :: prettyEntries level rest

/-- A key and its value. -/
def prettyEntry (level : Nat) : String × Json → String
  | (k, j) => quote k ++ ": " ++ prettyAt level j

end

/-- The value over several lines. -/
def pretty (j : Json) : String := prettyAt 0 j

end Fluxion.Json
