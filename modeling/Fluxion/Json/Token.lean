import Fluxion.Json.Basic

/-!
# Json/Token — the tokens of a JSON text

The lexer is an automaton that reads one character at a time.  Its modes are the blank between
tokens and the partial tokens: a number, a word, a string and the escapes inside one.  `Token.scan`
runs it over the text, so it needs no bound beyond the text itself.

A string is read as a list of code units, since an escape may spell half of a surrogate pair.
Whether the halves meet is decided when the string is complete.
-/

namespace Fluxion

/-- A token of JSON text. -/
inductive Token where
  | openArray
  | closeArray
  | openObject
  | closeObject
  | comma
  | colon
  | null
  | bool (b : Bool)
  /-- A number, none if it overflows. -/
  | num (n : Option Number)
  /-- A string, none if it has half of a surrogate pair. -/
  | str (s : Option String)

namespace Token

/-- What the lexer is in the middle of.  Characters read so far are kept in reverse. -/
inductive Mode where
  | blank
  | number (read : List Char)
  | word (read : List Char)
  | text (read : List Nat)
  /-- After a backslash. -/
  | escape (read : List Nat)
  /-- Inside `\u`, with the number of digits still to come. -/
  | unicode (read : List Nat) (left : Nat) (value : Nat)

/-- The value of a hexadecimal digit. -/
def hexValue? (c : Char) : Option Nat :=
  if c.isDigit then some (c.toNat - '0'.toNat)
  else if 'a' ≤ c && c ≤ 'f' then some (c.toNat - 'a'.toNat + 10)
  else if 'A' ≤ c && c ≤ 'F' then some (c.toNat - 'A'.toNat + 10)
  else none

/-- The number a list of digits spells. -/
def digitsValue (ds : List Char) : Nat :=
  ds.foldl (fun n c => 10 * n + Decimal.digitValue c) 0

/-- Reads the exponent part of a number, if the text goes on with one; it must end there. -/
def exponent? : List Char → Option (Option Int)
  | [] => some none
  | e :: rest =>
    if e = 'e' || e = 'E' then
      let (negative, ds) : Bool × List Char := match rest with
        | '-' :: ds => (true, ds)
        | '+' :: ds => (false, ds)
        | ds => (false, ds)
      if ds.isEmpty || !ds.all Char.isDigit then none
      else some (some (if negative then -(digitsValue ds : Int) else digitsValue ds))
    else none

/-- Reads a number without its sign: no leading zero, digits on both sides of a point. -/
def unsigned? (negative : Bool) (cs : List Char) : Option (Option Number) :=
  let whole := cs.takeWhile Char.isDigit
  let rest := cs.dropWhile Char.isDigit
  if whole.isEmpty || (whole.head? == some '0' && 1 < whole.length) then none
  else match rest with
    | [] => some (Number.ofLiteral? negative true (Decimal.ofDigits whole [] 0))
    | '.' :: after =>
      let fraction := after.takeWhile Char.isDigit
      if fraction.isEmpty then none
      else (exponent? (after.dropWhile Char.isDigit)).map fun x =>
        Number.ofLiteral? negative false (Decimal.ofDigits whole fraction (x.getD 0))
    | rest => (exponent? rest).map fun x =>
        Number.ofLiteral? negative false (Decimal.ofDigits whole [] (x.getD 0))

/-- Reads a number literal; the number itself may overflow. -/
def number? : List Char → Option (Option Number)
  | '-' :: cs => unsigned? true cs
  | cs => unsigned? false cs

/-- Reads one of the three words. -/
def word? (cs : List Char) : Option Token :=
  if cs = ['n', 'u', 'l', 'l'] then some .null
  else if cs = ['t', 'r', 'u', 'e'] then some (.bool true)
  else if cs = ['f', 'a', 'l', 's', 'e'] then some (.bool false)
  else none

/-- Characters a number literal consists of. -/
def inNumber (c : Char) : Bool :=
  c.isDigit || c == '-' || c == '+' || c == '.' || c == 'e' || c == 'E'

/-- A step outside every token. -/
def stepBlank (c : Char) : Option (Mode × List Token) :=
  match c with
  | ' ' | '\n' | '\t' | '\r' => some (.blank, [])
  | '[' => some (.blank, [.openArray])
  | ']' => some (.blank, [.closeArray])
  | '\x7b' => some (.blank, [.openObject])
  | '\x7d' => some (.blank, [.closeObject])
  | ',' => some (.blank, [.comma])
  | ':' => some (.blank, [.colon])
  | '"' => some (.text [], [])
  | c =>
    if c.isDigit || c == '-' then some (.number [c], [])
    else if c.isLower then some (.word [c], [])
    else none

/-- The character a one-letter escape stands for. -/
def escaped? : Char → Option Char
  | '"' => some '"'
  | '\\' => some '\\'
  | '/' => some '/'
  | 'b' => some '\x08'
  | 'f' => some '\x0c'
  | 'n' => some '\n'
  | 'r' => some '\r'
  | 't' => some '\t'
  | _ => none

/-- Whether a code unit is the first half of a surrogate pair. -/
def isHigh (u : Nat) : Bool := 0xD800 ≤ u && u < 0xDC00

/-- Whether a code unit is the second half of a surrogate pair. -/
def isLow (u : Nat) : Bool := 0xDC00 ≤ u && u < 0xE000

/-- The character of a surrogate pair. -/
def paired (high low : Nat) : Char :=
  Char.ofNat (0x10000 + (high - 0xD800) * 0x400 + (low - 0xDC00))

/-- Puts the characters of some code units, last unit first, in front of others, unless half of a
pair stands alone. -/
def charsOnto : List Char → List Nat → Option (List Char)
  | out, [] => some out
  | out, [u] => if isHigh u || isLow u then none else some (Char.ofNat u :: out)
  | out, u :: v :: rest =>
    if isLow u && isHigh v then charsOnto (paired v u :: out) rest
    else if isHigh u || isLow u then none
    else charsOnto (Char.ofNat u :: out) (v :: rest)

/-- The string of some code units, last unit first. -/
def string? (read : List Nat) : Option String := (charsOnto [] read).map String.ofList

/-- One step of the lexer: the next mode, and the tokens that the character completes. -/
def step (mode : Mode) (c : Char) : Option (Mode × List Token) :=
  match mode with
  | .blank => stepBlank c
  | .number read =>
    if inNumber c then some (.number (c :: read), [])
    else do
      let n ← number? read.reverse
      let (mode, out) ← stepBlank c
      some (mode, .num n :: out)
  | .word read =>
    if c.isLower then some (.word (c :: read), [])
    else do
      let t ← word? read.reverse
      let (mode, out) ← stepBlank c
      some (mode, t :: out)
  | .text read =>
    if c = '"' then some (.blank, [.str (string? read)])
    else if c = '\\' then some (.escape read, [])
    else if c.toNat < 0x20 then none
    else some (.text (c.toNat :: read), [])
  | .escape read =>
    if c = 'u' then some (.unicode read 4 0, [])
    else (escaped? c).map fun e => (.text (e.toNat :: read), [])
  | .unicode read left value => do
    let digit ← hexValue? c
    let value := value * 16 + digit
    if left ≤ 1 then some (.text (value :: read), [])
    else some (.unicode read (left - 1) value, [])

/-- The tokens that the end of the text completes. -/
def finish : Mode → Option (List Token)
  | .blank => some []
  | .number read => (number? read.reverse).map fun n => [.num n]
  | .word read => (word? read.reverse).map fun t => [t]
  | _ => none

/-- Runs the lexer from a mode; completed tokens are kept in reverse. -/
def scanFrom : Mode → List Token → List Char → Option (List Token)
  | mode, out, [] => (finish mode).map fun last => (last.reverse ++ out).reverse
  | mode, out, c :: cs =>
    match step mode c with
    | some (mode, new) => scanFrom mode (new.reverse ++ out) cs
    | none => none

/-- The tokens of a text, if it consists of tokens and blanks. -/
def scan (text : String) : Option (List Token) := scanFrom .blank [] text.toList

end Token

end Fluxion
