import Fluxion.Scalar.Arithmetic

/-!
# Node/Basic — the expressions of a procedure

A `Node` computes either a value or an index; which one is told by its position, since the
subscripts of accesses and the bounds of loops and sums are indices and everything else is a value.

Sums come in two forms.  A `boundedSum` is what an expression lowers to: it skips the sites in its
exclusion list.  A `sum` is a plain range whose exclusions, if there are any left, still have to be
turned into factors of the summand; each remembers whether that was done.
-/

namespace Fluxion

/-- The arrays a procedure reads.  `zero` stands for a symbol that is set to zero and does not
survive to a finished procedure. -/
inductive Buffer where
  | state
  | param
  | zero
  deriving Repr, DecidableEq

/-- The operations on two values. -/
inductive BinaryOp where
  | add
  | sub
  | mul
  | div
  | pow
  deriving Repr, DecidableEq

mutual

/-- An expression of a procedure. -/
inductive Node (K : Type) where
  | const (v : K)
  | imaginaryUnit
  /-- A name that has no meaning yet. -/
  | named (name : String)
  | time
  /-- The variable of a loop or sum. -/
  | var (name : String)
  | access (buffer : Buffer) (index : Node K)
  | neg (operand : Node K)
  | binary (op : BinaryOp) (lhs rhs : Node K)
  | call (func : String) (args : List (Node K))
  /-- The sum over a range, without the sites that equal an excluded value. -/
  | boundedSum (var : String) (lower upper : Node K) (excluded : List (Node K)) (body : Node K)
  /-- The sum over a range, with the exclusions still to be resolved. -/
  | sum (var : String) (lower upper : Node K) (excluded : List (Exclusion K)) (body : Node K)
  /-- `body` where `left` and `right` differ, zero elsewhere. -/
  | guarded (left right body : Node K)
  /-- One where `left` and `right` differ, zero elsewhere. -/
  | indicator (left right : Node K)
  /-- A symbol that nothing resolves; evaluating it fails. -/
  | unresolved (name : String)

/-- A value that a summation variable must not take; `absorbed` once the summand accounts for it. -/
inductive Exclusion (K : Type) where
  | mk (value : Node K) (absorbed : Bool)

end

namespace Exclusion

variable {K : Type}

def value : Exclusion K → Node K
  | .mk value _ => value

def absorbed : Exclusion K → Bool
  | .mk _ absorbed => absorbed

end Exclusion

namespace BinaryOp

def symbol : BinaryOp → String
  | .add => "+"
  | .sub => "-"
  | .mul => "*"
  | .div => "/"
  | .pow => "^"

end BinaryOp

namespace Node

variable {K : Type}

/-- The literal a node is, if it is one. -/
def const? : Node K → Option K
  | .const v => some v
  | _ => none

variable [Literal K]

/-- An integer. -/
def ofInt (n : Int) : Node K := .const (Literal.ofInt n)

/-- Whether the node is a literal zero. -/
def isZero : Node K → Bool
  | .const v => Literal.isZero v
  | _ => false

/-- Whether the node is a literal one. -/
def isOne : Node K → Bool
  | .const v => Literal.isOne v
  | _ => false

/-! ## Index arithmetic

Sums, differences and products of indices fold constants and drop neutral elements. -/

/-- The sum of two indices. -/
def plus (a b : Node K) : Node K :=
  match a.const?, b.const? with
  | some x, some y => .const (Literal.add x y)
  | _, _ => if a.isZero then b else if b.isZero then a else .binary .add a b

/-- The difference of two indices. -/
def minus (a b : Node K) : Node K :=
  match a.const?, b.const? with
  | some x, some y => .const (Literal.sub x y)
  | _, _ => if b.isZero then a else .binary .sub a b

/-- The product of two indices. -/
def times (a b : Node K) : Node K :=
  match a.const?, b.const? with
  | some x, some y => .const (Literal.mul x y)
  | _, _ => if a.isOne then b else if b.isOne then a else .binary .mul a b

mutual

/-- Structural equality, with literals compared as numbers. -/
def beq : Node K → Node K → Bool
  | .const v, .const w => Literal.eq v w
  | .imaginaryUnit, .imaginaryUnit => true
  | .named x, .named y => x == y
  | .time, .time => true
  | .var x, .var y => x == y
  | .access b i, .access c j => b == c && beq i j
  | .neg a, .neg b => beq a b
  | .binary o a b, .binary p c d => o == p && beq a c && beq b d
  | .call f xs, .call g ys => f == g && beqAll xs ys
  | .boundedSum x l u es a, .boundedSum y m v fs b =>
    x == y && beq l m && beq u v && beqAll es fs && beq a b
  | .sum x l u es a, .sum y m v fs b =>
    x == y && beq l m && beq u v && beqExclusions es fs && beq a b
  | .guarded l r a, .guarded m s b => beq l m && beq r s && beq a b
  | .indicator l r, .indicator m s => beq l m && beq r s
  | .unresolved x, .unresolved y => x == y
  | _, _ => false

/-- Structural equality of lists of nodes. -/
def beqAll : List (Node K) → List (Node K) → Bool
  | [], [] => true
  | x :: xs, y :: ys => beq x y && beqAll xs ys
  | _, _ => false

/-- Structural equality of exclusions. -/
def beqExclusion : Exclusion K → Exclusion K → Bool
  | .mk v a, .mk w b => beq v w && a == b

/-- Structural equality of lists of exclusions. -/
def beqExclusions : List (Exclusion K) → List (Exclusion K) → Bool
  | [], [] => true
  | x :: xs, y :: ys => beqExclusion x y && beqExclusions xs ys
  | _, _ => false

end

instance : BEq (Node K) := ⟨beq⟩

end Node

end Fluxion
