import Fluxion.Node.Transform

/-!
# Node/Normal — resolving sums, conditions and zeros

Lowered nodes are brought to normal form in four passes:

1. bounded sums become plain sums with exclusions;
2. conditions and exclusions become indicator factors;
3. exclusions that the summand accounts for are dropped;
4. reads of the zero array are zero, and what is zero folds away.

Exclusions can be dropped only once an indicator carries their meaning, so the order matters.
-/

namespace Fluxion.Node

variable {K : Type}

/-- A bounded sum as a sum with exclusions. -/
def nativeSum : Node K → Node K
  | .boundedSum x lo hi es body => .sum x lo hi (es.map (.mk · false)) body
  | n => n

/-- The summand with a factor for each exclusion that it does not account for yet. -/
def absorb (x : String) (es : List (Exclusion K)) (body : Node K) : Node K :=
  es.foldl (fun body e =>
    if e.absorbed then body else .binary .mul (.indicator (.var x) e.value) body) body

/-- A condition as a factor, and the exclusions of a sum as factors of the summand. -/
def absorbGuard : Node K → Node K
  | .guarded l r body => .binary .mul (.indicator l r) body
  | .sum x lo hi es body => .sum x lo hi (es.map (.mk ·.value true)) (absorb x es body)
  | n => n

/-- A sum without the exclusions that its summand accounts for. -/
def stripExclusions : Node K → Node K
  | .sum x lo hi es body => .sum x lo hi (es.filter (!·.absorbed)) body
  | n => n

variable [Literal K]

/-- Functions with `f 0 = 0`. -/
def callPreservesZero (func : String) : Bool :=
  match Builtin.ofName? func with
  | some b => b.preservesZero
  | none => false

/-- An operation of which an operand may be zero. -/
def foldBinary (op : BinaryOp) (a b : Node K) : Node K :=
  match op with
  | .mul => if a.isZero || b.isZero then .const Literal.zero else .binary .mul a b
  | .div => if a.isZero then .const Literal.zero else .binary .div a b
  | .add => if a.isZero then b else if b.isZero then a else .binary .add a b
  | .sub => if b.isZero then a else if a.isZero then .neg b else .binary .sub a b
  | .pow =>
    match b.const? with
    | some e =>
      if a.isZero && Literal.isPositive e then .const Literal.zero else .binary .pow a b
    | none => .binary .pow a b

/-- A node of which a part is zero. -/
def collapseZero : Node K → Node K
  | .access .zero _ => .const Literal.zero
  | .binary op a b => foldBinary op a b
  | .neg a => if a.isZero then .const Literal.zero else .neg a
  | .call func [a] =>
    if callPreservesZero func && a.isZero then .const Literal.zero else .call func [a]
  | .sum x lo hi es body => if body.isZero then .const Literal.zero else .sum x lo hi es body
  | n => n

def nativeSums (n : Node K) : Node K := n.transform nativeSum

def absorbGuards (n : Node K) : Node K := n.transform absorbGuard

def stripAbsorbed (n : Node K) : Node K := n.transform stripExclusions

def collapseZeros (n : Node K) : Node K := n.transform collapseZero

/-- The normal form of a node. -/
def normalize (n : Node K) : Node K := n.nativeSums.absorbGuards.stripAbsorbed.collapseZeros

end Fluxion.Node
