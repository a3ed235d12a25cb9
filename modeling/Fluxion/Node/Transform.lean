import Fluxion.Node.Basic

/-!
# Node/Transform — rebuilding and walking a node

`Node.transform f` rebuilds a node from its leaves, applying `f` to every node after its children;
`Node.rebuilt f` lists what `f` is applied to on the way.  `Node.subnodes` lists the node and all
nodes inside it, parents first and children in order.
-/

namespace Fluxion.Node

variable {K : Type}

mutual

/-- Applies `f` to every node, after its children. -/
def transform (f : Node K → Node K) : Node K → Node K
  | .access b i => f (.access b (transform f i))
  | .neg a => f (.neg (transform f a))
  | .binary op a b => f (.binary op (transform f a) (transform f b))
  | .call func args => f (.call func (transformAll f args))
  | .boundedSum x lo hi es body =>
    f (.boundedSum x (transform f lo) (transform f hi) (transformAll f es) (transform f body))
  | .sum x lo hi es body =>
    f (.sum x (transform f lo) (transform f hi) (transformExclusions f es) (transform f body))
  | .guarded l r body => f (.guarded (transform f l) (transform f r) (transform f body))
  | .indicator l r => f (.indicator (transform f l) (transform f r))
  | .const v => f (.const v)
  | .imaginaryUnit => f .imaginaryUnit
  | .named x => f (.named x)
  | .time => f .time
  | .var x => f (.var x)
  | .unresolved x => f (.unresolved x)

/-- Transforms each node of a list. -/
def transformAll (f : Node K → Node K) : List (Node K) → List (Node K)
  | [] => []
  | n :: rest => transform f n :: transformAll f rest

/-- Transforms the value of an exclusion. -/
def transformExclusion (f : Node K → Node K) : Exclusion K → Exclusion K
  | .mk v absorbed => .mk (transform f v) absorbed

/-- Transforms the values of some exclusions. -/
def transformExclusions (f : Node K → Node K) : List (Exclusion K) → List (Exclusion K)
  | [] => []
  | e :: rest => transformExclusion f e :: transformExclusions f rest

end

mutual

/-- The nodes that `transform f` applies `f` to, in that order. -/
def rebuilt (f : Node K → Node K) : Node K → List (Node K)
  | .access b i => rebuilt f i ++ [.access b (transform f i)]
  | .neg a => rebuilt f a ++ [.neg (transform f a)]
  | .binary op a b => rebuilt f a ++ rebuilt f b ++ [.binary op (transform f a) (transform f b)]
  | .call func args => rebuiltAll f args ++ [.call func (transformAll f args)]
  | .boundedSum x lo hi es body =>
    rebuilt f lo ++ rebuilt f hi ++ rebuiltAll f es ++ rebuilt f body ++
      [.boundedSum x (transform f lo) (transform f hi) (transformAll f es) (transform f body)]
  | .sum x lo hi es body =>
    rebuilt f lo ++ rebuilt f hi ++ rebuiltExclusions f es ++ rebuilt f body ++
      [.sum x (transform f lo) (transform f hi) (transformExclusions f es) (transform f body)]
  | .guarded l r body =>
    rebuilt f l ++ rebuilt f r ++ rebuilt f body ++
      [.guarded (transform f l) (transform f r) (transform f body)]
  | .indicator l r => rebuilt f l ++ rebuilt f r ++ [.indicator (transform f l) (transform f r)]
  | .const v => [.const v]
  | .imaginaryUnit => [.imaginaryUnit]
  | .named x => [.named x]
  | .time => [.time]
  | .var x => [.var x]
  | .unresolved x => [.unresolved x]

/-- The nodes `f` is applied to in a list. -/
def rebuiltAll (f : Node K → Node K) : List (Node K) → List (Node K)
  | [] => []
  | n :: rest => rebuilt f n ++ rebuiltAll f rest

/-- The nodes `f` is applied to in an exclusion. -/
def rebuiltExclusion (f : Node K → Node K) : Exclusion K → List (Node K)
  | .mk v _ => rebuilt f v

/-- The nodes `f` is applied to in some exclusions. -/
def rebuiltExclusions (f : Node K → Node K) : List (Exclusion K) → List (Node K)
  | [] => []
  | e :: rest => rebuiltExclusion f e ++ rebuiltExclusions f rest

end

mutual

/-- The node and every node inside it, parents before children. -/
def subnodes : Node K → List (Node K)
  | .access b i => .access b i :: subnodes i
  | .neg a => .neg a :: subnodes a
  | .binary op a b => .binary op a b :: (subnodes a ++ subnodes b)
  | .call func args => .call func args :: subnodesAll args
  | .boundedSum x lo hi es body =>
    .boundedSum x lo hi es body :: (subnodes lo ++ subnodes hi ++ subnodesAll es ++ subnodes body)
  | .sum x lo hi es body =>
    .sum x lo hi es body :: (subnodes lo ++ subnodes hi ++ subnodesExclusions es ++ subnodes body)
  | .guarded l r body => .guarded l r body :: (subnodes l ++ subnodes r ++ subnodes body)
  | .indicator l r => .indicator l r :: (subnodes l ++ subnodes r)
  | .const v => [.const v]
  | .imaginaryUnit => [.imaginaryUnit]
  | .named x => [.named x]
  | .time => [.time]
  | .var x => [.var x]
  | .unresolved x => [.unresolved x]

/-- The nodes of a list and every node inside them. -/
def subnodesAll : List (Node K) → List (Node K)
  | [] => []
  | n :: rest => subnodes n ++ subnodesAll rest

/-- The nodes of an exclusion. -/
def subnodesExclusion : Exclusion K → List (Node K)
  | .mk v _ => subnodes v

/-- The nodes of some exclusions. -/
def subnodesExclusions : List (Exclusion K) → List (Node K)
  | [] => []
  | e :: rest => subnodesExclusion e ++ subnodesExclusions rest

end

end Fluxion.Node
