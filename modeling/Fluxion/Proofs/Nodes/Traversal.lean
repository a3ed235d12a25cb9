import Fluxion.Proofs.Nodes.InsideArrays

/-!
# Proofs/Nodes/Traversal — nodes by their children

`Node.children` are the nodes right below a node, and what holds of a node as soon as it holds of
them holds of every node (`Node.childInduction`).  A pass rewrites the children before the node
(`transform_eq_mapChildren`), so that

* one pass after another is a single pass, if the second one goes through what the first one makes
  (`transform_transform`);
* a pass makes no variable free (`freeVars_transform`), if it does not do so at any node.
-/

namespace Fluxion

variable {K : Type}

@[simp] theorem Exclusion.mk_value_absorbed (e : Exclusion K) : mk e.value e.absorbed = e := by
  cases e
  rfl

namespace Node

/-- The nodes right below a node. -/
def children : Node K → List (Node K)
  | .access _ i => [i]
  | .neg a => [a]
  | .binary _ a b => [a, b]
  | .call _ args => args
  | .boundedSum _ lo hi es body => lo :: hi :: body :: es
  | .sum _ lo hi es body => lo :: hi :: body :: es.map (·.value)
  | .guarded l r body => [l, r, body]
  | .indicator l r => [l, r]
  | .const _ | .imaginaryUnit | .named _ | .time | .var _ | .unresolved _ => []

/-- Rewrites the nodes right below a node. -/
def mapChildren (φ : Node K → Node K) : Node K → Node K
  | .access b i => .access b (φ i)
  | .neg a => .neg (φ a)
  | .binary op a b => .binary op (φ a) (φ b)
  | .call func args => .call func (args.map φ)
  | .boundedSum x lo hi es body => .boundedSum x (φ lo) (φ hi) (es.map φ) (φ body)
  | .sum x lo hi es body =>
    .sum x (φ lo) (φ hi) (es.map fun e => .mk (φ e.value) e.absorbed) (φ body)
  | .guarded l r body => .guarded (φ l) (φ r) (φ body)
  | .indicator l r => .indicator (φ l) (φ r)
  | .const v => .const v
  | .imaginaryUnit => .imaginaryUnit
  | .named x => .named x
  | .time => .time
  | .var x => .var x
  | .unresolved x => .unresolved x

variable {m n : Node K} {f g h φ ψ : Node K → Node K}

theorem sizeOf_value_lt (e : Exclusion K) : sizeOf e.value < sizeOf e := by
  cases e
  rw [Exclusion.mk.sizeOf_spec, Exclusion.value]
  omega

theorem sizeOf_lt_of_mem_children (hm : m ∈ n.children) : sizeOf m < sizeOf n := by
  cases n with
  | call func args =>
    have hsize : sizeOf m < sizeOf args := List.sizeOf_lt_of_mem hm
    rw [call.sizeOf_spec]
    omega
  | boundedSum x lo hi es body =>
    simp only [children, List.mem_cons, boundedSum.sizeOf_spec] at hm ⊢
    rcases hm with rfl | rfl | rfl | he
    on_goal 4 => have hsize := List.sizeOf_lt_of_mem he
    all_goals omega
  | sum x lo hi es body =>
    simp only [children, List.mem_cons, List.mem_map, sum.sizeOf_spec] at hm ⊢
    rcases hm with rfl | rfl | rfl | ⟨e, he, rfl⟩
    on_goal 4 => have hsize := (sizeOf_value_lt e).trans (List.sizeOf_lt_of_mem he)
    all_goals omega
  | _ => grind [children]

/-- **Induction on the children of a node.** -/
theorem childInduction {P : Node K → Prop} (step : ∀ n, (∀ m ∈ n.children, P m) → P n)
    (n : Node K) : P n :=
  step n fun m _ => childInduction step m
termination_by sizeOf n
decreasing_by exact sizeOf_lt_of_mem_children ‹_›

theorem mapChildren_congr (hn : ∀ m ∈ n.children, φ m = ψ m) :
    n.mapChildren φ = n.mapChildren ψ := by
  cases n with
  | call func args => exact congrArg (call func) (List.map_congr_left hn)
  | _ => simp_all [children, mapChildren]

theorem mapChildren_id (n : Node K) : n.mapChildren id = n := by
  cases n <;> simp [mapChildren]

theorem mapChildren_mapChildren : (n.mapChildren φ).mapChildren ψ = n.mapChildren (ψ ∘ φ) := by
  cases n <;> simp [mapChildren, Exclusion.value, Exclusion.absorbed]

/-- A pass is applied to a node after its children. -/
theorem transform_eq_mapChildren (f : Node K → Node K) (n : Node K) :
    n.transform f = f (n.mapChildren (transform f)) := by
  cases n <;> simp only [transform, mapChildren, transformAll_eq, transformExclusions_eq]

/-- **One pass after another is a single pass**, if the second goes through what the first makes of
a node as through the node itself. -/
theorem transform_transform
    (hfg : ∀ n : Node K, (f n).transform g = h (n.mapChildren (transform g))) (n : Node K) :
    (n.transform f).transform g = n.transform h := by
  induction n using childInduction with
  | step n ih =>
    rw [transform_eq_mapChildren f, hfg, mapChildren_mapChildren, transform_eq_mapChildren h]
    exact congrArg h (mapChildren_congr ih)

/-! ## Nodes inside a node -/

theorem self_mem_subnodes (n : Node K) : n ∈ n.subnodes := by
  cases n <;> simp [subnodes]

theorem subnodesExclusions_eq (es : List (Exclusion K)) :
    subnodesExclusions es = subnodesAll (es.map (·.value)) := by
  induction es with
  | nil => rfl
  | cons e es ih =>
    cases e
    rw [subnodesExclusions, ih]
    rfl

theorem subnodesAll_eq (ns : List (Node K)) : subnodesAll ns = ns.flatMap subnodes := by
  induction ns with
  | nil => rfl
  | cons n ns ih => rw [subnodesAll, List.flatMap_cons, ih]

/-- What is inside a node is the node itself or inside a child. -/
theorem mem_subnodes : m ∈ n.subnodes ↔ m = n ∨ ∃ k ∈ n.children, m ∈ k.subnodes := by
  cases n <;>
    simp only [subnodes, children, subnodesExclusions_eq, subnodesAll_eq, List.mem_cons,
      List.mem_append, List.mem_flatMap, List.not_mem_nil, or_assoc, exists_eq_or_imp,
      exists_eq_left, false_and,
      exists_false, or_false]
  -- the body of a sum comes before its exclusions among the children
  all_goals grind

/-- What is inside a child is inside the node. -/
theorem mem_subnodes_of_mem_children (hn : n ∈ m.children) {k : Node K} (hk : k ∈ n.subnodes) :
    k ∈ m.subnodes :=
  mem_subnodes.mpr (.inr ⟨n, hn, hk⟩)

/-! ## Free variables -/

mutual

/-- The variables that a node takes from outside. -/
def freeVars : Node K → List String
  | .const _ | .imaginaryUnit | .named _ | .time | .unresolved _ => []
  | .var x => [x]
  | .access _ i => freeVars i
  | .neg a => freeVars a
  | .binary _ a b => freeVars a ++ freeVars b
  | .call _ args => freeVarsAll args
  | .boundedSum x lo hi es body =>
    freeVars lo ++ freeVars hi ++ freeVarsAll es ++ (freeVars body).filter (· ≠ x)
  | .sum x lo hi es body =>
    freeVars lo ++ freeVars hi ++ freeVarsExclusions es ++ (freeVars body).filter (· ≠ x)
  | .guarded l r body => freeVars l ++ freeVars r ++ freeVars body
  | .indicator l r => freeVars l ++ freeVars r

/-- The variables that some nodes take from outside. -/
def freeVarsAll : List (Node K) → List String
  | [] => []
  | n :: rest => freeVars n ++ freeVarsAll rest

/-- The variables that an exclusion takes from outside. -/
def freeVarsExclusion : Exclusion K → List String
  | .mk v _ => freeVars v

/-- The variables that some exclusions take from outside. -/
def freeVarsExclusions : List (Exclusion K) → List String
  | [] => []
  | e :: rest => freeVarsExclusion e ++ freeVarsExclusions rest

end

theorem mem_freeVarsAll {x : String} {ns : List (Node K)} :
    x ∈ freeVarsAll ns ↔ ∃ n ∈ ns, x ∈ n.freeVars := by
  induction ns with
  | nil => simp [freeVarsAll]
  | cons n ns ih => simp [freeVarsAll, ih]

theorem freeVarsExclusions_eq (es : List (Exclusion K)) :
    freeVarsExclusions es = freeVarsAll (es.map (·.value)) := by
  induction es with
  | nil => rfl
  | cons e es ih =>
    cases e
    rw [freeVarsExclusions, ih]
    rfl

theorem mem_freeVarsExclusions {x : String} {es : List (Exclusion K)} :
    x ∈ freeVarsExclusions es ↔ ∃ e ∈ es, x ∈ e.value.freeVars := by
  simp only [freeVarsExclusions_eq, mem_freeVarsAll, List.mem_map, exists_exists_and_eq_and]

/-- Rewriting the children of a node makes no variable free, if it does not do so in any of them. -/
theorem freeVars_mapChildren (hn : ∀ m ∈ n.children, (φ m).freeVars ⊆ m.freeVars) :
    (n.mapChildren φ).freeVars ⊆ n.freeVars := by
  intro y hy
  cases n with
  | call func args =>
    obtain ⟨a, ha, hy⟩ := mem_freeVarsAll.mp hy
    obtain ⟨b, hb, rfl⟩ := List.mem_map.mp ha
    exact mem_freeVarsAll.mpr ⟨b, hb, hn b hb hy⟩
  | boundedSum x lo hi es body =>
    simp only [mapChildren, freeVars, List.mem_append, mem_freeVarsAll, List.mem_map,
      List.mem_filter] at hy ⊢
    grind [children]
  | sum x lo hi es body =>
    simp only [mapChildren, freeVars, List.mem_append, mem_freeVarsExclusions, List.mem_map,
      List.mem_filter] at hy ⊢
    grind [children, Exclusion.value]
  | _ => grind [children, mapChildren, freeVars]

/-- **A pass makes no variable free**, if it does not do so at any node. -/
theorem freeVars_transform (hf : ∀ n : Node K, (f n).freeVars ⊆ n.freeVars) (n : Node K) :
    (n.transform f).freeVars ⊆ n.freeVars := by
  induction n using childInduction with
  | step n ih =>
    rw [transform_eq_mapChildren]
    exact List.Subset.trans (hf _) (freeVars_mapChildren ih)

end Node

theorem Stmt.subnodesAll_append (ss ss' : List (Stmt K)) :
    subnodesAll (ss ++ ss') = subnodesAll ss ++ subnodesAll ss' := by
  induction ss with
  | nil => rfl
  | cons s ss ih => rw [List.cons_append, subnodesAll, subnodesAll, ih, List.append_assoc]

theorem Stmt.mem_subnodesAll {ss : List (Stmt K)} {n : Node K} :
    n ∈ subnodesAll ss ↔ ∃ s ∈ ss, n ∈ s.subnodes := by
  induction ss with
  | nil => simp [subnodesAll]
  | cons s ss ih => simp [subnodesAll, ih]

theorem Stmt.subnodes_of_mem {s : Stmt K} {ss : List (Stmt K)} {n : Node K} (hs : s ∈ ss)
    (hn : n ∈ s.subnodes) : n ∈ subnodesAll ss := mem_subnodesAll.mpr ⟨s, hs, hn⟩

end Fluxion
