import Fluxion.Proofs.Nodes.Traversal

/-!
# Proofs/Nodes/Denotation — the value of a node, if it has one

`Node.evaluate` gives a value to any node that has one, whatever stage of a procedure it belongs to.
Reads of the zero array are zero, a guard is its body where its two sides differ and zero elsewhere,
and both kinds of sums skip the values that are excluded, which are evaluated outside the sum.  What
has no value: an unresolved symbol, a foreign name, a variable that is not bound, a read outside its
array.

A `Reading` fixes what is left open.  The values that the variable of a sum takes between two bounds
are one part of it, so that what is proved of every reading does not depend on how loops count.
Another is what happens to terms that are left out: they are not looked at, or, in a strict reading,
they must have a value although it does not count.  A value in a strict reading is thus a value of
the node in an environment where everything inside it has one.
-/

namespace Fluxion

open Arithmetic

/-! ## Values that may be missing -/

/-- A value, if there is one, is also the other one. -/
def Extends {α : Type} (x y : Option α) : Prop := ∀ a, x = some a → y = some a

namespace Extends

variable {α β : Type} {x y z : Option α}

theorem refl (x : Option α) : Extends x x := fun _ h => h

theorem trans (h : Extends x y) (h' : Extends y z) : Extends x z := fun a ha => h' a (h a ha)

theorem bind (h : Extends x y) {f g : α → Option β} (hfg : ∀ a, Extends (f a) (g a)) :
    Extends (x.bind f) (y.bind g) := by
  intro b hb
  obtain ⟨a, ha, hb⟩ := Option.bind_eq_some_iff.mp hb
  exact Option.bind_eq_some_iff.mpr ⟨a, h a ha, hfg a b hb⟩

end Extends

/-! ## Readings -/

/-- **How nodes are read**: from which arrays, over which values of the variable of a sum between
two bounds, and whether what is left out must have a value too. -/
structure Reading (K V : Type) where
  inputs : Inputs K V
  sweep : V → V → Option (List V)
  strict : Bool

namespace Reading

variable {K V : Type} {S T : Reading K V}

/-- Goes on without a value. -/
def without {α : Type} (S : Reading K V) (x : Option V) (rest : Option α) : Option α :=
  if S.strict then x.bind fun _ => rest else rest

/-- A reading of the same arrays and ranges that asks for no more. -/
structure Admits (S T : Reading K V) : Prop where
  inputs : S.inputs = T.inputs
  sweep : S.sweep = T.sweep
  strict : T.strict = true → S.strict = true

theorem Admits.refl (S : Reading K V) : S.Admits S := ⟨rfl, rfl, id⟩

/-- The reading of the same arrays and ranges in which what is left out must have a value too. -/
def strictly (S : Reading K V) : Reading K V := { S with strict := true }

theorem strictly_admits (S : Reading K V) : S.strictly.Admits S := ⟨rfl, rfl, fun _ => rfl⟩

theorem Admits.without (h : S.Admits T) {α : Type} {x y : Option V} {rest rest' : Option α}
    (hx : Extends x y) (hrest : Extends rest rest') :
    Extends (S.without x rest) (T.without y rest') := by
  unfold Reading.without
  split
  · split
    · exact hx.bind fun _ => hrest
    · intro a ha
      obtain ⟨-, -, ha⟩ := Option.bind_eq_some_iff.mp ha
      exact hrest a ha
  · next hS => exact (if_neg fun hT => hS (h.strict hT)).symm ▸ hrest

end Reading

variable {K V : Type} [Literal K] [Arithmetic K V]

/-- The values of a variable at some sites in a row. -/
def sitesFrom : ℕ → ℤ → List V
  | 0, _ => []
  | count + 1, m => atSite m :: sitesFrom count (m + 1)

/-- **The reading by sites**: a sum runs over the sites between its bounds, which are rounded, and
what is left out need not have a value. -/
def Reading.bySites (inputs : Inputs K V) : Reading K V where
  inputs := inputs
  sweep lower upper := some (sitesFrom (span lower upper) (Literal.site (real lower)))
  strict := false

/-- What a read gives at an index: the element of the array, or zero whatever the index is. -/
def Inputs.read? (inputs : Inputs K V) (b : Buffer) (index : Option V) : Option V :=
  if b = .zero then some zero
  else index.bind fun v => (Literal.slot? (real v)).bind fun k =>
    (if b = .state then inputs.u else inputs.p)[k]?

namespace Reading

variable {S T : Reading K V}

/-- A body that counts as zero under a condition. -/
def guard (S : Reading K V) (skip : Bool) (x : Option V) : Option V :=
  if skip then S.without x (some zero) else x

/-- Adds up a term over values of a variable, without the excluded ones. -/
def addUp (S : Reading K V) (excluded : List V) (term : V → Option V) : List V → V → Option V
  | [], acc => some acc
  | w :: ws, acc =>
    if excluded.any (same w) then S.without (term w) (addUp S excluded term ws acc)
    else (term w).bind fun t => addUp S excluded term ws (add acc t)

/-- The sum of a term over a range, without the excluded values. -/
def sumOver (S : Reading K V) (excluded : Option (List V)) (lower upper : Option V)
    (term : V → Option V) : Option V :=
  excluded.bind fun vs => lower.bind fun l => upper.bind fun u => (S.sweep l u).bind fun ws =>
    S.addUp vs term ws zero

theorem Admits.guard (h : S.Admits T) (skip : Bool) {x y : Option V} (hx : Extends x y) :
    Extends (S.guard skip x) (T.guard skip y) := by
  unfold Reading.guard
  split
  · exact h.without hx (.refl _)
  · exact hx

theorem Admits.addUp (h : S.Admits T) {term term' : V → Option V}
    (hterm : ∀ w, Extends (term w) (term' w)) (excluded ws : List V) (acc : V) :
    Extends (S.addUp excluded term ws acc) (T.addUp excluded term' ws acc) := by
  induction ws generalizing acc with
  | nil => exact .refl _
  | cons w ws ih =>
    rw [Reading.addUp, Reading.addUp]
    split
    · exact h.without (hterm w) (ih acc)
    · exact (hterm w).bind fun t => ih (add acc t)

theorem Admits.sumOver (h : S.Admits T) {excluded excluded' : Option (List V)}
    {lower lower' upper upper' : Option V} {term term' : V → Option V}
    (hexcluded : Extends excluded excluded') (hlower : Extends lower lower')
    (hupper : Extends upper upper') (hterm : ∀ w, Extends (term w) (term' w)) :
    Extends (S.sumOver excluded lower upper term) (T.sumOver excluded' lower' upper' term') := by
  unfold Reading.sumOver
  rw [h.sweep]
  exact hexcluded.bind fun vs => hlower.bind fun l => hupper.bind fun u => (Extends.refl _).bind
    fun ws => h.addUp hterm vs ws zero

end Reading

/-! ## Nodes -/

namespace Node

/-- What a name stands for by itself. -/
def name? (name : String) : Option V :=
  if name == imaginaryName then some Arithmetic.imaginaryUnit else none

mutual

/-- **The value of a node**, where variables have values. -/
def evaluate (S : Reading K V) : Node K → Env V → Option V
  | .const v, _ => some (ofLiteral v)
  | .imaginaryUnit, _ => some Arithmetic.imaginaryUnit
  | .named name, _ => name? name
  | .time, _ => some (ofLiteral S.inputs.t)
  | .var x, env => env.lookup x
  | .unresolved _, _ => none
  | .access b i, env => S.inputs.read? b (evaluate S i env)
  | .neg a, env => (evaluate S a env).bind fun v => some (Arithmetic.neg v)
  | .binary op a b, env =>
    (evaluate S a env).bind fun v => (evaluate S b env).bind fun w => some (op.apply v w)
  | .call func args, env =>
    (evaluateFirst S args env).bind fun v =>
      (Builtin.ofName? (canonicalFunc func)).bind fun b => some (apply b v)
  | .boundedSum x lo hi es body, env =>
    S.sumOver (evaluateAll S es env) (evaluate S lo env) (evaluate S hi env) fun w =>
      evaluate S body ((x, w) :: env)
  | .sum x lo hi es body, env =>
    S.sumOver (evaluateExclusions S es env) (evaluate S lo env) (evaluate S hi env) fun w =>
      evaluate S body ((x, w) :: env)
  | .guarded l r body, env =>
    (evaluate S l env).bind fun v => (evaluate S r env).bind fun w =>
      S.guard (same v w) (evaluate S body env)
  | .indicator l r, env =>
    (evaluate S l env).bind fun v => (evaluate S r env).bind fun w => some (differ v w)

/-- The value of the first of some nodes. -/
def evaluateFirst (S : Reading K V) : List (Node K) → Env V → Option V
  | [], _ => none
  | n :: _, env => evaluate S n env

/-- The values of some nodes. -/
def evaluateAll (S : Reading K V) : List (Node K) → Env V → Option (List V)
  | [], _ => some []
  | n :: rest, env =>
    (evaluate S n env).bind fun v => (evaluateAll S rest env).bind fun vs => some (v :: vs)

/-- The value of an exclusion, whether the summand accounts for it or not. -/
def evaluateExclusion (S : Reading K V) : Exclusion K → Env V → Option V
  | .mk v _, env => evaluate S v env

/-- The values of some exclusions. -/
def evaluateExclusions (S : Reading K V) : List (Exclusion K) → Env V → Option (List V)
  | [], _ => some []
  | e :: rest, env =>
    (evaluateExclusion S e env).bind fun v =>
      (evaluateExclusions S rest env).bind fun vs => some (v :: vs)

end

variable {S T : Reading K V} {m n : Node K} {env : Env V}

theorem evaluateExclusions_eq (es : List (Exclusion K)) :
    evaluateExclusions S es env = evaluateAll S (es.map (·.value)) env := by
  induction es with
  | nil => rfl
  | cons e es ih =>
    cases e
    rw [evaluateExclusions, ih]
    rfl

attribute [local simp] evaluate in
theorem evaluate_binary {op : BinaryOp} {v w : V} (hm : m.evaluate S env = some v)
    (hn : n.evaluate S env = some w) :
    (Node.binary op m n).evaluate S env = some (op.apply v w) := by
  simp [hm, hn]

/-- **One node has the value of another**, in every environment where that has one. -/
def Refines (S T : Reading K V) (n m : Node K) : Prop :=
  ∀ env : Env V, Extends (n.evaluate S env) (m.evaluate T env)

theorem Refines.refl (S : Reading K V) (n : Node K) : Refines S S n n := fun _ => .refl _

theorem Refines.trans {k : Node K} (h : Refines S S n m) (h' : Refines S S m k) : Refines S S n k :=
  fun env => (h env).trans (h' env)

variable {φ : Node K → Node K}

theorem extends_evaluateAll {ns : List (Node K)} (h : ∀ n ∈ ns, Refines S T n (φ n))
    (env : Env V) : Extends (evaluateAll S ns env) (evaluateAll T (ns.map φ) env) := by
  induction ns with
  | nil => exact .refl _
  | cons n ns ih =>
    obtain ⟨hn, hns⟩ := List.forall_mem_cons.mp h
    exact (hn env).bind fun v => (ih hns).bind fun vs => .refl _

theorem extends_evaluateFirst {ns : List (Node K)} (h : ∀ n ∈ ns, Refines S T n (φ n))
    (env : Env V) : Extends (evaluateFirst S ns env) (evaluateFirst T (ns.map φ) env) := by
  cases ns with
  | nil => exact .refl _
  | cons n ns => exact h n List.mem_cons_self env

/-- **Nodes with the values of the children make a node with the value of the node.** -/
theorem refines_mapChildren (hST : S.Admits T) (h : ∀ m ∈ n.children, Refines S T m (φ m)) :
    Refines S T n (n.mapChildren φ) := by
  intro env
  cases n with
  | const v => exact .refl _
  | imaginaryUnit => exact .refl _
  | named name => exact .refl _
  | time =>
    rw [mapChildren, evaluate, evaluate, hST.inputs]
    exact .refl _
  | var x => exact .refl _
  | unresolved name => exact .refl _
  | access b i =>
    have hi := h i List.mem_cons_self env
    rw [evaluate, mapChildren, evaluate, hST.inputs, Inputs.read?, Inputs.read?]
    split
    · exact .refl _
    · exact hi.bind fun _ => .refl _
  | neg a => exact (h a List.mem_cons_self env).bind fun _ => .refl _
  | binary op a b =>
    simp only [children, List.forall_mem_cons] at h
    exact (h.1 env).bind fun _ => (h.2.1 env).bind fun _ => .refl _
  | call func args => exact (extends_evaluateFirst h env).bind fun _ => .refl _
  | boundedSum x lo hi es body =>
    simp only [children, List.forall_mem_cons] at h
    obtain ⟨hlo, hhi, hbody, hes⟩ := h
    exact hST.sumOver (extends_evaluateAll hes env) (hlo env) (hhi env) fun w => hbody _
  | sum x lo hi es body =>
    simp only [children, List.forall_mem_cons] at h
    obtain ⟨hlo, hhi, hbody, hes⟩ := h
    have hvalues := extends_evaluateAll hes env
    rw [List.map_map] at hvalues
    rw [evaluate, mapChildren, evaluate, evaluateExclusions_eq, evaluateExclusions_eq, List.map_map]
    exact hST.sumOver hvalues (hlo env) (hhi env) fun w => hbody _
  | guarded l r body =>
    simp only [children, List.forall_mem_cons] at h
    exact (h.1 env).bind fun _ => (h.2.1 env).bind fun _ => hST.guard _ (h.2.2.1 env)
  | indicator l r =>
    simp only [children, List.forall_mem_cons] at h
    exact (h.1 env).bind fun _ => (h.2.1 env).bind fun _ => .refl _

/-- A node that has a value has the same in a reading that asks for less. -/
theorem refines_self (hST : S.Admits T) (n : Node K) : Refines S T n n := by
  induction n using childInduction with
  | step n ih =>
    have hn := refines_mapChildren (φ := id) hST ih
    rwa [mapChildren_id] at hn

/-! ## Variables that a node does not mention -/

theorem evaluateAll_congr {ns : List (Node K)} {env env' : Env V}
    (h : ∀ n ∈ ns, n.evaluate S env = n.evaluate S env') :
    evaluateAll S ns env = evaluateAll S ns env' := by
  induction ns with
  | nil => rfl
  | cons n ns ih =>
    obtain ⟨hn, hns⟩ := List.forall_mem_cons.mp h
    rw [evaluateAll, evaluateAll, hn, ih hns]

/-- Environments that agree on the variables of a body but for the one that is bound there. -/
theorem lookup_cons_congr {xs : List String} {x : String} {env env' : Env V} (w : V)
    (h : ∀ y ∈ xs.filter (· ≠ x), env.lookup y = env'.lookup y) :
    ∀ y ∈ xs, List.lookup y ((x, w) :: env) = List.lookup y ((x, w) :: env') := by
  intro y hy
  by_cases hyx : y = x
  · rw [hyx, List.lookup_cons_self, List.lookup_cons_self]
  · rw [Env.lookup_of_ne hyx, Env.lookup_of_ne hyx]
    exact h y (List.mem_filter.mpr ⟨hy, decide_eq_true hyx⟩)

/-- **The value depends on the free variables only.** -/
theorem evaluate_congr (n : Node K) {env env' : Env V}
    (h : ∀ x ∈ n.freeVars, env.lookup x = env'.lookup x) :
    n.evaluate S env = n.evaluate S env' := by
  induction n using childInduction generalizing env env' with
  | step n ih =>
    cases n with
    | const v => rfl
    | imaginaryUnit => rfl
    | named name => rfl
    | time => rfl
    | var x => exact h x List.mem_cons_self
    | unresolved name => rfl
    | access b i => rw [evaluate, evaluate, ih i List.mem_cons_self h]
    | neg a => rw [evaluate, evaluate, ih a List.mem_cons_self h]
    | binary op a b =>
      simp only [children, List.forall_mem_cons] at ih
      simp only [freeVars, List.forall_mem_append] at h
      rw [evaluate, evaluate, ih.1 h.1, ih.2.1 h.2]
    | call func args =>
      cases args with
      | nil => rfl
      | cons a args =>
        rw [evaluate, evaluate, evaluateFirst, evaluateFirst,
          ih a List.mem_cons_self fun x hx => h x (List.mem_append_left _ hx)]
    | boundedSum x lo hi es body =>
      simp only [children, List.forall_mem_cons] at ih
      obtain ⟨hlo, hhi, hbody, hes⟩ := ih
      simp only [freeVars, List.forall_mem_append] at h
      have hexcluded : evaluateAll S es env = evaluateAll S es env' :=
        evaluateAll_congr fun e he => hes e he fun y hy => h.1.2 y (mem_freeVarsAll.mpr ⟨e, he, hy⟩)
      rw [evaluate, evaluate, hexcluded, hlo h.1.1.1, hhi h.1.1.2]
      exact congrArg _ (funext fun w => hbody (lookup_cons_congr w h.2))
    | sum x lo hi es body =>
      simp only [children, List.forall_mem_cons, List.forall_mem_map] at ih
      obtain ⟨hlo, hhi, hbody, hes⟩ := ih
      simp only [freeVars, List.forall_mem_append] at h
      have hexcluded : evaluateExclusions S es env = evaluateExclusions S es env' := by
        rw [evaluateExclusions_eq, evaluateExclusions_eq]
        refine evaluateAll_congr (List.forall_mem_map.mpr fun e he => hes e he fun y hy => ?_)
        exact h.1.2 y (mem_freeVarsExclusions.mpr ⟨e, he, hy⟩)
      rw [evaluate, evaluate, hexcluded, hlo h.1.1.1, hhi h.1.1.2]
      exact congrArg _ (funext fun w => hbody (lookup_cons_congr w h.2))
    | guarded l r body =>
      simp only [children, List.forall_mem_cons] at ih
      simp only [freeVars, List.forall_mem_append] at h
      rw [evaluate, evaluate, ih.1 h.1.1, ih.2.1 h.1.2, ih.2.2.1 h.2]
    | indicator l r =>
      simp only [children, List.forall_mem_cons] at ih
      simp only [freeVars, List.forall_mem_append] at h
      rw [evaluate, evaluate, ih.1 h.1, ih.2.1 h.2]

/-- A variable that is not free may have any value. -/
theorem evaluate_cons {x : String} (w : V) (h : x ∉ n.freeVars) :
    n.evaluate S ((x, w) :: env) = n.evaluate S env := by
  refine evaluate_congr n fun y hy => Env.lookup_of_ne ?_ w env
  rintro rfl
  exact h hy

end Node

end Fluxion
