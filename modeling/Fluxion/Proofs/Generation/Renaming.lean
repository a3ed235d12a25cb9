import Fluxion.Proofs.Generation.Hygiene
import Mathlib.Data.List.Zip

/-!
# Proofs/Generation/Renaming — nodes that differ in the names of variables

Lowering makes up names that depend on what is reserved.  `Node.Alike` says of two nodes that one is
the other with different names for its variables, under variables of both that are linked to each
other:

    lower, c      ──▸   m   ──passes──▸   ·   ──compile──▸   code
                        ≈                 ≈                   ‖
    lower, c'     ──▸   n   ──passes──▸   ·   ──compile──▸   code

Contexts that differ in what is reserved give alike nodes or the same error (`Expr.agrees_lower`),
the passes keep nodes alike (`Node.Alike.normalize`), and alike nodes have the same code
(`Node.Alike.compile_eq`).
-/

namespace Fluxion

variable {K : Type}

/-- Variables around one node, each with the variable in its place around another. -/
abbrev Links := List (String × String)

namespace Node

/-- **Nodes that differ in the names of their variables.**  What a sum keeps away from is a list of
variables from outside. -/
inductive Alike : Links → Node K → Node K → Prop
  | const {ρ : Links} (v : K) : Alike ρ (.const v) (.const v)
  | imaginaryUnit {ρ : Links} : Alike ρ .imaginaryUnit .imaginaryUnit
  | named {ρ : Links} (x : String) : Alike ρ (.named x) (.named x)
  | time {ρ : Links} : Alike ρ .time .time
  | unresolved {ρ : Links} (x : String) : Alike ρ (.unresolved x) (.unresolved x)
  | var {ρ : Links} {v : String × String} (hv : v ∈ ρ) : Alike ρ (.var v.1) (.var v.2)
  | access {ρ : Links} (b : Buffer) {m n : Node K} (h : Alike ρ m n) :
      Alike ρ (.access b m) (.access b n)
  | neg {ρ : Links} {m n : Node K} (h : Alike ρ m n) : Alike ρ (.neg m) (.neg n)
  | binary {ρ : Links} (op : BinaryOp) {a a' b b' : Node K} (ha : Alike ρ a a')
      (hb : Alike ρ b b') :
      Alike ρ (.binary op a b) (.binary op a' b')
  | call {ρ : Links} (func : String) {ms ns : List (Node K)} (hlength : ms.length = ns.length)
      (h : ∀ q ∈ ms.zip ns, Alike ρ q.1 q.2) : Alike ρ (.call func ms) (.call func ns)
  | boundedSum {ρ vs : Links} {x y : String} {lo lo' hi hi' m n : Node K} (hx : x ∉ ρ.map (·.1))
      (hy : y ∉ ρ.map (·.2)) (hlo : Alike ρ lo lo') (hhi : Alike ρ hi hi') (hvs : vs ⊆ ρ)
      (h : Alike ((x, y) :: ρ) m n) :
      Alike ρ (.boundedSum x lo hi (vs.map (.var ·.1)) m)
        (.boundedSum y lo' hi' (vs.map (.var ·.2)) n)
  | sum {ρ : Links} {x y : String} {lo lo' hi hi' m n : Node K} (hx : x ∉ ρ.map (·.1))
      (hy : y ∉ ρ.map (·.2)) (hlo : Alike ρ lo lo') (hhi : Alike ρ hi hi')
      (h : Alike ((x, y) :: ρ) m n) : Alike ρ (.sum x lo hi [] m) (.sum y lo' hi' [] n)
  | guarded {ρ : Links} {l l' r r' m n : Node K} (hl : Alike ρ l l') (hr : Alike ρ r r')
      (h : Alike ρ m n) : Alike ρ (.guarded l r m) (.guarded l' r' n)
  | indicator {ρ : Links} {l l' r r' : Node K} (hl : Alike ρ l l') (hr : Alike ρ r r') :
      Alike ρ (.indicator l r) (.indicator l' r')

/-- Only calls with one argument fold. -/
theorem collapseZero_call [Literal K] {func : String} {ns : List (Node K)} (h : ns.length ≠ 1) :
    collapseZero (.call func ns) = .call func ns := by
  rcases ns with _ | ⟨n, _ | ⟨n', ns⟩⟩
  · rfl
  · exact absurd rfl h
  · rfl

namespace Alike

variable {ρ : Links} {m n a a' b b' : Node K}

theorem callAll (func : String) {ms ns : List (Node K)} (h : List.Forall₂ (Alike ρ) ms ns) :
    (Node.call func ms).Alike ρ (.call func ns) :=
  .call func h.length_eq fun _ hq => (List.forall₂_iff_zip.mp h).2 hq

theorem symm (h : m.Alike ρ n) : n.Alike (ρ.map Prod.swap) m := by
  induction h with
  | const v => exact .const v
  | imaginaryUnit => exact .imaginaryUnit
  | named x => exact .named x
  | time => exact .time
  | unresolved x => exact .unresolved x
  | var hv => exact .var (List.mem_map_of_mem (f := Prod.swap) hv)
  | access b _ ih => exact .access b ih
  | neg _ ih => exact .neg ih
  | binary op _ _ iha ihb => exact .binary op iha ihb
  | call func hlength _ ih =>
    refine .call func hlength.symm fun q hq => ih q.swap ?_
    rw [← List.zip_swap]
    exact List.mem_map_of_mem hq
  | @boundedSum ρ vs x y _ _ _ _ _ _ hx hy _ _ hvs _ ihlo ihhi ih =>
    have haway : vs.map Prod.swap ⊆ ρ.map Prod.swap := List.map_subset _ hvs
    have hsum := boundedSum (by simpa using hy) (by simpa using hx) ihlo ihhi haway ih
    simpa [Function.comp_def] using hsum
  | sum hx hy _ _ _ ihlo ihhi ih => exact .sum (by simpa using hy) (by simpa using hx) ihlo ihhi ih
  | guarded _ _ _ ihl ihr ih => exact .guarded ihl ihr ih
  | indicator _ _ ihl ihr => exact .indicator ihl ihr

theorem filter_subset {x : String} {xs ys : List String} (h : xs ⊆ x :: ys) :
    xs.filter (· ≠ x) ⊆ ys := by
  intro y hy
  obtain ⟨hy, hne⟩ := List.mem_filter.mp hy
  exact (List.mem_cons.mp (h hy)).resolve_left (of_decide_eq_true hne)

/-- Only linked variables are taken from outside. -/
theorem freeVars_left (h : m.Alike ρ n) : m.freeVars ⊆ ρ.map (·.1) := by
  induction h with
  | const | imaginaryUnit | named | time | unresolved => exact List.nil_subset _
  | var hv => simpa [Node.freeVars] using ⟨_, hv⟩
  | access _ _ ih | neg _ ih => exact ih
  | binary _ _ _ iha ihb | indicator _ _ iha ihb => exact List.append_subset.mpr ⟨iha, ihb⟩
  | guarded _ _ _ ihl ihr ih =>
    exact List.append_subset.mpr ⟨List.append_subset.mpr ⟨ihl, ihr⟩, ih⟩
  | @call ρ func ms ns hlength _ ih =>
    intro x hx
    obtain ⟨a, ha, hx⟩ := mem_freeVarsAll.mp hx
    have hall : List.Forall₂ (fun a _ => a.freeVars ⊆ ρ.map (·.1)) ms ns :=
      List.forall₂_iff_zip.mpr ⟨hlength, fun hq => ih _ hq⟩
    obtain ⟨b, -, hsubset⟩ := exists_of_forall₂ hall ha
    exact hsubset hx
  | @boundedSum ρ vs x y _ _ _ _ _ _ _ _ _ _ hvs _ ihlo ihhi ih =>
    have haway : freeVarsAll (vs.map fun v => (.var v.1 : Node K)) ⊆ ρ.map (·.1) := by
      intro z hz
      obtain ⟨_, hmem, hz⟩ := mem_freeVarsAll.mp hz
      obtain ⟨v, hv, rfl⟩ := List.mem_map.mp hmem
      exact List.mem_map.mpr ⟨v, hvs hv, (List.mem_singleton.mp hz).symm⟩
    simp only [Node.freeVars, List.append_subset]
    exact ⟨⟨⟨ihlo, ihhi⟩, haway⟩, filter_subset ih⟩
  | sum _ _ _ _ _ ihlo ihhi ih =>
    simp only [Node.freeVars, freeVarsExclusions, List.append_nil, List.append_subset]
    exact ⟨⟨ihlo, ihhi⟩, filter_subset ih⟩

theorem freeVars_right (h : m.Alike ρ n) : n.freeVars ⊆ ρ.map (·.2) := by
  simpa [Function.comp_def] using h.symm.freeVars_left

/-- Where no variable is taken from outside, none is named differently. -/
theorem of_closed (h : Everywhere Bare n) (hvars : n.freeVars ⊆ []) : n.Alike ρ n := by
  induction h with
  | @intro n self _ ih =>
    cases n with
    | const v => exact .const v
    | imaginaryUnit => exact .imaginaryUnit
    | named x => exact .named x
    | time => exact .time
    | unresolved x => exact .unresolved x
    | var x => cases hvars List.mem_cons_self
    | access b i => exact .access b (ih i (by simp [children]) hvars)
    | neg a => exact .neg (ih a (by simp [children]) hvars)
    | binary op a b =>
      rw [Node.freeVars, List.append_subset] at hvars
      exact .binary op (ih a (by simp [children]) hvars.1) (ih b (by simp [children]) hvars.2)
    | call func args =>
      refine .callAll func (List.forall₂_same.mpr fun a ha => ih a ha fun x hx => hvars ?_)
      exact mem_freeVarsAll.mpr ⟨a, ha, hx⟩
    | boundedSum | sum | guarded | indicator => cases self

theorem of_scalar (h : n.Scalar) : n.Alike ρ n := by
  induction h with
  | const v => exact .const v
  | named x => exact .named x
  | time => exact .time
  | access _ v => exact .access _ (.const v)
  | neg _ ih => exact .neg ih
  | binary op _ _ iha ihb => exact .binary op iha ihb
  | call func _ ih => exact .callAll func (List.forall₂_same.mpr ih)

/-! ## Literals and index arithmetic -/

theorem const?_eq (h : m.Alike ρ n) : m.const? = n.const? := by cases h <;> rfl

variable [Literal K]

theorem isZero_eq (h : m.Alike ρ n) : m.isZero = n.isZero := by cases h <;> rfl

theorem isOne_eq (h : m.Alike ρ n) : m.isOne = n.isOne := by cases h <;> rfl

theorem plus (ha : a.Alike ρ a') (hb : b.Alike ρ b') : (a.plus b).Alike ρ (a'.plus b') := by
  unfold Node.plus
  rw [ha.const?_eq, hb.const?_eq, ha.isZero_eq, hb.isZero_eq]
  split
  · exact .const _
  · split
    · exact hb
    · split
      exacts [ha, .binary .add ha hb]

theorem minus (ha : a.Alike ρ a') (hb : b.Alike ρ b') : (a.minus b).Alike ρ (a'.minus b') := by
  unfold Node.minus
  rw [ha.const?_eq, hb.const?_eq, hb.isZero_eq]
  split
  · exact .const _
  · split
    exacts [ha, .binary .sub ha hb]

theorem times (ha : a.Alike ρ a') (hb : b.Alike ρ b') : (a.times b).Alike ρ (a'.times b') := by
  unfold Node.times
  rw [ha.const?_eq, hb.const?_eq, ha.isOne_eq, hb.isOne_eq]
  split
  · exact .const _
  · split
    · exact hb
    · split
      exacts [ha, .binary .mul ha hb]

/-! ## Passes -/

omit [Literal K] in
/-- **A pass keeps nodes alike**, if it does so at each node and leaves variables alone. -/
theorem transform {f : Node K → Node K} (hvar : ∀ x, f (.var x) = .var x)
    (hf : ∀ {ρ : Links} {m n : Node K}, m.Alike ρ n → (f m).Alike ρ (f n)) (h : m.Alike ρ n) :
    (m.transform f).Alike ρ (n.transform f) := by
  have hvars (vs : Links) (name : String × String → String) :
      (vs.map fun v => (.var (name v) : Node K)).map (Node.transform f) =
          vs.map (.var <| name ·) := by
    simp [Function.comp_def, Node.transform, hvar]
  induction h with
  | const v => exact hf (.const v)
  | imaginaryUnit => exact hf .imaginaryUnit
  | named x => exact hf (.named x)
  | time => exact hf .time
  | unresolved x => exact hf (.unresolved x)
  | var hv => exact hf (.var hv)
  | access b _ ih => exact hf (.access b ih)
  | neg _ ih => exact hf (.neg ih)
  | binary op _ _ iha ihb => exact hf (.binary op iha ihb)
  | @call ρ func ms ns hlength _ ih =>
    have hall : List.Forall₂ (fun a b => (a.transform f).Alike ρ (b.transform f)) ms ns :=
      List.forall₂_iff_zip.mpr ⟨hlength, fun hq => ih _ hq⟩
    simp only [Node.transform, transformAll_eq]
    exact hf (.callAll func (List.forall₂_map_left_iff.mpr (List.forall₂_map_right_iff.mpr hall)))
  | @boundedSum ρ vs _ _ _ _ _ _ _ _ hx hy _ _ hvs _ ihlo ihhi ih =>
    simp only [Node.transform, transformAll_eq, hvars]
    exact hf (.boundedSum hx hy ihlo ihhi hvs ih)
  | sum hx hy _ _ _ ihlo ihhi ih => exact hf (.sum hx hy ihlo ihhi ih)
  | guarded _ _ _ ihl ihr ih => exact hf (.guarded ihl ihr ih)
  | indicator _ _ ihl ihr => exact hf (.indicator ihl ihr)

omit [Literal K] in
theorem weighted {vs : Links} {x y : String} (hxy : (x, y) ∈ ρ) (hvs : vs ⊆ ρ) (h : m.Alike ρ n) :
    (Node.weighted x (vs.map (·.1)) m).Alike ρ (Node.weighted y (vs.map (·.2)) n) := by
  unfold Node.weighted
  induction vs generalizing m n with
  | nil => exact h
  | cons v vs ih =>
    obtain ⟨hv, hvs⟩ := List.cons_subset.mp hvs
    exact ih hvs (.binary .mul (.indicator (.var hxy) (.var hv)) h)

omit [Literal K] in
theorem strip_boundedSum (x : String) (lo hi n : Node K) (ys : List String) :
    (stripExclusions ∘ absorbGuard ∘ nativeSum) (.boundedSum x lo hi (ys.map .var) n)
      = .sum x lo hi [] (Node.weighted x ys n) := by
  simp only [Function.comp_apply, nativeSum, absorbGuard, stripExclusions, List.map_map, absorb,
    List.foldl_map, Node.weighted, Exclusion.value, Exclusion.absorbed, Function.comp_def]
  simp

omit [Literal K] in
theorem strip (h : m.Alike ρ n) : ((stripExclusions ∘ absorbGuard ∘ nativeSum) m).Alike ρ
    ((stripExclusions ∘ absorbGuard ∘ nativeSum) n) := by
  have hself := h
  cases h with
  | @boundedSum _ vs x y lo lo' hi hi' m n hx hy hlo hhi hvs h =>
    have hleft := strip_boundedSum x lo hi m (vs.map (·.1))
    have hright := strip_boundedSum y lo' hi' n (vs.map (·.2))
    rw [List.map_map] at hleft hright
    have hbody := h.weighted List.mem_cons_self (List.subset_cons_of_subset (x, y) hvs)
    exact hleft.symm ▸ hright.symm ▸ .sum hx hy hlo hhi hbody
  | sum hx hy hlo hhi h => exact .sum hx hy hlo hhi h
  | guarded hl hr h => exact .binary .mul (.indicator hl hr) h
  | _ => exact hself

omit [Literal K] in
theorem respell (h : m.Alike ρ n) : (Node.respell m).Alike ρ (Node.respell n) := by
  have hself := h
  cases h with
  | named x =>
    rw [Node.respell]
    split
    exacts [.imaginaryUnit, .named x]
  | call func hlength h => exact .call _ hlength h
  | _ => exact hself

theorem foldBinary (op : BinaryOp) (ha : a.Alike ρ a') (hb : b.Alike ρ b') :
    (Node.foldBinary op a b).Alike ρ (Node.foldBinary op a' b') := by
  unfold Node.foldBinary
  rw [ha.isZero_eq, hb.isZero_eq, hb.const?_eq]
  cases op with
  | mul | div =>
    dsimp only
    split
    exacts [.const _, .binary _ ha hb]
  | add =>
    dsimp only
    split
    · exact hb
    · split
      exacts [ha, .binary _ ha hb]
  | sub =>
    dsimp only
    split
    · exact ha
    · split
      exacts [.neg hb, .binary _ ha hb]
  | pow =>
    dsimp only
    split
    · split
      exacts [.const _, .binary _ ha hb]
    · exact .binary _ ha hb

theorem collapseZero (h : m.Alike ρ n) : (Node.collapseZero m).Alike ρ (Node.collapseZero n) := by
  have hself := h
  cases h with
  | access b _ =>
    cases b with
    | zero => exact .const _
    | state | param => exact hself
  | binary op ha hb => exact foldBinary op ha hb
  | neg h =>
    simp only [Node.collapseZero, h.isZero_eq]
    split
    exacts [.const _, .neg h]
  | @call _ func ms ns hlength h =>
    by_cases hone : ms.length = 1
    · obtain ⟨a, rfl⟩ := List.length_eq_one_iff.mp hone
      obtain ⟨b, rfl⟩ := List.length_eq_one_iff.mp (hlength ▸ hone)
      have hab : a.Alike ρ b := h (a, b) List.mem_cons_self
      simp only [Node.collapseZero, hab.isZero_eq]
      split
      exacts [.const _, hself]
    · rwa [collapseZero_call hone, collapseZero_call (hlength ▸ hone)]
  | sum hx hy hlo hhi h =>
    simp only [Node.collapseZero, h.isZero_eq]
    split
    exacts [.const _, hself]
  | _ => exact hself

/-- **The passes keep nodes alike.** -/
theorem normalize (h : m.Alike ρ n) : m.normalize.Alike ρ n.normalize := by
  rw [Node.normalize, Node.normalize, stripAbsorbed_absorbGuards_nativeSums,
    stripAbsorbed_absorbGuards_nativeSums]
  exact (h.transform (fun _ => rfl) strip).transform (fun _ => rfl) collapseZero

end Alike

/-! ## Tokens and code -/

/-- What a node itself means is told by its kind, and by its name unless it is a variable. -/
theorem Alike.tokens_eq {ρ : Links} {m n : Node K} (h : m.Alike ρ n) :
    m.subnodes.map checkToken = n.subnodes.map checkToken := by
  have hall {ms ns : List (Node K)}
      (h : List.Forall₂ (fun a b => a.subnodes.map checkToken = b.subnodes.map checkToken) ms ns) :
      (subnodesAll ms).map checkToken = (subnodesAll ns).map checkToken := by
    induction h with
    | nil => rfl
    | cons hab _ ih => simp [subnodesAll, hab, ih]
  induction h with
  | const | imaginaryUnit | named | time | unresolved | var => rfl
  | access _ _ ih | neg _ ih => simp [subnodes, checkToken, ih]
  | binary _ _ _ iha ihb | indicator _ _ iha ihb => simp [subnodes, checkToken, iha, ihb]
  | guarded _ _ _ ihl ihr ih => simp [subnodes, checkToken, ihl, ihr, ih]
  | call func hlength _ ih =>
    simp [subnodes, checkToken, hlength,
      hall (List.forall₂_iff_zip.mpr ⟨hlength, fun hq => ih _ hq⟩)]
  | @boundedSum _ vs _ _ _ _ _ _ _ _ _ _ _ _ _ _ ihlo ihhi ih =>
    have haway : (subnodesAll (vs.map fun v => (.var v.1 : Node K))).map checkToken
        = (subnodesAll (vs.map fun v => .var v.2)).map checkToken :=
      hall (List.forall₂_map_left_iff.mpr (List.forall₂_map_right_iff.mpr
        (List.forall₂_same.mpr fun _ _ => rfl)))
    simp [subnodes, checkToken, ihlo, ihhi, ih, haway]
  | sum _ _ _ _ _ ihlo ihhi ih =>
    simp [subnodes, subnodesExclusions, checkToken, ihlo, ihhi, ih]

end Node

/-- Linked variables live in the same locals. -/
def Links.Placed (ρ : Links) (s s' : Scope) : Prop :=
  ∀ v ∈ ρ, ∃ k, s.lookup v.1 = some k ∧ s'.lookup v.2 = some k

theorem Links.Placed.cons {ρ : Links} {s s' : Scope} {x y : String} (h : ρ.Placed s s')
    (hx : x ∉ ρ.map (·.1)) (hy : y ∉ ρ.map (·.2)) (k : Nat) :
    Links.Placed ((x, y) :: ρ) ((x, k) :: s) ((y, k) :: s') := by
  refine List.forall_mem_cons.mpr ⟨⟨k, List.lookup_cons_self, List.lookup_cons_self⟩,
    fun v hv => ?_⟩
  have hne {z : String} {p : String × String → String} (hz : z ∉ ρ.map p) : (p v == z) = false :=
    beq_false_of_ne fun heq => hz (heq ▸ List.mem_map_of_mem hv)
  rw [List.lookup_cons, List.lookup_cons, hne hx, hne hy]
  exact h v hv

namespace Node

variable [Literal K]

theorem compileAll_eq {s s' : Scope} {ms ns : List (Node K)}
    (h : List.Forall₂ (fun a b => ∀ start, a.compile s start = b.compile s' start) ms ns)
    (start : Place) : compileAll s start ms = compileAll s' start ns := by
  induction h generalizing start with
  | nil => rfl
  | cons hab _ ih => simp only [compileAll, hab, ih]

/-- **Alike nodes have the same code.** -/
theorem Alike.compile_eq {ρ : Links} {m n : Node K} (h : m.Alike ρ n) {s s' : Scope}
    (hs : ρ.Placed s s') (start : Place) : m.compile s start = n.compile s' start := by
  induction h generalizing s s' start with
  | const | imaginaryUnit | named | time | unresolved | boundedSum | guarded => rfl
  | var hv =>
    obtain ⟨k, hx, hy⟩ := hs _ hv
    rw [compile, compile, hx, hy]
  | access b _ ih => cases b <;> simp only [compile, ih hs]
  | neg _ ih => simp only [compile, ih hs]
  | binary _ _ _ iha ihb | indicator _ _ iha ihb => simp only [compile, iha hs, ihb hs]
  | call func hlength _ ih =>
    have hall := compileAll_eq (List.forall₂_iff_zip.mpr ⟨hlength, fun hq => ih _ hq hs⟩)
    simp only [compile, hall]
  | sum hx hy _ _ _ ihlo ihhi ih =>
    simp only [compile, ihlo hs, ihhi hs, ih (hs.cons hx hy _)]

end Node

/-! ## Lowering -/

/-- Indices in scope with a variable for each of two lowerings. -/
abbrev LinkedScope := List (Index × String × String)

namespace LinkedScope

/-- The variables of the first lowering. -/
def left (σ : LinkedScope) : IndexScope := σ.map fun q => (q.1, q.2.1)

/-- The variables of the second lowering. -/
def right (σ : LinkedScope) : IndexScope := σ.map fun q => (q.1, q.2.2)

/-- The variables that have each other's place. -/
def links (σ : LinkedScope) : Links := σ.map (·.2)

theorem lookup_map (σ : LinkedScope) (f : String × String → String) (i : Index) :
    (σ.map fun q => (q.1, f q.2)).lookup i = (σ.lookup i).map f := by
  induction σ with
  | nil => rfl
  | cons q σ ih =>
    obtain ⟨j, v⟩ := q
    simp only [List.map_cons, List.lookup_cons, ih]
    cases i == j <;> rfl

theorem map_left (σ : LinkedScope) : σ.left.map (·.2) = σ.links.map (·.1) := by
  simp [left, links, Function.comp_def]

theorem map_right (σ : LinkedScope) : σ.right.map (·.2) = σ.links.map (·.2) := by
  simp [right, links, Function.comp_def]

end LinkedScope

open LinkedScope

variable {c : LoweringContext K} {reserved : List String} {σ : LinkedScope}

/-- The same context with other names reserved. -/
def LoweringContext.reserving (c : LoweringContext K) (reserved : List String) :
    LoweringContext K :=
  { c with reserved }

theorem agrees_indexNode (i : Index) :
    Agrees (fun m n => ∃ v ∈ σ.links, m = .var v.1 ∧ n = .var v.2) (c.indexNode σ.left i)
      ((c.reserving reserved).indexNode σ.right i) := by
  rw [LoweringContext.indexNode, LoweringContext.indexNode, left, right, lookup_map, lookup_map]
  cases hv : σ.lookup i with
  | none => exact rfl
  | some v => exact ⟨v, List.mem_map_of_mem (f := (·.2)) (mem_of_lookup hv), rfl, rfl⟩

theorem agrees_indexNodes (is : List Index) :
    Agrees (fun ms ns => ∃ vs ⊆ σ.links, ms = vs.map (.var ·.1) ∧ ns = vs.map (.var ·.2))
      (c.indexNodes σ.left is) ((c.reserving reserved).indexNodes σ.right is) := by
  refine (Agrees.mapM fun i _ => agrees_indexNode i).mono fun ms ns h => ?_
  induction h with
  | nil => exact ⟨[], List.nil_subset _, rfl, rfl⟩
  | cons hv _ ih =>
    obtain ⟨v, hv, rfl, rfl⟩ := hv
    obtain ⟨vs, hvs, rfl, rfl⟩ := ih
    exact ⟨v :: vs, List.cons_subset.mpr ⟨hv, hvs⟩, rfl, rfl⟩

/-- **The variables of a sum** are new in both lowerings. -/
theorem agrees_fresh (i : Index) :
    Lowering.Agrees (fun x y => x ∉ σ.links.map (·.1) ∧ y ∉ σ.links.map (·.2)) (c.fresh σ.left i)
      ((c.reserving reserved).fresh σ.right i) := by
  intro m n
  rw [← map_left, ← map_right]
  exact ⟨Expr.not_mem_scope (LoweringContext.not_mem_taken rfl),
    Expr.not_mem_scope (LoweringContext.not_mem_taken rfl)⟩

namespace Expr

section Joins

variable {ρ : Links} {acc acc' : Option (Node K)} {m n : Node K}

theorem alike_getD (hacc : Option.Rel (Node.Alike ρ) acc acc') (v : K) :
    (acc.getD (.const v)).Alike ρ (acc'.getD (.const v)) := by
  cases hacc with
  | none => exact .const v
  | some ha => exact ha

theorem alike_joinTerm (hacc : Option.Rel (Node.Alike ρ) acc acc') (h : m.Alike ρ n) :
    (joinTerm acc m).Alike ρ (joinTerm acc' n) := by
  cases hacc with
  | none => exact h
  | some ha => exact .binary .add ha h

theorem alike_joinNegated (hacc : Option.Rel (Node.Alike ρ) acc acc') (h : m.Alike ρ n) :
    (joinNegated acc m).Alike ρ (joinNegated acc' n) := by
  cases hacc with
  | none => exact .neg h
  | some ha => exact .binary .sub ha h

theorem alike_joinFactor (hacc : Option.Rel (Node.Alike ρ) acc acc') (h : m.Alike ρ n) :
    (joinFactor acc m).Alike ρ (joinFactor acc' n) := by
  cases hacc with
  | none => exact h
  | some ha => exact .binary .mul ha h

theorem alike_joinDivisor [Literal K] (hacc : Option.Rel (Node.Alike ρ) acc acc')
    (h : m.Alike ρ n) :
    (joinDivisor acc m).Alike ρ (joinDivisor acc' n) := .binary .div (alike_getD hacc _) h

end Joins

end Expr

variable [Literal K]

/-- The place of a member is built up dimension by dimension. -/
theorem alike_location (b : Buffer) {ρ vs : Links} {start start' : Node K}
    {dims : List (Node K × Node K)} (hvs : vs ⊆ ρ) (hstart : start.Alike ρ start')
    (hdims : ∀ d ∈ dims, d.1.Alike ρ d.1 ∧ d.2.Alike ρ d.2) :
    (AccessRule.location ⟨b, start, dims⟩ (vs.map (.var ·.1))).Alike ρ
      (AccessRule.location ⟨b, start', dims⟩ (vs.map (.var ·.2))) := by
  induction vs generalizing dims start start' with
  | nil => cases dims <;> exact .access b hstart
  | cons v vs ih =>
    obtain ⟨hv, hvs⟩ := List.cons_subset.mp hvs
    cases dims with
    | nil => exact .access b hstart
    | cons d dims =>
      obtain ⟨⟨hlower, hstride⟩, hdims⟩ := List.forall_mem_cons.mp hdims
      exact ih hvs (hstart.plus (((Node.Alike.var hv).minus hlower).times hstride)) hdims

/-- A rule in which no variable occurs. -/
structure AccessRule.Constant (r : AccessRule K) : Prop where
  start (ρ : Links) : r.start.Alike ρ r.start
  dims (ρ : Links) : ∀ d ∈ r.dims, d.1.Alike ρ d.1 ∧ d.2.Alike ρ d.2

/-- What symbols and families stand for has no variable in it. -/
structure LoweringContext.Constant (c : LoweringContext K) : Prop where
  names : ∀ q ∈ c.names, ∀ ρ : Links, q.2.Alike ρ q.2
  rules : ∀ s rule, c.rules.resolve s = .access rule → rule.Constant

theorem agrees_indexedNode (hc : c.Constant) (s : Indexed) :
    Agrees (Node.Alike σ.links) (c.indexedNode σ.left s)
      ((c.reserving reserved).indexedNode σ.right s) := by
  have hrules : (c.reserving reserved).rules = c.rules := rfl
  have hfill : (c.reserving reserved).zeroFill = c.zeroFill := rfl
  rw [LoweringContext.indexedNode, LoweringContext.indexedNode, hrules, hfill]
  split
  · next rule hrule =>
    refine (agrees_indexNodes s.indices).bind fun ms ns h => ?_
    obtain ⟨vs, hvs, rfl, rfl⟩ := h
    have hconstant := hc.rules s rule hrule
    exact alike_location rule.buffer hvs (hconstant.start _) (hconstant.dims _)
  · exact rfl
  · split
    · split
      · exact .access .zero (.const _)
      · refine (agrees_indexNode _).bind fun m n h => ?_
        obtain ⟨v, hv, rfl, rfl⟩ := h
        exact .access .zero (.var hv)
    · exact rfl

namespace Expr

theorem alike_boundNode (l : ParamLayout) (b : Bound) (ρ : Links) :
    (l.boundNode b : Node K).Alike ρ (l.boundNode b) :=
  .of_closed (Node.Plain.boundNode l b).bare (l.freeVars_boundNode b)

mutual

/-- **What is reserved does not matter for lowering**, apart from the names of variables. -/
theorem agrees_lower (hc : c.Constant) (reserved : List String) : ∀ (e : Expr K) (σ : LinkedScope),
    Lowering.Agrees (Node.Alike σ.links) (e.lower c σ.left) (e.lower (c.reserving reserved) σ.right)
  | .number v, _ => .pure (.const v)
  | .imaginaryUnit, _ => .pure (.named _)
  | .symbol x, σ => by
    refine .pure (a := (c.names.lookup x).getD (.named x))
      (b := (c.names.lookup x).getD (.named x)) ?_
    cases hx : c.names.lookup x with
    | none => exact .named x
    | some n => exact hc.names _ (mem_of_lookup hx) _
  | .indexed s, _ => .lift (agrees_indexedNode hc s)
  | .index i, _ => .lift ((agrees_indexNode i).mono fun m n h => by
    obtain ⟨v, hv, rfl, rfl⟩ := h
    exact .var hv)
  | .add terms, σ => agrees_lowerTerms hc reserved terms σ .none
  | .mul factors, σ => agrees_lowerFactors hc reserved factors σ .none
  | .pow base exponent, σ =>
    (agrees_lower hc reserved base σ).bind fun _ _ hb =>
      (agrees_lower hc reserved exponent σ).bind fun _ _ he => .pure (.binary .pow hb he)
  | .neg inner, σ => (agrees_lower hc reserved inner σ).bind fun _ _ h => .pure (.neg h)
  | .call func args, σ =>
    (agrees_lowerAll hc reserved args σ).bind fun _ _ h => .pure (.callAll func.name h)
  | .sum i away body, σ => by
    refine (Lowering.Agrees.lift (agrees_indexNodes away)).bind fun ms ns h => ?_
    obtain ⟨vs, hvs, rfl, rfl⟩ := h
    refine (agrees_fresh i).bind fun x y hxy => ?_
    refine (agrees_lower hc reserved body ((i, x, y) :: σ)).bind fun m n h => .pure ?_
    exact .boundedSum hxy.1 hxy.2 (alike_boundNode _ _ _) (alike_boundNode _ _ _) hvs h
  | .distinct i j body, σ => by
    refine (Lowering.Agrees.lift (agrees_indexNode i)).bind fun l l' hl => ?_
    refine (Lowering.Agrees.lift (agrees_indexNode j)).bind fun r r' hr => ?_
    obtain ⟨v, hv, rfl, rfl⟩ := hl
    obtain ⟨w, hw, rfl, rfl⟩ := hr
    exact (agrees_lower hc reserved body σ).bind fun _ _ h => .pure (.guarded (.var hv) (.var hw) h)

theorem agrees_lowerTerms (hc : c.Constant) (reserved : List String) : ∀ (es : List (Expr K))
    (σ : LinkedScope) {acc acc' : Option (Node K)}, Option.Rel (Node.Alike σ.links) acc acc' →
      Lowering.Agrees (Node.Alike σ.links) (lowerTerms c σ.left acc es)
        (lowerTerms (c.reserving reserved) σ.right acc' es)
  | [], _, _, _, hacc => .pure (alike_getD hacc _)
  | e :: rest, σ, acc, acc', hacc => by
    have hrest (m n : Node K) (h : m.Alike σ.links n) :=
      agrees_lowerTerms hc reserved rest σ (.some h)
    cases e with
    | neg inner =>
      rw [lowerTerms, lowerTerms]
      exact (agrees_lower hc reserved inner σ).bind fun _ _ h =>
        hrest _ _ (alike_joinNegated hacc h)
    | _ =>
      rw [lowerTerms, lowerTerms]
      · exact (agrees_lower hc reserved _ σ).bind fun _ _ h => hrest _ _ (alike_joinTerm hacc h)
      all_goals exact fun _ h => by cases h

theorem agrees_lowerFactors (hc : c.Constant) (reserved : List String) : ∀ (es : List (Expr K))
    (σ : LinkedScope) {acc acc' : Option (Node K)}, Option.Rel (Node.Alike σ.links) acc acc' →
      Lowering.Agrees (Node.Alike σ.links) (lowerFactors c σ.left acc es)
        (lowerFactors (c.reserving reserved) σ.right acc' es)
  | [], _, _, _, hacc => .pure (alike_getD hacc _)
  | e :: rest, σ, acc, acc', hacc => by
    have hrest (m n : Node K) (h : m.Alike σ.links n) :=
      agrees_lowerFactors hc reserved rest σ (.some h)
    cases e with
    | pow base exponent =>
      rw [lowerFactors, lowerFactors]
      refine (agrees_lower hc reserved base σ).bind fun _ _ hb => ?_
      split
      · exact hrest _ _ (alike_joinDivisor hacc hb)
      · exact (agrees_lower hc reserved exponent σ).bind fun _ _ he =>
          hrest _ _ (alike_joinFactor hacc (.binary .pow hb he))
    | _ =>
      rw [lowerFactors, lowerFactors]
      · exact (agrees_lower hc reserved _ σ).bind fun _ _ h => hrest _ _ (alike_joinFactor hacc h)
      all_goals exact fun _ _ h => by cases h

theorem agrees_lowerAll (hc : c.Constant) (reserved : List String) : ∀ (es : List (Expr K))
    (σ : LinkedScope), Lowering.Agrees (List.Forall₂ (Node.Alike σ.links)) (lowerAll c σ.left es)
      (lowerAll (c.reserving reserved) σ.right es)
  | [], _ => .pure .nil
  | e :: rest, σ =>
    (agrees_lower hc reserved e σ).bind fun _ _ h =>
      (agrees_lowerAll hc reserved rest σ).bind fun _ _ hrest => .pure (.cons h hrest)

end

end Expr

end Fluxion
