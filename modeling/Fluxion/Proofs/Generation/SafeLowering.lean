import Fluxion.Proofs.Expressions.Elimination
import Fluxion.Proofs.Lowering.Lowered
import Fluxion.Proofs.Layout.Resolution
import Fluxion.Proofs.Nodes.InsideArrays

/-!
# Proofs/Generation/SafeLowering — right-hand sides are lowered to safe nodes

Lowering produces safe nodes wherever the names and the families it looks up are safe
(`safe_of_lowered`).  Those of a generated procedure are: a scalar has a slot of its array, and the
member of a family that an occurrence refers to is inside the block of the family, because the
indices of the occurrence have the ranges of the family and their variables stand at sites of them.
-/

namespace Fluxion

open Arithmetic

variable {K V : Type} [Literal K] [Arithmetic K V]

namespace Setting

/-- **A context whose symbols are safe.** -/
structure Hosts (S : Setting K V) (c : LoweringContext K) : Prop where
  params : c.params = S.layout
  names : ∀ x n, c.names.lookup x = some n → ∀ scope, S.Safe scope n
  rules : ∀ s rule, c.rules.resolve s = .access rule → ∀ (scope : IndexScope) xs,
    scope.Names s.indices xs → S.Safe scope (rule.location (xs.map .var))

variable {S : Setting K V} {c : LoweringContext K} {scope : IndexScope} {acc : Option (Node K)}
  {n : Node K}

theorem safe_var {i : Index} {x : String} (h : scope.lookup i = some x) :
    S.Safe scope (.var x) :=
  List.mem_map.mpr ⟨(i, x), mem_of_lookup h, rfl⟩

omit [Literal K] in
theorem excludes_of_names {is : List Index} {xs : List String} (h : scope.Names is xs) :
    ∀ n ∈ xs.map (Node.var : String → Node K), Excludes scope n := by
  intro n hn
  obtain ⟨x, hx, rfl⟩ := List.mem_map.mp hn
  obtain ⟨i, -, hi⟩ := exists_of_forall₂ h.flip hx
  exact ⟨x, List.mem_map.mpr ⟨(i, x), mem_of_lookup hi, rfl⟩, rfl⟩

theorem safeAll_of_forall {ns : List (Node K)} (h : ∀ n ∈ ns, S.Safe scope n) :
    S.SafeAll scope ns := by
  induction ns with
  | nil => trivial
  | cons n ns ih =>
    obtain ⟨hn, hns⟩ := List.forall_mem_cons.mp h
    exact ⟨hn, ih hns⟩

omit [Literal K] [Arithmetic K V] in
theorem mentions_child {e t : Expr K} (h : ∀ i ∈ e.mentions, i ∈ S.indices) (ht : t ∈ e.children) :
    ∀ i ∈ t.mentions, i ∈ S.indices :=
  fun i hi => h i (((Expr.inherited_mentions i).iff [] e).mpr (.inr ⟨t, ht, hi⟩))

theorem ruleClosed_safe (hc : S.Hosts c) :
    Expr.RuleClosed c fun scope e n => (∀ i ∈ e.mentions, i ∈ S.indices) → S.Safe scope n where
  join _ _ := ⟨fun _ _ => trivial, fun h hmem => h hmem, fun _ _ _ ha hb hmem =>
    ⟨ha hmem, hb hmem⟩⟩
  part ht h hmem := h (mentions_child hmem (Expr.mem_children_of_mem_parts ht))
  imaginaryUnit _ _ := trivial
  symbol scope x _ := by
    cases hx : c.names.lookup x with
    | none => trivial
    | some n => exact hc.names x n hx scope
  indexed hrule hxs _ := hc.rules _ _ hrule _ _ hxs
  unknown _ _ _ := trivial
  index hx _ := safe_var hx
  call h hmem := safeAll_of_forall fun n hn => h n hn hmem
  sum hx hxs h hmem := by
    refine ⟨excludes_of_names hxs, _, ⟨hmem _ List.mem_cons_self, Expr.not_mem_scope hx, ?_, ?_⟩,
      ?_⟩
    · rw [hc.params]
    · rw [hc.params]
    · exact h (mentions_child hmem List.mem_cons_self)
  distinct hx hy h hmem := ⟨safe_var hx, safe_var hy, h (mentions_child hmem List.mem_cons_self)⟩

/-- **What is lowered is safe.** -/
theorem safe_of_lowered (hc : S.Hosts c) {e : Expr K} (h : e.Lowered c scope n)
    (hmem : ∀ i ∈ e.mentions, i ∈ S.indices) : S.Safe scope n :=
  (ruleClosed_safe hc).of_lowered h hmem

end Setting

/-! ## Slots of a system -/

/-- The slots a state takes: one, or one a site. -/
def Target.slots (l : ParamLayout) (params : Array V) (t : Target) : ℕ :=
  (t.indices.map (·.count l params)).prod

namespace EquationSystem

/-- **The slots a state vector has at least**: one for each scalar equation, and one a site for each
family. -/
def slots (l : ParamLayout) (params : Array V) (system : EquationSystem K) : ℕ :=
  (system.equations.map (·.lhs.slots l params)).sum

/-- Every index of a system. -/
def indices (system : EquationSystem K) : List Index :=
  system.equations.flatMap fun e => e.lhs.indices ++ e.rhs.mentions

end EquationSystem

section Slots

variable {l : ParamLayout} {params : Array V} {equations : List (Equation K)} {s : Split K}

/-- Slots are counted kind by kind. -/
theorem Split.Divides.slots (h : s.Divides equations) :
    (equations.map (·.lhs.slots l params)).sum
      = s.scalars.length + (s.families.map (·.2.count l params)).sum := by
  have hown : ∀ e ∈ equations, ∀ i is, e.lhs.indices = i :: is → is = [] := by
    intro e he i is his
    have hmem : (e, i) ∈ s.families := by
      rw [h.families]
      exact List.mem_filterMap.mpr ⟨e, he, by rw [his]; rfl⟩
    have hindices := h.own (e, i) hmem
    rw [his] at hindices
    exact (List.cons.inj hindices).2
  rw [h.scalars, h.families]
  clear h
  induction equations with
  | nil => rfl
  | cons e equations ih =>
    obtain ⟨he, hown⟩ := List.forall_mem_cons.mp hown
    rw [List.map_cons, List.sum_cons, ih hown, Target.slots]
    cases hi : e.lhs.indices with
    | nil =>
      simp [hi]
      omega
    | cons i is =>
      obtain rfl := he i is hi
      simp [hi]
      omega

end Slots

/-! ## Families of the layout -/

namespace StateLayout

variable {s : Split K} {l : ParamLayout} {f : StateFamily K} {j : ℕ}

/-- A family of the layout, with its equation. -/
theorem exists_of_family (hf : (ofSplit s l).families[j]? = some f) :
    ∃ q, s.families[j]? = some q ∧ f.base = q.1.lhs.state ∧ f.index = q.2 := by
  have hplaced := forall₂_placeFamilies l (.ofInt s.scalars.length) s.families
  obtain ⟨hj, rfl⟩ := List.getElem?_eq_some_iff.mp hf
  have hlength : j < s.families.length := hplaced.length_eq.symm ▸ hj
  refine ⟨_, List.getElem?_eq_getElem hlength, ?_⟩
  exact hplaced.get hlength hj

/-- What holds of the first place, and of every place a range behind another one, holds of where a
family starts. -/
theorem start_induction {P : Node K → Prop} (hfirst : P (.ofInt s.scalars.length))
    (hnext : ∀ start i, P start → P (start.plus (l.rangeSize i)))
    (hf : f ∈ (ofSplit s l).families) :
    P f.start := by
  suffices hplaced : ∀ (fs : List (Equation K × Index)) (start : Node K), P start →
      ∀ f ∈ placeFamilies l start fs, P f.start from hplaced _ _ hfirst f hf
  intro fs
  induction fs with
  | nil => simp [placeFamilies]
  | cons q fs ih =>
    intro start hstart
    exact List.forall_mem_cons.mpr ⟨hstart, ih _ (hnext start q.2 hstart)⟩

theorem plain_start (hf : f ∈ (ofSplit s l).families) : f.start.Plain :=
  start_induction (P := Node.Plain) (.const _) (fun _ _ hstart => hstart.plus (.rangeSize _ _)) hf

theorem plain_size (hf : f ∈ (ofSplit s l).families) : f.size.Plain := by
  suffices hplaced : ∀ (fs : List (Equation K × Index)) (start : Node K),
      ∀ f ∈ placeFamilies l start fs, f.size.Plain from hplaced _ _ f hf
  intro fs
  induction fs with
  | nil => simp [placeFamilies]
  | cons q fs ih =>
    intro start
    exact List.forall_mem_cons.mpr ⟨.rangeSize l q.2, ih _⟩

theorem plain_subscript (hf : f ∈ (ofSplit s l).families) (x : String) :
    (f.subscript l (.var x)).Plain :=
  (plain_start hf).plus (((Node.Plain.var x).minus (.boundNode _ _)).times _)

theorem plain_slot (hf : f ∈ (ofSplit s l).families) (x : String) : (f.slot l (.var x)).Plain :=
  (plain_start hf).plus ((Node.Plain.var x).minus (.boundNode _ _))

section Starts

variable {equations : List (Equation K)} {p : Procedure K} {inputs : Inputs K V} {env : Env V}

/-- The block of a family starts behind those before it. -/
theorem stands_start [RealParts K V] {A : Type} [CommRing A] {C : Counting A K} {lo hi : A}
    (h : s.Divides equations) (hf : (ofSplit s l).families[j]? = some f) (hrange : C.HasRange lo hi)
    (hreach : ∀ i ≤ j, C.InReach (s.scalars.length + i * (hi - lo + 1)))
    (hlower : C.Stands p inputs env (l.boundNode f.index.lower) lo)
    (hupper : C.Stands p inputs env (l.boundNode f.index.upper) hi) :
    C.Stands p inputs env f.start (s.scalars.length + j * (hi - lo + 1)) := by
  obtain ⟨q, hq, -, hindex⟩ := exists_of_family hf
  have hsame : ∀ q' ∈ s.families, q'.2.lower = f.index.lower ∧ q'.2.upper = f.index.upper := by
    intro q' hq'
    rw [hindex]
    exact h.sameRange q' hq' q (List.mem_of_getElem? hq)
  have hfirst : C.Stands p inputs env (.ofInt s.scalars.length) (s.scalars.length : A) := by
    have hzero := hreach 0 (Nat.zero_le j)
    rw [Nat.cast_zero, zero_mul, add_zero] at hzero
    rw [Node.ofInt, ← C.value_intCast, Int.cast_natCast]
    exact Counting.stands_const hzero
  exact Counting.stands_placeFamilies s.families hrange hfirst
    (fun q' hq' => (hsame q' hq').1 ▸ hlower) (fun q' hq' => (hsame q' hq').2 ▸ hupper) hreach hf

theorem reads_start [Field K] [LinearOrder K] [IsStrictOrderedRing K] [ExactIndices K V] {lo hi : K}
    (h : s.Divides equations) (hf : (ofSplit s l).families[j]? = some f)
    (hlower : (l.boundNode f.index.lower).Reads p inputs env lo)
    (hupper : (l.boundNode f.index.upper).Reads p inputs env hi) :
    f.start.Reads p inputs env (s.scalars.length + j * (hi - lo + 1)) :=
  (stands_start (C := ExactLiteral.counting) h hf ⟨trivial, trivial, trivial, trivial⟩
    (fun _ _ => trivial) ⟨trivial, hlower⟩ ⟨trivial, hupper⟩).2

end Starts

end StateLayout

/-! ## The symbols of a generated procedure -/

namespace Stages

open StateLayout

/-- What the right-hand sides of a system are evaluated in. -/
def setting (g : Stages K) (system : EquationSystem K) (p : Procedure K) (inputs : Inputs K V) :
    Setting K V := ⟨p, inputs, g.layout, system.indices⟩

/-- **Inputs that are large enough** for the layouts, and integral where bounds are read. -/
structure Serves (g : Stages K) (system : EquationSystem K) (inputs : Inputs K V) : Prop where
  params : g.layout.size ≤ inputs.p.size
  states : system.slots g.layout inputs.p ≤ inputs.u.size
  integral : ∀ i ∈ system.indices,
    i.lower.Integral g.layout inputs.p ∧ i.upper.Integral g.layout inputs.p

variable {g : Stages K} {system : EquationSystem K} {params : List (Expr K)} {options : Options}
  {p : Procedure K} {inputs : Inputs K V} {scope : IndexScope} {f : StateFamily K} {j : ℕ}
  {lo hi : ℤ}

theorem Lead.slots_eq (h : g.Lead system params options p) (data : Array V) :
    system.slots g.layout data
      = g.split.scalars.length + (g.split.families.map (·.2.count g.layout data)).sum := by
  rw [← h.divides.slots]
  have hlhs := congrArg (List.map (Target.slots g.layout data)) h.lhs
  rw [List.map_map, List.map_map] at hlhs
  exact congrArg List.sum hlhs.symm

/-- The index of a family is one of the system. -/
theorem Lead.mem_indices (h : g.Lead system params options p) {q : Equation K × Index}
    (hq : q ∈ g.split.families) : q.2 ∈ system.indices := by
  have hmem := List.mem_map_of_mem (f := (·.1)) hq
  rw [h.divides.equations_families] at hmem
  have hlhs : q.1.lhs ∈ system.equations.map (·.lhs) :=
    h.lhs ▸ List.mem_map_of_mem (List.mem_filter.mp hmem).1
  obtain ⟨e, he, hlhs⟩ := List.mem_map.mp hlhs
  refine List.mem_flatMap.mpr ⟨e, he, List.mem_append_left _ ?_⟩
  rw [hlhs, h.divides.own q hq]
  exact List.mem_cons_self

/-- Families before and with a given one fit into the state vector. -/
theorem Lead.slots_family (h : g.Lead system params options p)
    (hf : g.states.families[j]? = some f) (hlo : f.index.lower.site? g.layout inputs.p = some lo)
    (hhi : f.index.upper.site? g.layout inputs.p = some hi) :
    g.split.scalars.length + (j + 1) * (hi - lo + 1).toNat ≤ system.slots g.layout inputs.p := by
  obtain ⟨q, hq, -, hindex⟩ := exists_of_family hf
  have hcount : ∀ q' ∈ g.split.families, q'.2.count g.layout inputs.p = (hi - lo + 1).toNat := by
    intro q' hq'
    obtain ⟨hlower, hupper⟩ := h.divides.sameRange q' hq' q (List.mem_of_getElem? hq)
    rw [Index.count, hlower, hupper, ← hindex, hlo, hhi]
  have hj : j + 1 ≤ g.split.families.length := (List.getElem?_eq_some_iff.mp hq).1
  rw [h.slots_eq, List.map_congr_left hcount, List.map_const', List.sum_replicate_nat]
  exact Nat.add_le_add_left (Nat.mul_le_mul_right _ hj) _

theorem Serves.admissible (hs : g.Serves system inputs) (h : g.Lead system params options p) :
    (g.setting system p inputs).Admissible where
  slots _ _ hk := (h.places.scalar _ (mem_of_lookup hk)).2.trans_le hs.params
  integral := hs.integral

/-- **The slot of a member of a family of states**: behind `n` scalars and `j` families of the same
range, at a site of it. -/
def memberSlot (n j : ℕ) (lo hi m : ℤ) : ℕ := n + j * (hi - lo + 1).toNat + (m - lo).toNat

theorem memberSlot_eq {n j : ℕ} {lo hi m : ℤ} (hle : lo ≤ m) (hge : m ≤ hi) :
    (memberSlot n j lo hi m : ℤ) = n + j * (hi - lo + 1) + (m - lo) := by
  rw [memberSlot, Nat.cast_add, Nat.cast_add, Nat.cast_mul,
    Int.toNat_of_nonneg (by omega : 0 ≤ m - lo), Int.toNat_of_nonneg (by omega : 0 ≤ hi - lo + 1)]

theorem memberSlot_lt {n j : ℕ} {lo hi m : ℤ} (hle : lo ≤ m) (hge : m ≤ hi) :
    memberSlot n j lo hi m < n + (j + 1) * (hi - lo + 1).toNat := by
  have hsite : (m - lo).toNat < (hi - lo + 1).toNat := by omega
  rw [memberSlot, Nat.succ_mul]
  omega

/-- A member of a family of states is written at its slot, as long as literals count that far. -/
theorem Lead.reads_slot [RealParts K V] {env : Env V} {site : Node K} {m : ℤ} {limit : ℕ}
    (hK : ExactSitesTo K limit) (h : g.Lead system params options p)
    (hf : g.states.families[j]? = some f)
    (hlower : (g.layout.boundNode f.index.lower).Reads p inputs env (Literal.ofInt lo))
    (hupper : (g.layout.boundNode f.index.upper).Reads p inputs env (Literal.ofInt hi))
    (hsite : site.Reads p inputs env (Literal.ofInt m)) (hle : lo ≤ m) (hge : m ≤ hi)
    (hlo : lo.natAbs < limit) (hhi : hi.natAbs < limit)
    (hlimit : g.split.scalars.length + (j + 1) * (hi - lo + 1).toNat ≤ limit) :
    (f.slot g.layout site).Reads p inputs env
      (Literal.ofInt (memberSlot g.split.scalars.length j lo hi m)) := by
  have hreach (i : ℕ) (hi' : i ≤ j) :
      (g.split.scalars.length + i * (hi - lo + 1)).natAbs ≤ limit := by
    have hcount : ((hi - lo + 1).toNat : ℤ) = hi - lo + 1 := Int.toNat_of_nonneg (by omega)
    have hblocks := Nat.mul_le_mul_right (hi - lo + 1).toNat (show i ≤ j + 1 by omega)
    rw [← hcount]
    norm_cast
    omega
  have hsize : (hi - lo + 1).toNat ≤ limit := by
    rw [Nat.succ_mul] at hlimit
    omega
  have hslot : (memberSlot g.split.scalars.length j lo hi m : ℤ).natAbs ≤ limit :=
    (memberSlot_lt hle hge).le.trans hlimit
  rw [memberSlot_eq hle hge] at hslot ⊢
  have hrange : hK.counting.HasRange lo hi := by
    constructor <;> change Int.natAbs _ ≤ limit <;> omega
  have hstart := stands_start h.divides hf hrange hreach ⟨hlo.le, hlower⟩ ⟨hhi.le, hupper⟩
  refine (Counting.stands_slot hstart ⟨hlo.le, hlower⟩ ⟨?_, hsite⟩ ?_ hslot).2
  · change m.natAbs ≤ limit
    omega
  · change (m - lo).natAbs ≤ limit
    omega

section Members

open ExactLiteral ExactIndices

variable [Field K] [LinearOrder K] [IsStrictOrderedRing K] [ExactIndices K V]

/-- The site a variable stands at. -/
theorem reads_of_fits {S : Setting K V} {env : Env V} (henv : S.Fits scope env) {i : Index}
    {x : String} (hx : scope.lookup i = some x) :
    ∃ lo hi m : ℤ, i.lower.site? S.layout S.inputs.p = some lo ∧
      i.upper.site? S.layout S.inputs.p = some hi ∧ lo ≤ m ∧ m ≤ hi ∧
        (Node.var x).Reads S.procedure S.inputs env (m : K) := by
  obtain ⟨v, hv, lo, hi, m, hlo, hhi, hle, hge, hreal⟩ := henv i x (mem_of_lookup hx)
  refine ⟨lo, hi, m, hlo, hhi, hle, hge, ?_⟩
  rw [← ofInt_eq, ← hreal]
  exact Node.reads_var hv

section Reads

variable {env : Env V} {site : Node K} {m : ℤ}

theorem Serves.reads_bounds (hs : g.Serves system inputs) (h : g.Lead system params options p)
    (hf : g.states.families[j]? = some f) (hlo : f.index.lower.site? g.layout inputs.p = some lo)
    (hhi : f.index.upper.site? g.layout inputs.p = some hi) :
    (g.layout.boundNode f.index.lower).Reads p inputs env (lo : K) ∧
      (g.layout.boundNode f.index.upper).Reads p inputs env (hi : K) := by
  obtain ⟨q, hq, -, hindex⟩ := exists_of_family hf
  obtain ⟨hlower, hupper⟩ := hs.integral _ (h.mem_indices (List.mem_of_getElem? hq))
  exact ⟨reads_boundNode (hindex ▸ hlower) hlo, reads_boundNode (hindex ▸ hupper) hhi⟩

/-- A member of a family of states is read at its slot. -/
theorem Serves.reads_subscript (hs : g.Serves system inputs) (h : g.Lead system params options p)
    (hf : g.states.families[j]? = some f) (hlo : f.index.lower.site? g.layout inputs.p = some lo)
    (hhi : f.index.upper.site? g.layout inputs.p = some hi) (hle : lo ≤ m) (hge : m ≤ hi)
    (hsite : site.Reads p inputs env (m : K)) :
    (f.subscript g.layout site).Reads p inputs env
      (Literal.ofInt (memberSlot g.split.scalars.length j lo hi m)) := by
  obtain ⟨hlower, hupper⟩ := hs.reads_bounds h hf hlo hhi
  rw [ofInt_eq, memberSlot_eq hle hge]
  push_cast
  exact StateFamily.reads_subscript (reads_start h.divides hf hlower hupper) hlower hsite

end Reads

/-- What is read of a family of states is inside the state vector. -/
theorem Serves.inside_subscript (hs : g.Serves system inputs) (h : g.Lead system params options p)
    (hf : f ∈ g.states.families) {i : Index} {x : String} (hx : scope.lookup i = some x)
    (hrange : i.lower = f.index.lower ∧ i.upper = f.index.upper) {size : ℕ}
    (hsize : system.slots g.layout inputs.p ≤ size) :
    (g.setting system p inputs).Inside scope size (f.subscript g.layout (.var x)) where
  plain := plain_subscript hf x
  reads env henv := by
    obtain ⟨j, hj⟩ := List.getElem?_of_mem hf
    obtain ⟨lo, hi, m, hlo, hhi, hle, hge, hsite⟩ := reads_of_fits henv hx
    rw [hrange.1] at hlo
    rw [hrange.2] at hhi
    refine ⟨_, ?_, hs.reads_subscript h hj hlo hhi hle hge hsite⟩
    exact (memberSlot_lt hle hge).trans_le ((h.slots_family hj hlo hhi).trans hsize)

/-- The sites that the variables of an occurrence stand at are in the dimensions of the family. -/
theorem exists_sites {S : Setting K V} {env : Env V} (henv : S.Fits scope env)
    {is own : List Index} {dims : List (ℤ × ℕ)} {xs : List String}
    (hrange : List.Forall₂ (fun i j : Index => i.lower = j.lower ∧ i.upper = j.upper) is own)
    (hdims : List.Forall₂ (fun i d => ParamLayout.dim? i = some d) own dims)
    (hxs : scope.Names is xs) :
    ∃ ms : List ℤ,
      List.Forall₂ (fun n (m : ℤ) => Node.Reads S.procedure S.inputs env n m) (xs.map .var) ms ∧
        List.Forall₂ (fun (d : ℤ × ℕ) m => d.1 ≤ m ∧ m < d.1 + d.2) dims ms := by
  induction hrange generalizing dims xs with
  | nil =>
    cases hdims
    cases hxs
    exact ⟨[], .nil, .nil⟩
  | @cons i j is own hij _ ih =>
    obtain ⟨d, dims, hd, hdims', rfl⟩ := List.forall₂_cons_left_iff.mp hdims
    obtain ⟨x, xs, hx, hxs', rfl⟩ := List.forall₂_cons_left_iff.mp hxs
    obtain ⟨ms, hreads, hinside⟩ := ih hdims' hxs'
    obtain ⟨lo, hi, m, hlo, hhi, hle, hge, hsite⟩ := reads_of_fits henv hx
    refine ⟨m :: ms, .cons hsite hreads, .cons ?_ hinside⟩
    rw [hij.1] at hlo
    rw [hij.2] at hhi
    cases hlower : j.lower with
    | symbol name => simp [ParamLayout.dim?, hlower, Bound.literal?] at hd
    | literal a =>
      cases hupper : j.upper with
      | symbol name => simp [ParamLayout.dim?, Index.size?, hlower, hupper, Bound.literal?] at hd
      | literal b =>
        rw [hlower] at hlo
        rw [hupper] at hhi
        obtain rfl := Option.some.inj hlo
        obtain rfl := Option.some.inj hhi
        rw [ParamLayout.dim?, Index.size?, hlower, hupper] at hd
        obtain rfl := Option.some.inj hd
        dsimp only
        omega

/-- What is read of a family of parameters is inside the parameters. -/
theorem Serves.inside_param (hs : g.Serves system inputs) (h : g.Lead system params options p)
    {f : ParamFamily} (hf : f ∈ g.layout.families) {is : List Index} {xs : List String}
    (hrange : List.Forall₂ (fun i j : Index => i.lower = j.lower ∧ i.upper = j.upper) is f.indices)
    (hxs : scope.Names is xs) :
    (g.setting system p inputs).Inside scope inputs.p.size
      (ParamFamily.subscript f.dims (.ofInt f.start) (xs.map .var)) where
  plain := ParamFamily.plain_subscript (.const _) xs
  reads env henv := by
    obtain ⟨-, hdims, hsize⟩ := h.places.family f hf
    obtain ⟨ms, hreads, hinside⟩ := exists_sites henv hrange hdims hxs
    obtain ⟨hlow, hhigh⟩ := rowMajor_bounds hinside
    obtain ⟨k, hk⟩ := Int.eq_ofNat_of_zero_le hlow
    have hplace : (Node.ofInt f.start : Node K).Reads p inputs env _ := Node.reads_ofInt _
    refine ⟨f.start + k, ?_, ?_⟩
    · rw [ParamFamily.size] at hsize
      have hparams := hs.params
      omega
    · have hmember : (ParamFamily.subscript f.dims (.ofInt f.start) (xs.map .var)).Reads p inputs
          env _ := ParamFamily.reads_subscript hplace hreads
      rw [ofInt_eq, Nat.cast_add, Int.cast_add, ← hk]
      exact hmember

/-- A literal slot of an array. -/
theorem inside_ofInt (S : Setting K V) {k size : ℕ} (hk : k < size) :
    S.Inside scope size (.ofInt k) :=
  ⟨.const _, fun _ _ => ⟨k, hk, Node.reads_const_iff.mpr rfl⟩⟩

/-- **The symbols of a generated procedure are safe.** -/
theorem Serves.hosts (hs : g.Serves system inputs) (h : g.Lead system params options p)
    {c : LoweringContext K} (hc : g.Hosts options c) : (g.setting system p inputs).Hosts c where
  params := hc.params
  names x n hn scope := by
    have hmem := mem_of_lookup (hc.names ▸ hn)
    rw [(scalarNodes_eq_ok h.names).2, List.mem_append, List.mem_append, List.mem_map, List.mem_map,
      List.mem_map] at hmem
    rcases hmem with (⟨_, -, hq⟩ | ⟨q, hq, hqn⟩) | ⟨q, hq, hqn⟩
    · obtain ⟨-, rfl⟩ := Prod.mk.inj hq
      trivial
    · obtain ⟨-, rfl⟩ := Prod.mk.inj hqn
      exact inside_ofInt _ ((h.places.scalar q hq).2.trans_le hs.params)
    · obtain ⟨-, rfl⟩ := Prod.mk.inj hqn
      have hlt := List.snd_lt_of_mem_zipIdx hq
      rw [List.length_map, Nat.add_zero] at hlt
      refine inside_ofInt _ (hlt.trans_le (le_trans ?_ hs.states))
      rw [h.slots_eq]
      exact Nat.le_add_right _ _
  rules s rule hrule scope xs hxs := by
    rw [hc.rules] at hrule
    obtain ⟨d, hd, hrefers, rfl⟩ := RuleSet.refers_of_resolve hrule
    have hrange := (FamilyDecl.refers_iff.mp hrefers).2.imp fun _ _ hi => hi.2
    rcases List.mem_append.mp hd with hd | hd
    · obtain ⟨f, hf, rfl⟩ := List.mem_map.mp hd
      obtain ⟨i, is, hi, his, hindices⟩ := List.forall₂_cons_right_iff.mp hrange
      obtain rfl := List.forall₂_nil_right_iff.mp his
      rw [hindices] at hxs
      obtain ⟨x, _, hx, hnil, rfl⟩ := List.forall₂_cons_left_iff.mp hxs
      obtain rfl := List.forall₂_nil_left_iff.mp hnil
      exact hs.inside_subscript h hf hx hi hs.states
    · obtain ⟨f, hf, rfl⟩ := List.mem_map.mp hd
      exact hs.inside_param h hf hrange hxs

end Members

/-- No index is brought in on the way to what is lowered. -/
theorem Lead.mem_indices_rhs (h : g.Lead system params options p) {e : Equation K}
    (he : e ∈ g.equations) {i : Index} (hi : i ∈ e.rhs.mentions) : i ∈ system.indices := by
  obtain ⟨e₀, he₀, -, hrhs⟩ := exists_of_forall₂ h.forall₂_equations.flip he
  rw [hrhs, Expr.cleared] at hi
  refine List.mem_flatMap.mpr ⟨e₀, he₀, List.mem_append_right _ ?_⟩
  split at hi
  · exact hi
  · exact Expr.mentions_eliminate hi

/-- What the value of a scalar state was lowered from. -/
theorem Lead.lowered_scalar (h : g.Lead system params options p) {k : ℕ} {n : Node K}
    (hn : g.scalars[k]? = some n) : ∃ e c, g.split.scalars[k]? = some e ∧ g.Hosts options c ∧
      e.rhs.Lowered c [] n ∧ ∀ i ∈ e.rhs.mentions, i ∈ system.indices := by
  obtain ⟨e, he, i, j, hlower⟩ := getElem?_of_forall₂ h.scalars.flip hn
  have hmem := List.mem_of_getElem? he
  rw [h.divides.indices_scalars e hmem] at hlower
  refine ⟨e, _, he, ?_, Expr.lowered_of_lower _ e.rhs hlower, fun i hi => h.mem_indices_rhs ?_ hi⟩
  · exact ⟨rfl, rfl, rfl, rfl⟩
  · rw [h.divides.scalars] at hmem
    exact (List.mem_filter.mp hmem).1

/-- What the value of a family was lowered from. -/
theorem Lead.lowered_family (h : g.Lead system params options p) {q : Equation K × Index}
    {n : Node K} (hq : g.split.families[j]? = some q) (hn : g.families[j]? = some n) :
    ∃ c, g.Hosts options c ∧ q.1.rhs.Lowered c [(q.2, g.var)] n ∧
      ∀ i ∈ q.1.rhs.mentions, i ∈ system.indices := by
  obtain ⟨e, he, i, k, hlower⟩ := getElem?_of_forall₂ h.families.flip hn
  rw [List.getElem?_map, hq, Option.map_some] at he
  obtain rfl := Option.some.inj he
  have hmem := List.mem_of_getElem? hq
  rw [h.divides.own q hmem] at hlower
  refine ⟨_, ?_, Expr.lowered_of_lower _ q.1.rhs hlower, fun i hi => h.mem_indices_rhs ?_ hi⟩
  · exact ⟨rfl, rfl, rfl, rfl⟩
  · have hequation := List.mem_map_of_mem (f := (·.1)) hmem
    rw [h.divides.equations_families] at hequation
    exact (List.mem_filter.mp hequation).1

end Stages

end Fluxion
