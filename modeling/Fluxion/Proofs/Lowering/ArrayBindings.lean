import Fluxion.Proofs.Lowering.LoweredValues
import Fluxion.Proofs.Generation.SafeLowering

/-!
# Proofs/Lowering/ArrayBindings — bindings that agree with the arrays of a call

Bindings *agree* with the arrays of a call if they give a symbol no value but the one that the
layouts find for it (`Bindings.Agrees`):

    scalar state k             u[k]
    family j at the site m     u[n + j * (hi - lo + 1) + (m - lo)]     behind the `n` scalar states
    scalar parameter           p at its slot
    parameter family           p behind its first slot, row by row
    time                       t

Any symbol may be left without a value, and a name that is declared twice has one value if it has
any.  **The contexts of lowering render bindings that agree with the arrays**
(`Bindings.Agrees.renders`), in every interpretation of nodes.
-/

namespace Fluxion

open Arithmetic

variable {K V : Type} [Literal K] [Arithmetic K V]

/-! ## Bindings and arrays -/

/-- What a bound holds: a literal, or the real part of a parameter. -/
def Bound.real? (l : ParamLayout) (params : Array V) : Bound → Option K
  | .literal n => some (Literal.ofInt n)
  | .symbol name => do return real (← params[← l.slot? name]?)

/-- **Bindings that agree with the arrays of a call**, through the layouts of states and
parameters. -/
structure Bindings.Agrees [Field K] (b : Bindings V) (split : Split K) (l : ParamLayout)
    (time : Option String) (inputs : Inputs K V) : Prop where
  declared : ∀ x v, b.scalar x = some v →
    x ∈ split.scalars.map (·.lhs.state) ∨ x ∈ l.scalars.map (·.1) ∨ time = some x
  state : ∀ (k : ℕ) e v, split.scalars[k]? = some e → b.scalar e.lhs.state = some v →
    inputs.u[k]? = some v
  param : ∀ x k v, (x, k) ∈ l.scalars → b.scalar x = some v → inputs.p[k]? = some v
  time : ∀ x v, time = some x → b.scalar x = some v → v = ofLiteral inputs.t
  member : ∀ (j : ℕ) e i (m : ℤ) v, split.families[j]? = some (e, i) →
    b.site e.lhs.state [m] = some v → ∃ (lo hi : K) (k : ℕ), i.lower.real? l inputs.p = some lo ∧
      i.upper.real? l inputs.p = some hi ∧
        (k : K) = split.scalars.length + j * (hi - lo + 1) + (m - lo) ∧ inputs.u[k]? = some v
  paramMember : ∀ f ∈ l.families, ∀ ms v, ms.length = f.indices.length → b.site f.base ms = some v →
    ∃ k : ℕ, (k : ℤ) = f.start + rowMajor f.dims ms ∧ inputs.p[k]? = some v
  /-- Families that nothing declares are zero. -/
  undeclared : ∀ base ms v, base ∉ split.families.map (·.1.lhs.state) →
    (∀ e ∈ split.scalars, e.lhs ≠ .indexed ⟨base, []⟩) → base ∉ l.families.map (·.base) →
      b.site base ms = some v → v = zero

/-- **A context for the equations of a split**: its tables are made from the layouts. -/
structure LoweringContext.Serves (c : LoweringContext K) (split : Split K) (l : ParamLayout)
    (time : Option String) : Prop where
  params : c.params = l
  names : scalarNodes (.ofSplit split l) l time = .ok c.names
  rules : ∃ declared limit, RuleSet.build (.ofSplit split l) l declared limit = .ok c.rules

section Reads

variable [Field K] [LinearOrder K] [IsStrictOrderedRing K] [ExactIndices K V] {p : Procedure K}
  {env : Env V}

/-- **A bound has one value**, whose real part is what it holds. -/
theorem meaning_boundNode {l : ParamLayout} {inputs : Inputs K V} {b : Bound} {a : K}
    (h : b.real? l inputs.p = some a) :
    ∃ v : V, real v = a ∧ ∀ p env, (l.boundNode b).meaning p inputs env = .of (.ok v) := by
  cases b with
  | literal n =>
    obtain rfl := Option.some.inj h
    refine ⟨ofLiteral (Literal.ofInt n), ExactIndices.real_ofLiteral _, fun p env => ?_⟩
    rw [ParamLayout.boundNode, Node.ofInt, Node.meaning]
  | symbol name =>
    obtain ⟨k, hk, h⟩ := Option.bind_eq_some_iff.mp h
    obtain ⟨v, hv, h⟩ := Option.bind_eq_some_iff.mp h
    refine ⟨v, Option.some.inj h, fun p env => ?_⟩
    rw [ParamLayout.boundNode, hk]
    exact Node.meaning_accessAt (exactSitesTo k) le_rfl hv

/-- A bound reads as what it holds. -/
theorem reads_of_real? {l : ParamLayout} {inputs : Inputs K V} {b : Bound} {a : K}
    (h : b.real? l inputs.p = some a) : (l.boundNode b).Reads p inputs env a := by
  obtain ⟨v, hv, hmeaning⟩ := meaning_boundNode h
  exact ⟨v, by rw [hmeaning]; rfl, hv⟩

end Reads

/-! ## Symbols have their values -/

section Symbols

variable {split : Split K} {l : ParamLayout} {time : Option String} {c : LoweringContext K}
  {x : String}

/-- Scalar states, scalar parameters and the time are in the table of names. -/
theorem LoweringContext.Serves.exists_lookup (hc : c.Serves split l time)
    (h : x ∈ split.scalars.map (·.lhs.state) ∨ x ∈ l.scalars.map (·.1) ∨ time = some x) :
    ∃ n, c.names.lookup x = some n := by
  refine exists_lookup_of_mem ?_
  rw [(scalarNodes_eq_ok hc.names).2]
  simp only [List.map_append, List.map_map, List.mem_append]
  rcases h with hstate | hparam | rfl
  · rw [← List.zipIdx_map_fst 0 (split.scalars.map (·.lhs.state))] at hstate
    exact .inr hstate
  · exact .inl (.inr hparam)
  · exact .inl (.inl List.mem_cons_self)

/-- What a name of the table stands for. -/
theorem LoweringContext.Serves.of_lookup (hc : c.Serves split l time) {n : Node K}
    (h : c.names.lookup x = some n) : (time = some x ∧ n = .time) ∨
      (∃ k, (x, k) ∈ l.scalars ∧ n = .access .param (.ofInt k)) ∨
        ∃ (k : ℕ) (e : Equation K), split.scalars[k]? = some e ∧ e.lhs.state = x ∧
          n = .access .state (.ofInt k) := by
  have hmem := mem_of_lookup h
  rw [(scalarNodes_eq_ok hc.names).2, List.mem_append, List.mem_append, List.mem_map, List.mem_map,
    List.mem_map] at hmem
  rcases hmem with (⟨_, hx, hq⟩ | ⟨q, hq, hqn⟩) | ⟨q, hq, hqn⟩
  · obtain ⟨rfl, rfl⟩ := Prod.mk.inj hq
    exact .inl ⟨Option.mem_toList.mp hx, rfl⟩
  · obtain ⟨rfl, rfl⟩ := Prod.mk.inj hqn
    exact .inr (.inl ⟨_, hq, rfl⟩)
  · obtain ⟨rfl, rfl⟩ := Prod.mk.inj hqn
    have hstate := List.mem_zipIdx_iff_getElem?.mp hq
    rw [List.getElem?_map] at hstate
    obtain ⟨e, he, hstate⟩ := Option.map_eq_some_iff.mp hstate
    exact .inr (.inr ⟨_, e, he, hstate, rfl⟩)

/-- What is unknown is no family of states and none of parameters. -/
theorem LoweringContext.Serves.of_unknown (hc : c.Serves split l time) {s : Indexed}
    (hs : c.rules.resolve s = .unknown) :
    s.base ∉ split.families.map (·.1.lhs.state) ∧ s.base ∉ l.families.map (·.base) := by
  obtain ⟨declared, limit, hbuild⟩ := hc.rules
  rw [RuleSet.build_eq_ok hbuild, RuleSet.resolve_eq_unknown_iff, RuleSet.declarations,
    List.map_append, List.map_map, List.map_map, List.mem_append, not_or] at hs
  refine ⟨fun hmem => hs.1 ?_, hs.2⟩
  obtain ⟨q, hq, hstate⟩ := List.mem_map.mp hmem
  obtain ⟨j, hj⟩ := List.getElem?_of_mem hq
  obtain ⟨f, hf, hbase, -⟩ := getElem?_of_forall₂
    (forall₂_placeFamilies l (.ofInt split.scalars.length) split.families) hj
  exact List.mem_map.mpr ⟨f, List.mem_of_getElem? hf, hbase.trans hstate⟩

end Symbols

namespace Bindings.Agrees

open ExactLiteral ExactIndices

variable [Field K] {b : Bindings V} {split : Split K} {l : ParamLayout} {time : Option String}
  {inputs : Inputs K V} {c : LoweringContext K} {env : Env V} {xs : List String}
  {ms : List ℤ} {v : V}

/-- What nothing declares is zero, if every state without an index is a plain symbol. -/
theorem eq_zero (h : b.Agrees split l time inputs)
    (hplain : ∀ e ∈ split.scalars, e.lhs = .scalar e.lhs.state) {base : String}
    (hstate : base ∉ split.families.map (·.1.lhs.state)) (hparam : base ∉ l.families.map (·.base))
    (hv : b.site base ms = some v) : v = zero := by
  refine h.undeclared base ms v hstate (fun e he hlhs => ?_) hparam hv
  rw [hplain e he] at hlhs
  cases hlhs

variable [LinearOrder K] [IsStrictOrderedRing K] [ExactIndices K V] {At : V → ℤ → Prop}
  {Has : Node K → Env V → V → Prop}

/-- A scalar symbol is lowered to a node that has its value. -/
theorem exists_node (I : Interprets inputs At Has) (h : b.Agrees split l time inputs)
    (hc : c.Serves split l time) {x : String} (hv : b.scalar x = some v) :
    ∃ n, c.names.lookup x = some n ∧ ∀ env, Has n env v := by
  obtain ⟨n, hn⟩ := hc.exists_lookup (h.declared x v hv)
  refine ⟨n, hn, fun env => ?_⟩
  rcases hc.of_lookup hn with ⟨htime, rfl⟩ | ⟨k, hk, rfl⟩ | ⟨k, e, he, rfl, rfl⟩
  · exact h.time x v htime hv ▸ I.time env
  · exact I.access_ofInt (by decide) rfl (h.param x k v hk hv) env
  · exact I.access_ofInt (by decide) rfl (h.state k e v he hv) env

/-- **A member of a family of states** is read at its slot. -/
theorem has_state (I : Interprets inputs At Has) (h : b.Agrees split l time inputs)
    {equations : List (Equation K)} (hsplit : split.Divides equations) {f : StateFamily K}
    (hf : f ∈ (StateLayout.ofSplit split l).families) {x : String} {m : ℤ}
    (hx : env.lookup x = some (atSite m)) (hv : b.site f.base [m] = some v) :
    Has ((FamilyDecl.ofState l f).rule.location [.var x]) env v := by
  obtain ⟨j, hj⟩ := List.getElem?_of_mem hf
  obtain ⟨⟨e, i⟩, hq, hbase, hindex⟩ := StateLayout.exists_of_family hj
  obtain ⟨lo, hi, k, hlo, hhi, hk, hslot⟩ := h.member j e i m v hq (hbase ▸ hv)
  have hlower : (l.boundNode f.index.lower).Reads .blank inputs env lo :=
    reads_of_real? (hindex ▸ hlo)
  have hupper : (l.boundNode f.index.upper).Reads .blank inputs env hi :=
    reads_of_real? (hindex ▸ hhi)
  have hstart := StateLayout.reads_start hsplit hj hlower hupper
  have hreads := StateFamily.reads_subscript hstart hlower (reads_atSite hx)
  rw [← hk, ← Int.cast_natCast, ← ofInt_eq] at hreads
  rw [FamilyDecl.location_ofState]
  exact I.access (by decide) rfl (StateLayout.plain_subscript hf x) hreads hslot

/-- **A member of a parameter family** is read at its slot. -/
theorem has_param (I : Interprets inputs At Has) (h : b.Agrees split l time inputs)
    {f : ParamFamily} (hf : f ∈ l.families) (hlength : xs.length = f.indices.length)
    (hxs : List.Forall₂ (fun x m => env.lookup x = some (atSite m)) xs ms)
    (hv : b.site f.base ms = some v) :
    Has ((FamilyDecl.ofParam f).rule.location (xs.map .var)) env v := by
  obtain ⟨k, hk, hslot⟩ := h.paramMember f hf ms v (hxs.length_eq ▸ hlength) hv
  have hsites : List.Forall₂ (fun n (m : ℤ) => Node.Reads .blank inputs env n (m : K)) (xs.map .var)
      ms := List.forall₂_map_left_iff.mpr (hxs.imp fun x m hx => reads_atSite hx)
  have hreads : (ParamFamily.subscript f.dims (.ofInt f.start) (xs.map .var)).Reads .blank
      inputs env
      _ := ParamFamily.reads_subscript (Node.reads_ofInt f.start) hsites
  rw [← Int.cast_add, ← hk, ← ofInt_eq] at hreads
  rw [FamilyDecl.location_ofParam]
  exact I.access (by decide) rfl (ParamFamily.plain_subscript (.const _) xs) hreads hslot

/-- What an occurrence resolves to has its value. -/
theorem has_member (I : Interprets inputs At Has) (h : b.Agrees split l time inputs)
    {equations : List (Equation K)} (hsplit : split.Divides equations) (hc : c.Serves split l time)
    {s : Indexed} {rule : AccessRule K} (hrule : c.rules.resolve s = .access rule)
    (hlength : xs.length = s.indices.length)
    (hxs : List.Forall₂ (fun x m => env.lookup x = some (atSite m)) xs ms)
    (hv : b.site s.base ms = some v) : Has (rule.location (xs.map .var)) env v := by
  obtain ⟨declared, limit, hbuild⟩ := hc.rules
  rw [RuleSet.build_eq_ok hbuild] at hrule
  obtain ⟨d, hd, hrefers, rfl⟩ := RuleSet.refers_of_resolve hrule
  obtain ⟨hbase, hindices⟩ := FamilyDecl.refers_iff.mp hrefers
  rw [← hbase] at hv
  rcases List.mem_append.mp hd with hd | hd
  · obtain ⟨f, hf, rfl⟩ := List.mem_map.mp hd
    have hone : xs.length = 1 := hlength.trans hindices.length_eq
    obtain ⟨x, rfl⟩ := List.length_eq_one_iff.mp hone
    obtain ⟨m, _, hx, hnil, rfl⟩ := List.forall₂_cons_left_iff.mp hxs
    obtain rfl := List.forall₂_nil_left_iff.mp hnil
    exact has_state I h hsplit hf hx hv
  · obtain ⟨f, hf, rfl⟩ := List.mem_map.mp hd
    exact has_param I h hf (hlength.trans hindices.length_eq) hxs hv

/-- A bound is a literal, or a parameter that bounds sums at the site it is rounded to. -/
theorem has_bound (I : Interprets inputs At Has) (h : b.Agrees split l time inputs) {bound : Bound}
    (hsymbol : ∀ name, bound = .symbol name → name ∈ l.scalars.map (·.1) ∧
      ∀ v, b.scalar name = some v → At v (Literal.site (real v)))
    {m : ℤ} (hm : b.bound bound = .ok m) (env : Env V) :
    ∃ v, Has (l.boundNode bound) env v ∧ At v m := by
  cases bound with
  | literal n =>
    obtain rfl := Except.ok.inj hm
    exact ⟨atSite n, I.const _ env, I.site n⟩
  | symbol name =>
    obtain ⟨v, hv, hm⟩ := ok_of_bind hm
    obtain rfl := Except.ok.inj hm
    obtain ⟨hdeclared, hat⟩ := hsymbol name rfl
    obtain ⟨k, hk⟩ : ∃ k, l.slot? name = some k := exists_lookup_of_mem hdeclared
    have hscalar : b.scalar name = some v := by
      rw [Bindings.get] at hv
      split at hv
      · next w hw => exact hw.trans (congrArg some (Except.ok.inj hv))
      · cases hv
    refine ⟨v, ?_, hat v hscalar⟩
    rw [ParamLayout.boundNode, hk]
    exact I.access_ofInt (by decide) rfl (h.param name k v (mem_of_lookup hk) hscalar) env

/-- **Contexts render the bindings that agree with the arrays**, if the symbols that bound sums are
parameters, and if what nothing declares is zero where it is read as zero. -/
theorem renders (I : Interprets inputs At Has) (h : b.Agrees split l time inputs)
    {equations : List (Equation K)} (hsplit : split.Divides equations) (hc : c.Serves split l time)
    (hunknown : c.zeroFill = true → ∀ base ms v, base ∉ split.families.map (·.1.lhs.state) →
      base ∉ l.families.map (·.base) → b.site base ms = some v → v = zero)
    {summed : List Index}
    (hsymbol : ∀ i ∈ summed, ∀ name, i.lower = .symbol name ∨ i.upper = .symbol name →
      name ∈ l.scalars.map (·.1) ∧ ∀ v, b.scalar name = some v → At v (Literal.site (real v))) :
    b.Renders At Has c summed where
  scalar x v hv := exists_node I h hc hv
  member s rule hrule xs ms v env hlength hxs hv := has_member I h hsplit hc hrule hlength hxs hv
  unknown hfill s hs ms v hv := by
    obtain ⟨hstate, hparam⟩ := hc.of_unknown hs
    exact hunknown hfill s.base ms v hstate hparam hv
  lower i hi m hm env := by
    rw [hc.params]
    exact has_bound I h (fun name hname => hsymbol i hi name (.inl hname)) hm env
  upper i hi m hm env := by
    rw [hc.params]
    exact has_bound I h (fun name hname => hsymbol i hi name (.inr hname)) hm env

end Bindings.Agrees

end Fluxion
