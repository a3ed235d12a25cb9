import Fluxion.Proofs.Lowering.ArrayBindings

/-!
# Proofs/Lowering/Valuation — the values of the symbols of a system

The arrays of a call give every symbol of a system a value (`EquationSystem.bindings`), and that is
what its right-hand sides are evaluated with:

    scalar state k             u[k]
    family j at the site m     u[memberSlot n j lo hi m]       behind the `n` scalar states
    scalar parameter           p at its slot
    parameter family           p behind its first slot, row by row
    time                       t

A family has values at the sites of its own range only.  What nothing declares is zero if unknown
symbols are to be set to zero, and has no value otherwise.

Nothing of that refers to how a procedure is generated.  What it has to do with it is said by two
facts: **the contexts of lowering render these values** (`Stages.Serves.renders`), and **clearing a
right-hand side of missing symbols keeps its value** (`Stages.Lead.evaluateAt_cleared`).
-/

namespace Fluxion

open Arithmetic

variable {K V : Type}

/-! ## Values from arrays -/

/-- The slot of a member of a parameter family, none outside its dimensions. -/
def ParamFamily.memberSlot? (f : ParamFamily) (ms : List ℤ) : Option ℕ :=
  if List.Forall₂ (fun (d : ℤ × ℕ) m => d.1 ≤ m ∧ m < d.1 + d.2) f.dims ms then
    some (f.start + (rowMajor f.dims ms).toNat)
  else none

/-- The name that an expression declares. -/
def Expr.name? : Expr K → Option String
  | .symbol x => some x
  | .indexed s => some s.base
  | _ => none

namespace EquationSystem

variable (system : EquationSystem K)

/-- The equations of scalar states, in their order. -/
def scalars : List (Equation K) := system.equations.filter (·.lhs.indices.isEmpty)

/-- The equations of families with their indices, in their order. -/
def families : List (Equation K × Index) :=
  system.equations.filterMap fun e => e.lhs.indices.head?.map (e, ·)

/-- The names of states, of parameters and of the time. -/
def names (params : List (Expr K)) : List String :=
  system.equations.map (·.lhs.state) ++ params.filterMap Expr.name? ++ system.time.toList

/-- The slot of a scalar state. -/
def scalarSlot? (x : String) : Option ℕ := system.scalars.findIdx? (·.lhs = .scalar x)

/-- The position of a family. -/
def familyIdx? (base : String) : Option ℕ := system.families.findIdx? (·.1.lhs.state = base)

variable [Literal K] [Arithmetic K V] (l : ParamLayout) (inputs : Inputs K V) (unknown : Option V)

/-- The slot of a member of the family at a position, none outside its range. -/
def memberSlot? (data : Array V) (j : ℕ) (ms : List ℤ) : Option ℕ := do
  let q ← system.families[j]?
  let lo ← q.2.lower.site? l data
  let hi ← q.2.upper.site? l data
  let m ← ms.head?
  if ms = [m] ∧ lo ≤ m ∧ m ≤ hi then some (Stages.memberSlot system.scalars.length j lo hi m)
  else none

/-- The value of a scalar symbol, given that of unknown ones. -/
def scalarValue? (x : String) : Option V :=
  match system.scalarSlot? x with
  | some k => inputs.u[k]?
  | none =>
    match l.slot? x with
    | some k => inputs.p[k]?
    | none => if system.time = some x then some (ofLiteral inputs.t) else unknown

/-- The value of an indexed symbol at some sites, given that of unknown ones. -/
def siteValue? (base : String) (ms : List ℤ) : Option V :=
  match system.familyIdx? base with
  | some j => (system.memberSlot? l inputs.p j ms).bind (inputs.u[·]?)
  | none =>
    match l.families.find? (·.base = base) with
    | some f => (f.memberSlot? ms).bind (inputs.p[·]?)
    | none => unknown

/-- **The values that the arrays of a call give to symbols.** -/
def bindings (options : Options) : Bindings V :=
  let unknown := if options.unknownsZero then some zero else none
  ⟨system.scalarValue? l inputs unknown, system.siteValue? l inputs unknown⟩

/-- The values of symbols, with scalars that nothing declares left out. -/
def declaredBindings (options : Options) : Bindings V :=
  { system.bindings l inputs options with scalar := system.scalarValue? l inputs none }

end EquationSystem

/-! ## Names and slots -/

/-- **States, parameters and the time have names of their own.** -/
structure EquationSystem.Separate (system : EquationSystem K) (params : List (Expr K)) : Prop where
  states : (system.equations.map (·.lhs.state)).Nodup
  param : ∀ e ∈ system.equations, ∀ q ∈ params, q.name? ≠ some e.lhs.state
  stateTime : ∀ e ∈ system.equations, system.time ≠ some e.lhs.state
  paramTime : ∀ q ∈ params, ∀ x, q.name? = some x → system.time ≠ some x

theorem EquationSystem.separate_of_nodup {system : EquationSystem K} {params : List (Expr K)}
    (h : (system.names params).Nodup) : system.Separate params := by
  obtain ⟨hdeclared, -, htime⟩ := List.nodup_append.mp h
  obtain ⟨hstates, -, hparams⟩ := List.nodup_append.mp hdeclared
  refine ⟨hstates, fun e he q hq hname => ?_, fun e he hname => ?_, fun q hq x hx hname => ?_⟩
  · exact hparams _ (List.mem_map_of_mem he) _ (List.mem_filterMap.mpr ⟨q, hq, hname⟩) rfl
  · refine htime _ (List.mem_append_left _ (List.mem_map_of_mem he)) e.lhs.state ?_ rfl
    exact Option.mem_toList.mpr hname
  · refine htime _ (List.mem_append_right _ (List.mem_filterMap.mpr ⟨q, hq, hx⟩)) x ?_ rfl
    exact Option.mem_toList.mpr hname

namespace EquationSystem

variable {system : EquationSystem K} {x base : String} {j k : ℕ}

theorem exists_of_scalarSlot? (h : system.scalarSlot? x = some k) :
    ∃ e, system.scalars[k]? = some e ∧ e.lhs = .scalar x := by
  obtain ⟨hk, hx, -⟩ := List.findIdx?_eq_some_iff_getElem.mp h
  exact ⟨_, List.getElem?_eq_getElem hk, of_decide_eq_true hx⟩

theorem scalarSlot?_eq_none :
    system.scalarSlot? x = none ↔ .scalar x ∉ system.equations.map (·.lhs) := by
  rw [scalarSlot?, List.findIdx?_eq_none_iff, scalars, List.mem_map]
  constructor
  · rintro h ⟨e, he, hx⟩
    have hmem : e ∈ system.equations.filter (·.lhs.indices.isEmpty) :=
      List.mem_filter.mpr ⟨he, by rw [hx]; rfl⟩
    exact of_decide_eq_false (h e hmem) hx
  · intro h e he
    exact decide_eq_false fun hx => h ⟨e, (List.mem_filter.mp he).1, hx⟩

theorem exists_of_familyIdx? (h : system.familyIdx? base = some j) :
    ∃ q, system.families[j]? = some q ∧ q.1.lhs.state = base := by
  obtain ⟨hj, hbase, -⟩ := List.findIdx?_eq_some_iff_getElem.mp h
  exact ⟨_, List.getElem?_eq_getElem hj, of_decide_eq_true hbase⟩

theorem familyIdx?_eq_none :
    system.familyIdx? base = none ↔ base ∉ system.families.map (·.1.lhs.state) := by
  rw [familyIdx?, List.findIdx?_eq_none_iff, List.mem_map]
  simp only [decide_eq_false_iff_not, not_exists, not_and]

theorem mem_indices_of_family {q : Equation K × Index} (h : q ∈ system.families) :
    q.2 ∈ system.indices := by
  obtain ⟨e, he, hq⟩ := List.mem_filterMap.mp h
  obtain ⟨i, hi, rfl⟩ := Option.map_eq_some_iff.mp hq
  exact List.mem_flatMap.mpr ⟨e, he, List.mem_append_left _ (List.mem_of_mem_head? hi)⟩

theorem mem_equations_of_family {q : Equation K × Index} (h : q ∈ system.families) :
    q.1 ∈ system.equations := by
  obtain ⟨e, he, hq⟩ := List.mem_filterMap.mp h
  obtain ⟨i, -, rfl⟩ := Option.map_eq_some_iff.mp hq
  exact he

end EquationSystem

/-! ## The equations behind a procedure -/

/-- Entries of two lists with the same keys. -/
theorem exists_of_map_eq {α β γ : Type} {as : List α} {bs : List β} {f : α → γ} {g : β → γ}
    (h : as.map f = bs.map g) {k : ℕ} {a : α} (ha : as[k]? = some a) :
    ∃ b, bs[k]? = some b ∧ g b = f a := by
  have hk := congrArg (·[k]?) h
  rw [List.getElem?_map, List.getElem?_map, ha, Option.map_some] at hk
  exact Option.map_eq_some_iff.mp hk.symm

/-- Entries with keys of their own are found at one place only. -/
theorem idx_eq_of_nodup {α β : Type} {as : List α} {key : α → β} (hnodup : (as.map key).Nodup)
    {i j : ℕ} {a b : α} (ha : as[i]? = some a) (hb : as[j]? = some b) (h : key a = key b) :
    i = j := by
  have hi : i < (as.map key).length := by
    rw [List.length_map]
    exact (List.getElem?_eq_some_iff.mp ha).1
  refine (List.getElem?_inj hi hnodup).mp ?_
  rw [List.getElem?_map, List.getElem?_map, ha, hb, Option.map_some, Option.map_some, h]

/-! ## Values of declared symbols -/

section Declared

variable {system : EquationSystem K} {params : List (Expr K)} {equations : List (Equation K)}
  {split : Split K} {l : ParamLayout}

theorem Split.Divides.lhs_scalars (h : split.Divides equations)
    (hlhs : equations.map (·.lhs) = system.equations.map (·.lhs)) :
    split.scalars.map (·.lhs) = system.scalars.map (·.lhs) := by
  have hfilter := congrArg (List.filter (·.indices.isEmpty)) hlhs
  rw [List.filter_map, List.filter_map] at hfilter
  rw [h.scalars]
  exact hfilter

theorem Split.Divides.lhs_families (h : split.Divides equations)
    (hlhs : equations.map (·.lhs) = system.equations.map (·.lhs)) :
    split.families.map (fun q => (q.1.lhs, q.2)) = system.families.map fun q => (q.1.lhs, q.2) := by
  have hfilter := congrArg (List.filterMap fun t : Target => t.indices.head?.map (t, ·)) hlhs
  rw [List.filterMap_map, List.filterMap_map] at hfilter
  rw [h.families, EquationSystem.families, List.map_filterMap, List.map_filterMap]
  simpa only [Option.map_map, Function.comp_def] using hfilter

namespace EquationSystem

theorem nodup_families (hsep : system.Separate params) :
    (system.families.map (·.1.lhs.state)).Nodup := by
  have hmap := congrArg (List.map (·.lhs.state)) (map_fst_families system.equations)
  rw [List.map_map] at hmap
  exact hmap ▸ hsep.states.sublist (List.filter_sublist.map _)

/-- The family at a position is found by its name. -/
theorem familyIdx?_eq (hsep : system.Separate params) {j : ℕ} {q : Equation K × Index}
    (hq : system.families[j]? = some q) : system.familyIdx? q.1.lhs.state = some j := by
  cases hidx : system.familyIdx? q.1.lhs.state with
  | none =>
    exact absurd (List.mem_map_of_mem (List.mem_of_getElem? hq)) (familyIdx?_eq_none.mp hidx)
  | some j' =>
    obtain ⟨q', hq', hstate⟩ := exists_of_familyIdx? hidx
    rw [idx_eq_of_nodup (nodup_families hsep) hq' hq hstate]

variable [Arithmetic K V] {inputs : Inputs K V} {unknown : Option V}

/-- A scalar state has the value of its slot. -/
theorem getElem?_of_scalarValue? (hsep : system.Separate params) (hl : l.Places params) {k : ℕ}
    {e : Equation K} {v : V} (he : system.scalars[k]? = some e)
    (hv : system.scalarValue? l inputs none e.lhs.state = some v) : inputs.u[k]? = some v := by
  have hmem : e ∈ system.equations := (List.mem_filter.mp (List.mem_of_getElem? he)).1
  have hnodup : (system.scalars.map (·.lhs.state)).Nodup :=
    hsep.states.sublist (List.filter_sublist.map _)
  unfold scalarValue? at hv
  split at hv
  · next k' hk' =>
    obtain ⟨e', he', hlhs⟩ := exists_of_scalarSlot? hk'
    have hstate : e'.lhs.state = e.lhs.state := by rw [hlhs]; rfl
    rwa [idx_eq_of_nodup hnodup he' he hstate] at hv
  · split at hv
    · next k' hk' =>
      exact absurd rfl (hsep.param e hmem _ (hl.scalar _ (mem_of_lookup hk')).1)
    · split at hv
      · next htime => exact absurd htime (hsep.stateTime e hmem)
      · cases hv

/-- A scalar parameter has the value of its slot. -/
theorem scalarValue?_param (hsep : system.Separate params) (hl : l.Places params)
    {x : String} {k : ℕ} (hk : (x, k) ∈ l.scalars) :
    system.scalarValue? l inputs unknown x = inputs.p[k]? := by
  have hstate : system.scalarSlot? x = none := by
    refine scalarSlot?_eq_none.mpr fun hmem => ?_
    obtain ⟨e, he, hlhs⟩ := List.mem_map.mp hmem
    exact hsep.param e he _ (hl.scalar _ hk).1 (by rw [hlhs]; rfl)
  have hslot : l.slot? x = some k := lookup_of_mem (List.nodup_append.mp hl.nodup).1 hk
  unfold scalarValue?
  rw [hstate, hslot]

theorem scalarValue?_time (hsep : system.Separate params) (hl : l.Places params) {x : String}
    (hx : system.time = some x) :
    system.scalarValue? l inputs unknown x = some (ofLiteral inputs.t) := by
  have hstate : system.scalarSlot? x = none := by
    refine scalarSlot?_eq_none.mpr fun hmem => ?_
    obtain ⟨e, he, hlhs⟩ := List.mem_map.mp hmem
    exact hsep.stateTime e he (by rw [hlhs]; exact hx)
  have hslot : l.slot? x = none := by
    refine Option.eq_none_iff_forall_ne_some.mpr fun k hk => ?_
    exact hsep.paramTime _ (hl.scalar _ (mem_of_lookup hk)).1 x rfl hx
  unfold scalarValue?
  rw [hstate, hslot]
  exact if_pos hx

theorem declared_of_scalarValue? {x : String} {v : V}
    (hv : system.scalarValue? l inputs none x = some v) :
    x ∈ system.scalars.map (·.lhs.state) ∨ x ∈ l.scalars.map (·.1) ∨ system.time = some x := by
  unfold scalarValue? at hv
  split at hv
  · next k hk =>
    obtain ⟨e, he, hlhs⟩ := exists_of_scalarSlot? hk
    exact .inl (List.mem_map.mpr ⟨e, List.mem_of_getElem? he, by rw [hlhs]; rfl⟩)
  · split at hv
    · next k hk => exact .inr (.inl (List.mem_map_of_mem (mem_of_lookup hk)))
    · split at hv
      · next htime => exact .inr (.inr htime)
      · cases hv

end EquationSystem

end Declared

variable [Literal K]

namespace Stages

variable {g : Stages K} {system : EquationSystem K} {params : List (Expr K)} {options : Options}
  {p : Procedure K}

/-- Scalar equations stay scalar equations. -/
theorem Lead.forall₂_scalars (h : g.Lead system params options p) :
    List.Forall₂ (Equation.Cleared g.missing) system.scalars g.split.scalars := by
  rw [h.divides.scalars]
  refine List.rel_filter (fun e e' he => ?_) h.forall₂_equations
  change e.lhs.indices.isEmpty = true ↔ e'.lhs.indices.isEmpty = true
  rw [he.1]

/-- Families stay families. -/
theorem Lead.forall₂_families (h : g.Lead system params options p) :
    List.Forall₂ (fun q q' => q.1.Cleared g.missing q'.1 ∧ q'.2 = q.2) system.families
      g.split.families := by
  rw [h.divides.families]
  refine List.rel_filterMap (fun e e' he => ?_) h.forall₂_equations
  rw [he.1]
  cases e.lhs.indices.head? with
  | none => exact .none
  | some i => exact .some ⟨he, rfl⟩

end Stages

/-! ## Declared symbols -/

variable [Arithmetic K V]

theorem EquationSystem.memberSlot?_eq_some {system : EquationSystem K} {l : ParamLayout}
    {data : Array V} {j k : ℕ} {ms : List ℤ} (h : system.memberSlot? l data j ms = some k) :
    ∃ q lo hi m, system.families[j]? = some q ∧ q.2.lower.site? l data = some lo ∧
      q.2.upper.site? l data = some hi ∧ ms = [m] ∧ lo ≤ m ∧ m ≤ hi ∧
        k = Stages.memberSlot system.scalars.length j lo hi m := by
  obtain ⟨q, hq, h⟩ := Option.bind_eq_some_iff.mp h
  obtain ⟨lo, hlo, h⟩ := Option.bind_eq_some_iff.mp h
  obtain ⟨hi, hhi, h⟩ := Option.bind_eq_some_iff.mp h
  obtain ⟨m, -, h⟩ := Option.bind_eq_some_iff.mp h
  split at h
  · next hms =>
    exact ⟨q, lo, hi, m, hq, hlo, hhi, hms.1, hms.2.1, hms.2.2, (Option.some.inj h).symm⟩
  · cases h

/-- **A bound that is a site**: a literal, or a scalar parameter that holds an integer. -/
def Bound.Holds (l : ParamLayout) (data : Array V) (b : Bound) : Prop :=
  ∀ name, b = .symbol name → ∃ k n, l.slot? name = some k ∧ data[k]? = some (atSite n)

/-- Every bound of a system is a site. -/
def EquationSystem.Bounded (system : EquationSystem K) (l : ParamLayout) (data : Array V) : Prop :=
  ∀ i ∈ system.indices, i.lower.Holds l data ∧ i.upper.Holds l data

namespace Bound.Holds

open ExactLiteral ExactIndices

variable [Field K] [LinearOrder K] [IsStrictOrderedRing K] [ExactIndices K V] {b : Bound}
  {l : ParamLayout} {inputs : Inputs K V} {m : ℤ}

theorem integral (hb : b.Holds l inputs.p) : b.Integral l inputs.p := by
  rintro name k v rfl hk hv
  obtain ⟨k', n, hk', hn⟩ := hb name rfl
  obtain rfl := Option.some.inj (hk.symm.trans hk')
  obtain rfl := Option.some.inj (hv.symm.trans hn)
  exact ⟨n, real_ofLiteral _⟩

/-- A bound has the value of its site. -/
theorem value_boundNode (hb : b.Holds l inputs.p) (hm : b.site? l inputs.p = some m) (env : Env V) :
    (l.boundNode b).value inputs env = atSite m := by
  cases b with
  | literal n =>
    obtain rfl := Option.some.inj hm
    rfl
  | symbol name =>
    obtain ⟨k, n, hk, hn⟩ := hb name rfl
    rw [Bound.site?, hk, Option.bind_eq_bind, Option.bind_some, Option.bind_eq_bind, hn] at hm
    have hsite : Literal.site (real (atSite n : V)) = m := Option.some.inj hm
    rw [real_atSite, site_intCast] at hsite
    have hnode : l.boundNode (.symbol name) = (ParamLayout.accessAt k : Node K) := by
      unfold ParamLayout.boundNode
      dsimp only
      rw [hk]
    rw [hnode, ← hsite]
    exact Setting.value_access_ofInt (by decide) rfl hn

end Bound.Holds

theorem Bound.real?_of_site? [Field K] [LinearOrder K] [IsStrictOrderedRing K] [ExactIndices K V]
    {b : Bound} {l : ParamLayout} {data : Array V} {m : ℤ} (hb : b.Integral l data)
    (hm : b.site? l data = some m) : b.real? l data = some (m : K) := by
  cases b with
  | literal n =>
    obtain rfl := Option.some.inj hm
    exact congrArg some (ExactLiteral.ofInt_eq n)
  | symbol name =>
    obtain ⟨k, hk, hm⟩ := Option.bind_eq_some_iff.mp hm
    obtain ⟨v, hv, hm⟩ := Option.bind_eq_some_iff.mp hm
    obtain ⟨n, hn⟩ := hb name k v rfl hk hv
    rw [ExactLiteral.ofInt_eq] at hn
    rw [hn, ExactLiteral.site_intCast] at hm
    obtain rfl := Option.some.inj hm
    rw [Bound.real?, hk, Option.bind_eq_bind, Option.bind_some, Option.bind_eq_bind, hv]
    exact congrArg some hn

/-! ## Values interpret nodes -/

section Values

open ExactLiteral ExactIndices

variable {inputs : Inputs K V} {env : Env V}

theorem valueAll_vars {xs : List String} {ms : List ℤ}
    (h : List.Forall₂ (fun x m => env.lookup x = some (atSite m)) xs ms) :
    Node.valueAll inputs (xs.map .var) env = ms.map atSite := by
  induction h with
  | nil => rfl
  | cons hx _ ih =>
    rw [List.map_cons, Node.valueAll, Node.value, hx, ih]
    rfl

variable [Field K] [LinearOrder K] [IsStrictOrderedRing K] [Field V] [ExactArithmetic K V]

/-- **Counting up from a site** adds up the terms of the sites. -/
theorem countUp_of_sumSites {excluded : List ℤ} {t : V → V} {term : ℤ → Except EvalError V}
    (hterm : ∀ m w, term m = .ok w → t (atSite m) = w) {count : ℕ} {m : ℤ} {acc v : V}
    (h : sumSites add excluded term count m acc = .ok v) :
    countUp (addTerm (excluded.map atSite) t) count (atSite m) acc = v := by
  induction count generalizing m acc with
  | zero => exact Except.ok.inj h
  | succ count ih =>
    rw [countUp, add_atSite_one, addTerm, any_same_atSite]
    rw [sumSites] at h
    by_cases hm : m ∈ excluded
    · rw [if_pos hm] at h
      rw [if_pos (decide_eq_true hm)]
      exact ih h
    · rw [if_neg hm] at h
      rw [if_neg (by rwa [decide_eq_true_iff])]
      split at h
      · next w hw =>
        rw [hterm m w hw]
        exact ih h
      · cases h

/-- **The value of a node** is one of its interpretations. -/
theorem interprets_value (inputs : Inputs K V) :
    Interprets inputs (fun v m => v = atSite m) fun n env v => n.value inputs env = v where
  const _ _ := rfl
  imaginaryUnit _ := rfl
  time _ := rfl
  var hx := by rw [Node.value, hx, Option.getD_some]
  unknown _ _ := rfl
  access hb hdata hn hreads hv := Setting.value_access hb hdata hn hreads hv
  neg hn := by rw [Node.value, hn]
  binary hm hn := by rw [Node.value, hm, hn]
  call hb hn := by rw [Node.value, Node.valueAll, hn, Node.callValue_cons hb]
  guarded hx hy hsame hdiffer := by
    rw [Node.value, Node.value, Node.value, hx, hy, Option.getD_some, Option.getD_some]
    split
    · next h => exact (hsame h).symm
    · next h => exact hdiffer (Bool.eq_false_iff.mpr h)
  site _ := rfl
  sum hlo hhi hl hu hys hterm hv := by
    rw [Node.value, hlo, hhi, hl, hu, valueAll_vars hys, sumOver, span_atSite]
    exact countUp_of_sumSites hterm hv

end Values

/-! ## Agreement -/

section Agreement

variable {system : EquationSystem K} {params : List (Expr K)} {equations : List (Equation K)}
  {split : Split K} {l : ParamLayout} {inputs : Inputs K V} {options : Options} {unknown : Option V}

namespace EquationSystem

/-- A parameter family has the values of its slots. -/
theorem siteValue?_param (hsep : system.Separate params) (hl : l.Places params) {f : ParamFamily}
    (hf : f ∈ l.families) (ms : List ℤ) :
    system.siteValue? l inputs unknown f.base ms = (f.memberSlot? ms).bind (inputs.p[·]?) := by
  have hidx : system.familyIdx? f.base = none := by
    refine familyIdx?_eq_none.mpr fun hmem => ?_
    obtain ⟨q, hq, hstate⟩ := List.mem_map.mp hmem
    exact hsep.param q.1 (mem_equations_of_family hq) _ (hl.family f hf).1
      (congrArg some hstate.symm)
  have hfind : l.families.find? (·.base = f.base) = some f := by
    refine Stages.find?_of_unique hf (decide_eq_true rfl) fun f' hf' hbase => ?_
    exact List.inj_on_of_nodup_map (List.nodup_append.mp hl.nodup).2.1 hf' hf
      (of_decide_eq_true hbase)
  unfold siteValue?
  rw [hidx, hfind]

/-- What nothing declares has the value of unknown symbols. -/
theorem siteValue?_undeclared {base : String} (hstate : base ∉ system.families.map (·.1.lhs.state))
    (hparam : base ∉ l.families.map (·.base)) (ms : List ℤ) :
    system.siteValue? l inputs unknown base ms = unknown := by
  have hnone : l.families.find? (·.base = base) = none := by
    refine List.find?_eq_none.mpr fun f hf hbase => hparam ?_
    exact List.mem_map.mpr ⟨f, hf, of_decide_eq_true hbase⟩
  unfold siteValue?
  rw [familyIdx?_eq_none.mpr hstate, hnone]

theorem eq_zero_of_undeclared (hsplit : split.Divides equations)
    (hlhs : equations.map (·.lhs) = system.equations.map (·.lhs)) {base : String}
    {ms : List ℤ} {v : V} (hstate : base ∉ split.families.map (·.1.lhs.state))
    (hparam : base ∉ l.families.map (·.base))
    (hv : (system.declaredBindings l inputs options).site base ms = some v) : v = zero := by
  have hstates := congrArg (List.map (·.1.state)) (hsplit.lhs_families hlhs)
  rw [List.map_map, List.map_map] at hstates
  change system.siteValue? l inputs (if _ then _ else _) base ms = some v at hv
  rw [siteValue?_undeclared (hstates ▸ hstate) hparam] at hv
  split at hv
  · exact (Option.some.inj hv).symm
  · cases hv

/-- **The values that the arrays of a call give to symbols agree with the arrays.** -/
theorem agrees [Field K] [LinearOrder K] [IsStrictOrderedRing K] [ExactIndices K V]
    (hsep : system.Separate params) (hl : l.Places params) (hsplit : split.Divides equations)
    (hlhs : equations.map (·.lhs) = system.equations.map (·.lhs))
    (hintegral : ∀ q ∈ system.families,
      q.2.lower.Integral l inputs.p ∧ q.2.upper.Integral l inputs.p) :
    (system.declaredBindings l inputs options).Agrees split l system.time inputs where
  declared x v hv := by
    have hstates := congrArg (List.map (·.state)) (hsplit.lhs_scalars hlhs)
    rw [List.map_map, List.map_map] at hstates
    rw [show split.scalars.map (·.lhs.state) = system.scalars.map (·.lhs.state) from hstates]
    exact declared_of_scalarValue? hv
  state k e v he hv := by
    obtain ⟨e₀, he₀, hlhs₀⟩ := exists_of_map_eq (hsplit.lhs_scalars hlhs) he
    rw [← hlhs₀] at hv
    exact getElem?_of_scalarValue? hsep hl he₀ hv
  param x k v hk hv := (scalarValue?_param hsep hl hk).symm.trans hv
  time x v hx hv := Option.some.inj (hv.symm.trans (scalarValue?_time hsep hl hx))
  member j e i m v hq hv := by
    obtain ⟨q, hq₀, hq⟩ := exists_of_map_eq (hsplit.lhs_families hlhs) hq
    obtain ⟨hlhs₀, rfl⟩ := Prod.mk.inj hq
    change system.siteValue? l inputs _ e.lhs.state [m] = some v at hv
    rw [← hlhs₀, siteValue?, familyIdx?_eq hsep hq₀] at hv
    obtain ⟨k, hslot, hv⟩ := Option.bind_eq_some_iff.mp hv
    obtain ⟨q', lo, hi, m', hq', hlo, hhi, hm, hle, hge, rfl⟩ := memberSlot?_eq_some hslot
    obtain rfl := Option.some.inj (hq₀.symm.trans hq')
    obtain rfl := List.cons.inj hm |>.1
    obtain ⟨hlower, hupper⟩ := hintegral q (List.mem_of_getElem? hq₀)
    have hlength : split.scalars.length = system.scalars.length := by
      simpa using congrArg List.length (hsplit.lhs_scalars hlhs)
    refine ⟨lo, hi, _, Bound.real?_of_site? hlower hlo, Bound.real?_of_site? hupper hhi, ?_, hv⟩
    rw [hlength]
    exact_mod_cast congrArg (Int.cast (R := K)) (Stages.memberSlot_eq hle hge)
  paramMember f hf ms v _ hv := by
    obtain ⟨k, hslot, hv⟩ :=
      Option.bind_eq_some_iff.mp ((siteValue?_param hsep hl hf ms).symm.trans hv)
    unfold ParamFamily.memberSlot? at hslot
    split at hslot
    · next hinside =>
      obtain rfl := Option.some.inj hslot
      refine ⟨_, ?_, hv⟩
      rw [Nat.cast_add, Int.toNat_of_nonneg (rowMajor_bounds hinside).1]
    · cases hslot
  undeclared _ _ _ hstate _ hparam hv := eq_zero_of_undeclared hsplit hlhs hstate hparam hv

end EquationSystem

end Agreement

namespace Stages

variable {g : Stages K} {system : EquationSystem K} {params : List (Expr K)} {options : Options}
  {p : Procedure K} {inputs : Inputs K V} {unknown unknown' : Option V} {x : String}

/-- What nothing declares has the value of unknown symbols. -/
theorem Lead.scalarValue?_undeclared (h : g.Lead system params options p)
    (hx : ¬system.DeclaresScalar params x) :
    system.scalarValue? g.layout inputs unknown x = unknown := by
  have hstate : system.scalarSlot? x = none := EquationSystem.scalarSlot?_eq_none.mpr fun hmem =>
    hx (.inl hmem)
  have hparam : g.layout.slot? x = none := Option.eq_none_iff_forall_ne_some.mpr fun k hk =>
    hx (.inr (.inl (h.places.scalar _ (mem_of_lookup hk)).1))
  unfold EquationSystem.scalarValue?
  rw [hstate, hparam]
  exact if_neg fun htime => hx (.inr (.inr htime))

/-- What is declared has a value of its own. -/
theorem Lead.scalarValue?_declared (h : g.Lead system params options p)
    (hx : system.DeclaresScalar params x) :
    system.scalarValue? g.layout inputs unknown x =
      system.scalarValue? g.layout inputs unknown' x := by
  unfold EquationSystem.scalarValue?
  cases hstate : system.scalarSlot? x with
  | some k => rfl
  | none =>
    cases hparam : g.layout.slot? x with
    | some k => rfl
    | none =>
      have htime : system.time = some x := by
        rcases hx with hmem | hmem | htime
        · exact absurd hmem (EquationSystem.scalarSlot?_eq_none.mp hstate)
        · exact absurd hmem (h.not_mem_of_slot?_eq_none hparam)
        · exact htime
      dsimp only
      rw [if_pos htime, if_pos htime]

theorem Lead.bound_declaredBindings (h : g.Lead system params options p) {b : Bound}
    (hb : b.Holds g.layout inputs.p) :
    (system.declaredBindings g.layout inputs options).bound b
      = (system.bindings g.layout inputs options).bound b := by
  cases b with
  | literal n => rfl
  | symbol name =>
    obtain ⟨k, n, hk, -⟩ := hb name rfl
    have hparam := (h.places.scalar _ (mem_of_lookup hk)).1
    have hscalar : (system.declaredBindings g.layout inputs options).scalar name
        = (system.bindings g.layout inputs options).scalar name :=
      h.scalarValue?_declared (.inr (.inl hparam))
    rw [Bindings.bound, Bindings.bound, Bindings.get, Bindings.get, hscalar]

/-- The contexts of a generated procedure are made from its layouts. -/
theorem Hosts.serves {c : LoweringContext K} (hc : g.Hosts options c)
    (h : g.Lead system params options p) : c.Serves g.split g.layout system.time where
  params := hc.params
  names := hc.names ▸ h.names
  rules := ⟨_, _, by rw [hc.rules]; exact if_neg (lt_irrefl _)⟩

/-- **The contexts of lowering render the values of symbols.** -/
theorem Serves.renders [Field K] [LinearOrder K] [IsStrictOrderedRing K] [Field V]
    [ExactArithmetic K V] (hs : g.Serves system inputs) (h : g.Lead system params options p)
    (hsep : system.Separate params) (hbounds : system.Bounded g.layout inputs.p)
    {c : LoweringContext K} (hc : g.Hosts options c) :
    (system.declaredBindings g.layout inputs options).Renders (fun v m => v = atSite m)
      (fun n env v => n.value inputs env = v) c system.indices := by
  have hagrees : (system.declaredBindings g.layout inputs options).Agrees g.split g.layout
      system.time inputs :=
    EquationSystem.agrees hsep h.places h.divides h.lhs fun q hq =>
      hs.integral _ (EquationSystem.mem_indices_of_family hq)
  refine hagrees.renders (interprets_value inputs) h.divides (hc.serves h)
    (fun _ _ _ _ hstate hparam =>
    EquationSystem.eq_zero_of_undeclared h.divides h.lhs hstate hparam) fun i hi name hname => ?_
  obtain ⟨hlower, hupper⟩ := hbounds i hi
  obtain ⟨k, n, hk, hn⟩ : ∃ k n, g.layout.slot? name = some k ∧ inputs.p[k]? = some (atSite n) :=
    hname.elim (hlower name) (hupper name)
  refine ⟨List.mem_map_of_mem (mem_of_lookup hk), fun v hv => ?_⟩
  have hvalue := hagrees.param name k v (mem_of_lookup hk) hv
  obtain rfl := Option.some.inj (hvalue.symm.trans hn)
  rw [real_atSite, ExactLiteral.site_intCast]

/-- **Clearing a right-hand side keeps its value.** -/
theorem Lead.evaluateAt_cleared [Field K] [LinearOrder K] [IsStrictOrderedRing K] [Field V]
    [ExactArithmetic K V] (h : g.Lead system params options p)
    (hbounds : system.Bounded g.layout inputs.p) {e : Equation K} (he : e ∈ system.equations)
    {sites : Sites} {v : V}
    (hv : e.rhs.evaluateAt (system.bindings g.layout inputs options) sites = .ok v) :
    (e.rhs.cleared g.missing).evaluateAt (system.declaredBindings g.layout inputs options) sites
      = .ok v := by
  have hspares : (system.bindings g.layout inputs options).Spares
      (system.declaredBindings g.layout inputs options) g.missing := by
    refine ⟨fun s hs => ?_, fun name hname => ?_, rfl⟩
    · obtain ⟨name, rfl, -⟩ := h.missing.undeclared s hs
      exact ⟨name, rfl⟩
    · obtain ⟨_, ⟨⟩, hundeclared⟩ := h.missing.undeclared _ hname
      have hfill : options.unknownsZero = true := h.zeroFill (List.ne_nil_of_mem hname)
      change system.scalarValue? g.layout inputs _ name = _
      rw [h.scalarValue?_undeclared hundeclared, if_pos hfill]
  have hagree : (system.bindings g.layout inputs options).Agree
      (system.declaredBindings g.layout inputs options) g.missing (e.rhs.occurrences [])
        e.rhs.mentions := by
    refine ⟨fun name hname hmissing => ?_, fun i hi => ?_⟩
    · have hfree : .scalar name ∈ e.rhs.freeSymbols := mem_freeSymbols.mpr hname
      exact h.scalarValue?_declared (h.missing.covered e he name hfree hmissing)
    · have hmem : i ∈ system.indices := List.mem_flatMap.mpr ⟨e, he, List.mem_append_right _ hi⟩
      obtain ⟨hlower, hupper⟩ := hbounds i hmem
      exact ⟨h.bound_declaredBindings hlower, h.bound_declaredBindings hupper⟩
  exact Expr.evaluateAt_cleared hspares hagree hv

end Stages

end Fluxion
