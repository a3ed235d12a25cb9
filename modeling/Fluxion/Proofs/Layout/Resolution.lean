import Fluxion.Proofs.Numbers.ExactArithmetic
import Fluxion.Proofs.Layout.Relabelling
import Mathlib.Data.List.Nodup

/-!
# Proofs/Layout/Resolution — what the declared names of a system stand for

Three tables decide what a symbol of a right-hand side is lowered to: the scalar names, in which
time comes before the parameters and these before the states; the relabelling rules, of which the
last one counts; and the zero fill, for what neither knows.  Only one collision is refused while a
procedure is generated, that of a scalar parameter with a state.

`Stages.Faithful` says that every declaration is read as what it declares.  This is so exactly when
the declarations do not collide in one of the three ways that are left (`NoCollision`).
-/

namespace Fluxion

variable {K : Type}

/-! ## Distinct states -/

theorem EquationSystem.nodup_of_firstRepeated? {seen names : List String}
    (h : firstRepeated? seen names = none) : names.Nodup ∧ ∀ x ∈ names, x ∉ seen := by
  induction names generalizing seen with
  | nil => exact ⟨List.nodup_nil, nofun⟩
  | cons x names ih =>
    rw [firstRepeated?] at h
    split at h
    · cases h
    · next hx =>
      obtain ⟨hnodup, hnew⟩ := ih h
      refine ⟨List.nodup_cons.mpr ⟨fun hmem => hnew x hmem List.mem_cons_self, hnodup⟩, ?_⟩
      exact List.forall_mem_cons.mpr
        ⟨hx, fun y hy hseen => hnew y hy (List.mem_cons_of_mem _ hseen)⟩

/-- **The states of a system are pairwise different.** -/
theorem EquationSystem.nodup_states {pairs : List (Expr K × Expr K)} {s : EquationSystem K}
    (h : ofPairs pairs = .ok s) : (s.equations.map (·.lhs.state)).Nodup := by
  obtain ⟨equations, -, h⟩ := ok_of_bind h
  split at h
  · cases h
  · next hnone =>
    obtain rfl := Except.ok.inj h
    exact (nodup_of_firstRepeated? hnone).1

/-- Equations with an index are those that are not scalar. -/
theorem map_fst_families (equations : List (Equation K)) :
    (equations.filterMap fun e => e.lhs.indices.head?.map (e, ·)).map (·.1)
      = equations.filter (!·.lhs.indices.isEmpty) := by
  induction equations with
  | nil => rfl
  | cons e equations ih =>
    cases hi : e.lhs.indices with
    | nil => simp [hi, ih]
    | cons i is => simp [hi, ih]

namespace Split.Divides

variable {s : Split K} {equations : List (Equation K)}

theorem equations_families (h : s.Divides equations) :
    s.families.map (·.1) = equations.filter (!·.lhs.indices.isEmpty) := by
  rw [h.families, map_fst_families]

/-- The equations are those without an index and those of families. -/
theorem mem_iff (h : s.Divides equations) {e : Equation K} :
    e ∈ s.scalars ++ s.families.map (·.1) ↔ e ∈ equations := by
  rw [h.scalars, h.equations_families, List.mem_append, List.mem_filter, List.mem_filter,
    ← and_or_left]
  simp [em]

theorem nodup_scalars (h : s.Divides equations) (hnodup : (equations.map (·.lhs.state)).Nodup) :
    (s.scalars.map (·.lhs.state)).Nodup := by
  rw [h.scalars]
  exact hnodup.sublist (List.filter_sublist.map _)

theorem nodup_families (h : s.Divides equations) (hnodup : (equations.map (·.lhs.state)).Nodup) :
    (s.families.map (·.1.lhs.state)).Nodup := by
  have hmap := congrArg (List.map (·.lhs.state)) h.equations_families
  rw [List.map_map] at hmap
  exact hmap ▸ hnodup.sublist (List.filter_sublist.map _)

end Split.Divides

/-! ## Scalar names -/

/-- An entry of a table without repeated names is found. -/
theorem lookup_of_mem {α : Type} {table : List (String × α)} {x : String} {a : α}
    (hnodup : (table.map (·.1)).Nodup) (h : (x, a) ∈ table) : table.lookup x = some a := by
  induction table with
  | nil => cases h
  | cons q table ih =>
    obtain ⟨hq, hnodup⟩ := List.nodup_cons.mp hnodup
    rcases List.mem_cons.mp h with rfl | h
    · exact List.lookup_cons_self
    · have hne : (x == q.1) = false := beq_false_of_ne fun hx => hq (List.mem_map.mpr ⟨_, h, hx⟩)
      rw [List.lookup_cons, hne]
      exact ih hnodup h

theorem mem_of_lookup {α β : Type} [BEq α] [LawfulBEq α] {table : List (α × β)} {a : α} {b : β}
    (h : table.lookup a = some b) : (a, b) ∈ table := by
  obtain ⟨l₁, l₂, rfl, -⟩ := List.lookup_eq_some_iff.mp h
  exact List.mem_append_right _ List.mem_cons_self

theorem lookup_of_not_mem {α : Type} {table : List (String × α)} {x : String}
    (h : x ∉ table.map (·.1)) : table.lookup x = none := by
  refine List.lookup_eq_none_iff.mpr fun q hq => ?_
  exact bne_iff_ne.mpr fun hx => h (hx ▸ List.mem_map_of_mem hq)

theorem exists_lookup_of_mem {α β : Type} [BEq α] [LawfulBEq α] {table : List (α × β)} {a : α}
    (h : a ∈ table.map (·.1)) : ∃ b, table.lookup a = some b := by
  obtain ⟨q, hq, rfl⟩ := List.mem_map.mp h
  refine Option.ne_none_iff_exists'.mp fun hnone => ?_
  exact bne_iff_ne.mp (List.lookup_eq_none_iff.mp hnone q hq) rfl

variable [Literal K]

/-- **The table of scalar names**: time, then parameters, then states, none of which has the name of
a parameter. -/
theorem scalarNodes_eq_ok {states : StateLayout K} {layout : ParamLayout} {time : Option String}
    {names : List (String × Node K)} (h : scalarNodes states layout time = .ok names) :
    (∀ q ∈ layout.scalars, states.declares q.1 = false) ∧
      names = time.toList.map (·, .time)
        ++ layout.scalars.map (fun (name, n) => (name, ParamLayout.accessAt n))
        ++ states.scalars.map (fun (name, n) => (name, .access .state (.ofInt n))) := by
  rw [scalarNodes] at h
  split at h
  · cases h
  · next hnone =>
    exact ⟨fun q hq => Bool.eq_false_iff.mpr (List.find?_eq_none.mp hnone q hq),
      (Except.ok.inj h).symm⟩

/-- An equation that has been cleared of missing symbols. -/
def Equation.Cleared (missing : List FreeSymbol) (e e' : Equation K) : Prop :=
  e'.lhs = e.lhs ∧ e'.rhs = e.rhs.cleared missing

namespace Stages

variable {g : Stages K} {system : EquationSystem K} {params : List (Expr K)} {options : Options}
  {p : Procedure K} {x : String} {k : Nat} {e : Equation K}

/-- The equations are those of the system, cleared. -/
theorem Lead.forall₂_equations (h : g.Lead system params options p) :
    List.Forall₂ (Equation.Cleared g.missing) system.equations g.equations := by
  have hpairs := List.forall₂_eq_eq_eq ▸ h.equations.symm
  rw [List.forall₂_map_left_iff, List.forall₂_map_right_iff] at hpairs
  exact hpairs.imp fun e e' hpair => ⟨(Prod.mk.inj hpair).1.symm, (Prod.mk.inj hpair).2.symm⟩

/-- The left-hand sides are those of the system. -/
theorem Lead.lhs (h : g.Lead system params options p) :
    g.equations.map (·.lhs) = system.equations.map (·.lhs) := by
  have hfst := congrArg (List.map Prod.fst) h.equations
  rw [List.map_map, List.map_map] at hfst
  exact hfst

theorem Lead.nodup (h : g.Lead system params options p)
    (hnodup : (system.equations.map (·.lhs.state)).Nodup) :
    (g.equations.map (·.lhs.state)).Nodup := by
  have hstates := congrArg (List.map Target.state) h.lhs
  rw [List.map_map, List.map_map] at hstates
  exact (congrArg List.Nodup hstates).mpr hnodup

theorem Lead.places (h : g.Lead system params options p) : g.layout.Places params :=
  ParamLayout.places_ofParams h.layout

/-- A symbol without a slot is no parameter. -/
theorem Lead.not_mem_of_slot?_eq_none (h : g.Lead system params options p) {name : String}
    (hname : g.layout.slot? name = none) : .symbol name ∉ params := by
  intro hmem
  rcases h.places.placed _ hmem with ⟨x, n, hsymbol, hx⟩ | ⟨f, -, hindexed⟩
  · obtain rfl := Expr.symbol.inj hsymbol
    exact bne_iff_ne.mp (List.lookup_eq_none_iff.mp hname _ hx) rfl
  · cases hindexed

theorem lookup_time (h : g.Lead system params options p) (htime : system.time = some x) :
    g.names.lookup x = some .time := by
  rw [(scalarNodes_eq_ok h.names).2, htime]
  exact List.lookup_cons_self

/-- What is found behind the time. -/
theorem lookup_names (h : g.Lead system params options p) (htime : system.time ≠ some x) :
    g.names.lookup x
      = ((g.layout.scalars.map fun (name, n) => (name, ParamLayout.accessAt n)).lookup x).or
        ((g.states.scalars.map fun (name, n) => (name, .access .state (.ofInt n))).lookup x) := by
  have hnone : (system.time.toList.map fun y => (y, (.time : Node K))).lookup x = none := by
    refine lookup_of_not_mem fun hx => htime ?_
    simpa using hx
  rw [(scalarNodes_eq_ok h.names).2, List.lookup_append, List.lookup_append, hnone]
  rfl

theorem lookup_param {q : String × Nat} (h : g.Lead system params options p)
    (hq : q ∈ g.layout.scalars) (htime : system.time ≠ some q.1) :
    g.names.lookup q.1 = some (ParamLayout.accessAt q.2) := by
  have hnodup := (List.nodup_append.mp h.places.nodup).1
  rw [lookup_names h htime, lookup_of_mem (a := ParamLayout.accessAt q.2)]
  · rfl
  · rwa [List.map_map]
  · exact List.mem_map_of_mem hq

/-- A scalar state stands in the layout at its position. -/
theorem mem_scalars (hk : g.split.scalars[k]? = some e) : (e.lhs.state, k) ∈ g.states.scalars := by
  refine List.mem_zipIdx_iff_getElem?.mpr ?_
  rw [List.getElem?_map, hk]
  rfl

theorem lookup_state (h : g.Lead system params options p)
    (hnodup : (system.equations.map (·.lhs.state)).Nodup) (hk : g.split.scalars[k]? = some e)
    (htime : system.time ≠ some e.lhs.state) :
    g.names.lookup e.lhs.state = some (.access .state (.ofInt k)) := by
  have hmem := mem_scalars hk
  have hparam : e.lhs.state ∉ g.layout.scalars.map (·.1) := by
    intro hx
    obtain ⟨q, hq, hqx⟩ := List.mem_map.mp hx
    have hfalse := (scalarNodes_eq_ok h.names).1 q hq
    rw [StateLayout.declares, Bool.or_eq_false_iff, List.any_eq_false] at hfalse
    exact hfalse.1 _ hmem (beq_iff_eq.mpr hqx.symm)
  rw [lookup_names h htime, lookup_of_not_mem (by rwa [List.map_map]), Option.none_or]
  refine lookup_of_mem ?_ (List.mem_map_of_mem (f := fun q =>
    (q.1, Node.access .state (.ofInt q.2))) hmem)
  have hnames : (g.states.scalars.map fun q => q.1) = g.split.scalars.map (·.lhs.state) :=
    List.zipIdx_map_fst _ _
  rw [List.map_map]
  exact (congrArg List.Nodup hnames).mpr (h.divides.nodup_scalars (h.nodup hnodup))

/-! ## Indexed names -/

/-- The equations without an index, by their targets. -/
theorem Lead.exists_scalar (h : g.Lead system params options p) {t : Target} (ht : t.indices = [])
    (hmem : t ∈ system.equations.map (·.lhs)) :
    ∃ (k : Nat) (e : Equation K), g.split.scalars[k]? = some e ∧ e.lhs = t := by
  rw [← h.lhs] at hmem
  obtain ⟨e, he, rfl⟩ := List.mem_map.mp hmem
  have hscalar : e ∈ g.split.scalars := by
    rw [h.divides.scalars]
    exact List.mem_filter.mpr ⟨he, List.isEmpty_iff.mpr ht⟩
  obtain ⟨k, hk⟩ := List.getElem?_of_mem hscalar
  exact ⟨k, e, hk, rfl⟩

theorem Lead.mem_lhs_scalar (h : g.Lead system params options p)
    (hk : g.split.scalars[k]? = some e) : e.lhs ∈ system.equations.map (·.lhs) := by
  have he := List.mem_of_getElem? hk
  rw [h.divides.scalars] at he
  exact h.lhs ▸ List.mem_map_of_mem (List.mem_filter.mp he).1

/-- **The families of states**, by their targets. -/
theorem Lead.exists_family_iff (h : g.Lead system params options p) {b : String} {i : Index} :
    (∃ f ∈ g.states.families, f.base = b ∧ f.index = i) ↔
      .indexed ⟨b, [i]⟩ ∈ system.equations.map (·.lhs) := by
  have hplaced := forall₂_placeFamilies g.layout (.ofInt g.split.scalars.length) g.split.families
  rw [← h.lhs, List.mem_map]
  constructor
  · rintro ⟨f, hf, rfl, rfl⟩
    obtain ⟨q, hq, hbase, hindex⟩ := exists_of_forall₂ hplaced.flip hf
    have hown := h.divides.own q hq
    refine ⟨q.1, ?_, ?_⟩
    · have hmem := List.mem_map_of_mem (f := (·.1)) hq
      rw [h.divides.equations_families] at hmem
      exact (List.mem_filter.mp hmem).1
    · cases hlhs : q.1.lhs with
      | scalar x =>
        rw [hlhs] at hown
        cases hown
      | indexed s =>
        rw [hlhs] at hown hbase
        rw [hbase, hindex, ← hown]
        rfl
  · rintro ⟨e, he, hlhs⟩
    have hmem : (e, i) ∈ g.split.families := by
      rw [h.divides.families]
      exact List.mem_filterMap.mpr ⟨e, he, by rw [hlhs]; rfl⟩
    obtain ⟨f, hf, hbase, hindex⟩ := exists_of_forall₂ hplaced hmem
    exact ⟨f, hf, by rw [hbase, hlhs]; rfl, hindex⟩

theorem Lead.nodup_bases (h : g.Lead system params options p)
    (hnodup : (system.equations.map (·.lhs.state)).Nodup) :
    (g.states.families.map (·.base)).Nodup := by
  have hbases : g.states.families.map (·.base) = g.split.families.map (·.1.lhs.state) := by
    rw [← List.forall₂_eq_eq_eq, List.forall₂_map_left_iff, List.forall₂_map_right_iff]
    exact (forall₂_placeFamilies _ _ _).flip.imp fun _ _ hq => hq.1
  rw [hbases]
  exact h.divides.nodup_families (h.nodup hnodup)

/-- The indices of a system and of its parameters. -/
def declared (g : Stages K) : List Index := declaredIndices ⟨g.equations, none⟩ g.layout

theorem Lead.mem_declared_state (h : g.Lead system params options p) {f : StateFamily K}
    (hf : f ∈ g.states.families) : f.index ∈ g.declared := by
  have hmem := h.exists_family_iff.mp ⟨f, hf, rfl, rfl⟩
  rw [← h.lhs] at hmem
  obtain ⟨e, he, hlhs⟩ := List.mem_map.mp hmem
  rw [declared, declaredIndices, mem_firsts]
  refine List.mem_append_left _ (List.mem_flatMap.mpr ⟨e, he, List.mem_append_left _ ?_⟩)
  rw [hlhs]
  exact mem_firsts.mpr List.mem_cons_self

omit [Literal K] in
theorem mem_declared_param {f : ParamFamily} (hf : f ∈ g.layout.families) {i : Index}
    (hi : i ∈ f.indices) : i ∈ g.declared := by
  rw [declared, declaredIndices, mem_firsts]
  exact List.mem_append_right _ (List.mem_flatMap.mpr ⟨f, hf, hi⟩)

/-- **Parameters are looked at before states**, the last of each first. -/
theorem resolve_rules {s : Indexed} {rule : AccessRule K} :
    g.rules.resolve s = .access rule ↔ ∃ d,
      ((g.layout.families.map FamilyDecl.ofParam).reverse.find? fun d => d.Refers g.declared s).or
        ((g.states.families.map (FamilyDecl.ofState g.layout)).reverse.find? fun d =>
          d.Refers g.declared s) = some d ∧ d.rule = rule := by
  rw [rules, RuleSet.resolve_eq_access_iff, RuleSet.declarations, List.reverse_append,
    List.find?_append]
  rfl

omit [Literal K] in
/-- The only entry that meets a condition is found. -/
theorem find?_of_unique {α : Type} {l : List α} {P : α → Bool} {a : α} (ha : a ∈ l)
    (hP : P a = true) (hunique : ∀ b ∈ l, P b = true → b = a) : l.find? P = some a := by
  cases hfind : l.find? P with
  | none => exact absurd hP (List.find?_eq_none.mp hfind a ha)
  | some b => rw [hunique b (List.mem_of_find?_eq_some hfind) (List.find?_some hfind)]

/-- A parameter family is found under its own indices. -/
theorem resolve_param (h : g.Lead system params options p) {f : ParamFamily}
    (hf : f ∈ g.layout.families) :
    g.rules.resolve ⟨f.base, f.indices⟩ = .access (FamilyDecl.ofParam f).rule := by
  have hrefers : (FamilyDecl.ofParam f : FamilyDecl K).Refers g.declared ⟨f.base, f.indices⟩ :=
    FamilyDecl.refers_self fun i hi => mem_declared_param hf hi
  have hfind : (g.layout.families.map FamilyDecl.ofParam).reverse.find?
      (fun d => d.Refers g.declared ⟨f.base, f.indices⟩) = some (.ofParam f : FamilyDecl K) := by
    refine find?_of_unique (List.mem_reverse.mpr (List.mem_map_of_mem hf))
      (by simpa using hrefers) ?_
    intro d hd hP
    obtain ⟨f', hf', rfl⟩ := List.mem_map.mp (List.mem_reverse.mp hd)
    have hbase : f'.base = f.base := (of_decide_eq_true hP).1
    rw [List.inj_on_of_nodup_map (List.nodup_append.mp h.places.nodup).2.1 hf' hf hbase]
  refine resolve_rules.mpr ⟨_, ?_, rfl⟩
  rw [hfind, Option.some_or]

/-- A family of states is found under its own index, unless a parameter stands before it. -/
theorem resolve_state (h : g.Lead system params options p)
    (hnodup : (system.equations.map (·.lhs.state)).Nodup) {f : StateFamily K}
    (hf : f ∈ g.states.families)
    (hparam : ∀ q ∈ g.layout.families,
      ¬(FamilyDecl.ofParam q : FamilyDecl K).Refers g.declared ⟨f.base, [f.index]⟩) :
    g.rules.resolve ⟨f.base, [f.index]⟩ = .access (FamilyDecl.ofState g.layout f).rule := by
  have hrefers : (FamilyDecl.ofState g.layout f).Refers g.declared ⟨f.base, [f.index]⟩ := by
    refine FamilyDecl.refers_self fun i hi => ?_
    obtain rfl := List.mem_singleton.mp hi
    exact h.mem_declared_state hf
  have hnone : (g.layout.families.map FamilyDecl.ofParam).reverse.find?
      (fun d : FamilyDecl K => d.Refers g.declared ⟨f.base, [f.index]⟩) = none := by
    refine List.find?_eq_none.mpr fun d hd => ?_
    obtain ⟨q, hq, rfl⟩ := List.mem_map.mp (List.mem_reverse.mp hd)
    simpa using hparam q hq
  have hfind : (g.states.families.map (FamilyDecl.ofState g.layout)).reverse.find?
      (fun d => d.Refers g.declared ⟨f.base, [f.index]⟩) = some (.ofState g.layout f) := by
    refine find?_of_unique (List.mem_reverse.mpr (List.mem_map_of_mem hf))
      (by simpa using hrefers) ?_
    intro d hd hP
    obtain ⟨f', hf', rfl⟩ := List.mem_map.mp (List.mem_reverse.mp hd)
    have hbase : f'.base = f.base := (of_decide_eq_true hP).1
    rw [List.inj_on_of_nodup_map (h.nodup_bases hnodup) hf' hf hbase]
  refine resolve_rules.mpr ⟨_, ?_, rfl⟩
  rw [hnone, hfind, Option.none_or]

/-- An occurrence that a parameter family can stand for is read as a parameter. -/
theorem resolve_of_refers_param {s : Indexed} {f : ParamFamily} (hf : f ∈ g.layout.families)
    (hrefers : (FamilyDecl.ofParam f : FamilyDecl K).Refers g.declared s) :
    ∃ rule : AccessRule K, g.rules.resolve s = .access rule ∧ rule.buffer = .param := by
  have hsome : ((g.layout.families.map FamilyDecl.ofParam).reverse.find?
      fun d : FamilyDecl K => d.Refers g.declared s).isSome := by
    rw [List.find?_isSome]
    exact ⟨_, List.mem_reverse.mpr (List.mem_map_of_mem hf), by simpa using hrefers⟩
  obtain ⟨d, hd⟩ := Option.isSome_iff_exists.mp hsome
  obtain ⟨q, -, rfl⟩ := List.mem_map.mp (List.mem_reverse.mp (List.mem_of_find?_eq_some hd))
  refine ⟨(FamilyDecl.ofParam q).rule, resolve_rules.mpr ⟨_, ?_, rfl⟩, rfl⟩
  rw [hd, Option.some_or]

end Stages

/-! ## Occurrences -/

section Occurrences

variable {c : LoweringContext K} {scope : IndexScope} {x : String} {s : Indexed} {n : Node K}

theorem Expr.lowersTo_symbol :
    (Expr.symbol x).LowersTo c scope n ↔ n = (c.names.lookup x).getD (.named x) := by
  constructor
  · rintro ⟨i, j, h⟩
    exact (Prod.mk.inj (Except.ok.inj h)).1.symm
  · rintro rfl
    exact ⟨0, 0, rfl⟩

theorem Expr.lowersTo_indexed :
    (Expr.indexed s).LowersTo c scope n ↔ c.indexedNode scope s = .ok n := by
  constructor
  · rintro ⟨i, j, h⟩
    exact (Lowering.ok_of_lift h).1
  · intro h
    refine ⟨0, 0, ?_⟩
    rw [lower, h]
    rfl

omit [Literal K] in
/-- Indices in scope stand for their variables. -/
theorem LoweringContext.indexNodes_eq {is : List Index} {xs : List String}
    (h : List.Forall₂ (fun i x => scope.lookup i = some x) is xs) :
    c.indexNodes scope is = .ok (xs.map .var) := by
  induction h with
  | nil => rfl
  | cons hi _ ih =>
    rw [indexNodes] at ih ⊢
    rw [List.mapM_cons, ih, indexNode, hi]
    rfl

theorem LoweringContext.indexedNode_eq {rule : AccessRule K} {xs : List String}
    (hrule : c.rules.resolve s = .access rule)
    (h : List.Forall₂ (fun i x => scope.lookup i = some x) s.indices xs) :
    c.indexedNode scope s = .ok (rule.location (xs.map .var)) := by
  rw [indexedNode, hrule]
  simp only [indexNodes_eq h]
  rfl

end Occurrences

/-- **The declarations of a system do not collide**, beyond what is refused anyway. -/
structure EquationSystem.NoCollision (system : EquationSystem K) (params : List (Expr K))
    (options : Options) : Prop where
  /-- Time has a name of its own. -/
  time : ∀ x, system.time = some x →
    .scalar x ∉ system.equations.map (·.lhs) ∧ .symbol x ∉ params
  /-- No parameter family has the name and the range of a family of states. -/
  family : ∀ b i j, .indexed ⟨b, [i]⟩ ∈ system.equations.map (·.lhs) → .indexed ⟨b, [j]⟩ ∈ params →
    ¬(i.lower = j.lower ∧ i.upper = j.upper)
  /-- A state with an empty list of indices is neither a parameter nor filled with zeros. -/
  nullary : ∀ b, .indexed ⟨b, []⟩ ∈ system.equations.map (·.lhs) → .indexed ⟨b, []⟩ ∉ params ∧
    (options.unknownsZero = true → ∃ is, .indexed ⟨b, is⟩ ∈ params)

namespace Stages

/-- A context in which right-hand sides are lowered. -/
structure Hosts (g : Stages K) (options : Options) (c : LoweringContext K) : Prop where
  names : c.names = g.names
  rules : c.rules = g.rules
  params : c.params = g.layout
  zeroFill : c.zeroFill = options.unknownsZero

/-- An expression is lowered to this node, and to no other. -/
def Denotes (g : Stages K) (options : Options) (scope : IndexScope) (e : Expr K) (n : Node K) :
    Prop :=
  ∀ c, g.Hosts options c → ∀ n', e.LowersTo c scope n' ↔ n' = n

/-- **Every declaration is read as what it declares**, in every scope of its indices. -/
structure Faithful (g : Stages K) (system : EquationSystem K) (params : List (Expr K))
    (options : Options) : Prop where
  /-- A scalar state is the element of the state array at its slot. -/
  scalarState : ∀ (k : Nat) (e : Equation K) x scope, g.split.scalars[k]? = some e →
    e.lhs = .scalar x →
    g.Denotes options scope (.symbol x) (.access .state (.ofInt k))
  /-- So is a state with an empty list of indices, where it can be read at all. -/
  nullaryState : ∀ (k : Nat) (e : Equation K) b scope c n, g.split.scalars[k]? = some e →
    e.lhs = .indexed ⟨b, []⟩ → g.Hosts options c → (Expr.indexed ⟨b, []⟩).LowersTo c scope n →
      n = .access .state (.ofInt k)
  /-- A family of states is its block of the state array. -/
  stateFamily : ∀ f ∈ g.states.families, ∀ scope x, scope.lookup f.index = some x →
    g.Denotes options scope (.indexed ⟨f.base, [f.index]⟩)
      ((FamilyDecl.ofState g.layout f).rule.location [.var x])
  /-- A scalar parameter is the element of the parameter array at its slot. -/
  scalarParam : ∀ q ∈ g.layout.scalars, ∀ scope,
    g.Denotes options scope (.symbol q.1) (ParamLayout.accessAt q.2)
  /-- A family of parameters is its block of the parameter array. -/
  paramFamily : ∀ f ∈ g.layout.families, ∀ scope xs,
    List.Forall₂ (fun i x => scope.lookup i = some x) f.indices xs →
      g.Denotes options scope (.indexed ⟨f.base, f.indices⟩)
        ((FamilyDecl.ofParam f).rule.location (xs.map .var))
  /-- The name of the time is the time, unless it is declared. -/
  time : ∀ x scope, system.time = some x → .scalar x ∉ system.equations.map (·.lhs) →
    .symbol x ∉ params → g.Denotes options scope (.symbol x) .time

section Collisions

variable {g : Stages K} {system : EquationSystem K} {params : List (Expr K)} {options : Options}
  {p : Procedure K} {x : String} {scope : IndexScope} {n : Node K}

theorem hosts_context (g : Stages K) (options : Options) : g.Hosts options (g.context options) :=
  ⟨rfl, rfl, rfl, rfl⟩

theorem denotes_symbol (h : g.names.lookup x = some n) :
    g.Denotes options scope (.symbol x) n := by
  intro c hc n'
  rw [Expr.lowersTo_symbol, hc.names, h]
  rfl

theorem denotes_indexed {s : Indexed} {rule : AccessRule K} (xs : List String)
    (hrule : g.rules.resolve s = .access rule)
    (h : List.Forall₂ (fun i x => scope.lookup i = some x) s.indices xs) :
    g.Denotes options scope (.indexed s) (rule.location (xs.map .var)) := by
  intro c hc n'
  rw [Expr.lowersTo_indexed, LoweringContext.indexedNode_eq (hc.rules ▸ hrule) h]
  exact ⟨fun hn => (Except.ok.inj hn).symm, fun hn => hn ▸ rfl⟩

theorem Denotes.unique {e : Expr K} {n n' : Node K} (h : g.Denotes options scope e n)
    (h' : g.Denotes options scope e n') : n = n' :=
  (h' _ (hosts_context g options) n).mp ((h _ (hosts_context g options) n).mpr rfl)

/-- A family of parameters with a name and no indices but others. -/
theorem Lead.refers_param (h : g.Lead system params options p) {f : ParamFamily} {s : Indexed}
    (hf : f ∈ g.layout.families)
    (hrefers : (FamilyDecl.ofParam f : FamilyDecl K).Refers g.declared s) :
    ∃ is, .indexed ⟨s.base, is⟩ ∈ params ∧
      List.Forall₂ (fun i j : Index => i.lower = j.lower ∧ i.upper = j.upper) s.indices is := by
  obtain ⟨hbase, hindices⟩ := FamilyDecl.refers_iff.mp hrefers
  have hparam := (h.places.family f hf).1
  exact ⟨f.indices, hbase ▸ hparam, hindices.imp fun _ _ hi => hi.2⟩

theorem Lead.mem_params_iff (h : g.Lead system params options p) {b : String} :
    (∃ is, .indexed ⟨b, is⟩ ∈ params) ↔ b ∈ g.layout.families.map (·.base) := by
  constructor
  · rintro ⟨is, hmem⟩
    rcases h.places.placed _ hmem with ⟨x, k, hx, -⟩ | ⟨f, hf, hs⟩
    · cases hx
    · obtain rfl : b = f.base := congrArg Indexed.base (Expr.indexed.inj hs)
      exact List.mem_map_of_mem hf
  · intro hb
    obtain ⟨f, hf, rfl⟩ := List.mem_map.mp hb
    exact ⟨f.indices, (h.places.family f hf).1⟩

theorem resolve_eq_unknown {s : Indexed} : g.rules.resolve s = .unknown ↔
    s.base ∉ g.states.families.map (·.base) ∧ s.base ∉ g.layout.families.map (·.base) := by
  rw [rules, RuleSet.resolve_eq_unknown_iff, RuleSet.declarations, List.map_append, List.map_map,
    List.map_map, List.mem_append, not_or]
  rfl

/-- An occurrence without indices refers to a parameter, if to anything. -/
theorem Lead.mem_params_of_resolve (h : g.Lead system params options p) {b : String}
    {rule : AccessRule K} (hrule : g.rules.resolve ⟨b, []⟩ = .access rule) :
    .indexed ⟨b, []⟩ ∈ params := by
  obtain ⟨d, hd, hrefers, -⟩ := RuleSet.refers_of_resolve hrule
  rcases List.mem_append.mp hd with hd | hd
  · obtain ⟨f, -, rfl⟩ := List.mem_map.mp hd
    cases (FamilyDecl.refers_iff.mp hrefers).2
  · obtain ⟨f, hf, rfl⟩ := List.mem_map.mp hd
    obtain ⟨is, hmem, his⟩ := h.refers_param hf hrefers
    obtain rfl := List.forall₂_nil_left_iff.mp his
    exact hmem

theorem faithful_of_noCollision (h : g.Lead system params options p)
    (hnodup : (system.equations.map (·.lhs.state)).Nodup)
    (hdistinct : system.NoCollision params options) : g.Faithful system params options where
  scalarState k e x scope hk he := by
    have hstate : e.lhs.state = x := by rw [he]; rfl
    refine denotes_symbol ?_
    rw [← hstate]
    refine lookup_state h hnodup hk fun htime => ?_
    exact (hdistinct.time _ htime).1 (hstate ▸ he ▸ h.mem_lhs_scalar hk)
  nullaryState k e b scope c n hk he hc hn := by
    obtain ⟨hparam, hzero⟩ := hdistinct.nullary b (he ▸ h.mem_lhs_scalar hk)
    rw [Expr.lowersTo_indexed, LoweringContext.indexedNode, hc.rules, hc.zeroFill] at hn
    split at hn
    · next rule hrule => exact absurd (h.mem_params_of_resolve hrule) hparam
    · cases hn
    · next hunknown =>
      split at hn
      · next hfill =>
        exact absurd (h.mem_params_iff.mp (hzero hfill)) (resolve_eq_unknown.mp hunknown).2
      · cases hn
  stateFamily f hf scope x hx := by
    refine denotes_indexed (s := ⟨f.base, [f.index]⟩) [x] ?_ (.cons hx .nil)
    refine resolve_state h hnodup hf fun q hq hrefers => ?_
    obtain ⟨is, hmem, his⟩ := h.refers_param hq hrefers
    obtain ⟨j, rest, hj, hrest, rfl⟩ := List.forall₂_cons_left_iff.mp his
    obtain rfl := List.forall₂_nil_left_iff.mp hrest
    exact hdistinct.family f.base f.index j (h.exists_family_iff.mp ⟨f, hf, rfl, rfl⟩) hmem hj
  scalarParam q hq scope := by
    refine denotes_symbol (lookup_param h hq fun htime => ?_)
    exact (hdistinct.time _ htime).2 (h.places.scalar q hq).1
  paramFamily f hf scope xs hxs := denotes_indexed xs (resolve_param h hf) hxs
  time x scope htime _ _ := denotes_symbol (lookup_time h htime)

/-- A state with an empty list of indices has the name of no family. -/
theorem Lead.not_mem_bases (h : g.Lead system params options p)
    (hnodup : (system.equations.map (·.lhs.state)).Nodup) {b : String}
    (hb : .indexed ⟨b, []⟩ ∈ system.equations.map (·.lhs)) :
    b ∉ g.states.families.map (·.base) := by
  intro hmem
  obtain ⟨f, hf, rfl⟩ := List.mem_map.mp hmem
  have hfamily := h.exists_family_iff.mp ⟨f, hf, rfl, rfl⟩
  have hstates : ((system.equations.map (·.lhs)).map Target.state).Nodup := by rwa [List.map_map]
  cases List.inj_on_of_nodup_map hstates hb hfamily rfl

theorem noCollision_of_faithful (h : g.Lead system params options p)
    (hnodup : (system.equations.map (·.lhs.state)).Nodup)
    (hfaithful : g.Faithful system params options) : system.NoCollision params options where
  time x htime := by
    have hx : g.Denotes options [] (.symbol x) .time := denotes_symbol (lookup_time h htime)
    constructor
    · intro hstate
      obtain ⟨k, e, hk, he⟩ := h.exists_scalar rfl hstate
      cases hx.unique (hfaithful.scalarState k e x [] hk he)
    · intro hparam
      rcases h.places.placed _ hparam with ⟨y, k, hy, hmem⟩ | ⟨f, -, hf⟩
      · obtain rfl := Expr.symbol.inj hy
        cases hx.unique (hfaithful.scalarParam _ hmem [])
      · cases hf
  family b i j hstate hparam hrange := by
    obtain ⟨f, hf, rfl, rfl⟩ := h.exists_family_iff.mpr hstate
    rcases h.places.placed _ hparam with ⟨y, k, hy, -⟩ | ⟨q, hq, hs⟩
    · cases hy
    -- the parameter is found first, and lies in another array
    obtain ⟨hbase, hindices⟩ := Indexed.mk.inj (Expr.indexed.inj hs)
    have hrefers : (FamilyDecl.ofParam q : FamilyDecl K).Refers g.declared ⟨f.base, [f.index]⟩ := by
      refine FamilyDecl.refers_iff.mpr ⟨hbase.symm, ?_⟩
      change List.Forall₂ _ _ q.indices
      rw [← hindices]
      exact .cons ⟨h.mem_declared_state hf, hrange⟩ .nil
    obtain ⟨rule, hrule, hbuffer⟩ := resolve_of_refers_param hq hrefers
    have hscope : List.lookup f.index [(f.index, "")] = some "" := List.lookup_cons_self
    have hread : g.Denotes options [(f.index, "")] (.indexed ⟨f.base, [f.index]⟩)
        (rule.location [.var ""]) := denotes_indexed [""] hrule (.cons hscope .nil)
    have hnode := hread.unique (hfaithful.stateFamily f hf [(f.index, "")] "" hscope)
    rw [AccessRule.location, hbuffer] at hnode
    cases (Node.access.inj hnode).1
  nullary b hstate := by
    obtain ⟨k, e, hk, he⟩ := h.exists_scalar rfl hstate
    have hread := fun n => hfaithful.nullaryState k e b [] _ n hk he (hosts_context g options)
    constructor
    · intro hparam
      rcases h.places.placed _ hparam with ⟨y, k, hy, -⟩ | ⟨q, hq, hs⟩
      · cases hy
      obtain ⟨hbase, hindices⟩ := Indexed.mk.inj (Expr.indexed.inj hs)
      have hrule : g.rules.resolve ⟨b, []⟩ = .access (FamilyDecl.ofParam q).rule := by
        rw [hbase, hindices]
        exact resolve_param h hq
      have hnode := hread _ ((denotes_indexed [] hrule .nil _ (hosts_context g options) _).mpr rfl)
      cases (Node.access.inj hnode).1
    · intro hfill
      by_contra hnone
      have hunknown : g.rules.resolve ⟨b, []⟩ = .unknown :=
        resolve_eq_unknown.mpr ⟨h.not_mem_bases hnodup hstate, fun hb =>
          hnone (h.mem_params_iff.mpr hb)⟩
      have hnode := hread (.access .zero (.ofInt 0)) (Expr.lowersTo_indexed.mpr (by
        rw [LoweringContext.indexedNode, (hosts_context g options).rules, hunknown,
          (hosts_context g options).zeroFill]
        simp only [hfill, if_true]))
      cases (Node.access.inj hnode).1

end Collisions

end Stages

/-! ## Faithful systems -/

namespace EquationSystem

/-- **A name denotes one thing exactly when no declarations collide.**  A procedure that was
generated has gone through its stages, and these read every state, every parameter and the time as
what it is declared to be if and only if time has a name of its own, no family of parameters hides
one of states, and no state with an empty list of indices is read as a parameter or as zero. -/
theorem faithful_iff_noCollision {pairs : List (Expr K × Expr K)} {s : EquationSystem K}
    {time : Option String} {params : List (Expr K)} {options : Options} {p : Procedure K}
    (hs : ofPairs pairs = .ok s) (h : generate ⟨s.equations, time⟩ params options = .ok p) :
    (∃ g : Stages K, g.Lead ⟨s.equations, time⟩ params options p) ∧
      ∀ g : Stages K, g.Lead ⟨s.equations, time⟩ params options p →
        (g.Faithful ⟨s.equations, time⟩ params options ↔
          NoCollision ⟨s.equations, time⟩ params options) := by
  have hnodup : (s.equations.map (·.lhs.state)).Nodup := nodup_states hs
  refine ⟨generate_stages h, fun g hg => ⟨?_, ?_⟩⟩
  · exact Stages.noCollision_of_faithful hg hnodup
  · exact Stages.faithful_of_noCollision hg hnodup

/-- The sites one and two. -/
def twoSites (label : String) : Index := ⟨label, .literal 1, .literal 2⟩

/-- A scalar state driven by time, and a family of states driven by a family of parameters. -/
def drivenChain : List (Equation ℚ) :=
  [.of (.scalar "x") (.mul [.symbol "a", .symbol "x", .symbol "t"]),
    .of (.indexed ⟨"n", [twoSites "i"]⟩) (.add [.indexed ⟨"J", [twoSites "i"]⟩,
      .sum (twoSites "j") [] (.indexed ⟨"n", [twoSites "j"]⟩)])]

/-- Its parameters. -/
def drivenParams : List (Expr ℚ) := [.symbol "a", .indexed ⟨"J", [twoSites "k"]⟩]

theorem faithful_drivenChain :
    ofPairs (drivenChain.map fun e => (e.lhs.toExpr, e.rhs)) = .ok ⟨drivenChain, none⟩ ∧
      ∃ p, generate ⟨drivenChain, some "t"⟩ drivenParams {} = .ok p ∧
        ∃ g : Stages ℚ, g.Lead ⟨drivenChain, some "t"⟩ drivenParams {} p ∧
          g.Faithful ⟨drivenChain, some "t"⟩ drivenParams {} := by
  have hs : ofPairs (drivenChain.map fun e => (e.lhs.toExpr, e.rhs)) = .ok ⟨drivenChain, none⟩ :=
    rfl
  obtain ⟨p, h⟩ : ∃ p, generate ⟨drivenChain, some "t"⟩ drivenParams {} = .ok p := ⟨_, rfl⟩
  obtain ⟨⟨g, hg⟩, hiff⟩ := faithful_iff_noCollision hs h
  refine ⟨hs, p, h, g, hg, (hiff g hg).mpr ⟨?_, ?_, ?_⟩⟩
  · rintro x ⟨⟩
    simp [drivenChain, drivenParams, Equation.of]
  · intro b i j hstate hparam
    simp only [drivenChain, drivenParams] at hstate hparam
    grind [Equation.of]
  · simp [drivenChain, Equation.of]

/-- **Time hides a state** of its name: the derivative of `x` reads the time instead of the state,
and no error is reported. -/
theorem time_hides_state : ∃ s p, ofPairs [((.symbol "x" : Expr ℚ), .symbol "x")] = .ok s ∧
    (s.withTime "x").generate [] {} = .ok p ∧ p.body = [.assign (.ofInt 0) .time] :=
  ⟨_, _, rfl, rfl, rfl⟩

end EquationSystem

end Fluxion
