import Fluxion.Proofs.Expressions.Elimination
import Fluxion.Proofs.Layout.Resolution
import Mathlib.Data.Finset.Card

/-!
# Proofs/Layout/RuleTable — the table of relabellings is exact

A family is listed once for every choice of declared indices that range as its own do, one for each
dimension.  The number of choices is known before any is made (`relabellings`), and it is the number
of rules: no two rules have the same key as long as the families have different names.

An occurrence in a system has declared indices only, so a look-up in the table comes to comparing it
with the one family of its name, dimension by dimension (`RuleSet.ExactAt`).
-/

namespace Fluxion

variable {K : Type}

/-! ## Choices -/

theorem length_tuples {α : Type} (choices : List (List α)) :
    (tuples choices).length = (choices.map List.length).prod := by
  induction choices with
  | nil => rfl
  | cons c choices ih => simp [tuples, List.length_flatMap, ih]

theorem nodup_tuples {α : Type} {choices : List (List α)} (h : ∀ c ∈ choices, c.Nodup) :
    (tuples choices).Nodup := by
  induction choices with
  | nil => simp [tuples]
  | cons c choices ih =>
    obtain ⟨hc, hrest⟩ := List.forall_mem_cons.mp h
    refine List.nodup_flatMap.mpr ⟨fun a _ => (ih hrest).map List.cons_injective,
      hc.imp fun hab => ?_⟩
    intro t ht ht'
    obtain ⟨r, -, rfl⟩ := List.mem_map.mp ht
    obtain ⟨r', -, heq⟩ := List.mem_map.mp ht'
    exact hab (List.cons.inj heq).1.symm

/-- **The number of relabellings** of some families: for each family the product, over its
dimensions, of the number of declared indices with that range. -/
def relabellings (declared : Finset Index) (families : List Indexed) : Nat :=
  (families.map fun s => (s.indices.map fun own =>
    (declared.filter fun i => i.lower = own.lower ∧ i.upper = own.upper).card).prod).sum

theorem length_candidates {declared : List Index} (h : declared.Nodup) (own : Index) :
    (candidates declared own).length =
      (declared.toFinset.filter fun i => i.lower = own.lower ∧ i.upper = own.upper).card := by
  rw [candidates, ← List.toFinset_card_of_nodup (h.filter _), List.toFinset_filter]
  simp only [Index.sameRange_iff]

/-- A count as far as it is kept apart from larger ones. -/
def saturate (n : Nat) : Nat := min n countLimit

theorem saturate_mul (n m : Nat) : saturate (saturate n * m) = saturate (n * m) := by
  unfold saturate
  rcases Nat.le_total n countLimit with hn | hn
  · rw [Nat.min_eq_left hn]
  · rcases Nat.eq_zero_or_pos m with rfl | hm
    · rfl
    · have hle : countLimit ≤ countLimit * m := Nat.le_mul_of_pos_right _ hm
      rw [Nat.min_eq_right hn, Nat.min_eq_right hle,
        Nat.min_eq_right (hle.trans (Nat.mul_le_mul_right m hn))]

theorem saturate_add (n m : Nat) : saturate (saturate n + m) = saturate (n + m) := by
  unfold saturate
  omega

/-- Saturating at every step of a count is saturating at its end. -/
theorem foldl_saturate {α : Type} {op : Nat → Nat → Nat} (f : α → Nat)
    (hop : ∀ n m, saturate (op (saturate n) m) = saturate (op n m)) (l : List α) (n : Nat) :
    l.foldl (fun n a => saturate (op n (f a))) (saturate n) = saturate ((l.map f).foldl op n) := by
  induction l generalizing n with
  | nil => rfl
  | cons a l ih => rw [List.foldl_cons, hop, ih, List.map_cons, List.foldl_cons]

namespace FamilyDecl

variable {declared : List Index}

/-- The family as it is declared. -/
def symbol (d : FamilyDecl K) : Indexed := ⟨d.base, d.indices⟩

/-- **Some indices fit a family**: there are as many, each with the range of the one in its
position. -/
def Fits (d : FamilyDecl K) (indices : List Index) : Prop :=
  List.Forall₂ (fun i own => i.lower = own.lower ∧ i.upper = own.upper) indices d.indices

theorem length_labellings (d : FamilyDecl K) :
    (d.labellings declared).length = d.count declared := by
  rw [labellings, length_tuples, List.map_map, count, List.prod_eq_foldr]
  rfl

theorem nodup_labellings (h : declared.Nodup) (d : FamilyDecl K) :
    (d.labellings declared).Nodup := by
  refine nodup_tuples fun c hc => ?_
  obtain ⟨own, -, rfl⟩ := List.mem_map.mp hc
  exact h.filter _

/-- An occurrence with declared indices can refer to a family exactly if it has its name and its
ranges. -/
theorem refers_iff_fits {s : Indexed} {d : FamilyDecl K} (hs : ∀ i ∈ s.indices, i ∈ declared) :
    d.Refers declared s ↔ d.base = s.base ∧ d.Fits s.indices := by
  rw [refers_iff, List.forall₂_and_left, Fits]
  exact and_congr_right fun _ => and_iff_right hs

/-- The number of relabellings as it is counted, every product saturating. -/
def saturatedCount (declared : List Index) (d : FamilyDecl K) : Nat :=
  d.indices.foldl (fun n own => saturate (n * (candidates declared own).length)) 1

theorem saturatedCount_eq (d : FamilyDecl K) :
    d.saturatedCount declared = saturate (d.count declared) := by
  refine (foldl_saturate (fun own => (candidates declared own).length) saturate_mul
    d.indices 1).trans ?_
  rw [← List.prod_eq_foldl, List.prod_eq_foldr, count]

end FamilyDecl

namespace RuleSet

variable {declared : List Index} {decls : List (FamilyDecl K)} {s : Indexed}

/-- The number of rules as it is counted, every product and every sum saturating. -/
def saturatedCount (declared : List Index) (decls : List (FamilyDecl K)) : Nat :=
  decls.foldl (fun n d => saturate (n + d.saturatedCount declared)) 0

theorem saturatedCount_eq_required (declared : List Index) (decls : List (FamilyDecl K)) :
    saturatedCount declared decls = required declared decls := by
  have hstep (n : Nat) (d : FamilyDecl K) :
      saturate (n + d.saturatedCount declared) = saturate (n + d.count declared) := by
    rw [d.saturatedCount_eq, Nat.add_comm, saturate_add, Nat.add_comm]
  unfold saturatedCount
  simp only [hstep]
  refine (foldl_saturate (FamilyDecl.count declared) saturate_add decls 0).trans ?_
  rw [← List.sum_eq_foldl, List.sum_eq_foldr]
  rfl

theorem sum_count (h : declared.Nodup) (decls : List (FamilyDecl K)) :
    (decls.map (FamilyDecl.count declared)).sum =
      relabellings declared.toFinset (decls.map FamilyDecl.symbol) := by
  simp only [relabellings, List.map_map, ← length_candidates h, List.prod_eq_foldr]
  rfl

theorem required_eq (h : declared.Nodup) (decls : List (FamilyDecl K)) :
    required declared decls =
      min (relabellings declared.toFinset (decls.map FamilyDecl.symbol)) countLimit := by
  rw [← sum_count h, List.sum_eq_foldr, required]

/-- **There are as many rules as relabellings.** -/
theorem length_rules (h : declared.Nodup) (decls : List (FamilyDecl K)) :
    (ofDecls declared decls).rules.length =
      relabellings declared.toFinset (decls.map FamilyDecl.symbol) := by
  rw [← sum_count h, ofDecls, List.length_flatMap]
  simp only [List.length_map, FamilyDecl.length_labellings]

/-- **No two rules have the same key.** -/
theorem nodup_keys (h : declared.Nodup) (hbases : (decls.map (·.base)).Nodup) :
    ((ofDecls declared decls).rules.map (·.1)).Nodup := by
  rw [ofDecls, List.map_flatMap, List.nodup_flatMap]
  constructor
  · intro d _
    rw [List.map_map]
    exact (d.nodup_labellings h).map fun t t' heq => (Prod.mk.inj heq).2
  · refine (List.pairwise_map.mp hbases).imp fun hne => ?_
    intro key hd hd'
    simp only [List.map_map, List.mem_map, Function.comp_apply] at hd hd'
    obtain ⟨t, -, rfl⟩ := hd
    obtain ⟨t', -, heq⟩ := hd'
    exact hne (Prod.mk.inj heq).1.symm

/-! ## Looking an occurrence up -/

/-- **A table is exact for an occurrence**, given the families it was made from: the occurrence is
the family of its name if its indices fit, it is incompatible if they do not, and unknown if there
is no such family. -/
structure ExactAt (table : RuleSet K) (decls : List (FamilyDecl K)) (s : Indexed) : Prop where
  access : ∀ rule, table.resolve s = .access rule ↔
    ∃ d ∈ decls, d.base = s.base ∧ d.Fits s.indices ∧ d.rule = rule
  incompatible : table.resolve s = .incompatible ↔ ∃ d ∈ decls, d.base = s.base ∧ ¬d.Fits s.indices
  unknown : table.resolve s = .unknown ↔ ∀ d ∈ decls, d.base ≠ s.base

/-- If families have different names, an occurrence resolves to the one that it can refer to. -/
theorem resolve_of_refers (hbases : (decls.map (·.base)).Nodup) {d : FamilyDecl K} (hd : d ∈ decls)
    (hrefers : d.Refers declared s) : (ofDecls declared decls).resolve s = .access d.rule := by
  refine resolve_eq_access_iff.mpr ⟨d, ?_, rfl⟩
  refine Stages.find?_of_unique (List.mem_reverse.mpr hd) (decide_eq_true hrefers)
    fun d' hd' hrefers' => ?_
  have hbase : d'.base = d.base := (of_decide_eq_true hrefers').1.trans hrefers.1.symm
  exact List.inj_on_of_nodup_map hbases (List.mem_reverse.mp hd') hd hbase

theorem exactAt_ofDecls (hbases : (decls.map (·.base)).Nodup) (hs : ∀ i ∈ s.indices, i ∈ declared) :
    (ofDecls declared decls).ExactAt decls s := by
  have hfits {d : FamilyDecl K} (hd : d ∈ decls) (hbase : d.base = s.base) (h : d.Fits s.indices) :
      (ofDecls declared decls).resolve s = .access d.rule :=
    resolve_of_refers hbases hd ((FamilyDecl.refers_iff_fits hs).mpr ⟨hbase, h⟩)
  have haccess (rule : AccessRule K) : (ofDecls declared decls).resolve s = .access rule ↔
      ∃ d ∈ decls, d.base = s.base ∧ d.Fits s.indices ∧ d.rule = rule := by
    constructor
    · intro h
      obtain ⟨d, hd, hrefers, hrule⟩ := refers_of_resolve h
      obtain ⟨hbase, hfit⟩ := (FamilyDecl.refers_iff_fits hs).mp hrefers
      exact ⟨d, hd, hbase, hfit, hrule⟩
    · rintro ⟨d, hd, hbase, hfit, rfl⟩
      exact hfits hd hbase hfit
  have hunknown : (ofDecls declared decls).resolve s = .unknown ↔ ∀ d ∈ decls, d.base ≠ s.base := by
    rw [resolve_eq_unknown_iff, List.mem_map]
    simp only [not_exists, not_and]
  refine ⟨haccess, ⟨fun h => ?_, ?_⟩, hunknown⟩
  · have hknown : ¬∀ d ∈ decls, d.base ≠ s.base := fun hnone => by
      rw [hunknown.mpr hnone] at h
      cases h
    obtain ⟨d, hd, hbase⟩ : ∃ d ∈ decls, d.base = s.base := by simpa using hknown
    refine ⟨d, hd, hbase, fun hfit => ?_⟩
    rw [hfits hd hbase hfit] at h
    cases h
  · rintro ⟨d, hd, hbase, hmisfit⟩
    cases hresolve : (ofDecls declared decls).resolve s with
    | incompatible => rfl
    | unknown => exact absurd hbase (hunknown.mp hresolve d hd)
    | access rule =>
      obtain ⟨d', hd', hbase', hfit, -⟩ := (haccess rule).mp hresolve
      have heq : d' = d := List.inj_on_of_nodup_map hbases hd' hd (hbase'.trans hbase.symm)
      exact absurd (heq ▸ hfit) hmisfit

end RuleSet

/-! ## The families of a system -/

/-- The family that the left-hand side of an equation declares; none if it has no indices. -/
def Target.family? : Target → Option Indexed
  | .scalar _ => none
  | .indexed s => if s.indices = [] then none else some s

/-- The family that a parameter declares. -/
def Expr.family? : Expr K → Option Indexed
  | .indexed s => some s
  | _ => none

theorem Target.family?_of_indices {t : Target} {i : Index} (h : t.indices = [i]) :
    t.family? = some ⟨t.state, [i]⟩ := by
  cases t with
  | scalar name => cases h
  | indexed s =>
    obtain ⟨base, indices⟩ := s
    obtain rfl : indices = [i] := h
    rfl

theorem Target.family?_of_isEmpty {t : Target} (h : t.indices.isEmpty = true) :
    t.family? = none := by
  cases t with
  | scalar name => rfl
  | indexed s => exact if_pos (List.isEmpty_iff.mp h)

namespace EquationSystem

/-- **The families** of a system and of its parameters, with the indices they are declared with. -/
def declaredFamilies (system : EquationSystem K) (params : List (Expr K)) : List Indexed :=
  system.equations.filterMap (·.lhs.family?) ++ params.filterMap Expr.family?

/-- **An indexed symbol occurs in a system**, on either side of an equation. -/
def Mentions (system : EquationSystem K) (s : Indexed) : Prop :=
  ∃ e ∈ system.equations, Expr.Within (.indexed s) (e.lhs.toExpr : Expr K) ∨
    Expr.Within (.indexed s) e.rhs

end EquationSystem

theorem ParamLayout.map_families {params : List (Expr K)} {layout : ParamLayout}
    (h : ofParams params = .ok layout) :
    layout.families.map (fun f => (⟨f.base, f.indices⟩ : Indexed)) =
      params.filterMap Expr.family? := by
  refine foldlM_induction (fun done l => l.families.map (fun f => (⟨f.base, f.indices⟩ : Indexed)) =
    done.filterMap Expr.family?) h rfl fun done l param l' hl hdeclare => ?_
  rcases declare_eq_ok hdeclare with ⟨name, rfl, -, rfl⟩ | ⟨f, rfl, -, -, -, rfl⟩
  · simp [hl, Expr.family?]
  · simp [hl, Expr.family?]

theorem Split.Divides.map_families {split : Split K} {equations : List (Equation K)}
    (h : split.Divides equations) :
    split.families.map (fun q => (⟨q.1.lhs.state, [q.2]⟩ : Indexed)) =
      equations.filterMap (·.lhs.family?) := by
  calc split.families.map (fun q => (⟨q.1.lhs.state, [q.2]⟩ : Indexed))
      = (split.families.map (·.1)).filterMap (·.lhs.family?) := by
        rw [List.filterMap_map, ← List.filterMap_eq_map]
        exact List.filterMap_congr fun q hq => (Target.family?_of_indices (h.own q hq)).symm
    _ = equations.filterMap (·.lhs.family?) := by
        rw [h.equations_families, List.filterMap_filter]
        refine List.filterMap_congr fun e _ => ?_
        cases hempty : e.lhs.indices.isEmpty with
        | true => simp [Target.family?_of_isEmpty hempty]
        | false => simp

section Families

variable [Literal K] {system : EquationSystem K} {params : List (Expr K)} {split : Split K}
  {layout : ParamLayout}

/-- **What the table is made from are the families**, in their order. -/
theorem RuleSet.map_symbol_declarations (hsplit : Split.ofSystem system = .ok split)
    (hlayout : ParamLayout.ofParams params = .ok layout) :
    (declarations (.ofSplit split layout) layout).map FamilyDecl.symbol =
    system.declaredFamilies params := by
  have hstates : (StateLayout.ofSplit split layout).families.map
      (fun f => (⟨f.base, [f.index]⟩ : Indexed)) =
        split.families.map fun q => (⟨q.1.lhs.state, [q.2]⟩ : Indexed) := by
    rw [← List.forall₂_eq_eq_eq, List.forall₂_map_left_iff, List.forall₂_map_right_iff]
    refine (forall₂_placeFamilies _ _ _).flip.imp fun f q hq => ?_
    rw [hq.1, hq.2]
  rw [declarations, List.map_append, List.map_map, List.map_map, EquationSystem.declaredFamilies,
    ← ParamLayout.map_families hlayout, ← (Split.divides_ofSystem hsplit).map_families, ← hstates]
  rfl

end Families

/-! ## Occurrences -/

theorem Expr.Within.indices_subset {s : Indexed} {e : Expr K} (h : Within (.indexed s) e) :
    s.indices ⊆ e.mentions := by
  induction h with
  | self => exact List.Subset.refl _
  | child hc _ ih => exact fun i hi => ((inherited_mentions i).iff [] _).mpr (.inr ⟨_, hc, ih hi⟩)

/-- An occurrence in a system has declared indices. -/
theorem EquationSystem.Mentions.mem_declaredIndices {system : EquationSystem K} {s : Indexed}
    (h : system.Mentions s) (layout : ParamLayout) :
    ∀ i ∈ s.indices, i ∈ declaredIndices system layout := by
  intro i hi
  obtain ⟨e, he, hwithin⟩ := h
  rw [declaredIndices, mem_firsts]
  refine List.mem_append_left _ (List.mem_flatMap.mpr ⟨e, he, ?_⟩)
  rcases hwithin with hlhs | hrhs
  · exact List.mem_append_left _ (mem_firsts.mpr (hlhs.indices_subset hi))
  · exact List.mem_append_right _ (mem_firsts.mpr (hrhs.indices_subset hi))

/-! ## The table -/

namespace RuleSet

variable [Literal K] {system : EquationSystem K} {params : List (Expr K)} {split : Split K}
  {layout : ParamLayout} {states : StateLayout K} {declared : List Index} {limit : Nat}

theorem build_eq_error_iff {n : Nat} :
    build states layout declared limit = .error (.relabelLimit n limit) ↔
    n = required declared (declarations states layout) ∧ limit < n := by
  rw [build]
  split
  · next hlimit => grind
  · next hlimit => grind

theorem build_of_le (h : required declared (declarations states layout) ≤ limit) :
    build states layout declared limit = .ok (ofDecls declared (declarations states layout)) :=
  if_neg (Nat.not_lt.mpr h)

/-- **The table of relabellings is exact.**  It is refused exactly if the relabellings of all
families are more than the limit, counted as far as counts are kept apart; saturating at every step
of the count makes no difference.  Otherwise there is one rule for each of them, and every
occurrence in the system finds the family it means.  A higher limit gives the same table. -/
theorem build_exact (hsplit : Split.ofSystem system = .ok split)
    (hlayout : ParamLayout.ofParams params = .ok layout)
    (hbases : ((system.declaredFamilies params).map (·.base)).Nodup) (limit : Nat) :
    let decls := declarations (.ofSplit split layout) layout
    let declared := declaredIndices system layout
    let total := relabellings declared.toFinset (system.declaredFamilies params)
    decls.map FamilyDecl.symbol = system.declaredFamilies params ∧
      saturatedCount declared decls = min total countLimit ∧
      (∀ n, build (.ofSplit split layout) layout declared limit = .error (.relabelLimit n limit) ↔
        n = min total countLimit ∧ limit < n) ∧
      (min total countLimit ≤ limit → ∃ table, (table.rules.map (·.1)).Nodup ∧
        table.rules.length = total ∧
        (∀ s, system.Mentions s → table.ExactAt decls s) ∧
          ∀ limit', limit ≤ limit' → build (.ofSplit split layout) layout declared limit' =
              .ok table) := by
  intro decls declared total
  have hnodup : declared.Nodup := nodup_firsts _
  have hfamilies : decls.map FamilyDecl.symbol = system.declaredFamilies params :=
    map_symbol_declarations hsplit hlayout
  have hnames : (decls.map (·.base)).Nodup := by
    rw [← hfamilies, List.map_map] at hbases
    exact hbases
  have hrequired : required declared decls = min total countLimit := by
    rw [required_eq hnodup, hfamilies]
  refine ⟨hfamilies, ?_, ?_, fun hle => ⟨ofDecls declared decls, ?_, ?_, ?_, ?_⟩⟩
  · rw [saturatedCount_eq_required, hrequired]
  · intro n
    rw [build_eq_error_iff, hrequired]
  · exact nodup_keys hnodup hnames
  · rw [length_rules hnodup, hfamilies]
  · exact fun s hs => exactAt_ofDecls hnames (hs.mem_declaredIndices layout)
  · intro limit' hlimit
    exact build_of_le (hrequired.trans_le (hle.trans hlimit))

end RuleSet

namespace EquationSystem

/-- The sites one to five. -/
def fiveSites : Index := ⟨"k", .literal 1, .literal 5⟩

/-- A family coupled to itself, and to sites it does not have. -/
def coupledFamily : EquationSystem ℚ where
  equations := [.of (.indexed ⟨"n", [twoSites "i"]⟩) (.add [
    .sum (twoSites "j") [twoSites "i"] (.mul [.indexed ⟨"J", [twoSites "j", twoSites "i"]⟩,
      .indexed ⟨"n", [twoSites "j"]⟩]),
    .sum fiveSites [] (.mul [.indexed ⟨"n", [fiveSites]⟩, .indexed ⟨"m", [fiveSites]⟩])])]
  time := none

/-- Its parameters, one of them without indices. -/
def couplings : List (Expr ℚ) :=
  [.symbol "a", .indexed ⟨"J", [twoSites "i", twoSites "j"]⟩, .indexed ⟨"c", []⟩]

theorem build_exact_coupledFamily : ∃ split layout, Split.ofSystem coupledFamily = .ok split ∧
    ParamLayout.ofParams couplings = .ok layout ∧
      ((coupledFamily.declaredFamilies couplings).map (·.base)).Nodup ∧
      RuleSet.build (.ofSplit split layout) layout (declaredIndices coupledFamily layout) 6 =
        .error (.relabelLimit 7 6) ∧
      ∃ table, RuleSet.build (.ofSplit split layout) layout
        (declaredIndices coupledFamily layout) 7 =
          .ok table ∧ table.rules.length = 7 ∧
        (∃ rule, table.resolve ⟨"J", [twoSites "j", twoSites "i"]⟩ = .access rule) ∧
        table.resolve ⟨"n", [fiveSites]⟩ = .incompatible ∧
        table.resolve ⟨"m", [fiveSites]⟩ = .unknown := by
  obtain ⟨split, hsplit⟩ : ∃ split, Split.ofSystem coupledFamily = .ok split := ⟨_, rfl⟩
  obtain ⟨layout, hlayout⟩ : ∃ layout, ParamLayout.ofParams couplings = .ok layout := ⟨_, rfl⟩
  have hbases : ((coupledFamily.declaredFamilies couplings).map (·.base)).Nodup := by decide +kernel
  have htotal : relabellings (declaredIndices coupledFamily layout).toFinset
      (coupledFamily.declaredFamilies couplings) = 7 := by
    cases hlayout
    decide +kernel
  obtain ⟨hfamilies, -, hrefused, -⟩ := RuleSet.build_exact hsplit hlayout hbases 6
  obtain ⟨-, -, -, hbuilt⟩ := RuleSet.build_exact hsplit hlayout hbases 7
  rw [htotal] at hrefused hbuilt
  obtain ⟨table, -, hlength, hexact, hbuild⟩ := hbuilt (by decide)
  have hmentions (s : Indexed) (h : ∃ e ∈ coupledFamily.equations, .indexed s ∈
      e.rhs.occurrences []) :
      coupledFamily.Mentions s := by
    obtain ⟨e, he, hs⟩ := h
    exact ⟨e, he, .inr ((Expr.mem_occurrences rfl).mp hs)⟩
  have hfamily (f : Indexed) (hf : f ∈ coupledFamily.declaredFamilies couplings) :
      ∃ d ∈ RuleSet.declarations (.ofSplit split layout) layout, d.base = f.base ∧
          d.indices = f.indices := by
    rw [← hfamilies] at hf
    obtain ⟨d, hd, rfl⟩ := List.mem_map.mp hf
    exact ⟨d, hd, rfl, rfl⟩
  refine ⟨split, layout, hsplit, hlayout, hbases, ?_, table, ?_, hlength, ?_, ?_, ?_⟩
  · exact (hrefused 7).mpr (by decide)
  · exact hbuild 7 (Nat.le_refl 7)
  · obtain ⟨d, hd, hbase, hindices⟩ :=
      hfamily ⟨"J", [twoSites "i", twoSites "j"]⟩ (by decide +kernel)
    refine ⟨d.rule, ((hexact _ (hmentions _ (by decide +kernel))).access d.rule).mpr ⟨d, hd, hbase,
      ?_, rfl⟩⟩
    rw [FamilyDecl.Fits, hindices]
    decide +kernel
  · obtain ⟨d, hd, hbase, hindices⟩ := hfamily ⟨"n", [twoSites "i"]⟩ (by decide +kernel)
    refine (hexact _ (hmentions _ (by decide +kernel))).incompatible.mpr ⟨d, hd, hbase, ?_⟩
    rw [FamilyDecl.Fits, hindices]
    decide +kernel
  · refine (hexact _ (hmentions _ (by decide +kernel))).unknown.mpr fun d hd => ?_
    have hmem : d.symbol ∈ coupledFamily.declaredFamilies couplings :=
      hfamilies ▸ List.mem_map_of_mem hd
    have hne : ∀ f ∈ coupledFamily.declaredFamilies couplings, f.base ≠ "m" := by decide +kernel
    exact hne _ hmem

end EquationSystem

end Fluxion
