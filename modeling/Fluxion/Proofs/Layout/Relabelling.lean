import Fluxion.Proofs.Generation.Stages

/-!
# Proofs/Layout/Relabelling — which declaration an occurrence refers to

A family can be referred to through any declared indices of its ranges (`Refers`).  Rules are listed
declaration by declaration and the last one counts, so an occurrence resolves to the **last**
declaration it can refer to (`RuleSet.resolve_eq_access_iff`): parameters before states, and among
each the later one.
-/

namespace Fluxion

variable {K : Type}

/-- A choice of one entry from each list. -/
theorem mem_tuples {α : Type} {t : List α} {choices : List (List α)} :
    t ∈ tuples choices ↔ List.Forall₂ (· ∈ ·) t choices := by
  induction choices generalizing t with
  | nil => simp [tuples]
  | cons c choices ih =>
    simp only [tuples, List.mem_flatMap, List.mem_map, ih, List.forall₂_cons_right_iff]
    constructor
    · rintro ⟨a, ha, r, hr, rfl⟩
      exact ⟨a, r, ha, hr, rfl⟩
    · rintro ⟨a, r, ha, hr, rfl⟩
      exact ⟨a, ha, r, hr, rfl⟩

theorem mem_candidates {declared : List Index} {i own : Index} :
    i ∈ candidates declared own ↔ i ∈ declared ∧ i.lower = own.lower ∧ i.upper = own.upper := by
  rw [candidates, List.mem_filter, Index.sameRange_iff]

namespace FamilyDecl

variable {declared : List Index} {s : Indexed} {d : FamilyDecl K}

/-- **An occurrence can refer to a declaration**: it has its name, and relabels its indices. -/
def Refers (declared : List Index) (s : Indexed) (d : FamilyDecl K) : Prop :=
  d.base = s.base ∧ s.indices ∈ d.labellings declared

instance (declared : List Index) (s : Indexed) (d : FamilyDecl K) :
    Decidable (d.Refers declared s) :=
  inferInstanceAs (Decidable (_ ∧ _))

/-- Indices are relabelled one by one, each by a declared one of the same range. -/
theorem refers_iff : d.Refers declared s ↔ d.base = s.base ∧ List.Forall₂
    (fun i own => i ∈ declared ∧ i.lower = own.lower ∧ i.upper = own.upper) s.indices
    d.indices := by
  rw [Refers, labellings, mem_tuples, List.forall₂_map_right_iff]
  simp only [mem_candidates]

/-- A family is referred to by its own indices. -/
theorem refers_self (h : ∀ i ∈ d.indices, i ∈ declared) : d.Refers declared ⟨d.base, d.indices⟩ :=
  refers_iff.mpr ⟨rfl, List.forall₂_same.mpr fun i hi => ⟨h i hi, rfl, rfl⟩⟩

end FamilyDecl

namespace RuleSet

variable {declared : List Index} {decls : List (FamilyDecl K)} {s : Indexed} {rule : AccessRule K}

/-- The rules of one declaration, searched for an occurrence. -/
theorem find?_labellings (s : Indexed) (d : FamilyDecl K) (ts : List (List Index)) :
    (ts.map fun t => ((d.base, t), d.rule)).find? (·.1 == (s.base, s.indices)) =
      if d.base = s.base ∧ s.indices ∈ ts then some ((s.base, s.indices), d.rule) else none := by
  induction ts with
  | nil => simp
  | cons t ts ih =>
    rw [List.map_cons, List.find?_cons, ih]
    grind

/-- **The last declaration counts** that an occurrence can refer to. -/
theorem find?_rules (declared : List Index) (decls : List (FamilyDecl K)) (s : Indexed) :
    (ofDecls declared decls).rules.reverse.find? (·.1 == (s.base, s.indices)) =
      (decls.reverse.find? fun d => d.Refers declared s).map fun d =>
        ((s.base, s.indices), d.rule) := by
  induction decls with
  | nil => rfl
  | cons d decls ih =>
    rw [ofDecls] at ih ⊢
    rw [List.flatMap_cons, List.reverse_append, List.find?_append, ih, ← List.map_reverse,
      find?_labellings, List.reverse_cons, List.find?_append, Option.map_or, List.find?_singleton]
    congr 1
    by_cases hd : d.base = s.base ∧ s.indices ∈ d.labellings declared
    · simp [FamilyDecl.Refers, hd]
    · simp [FamilyDecl.Refers, hd]

theorem resolve_eq_access_iff : (ofDecls declared decls).resolve s = .access rule ↔
    ∃ d, decls.reverse.find? (fun d => d.Refers declared s) = some d ∧ d.rule = rule := by
  rw [resolve, find?_rules]
  cases decls.reverse.find? fun d => d.Refers declared s with
  | none =>
    simp only [Option.map_none]
    split <;> simp
  | some d => simp

/-- What an occurrence resolves to is declared, and it can refer to it. -/
theorem refers_of_resolve (h : (ofDecls declared decls).resolve s = .access rule) :
    ∃ d ∈ decls, d.Refers declared s ∧ d.rule = rule := by
  obtain ⟨d, hd, hrule⟩ := resolve_eq_access_iff.mp h
  exact ⟨d, List.mem_reverse.mp (List.mem_of_find?_eq_some hd),
    by simpa using List.find?_some hd, hrule⟩

/-- What has the name of no declaration is unknown. -/
theorem resolve_eq_unknown_iff :
    (ofDecls declared decls).resolve s = .unknown ↔ s.base ∉ decls.map (·.base) := by
  rw [resolve, find?_rules]
  cases hfind : decls.reverse.find? fun d => d.Refers declared s with
  | none => simp [ofDecls]
  | some d =>
    have hmem := List.mem_reverse.mp (List.mem_of_find?_eq_some hfind)
    have hrefers : d.Refers declared s := by simpa using List.find?_some hfind
    refine iff_of_false nofun fun hbase => hbase ?_
    exact hrefers.1 ▸ List.mem_map_of_mem hmem

end RuleSet

end Fluxion
