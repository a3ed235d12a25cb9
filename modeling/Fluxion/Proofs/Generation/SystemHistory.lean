import Fluxion.Proofs.Expressions.Folding
import Fluxion.Proofs.Generation.Refusals
import Fluxion.Scalar.Floating

/-!
# Proofs/Generation/SystemHistory — systems that are revised again and again

A system is made from pairs of expressions, which are checked: left-hand sides are symbols, states
are different from each other, and every equation is tagged with its free indices.  After that its
time may be declared and symbols may be set to zero, any number of times and without another check.

* `eliminations_compose` — lists of symbols can be set to zero in any order, or all at once;
* `zero_fill_completes` — setting to zero what is missing needs no second round;
* `wellFormed_history` — nothing that was checked is ever lost.  Setting symbols to zero rewrites
  both sides of an equation; of the left one it leaves zero or the symbol itself
  (`Target.eliminate_toExpr`), so that the pairs that are left would pass the check again.
-/

namespace Fluxion

variable {K : Type}

/-! ## Any order -/

section Composition

variable [Literal K] {m₁ m₂ : List FreeSymbol}

theorem Expr.cleared_cleared (m₁ m₂ : List FreeSymbol) (e : Expr K) :
    (e.cleared m₁).cleared m₂ = e.cleared (m₁ ++ m₂) := by
  cases m₁ with
  | nil => rfl
  | cons x m₁ =>
    cases m₂ with
    | nil => rw [List.append_nil]; rfl
    | cons y m₂ => exact e.eliminate_eliminate _ _

theorem isEmpty_congr (h : ∀ x, x ∈ m₁ ↔ x ∈ m₂) : m₁.isEmpty = m₂.isEmpty := by
  rw [Bool.eq_iff_iff, List.isEmpty_iff, List.isEmpty_iff, List.eq_nil_iff_forall_not_mem,
    List.eq_nil_iff_forall_not_mem]
  simp only [h]

namespace EquationSystem

theorem eliminate_of_ne_nil {missing : List FreeSymbol} (h : missing ≠ []) (s : EquationSystem K) :
    s.eliminate missing = ⟨(s.equations.filter (·.lhs.toFree ∉ missing)).map fun e =>
      .of e.lhs (e.rhs.eliminate missing), s.time⟩ :=
  if_neg fun hempty => h (List.isEmpty_iff.mp hempty)

theorem eliminate_eliminate (m₁ m₂ : List FreeSymbol) (s : EquationSystem K) :
    (s.eliminate m₁).eliminate m₂ = s.eliminate (m₁ ++ m₂) := by
  by_cases h₁ : m₁ = []
  · rw [h₁]
    rfl
  by_cases h₂ : m₂ = []
  · rw [h₂, List.append_nil]
    rfl
  rw [eliminate_of_ne_nil h₁, eliminate_of_ne_nil h₂,
    eliminate_of_ne_nil (List.append_ne_nil_of_left_ne_nil h₁ m₂), List.filter_map,
    List.filter_filter,
    List.map_map]
  congr 1
  -- an equation is dropped by one of the lists, and its right-hand side goes through both
  have hdropped : (fun e : Equation K => decide (e.lhs.toFree ∉ m₁ ++ m₂))
      = fun e => decide (e.lhs.toFree ∉ m₂) && decide (e.lhs.toFree ∉ m₁) := by
    funext e
    simp [Bool.and_comm]
  rw [hdropped]
  refine List.map_congr_left fun e _ => ?_
  exact congrArg (Equation.of e.lhs) (e.rhs.eliminate_eliminate m₁ m₂)

theorem eliminate_congr (h : ∀ x, x ∈ m₁ ↔ x ∈ m₂) (s : EquationSystem K) :
    s.eliminate m₁ = s.eliminate m₂ := by
  unfold eliminate
  rw [isEmpty_congr h, Expr.eliminate_congr h]
  simp only [h]

/-- What is set to zero is gone from an equation, unless it is an index. -/
theorem not_mem_freeSymbols_eliminate {missing : List FreeSymbol} {x : FreeSymbol}
    (hx : x ∈ missing) (hindex : x.index? = none) {s : EquationSystem K} {e : Equation K}
    (he : e ∈ (s.eliminate missing).equations) : e.lhs.toFree ≠ x ∧ x ∉ e.rhs.freeSymbols := by
  rw [eliminate_of_ne_nil (List.ne_nil_of_mem hx)] at he
  obtain ⟨e₀, he₀, rfl⟩ := List.mem_map.mp he
  constructor
  · rintro rfl
    exact of_decide_eq_true (List.mem_filter.mp he₀).2 hx
  · intro hfree
    obtain ⟨i, rfl⟩ := (Expr.mem_freeSymbols_eliminate hfree).2 hx
    cases hindex

end EquationSystem

theorem eliminateAll_eliminateAll (m₁ m₂ : List FreeSymbol) (es : List (Expr K)) :
    eliminateAll m₂ (eliminateAll m₁ es) = eliminateAll (m₁ ++ m₂) es := by
  rw [eliminateAll_eq, eliminateAll_eq, eliminateAll_eq, List.map_map]
  exact List.map_congr_left fun e _ => e.cleared_cleared m₁ m₂

theorem eliminateAll_congr (h : ∀ x, x ∈ m₁ ↔ x ∈ m₂) (es : List (Expr K)) :
    eliminateAll m₁ es = eliminateAll m₂ es := by
  unfold eliminateAll
  rw [isEmpty_congr h, Expr.eliminate_congr h]

theorem Expr.mem_freeSymbols_cleared {missing : List FreeSymbol} {x : FreeSymbol} {e : Expr K}
    (h : x ∈ (e.cleared missing).freeSymbols) :
    x ∈ e.freeSymbols ∧ (x ∈ missing → ∃ i, x = .index i) := by
  cases missing with
  | nil => exact ⟨h, fun hx => by cases hx⟩
  | cons => exact e.mem_freeSymbols_eliminate h

/-- What is free in expressions in which symbols are set to zero was free before, and is none of
them unless it is an index. -/
theorem mem_freeSymbols_eliminateAll {missing : List FreeSymbol} {x : FreeSymbol}
    {es : List (Expr K)} (h : ∃ e ∈ eliminateAll missing es, x ∈ e.freeSymbols) :
    (∃ e ∈ es, x ∈ e.freeSymbols) ∧ (x ∈ missing → ∃ i, x = .index i) := by
  obtain ⟨e, he, hx⟩ := h
  rw [eliminateAll_eq] at he
  obtain ⟨e₀, he₀, rfl⟩ := List.mem_map.mp he
  obtain ⟨hbefore, hmissing⟩ := Expr.mem_freeSymbols_cleared hx
  exact ⟨⟨e₀, he₀, hbefore⟩, hmissing⟩

theorem not_mem_freeSymbols_eliminateAll {missing : List FreeSymbol} {x : FreeSymbol}
    (hx : x ∈ missing) (hindex : x.index? = none) {es : List (Expr K)} {e : Expr K}
    (he : e ∈ eliminateAll missing es) :
    x ∉ e.freeSymbols := by
  intro hfree
  obtain ⟨i, rfl⟩ := (mem_freeSymbols_eliminateAll ⟨e, he, hfree⟩).2 hx
  cases hindex

/-- **Setting symbols to zero composes, and the order does not matter**, for a system and for a list
of expressions: two lists one after the other are their concatenation in either order, and a list
that is set to zero again changes nothing.  The symbols are gone then, indices apart, which may
still stand at others. -/
theorem eliminations_compose (s : EquationSystem K) (es : List (Expr K)) (m₁ m₂ : List FreeSymbol) :
    ((s.eliminate m₁).eliminate m₂ = s.eliminate (m₁ ++ m₂) ∧
      s.eliminate (m₁ ++ m₂) = s.eliminate (m₂ ++ m₁) ∧
      (s.eliminate m₁).eliminate m₁ = s.eliminate m₁ ∧
      ∀ x ∈ m₁, x.index? = none → ∀ e ∈ (s.eliminate m₁).equations,
        e.lhs.toFree ≠ x ∧ x ∉ e.rhs.freeSymbols) ∧
    (eliminateAll m₂ (eliminateAll m₁ es) = eliminateAll (m₁ ++ m₂) es ∧
      eliminateAll (m₁ ++ m₂) es = eliminateAll (m₂ ++ m₁) es ∧
      eliminateAll m₁ (eliminateAll m₁ es) = eliminateAll m₁ es ∧
      ∀ x ∈ m₁, x.index? = none → ∀ e ∈ eliminateAll m₁ es, x ∉ e.freeSymbols) := by
  have hcomm : ∀ x, x ∈ m₁ ++ m₂ ↔ x ∈ m₂ ++ m₁ := fun x => List.perm_append_comm.mem_iff
  have hidem : ∀ x, x ∈ m₁ ++ m₁ ↔ x ∈ m₁ := fun x => by rw [List.mem_append, or_self]
  refine ⟨⟨s.eliminate_eliminate m₁ m₂, s.eliminate_congr hcomm, ?_, ?_⟩,
    eliminateAll_eliminateAll m₁ m₂ es, eliminateAll_congr hcomm es, ?_, ?_⟩
  · rw [s.eliminate_eliminate, s.eliminate_congr hidem]
  · exact fun x hx hindex e he => EquationSystem.not_mem_freeSymbols_eliminate hx hindex he
  · rw [eliminateAll_eliminateAll, eliminateAll_congr hidem]
  · exact fun x hx hindex e he => not_mem_freeSymbols_eliminateAll hx hindex he

end Composition

/-! ## In one step -/

/-- **Setting what is missing to zero leaves nothing missing**, indices apart, and brings in no
symbol. -/
theorem zero_fill_completes [Literal K] (rhs lhs params : List (Expr K)) :
    missingIndexed (eliminateAll (missingIndexed rhs lhs params) rhs) lhs params = [] ∧
      (∀ s ∈ missingFlat (eliminateAll (missingFlat rhs lhs params) rhs) lhs params, ∃ i, s =
        .index i) ∧
      ∀ missing, List.Forall₂ (fun e e' => ∀ s ∈ e'.freeSymbols, s ∈ e.freeSymbols) rhs
        (eliminateAll missing rhs) := by
  refine ⟨List.eq_nil_iff_forall_not_mem.mpr fun s hs => ?_, fun s hs => ?_, fun missing => ?_⟩
  · obtain ⟨hleft, hunknown, name, rfl⟩ := mem_missingIndexed.mp hs
    obtain ⟨hbefore, hindex⟩ := mem_freeSymbols_eliminateAll hleft
    obtain ⟨i, hi⟩ := hindex (mem_missingIndexed.mpr ⟨hbefore, hunknown, name, rfl⟩)
    cases hi
  · obtain ⟨hleft, hunknown⟩ := mem_missingFlat.mp hs
    obtain ⟨hbefore, hindex⟩ := mem_freeSymbols_eliminateAll hleft
    exact hindex (mem_missingFlat.mpr ⟨hbefore, hunknown⟩)
  · rw [eliminateAll_eq, List.forall₂_map_right_iff, List.forall₂_same]
    exact fun e _ s hs => (Expr.mem_freeSymbols_cleared hs).1

/-! ## What is checked -/

theorem Target.ofExpr?_eq_some {e : Expr K} {t : Target} (h : ofExpr? e = some t) :
    e = t.toExpr := by
  cases e with
  | symbol | indexed => exact Option.some.inj h ▸ rfl
  | _ => cases h

namespace EquationSystem

/-- **A pair of expressions is an equation** if its left-hand side is a symbol, and then it is
tagged with its free indices. -/
theorem equation?_eq_ok {lhs rhs : Expr K} {e : Equation K} : equation? lhs rhs = .ok e ↔
    lhs = e.lhs.toExpr ∧ rhs = e.rhs ∧ e.free = Equation.freeIndices e.lhs e.rhs := by
  constructor
  · intro h
    rw [equation?] at h
    split at h
    · next t ht =>
      obtain rfl := Except.ok.inj h
      exact ⟨Target.ofExpr?_eq_some ht, rfl, rfl⟩
    · cases h
  · rintro ⟨rfl, rfl, hfree⟩
    rw [equation?, Target.ofExpr?_toExpr]
    exact congrArg (fun free => Except.ok (Equation.mk e.lhs e.rhs free)) hfree.symm

/-- **What is checked of a system**: each equation is the one that its two sides make, which
includes its tag, and no two have the same state. -/
structure WellFormed (s : EquationSystem K) : Prop where
  rebuilt : ∀ e ∈ s.equations, equation? e.lhs.toExpr e.rhs = .ok e
  distinct : (s.equations.map (·.lhs.state)).Nodup

/-- Both sides of every equation, as expressions. -/
def sides (s : EquationSystem K) : List (Expr K × Expr K) :=
  s.equations.map fun e => (e.lhs.toExpr, e.rhs)

theorem firstRepeated?_eq_none {seen names : List String} (hnodup : names.Nodup)
    (hnew : ∀ x ∈ names, x ∉ seen) : firstRepeated? seen names = none := by
  induction names generalizing seen with
  | nil => rfl
  | cons x names ih =>
    obtain ⟨hx, hnodup⟩ := List.nodup_cons.mp hnodup
    rw [firstRepeated?, if_neg (hnew x List.mem_cons_self)]
    refine ih hnodup fun y hy hseen => ?_
    rcases List.mem_cons.mp hseen with rfl | hseen
    · exact hx hy
    · exact hnew y (List.mem_cons_of_mem _ hy) hseen

/-- **Pairs of expressions pass the check** exactly if they are the sides of a well-formed
system. -/
theorem ofPairs_eq_ok {pairs : List (Expr K × Expr K)} {s : EquationSystem K} :
    ofPairs pairs = .ok s ↔ s.WellFormed ∧ s.sides = pairs ∧ s.time = none := by
  constructor
  · intro h
    have htagged := tagged_ofPairs h
    have hnodup := nodup_states h
    obtain ⟨equations, hequations, h⟩ := ok_of_bind h
    split at h
    · cases h
    obtain rfl := Except.ok.inj h
    refine ⟨⟨fun e he => equation?_eq_ok.mpr ⟨rfl, rfl, htagged e he⟩, hnodup⟩, ?_, rfl⟩
    rw [sides, ← List.forall₂_eq_eq_eq, List.forall₂_map_left_iff]
    refine (forall₂_of_mapM hequations).flip.imp fun e q hq => ?_
    obtain ⟨hlhs, hrhs, -⟩ := equation?_eq_ok.mp hq
    exact Prod.ext hlhs.symm hrhs.symm
  · rintro ⟨hs, rfl, htime⟩
    refine (bind_of_ok (a := s.equations) (mapM_of_forall₂ ?_)).trans ?_
    · rw [sides, List.forall₂_map_left_iff, List.forall₂_same]
      exact hs.rebuilt
    · rw [firstRepeated?_eq_none hs.distinct (by simp)]
      exact congrArg (fun time => Except.ok (EquationSystem.mk s.equations time)) htime.symm

end EquationSystem

/-! ## Histories -/

section History

variable [Literal K]

/-- A change that is made to a system without checking it again. -/
inductive Revision where
  | time (name : String)
  | zeros (missing : List FreeSymbol)

/-- What is left of the two sides of an equation when symbols are set to zero in both: nothing if
the left one is zero then. -/
def clearSides (missing : List FreeSymbol) (q : Expr K × Expr K) : Option (Expr K × Expr K) :=
  if (q.1.eliminate missing).isZero then none
    else some (q.1.eliminate missing, q.2.eliminate missing)

namespace Revision

/-- A change to a system. -/
def apply (s : EquationSystem K) : Revision → EquationSystem K
  | .time name => s.withTime name
  | .zeros missing => s.eliminate missing

/-- The same change to pairs of expressions, whatever they are. -/
def applySides (pairs : List (Expr K × Expr K)) : Revision → List (Expr K × Expr K)
  | .time _ => pairs
  | .zeros missing => if missing.isEmpty then pairs else pairs.filterMap (clearSides missing)

end Revision

/-- **Setting symbols to zero leaves zero or the symbol itself** of a left-hand side. -/
theorem Target.eliminate_toExpr (missing : List FreeSymbol) (t : Target) :
    (t.toExpr : Expr K).eliminate missing = if t.toFree ∈ missing then .zero else t.toExpr := by
  have hgetD (e : Expr K) (he : e.simplify = e) :
      ((Substitution.zeros missing t.toFree).getD e).simplify = if t.toFree ∈ missing then .zero
          else e := by
    unfold Substitution.zeros
    split
    · rfl
    · exact he
  cases t with
  | scalar x => exact hgetD (.symbol x) rfl
  | indexed s => exact hgetD (.indexed s) rfl

theorem Target.isZero_toExpr (t : Target) : (t.toExpr : Expr K).isZero = false := by
  cases t <;> rfl

namespace EquationSystem

variable {s s' : EquationSystem K} {missing : List FreeSymbol}

/-- **Both sides of the equations are rewritten**, and an equation goes if its left-hand side is
zero then. -/
theorem sides_eliminate (hzero : Literal.isZero (Literal.zero : K) = true) (h : missing ≠ [])
    (s : EquationSystem K) :
    (s.eliminate missing).sides = s.sides.filterMap (clearSides missing) := by
  rw [eliminate_of_ne_nil h, sides, sides, List.map_map, List.filterMap_map]
  induction s.equations with
  | nil => rfl
  | cons e equations ih =>
    rw [List.filterMap_cons, Function.comp_apply, clearSides, e.lhs.eliminate_toExpr]
    by_cases he : e.lhs.toFree ∈ missing
    · have hvanishes : (Expr.zero : Expr K).isZero = true := hzero
      rw [List.filter_cons_of_neg (by simpa using he), ih, if_pos he, if_pos hvanishes]
    · have hstays : ¬(e.lhs.toExpr : Expr K).isZero = true := by simp [Target.isZero_toExpr]
      rw [List.filter_cons_of_pos (by simpa using he), List.map_cons, ih, if_neg he, if_neg hstays]
      rfl

end EquationSystem

namespace Equation

/-- **What an equation may become**: it keeps its left-hand side, gets no new free index, and no
index structure if it had none. -/
structure Remains (e' e : Equation K) : Prop where
  lhs : e'.lhs = e.lhs
  free : e'.free ⊆ e.free
  rhs : e.rhs.hasIndexStructure = false → e'.rhs.hasIndexStructure = false

omit [Literal K] in
theorem mem_freeIndices {lhs : Target} {rhs : Expr K} {i : Index} :
    i ∈ freeIndices lhs rhs ↔ i ∈ lhs.indices ∨ .index i ∈ rhs.freeSymbols := by
  have hindex : ∀ x : FreeSymbol, x.index? = some i ↔ x = .index i := by
    intro x
    cases x <;> simp [FreeSymbol.index?]
  rw [freeIndices, List.mem_append, List.mem_filter, List.mem_filterMap]
  simp only [hindex, exists_eq_right, decide_eq_true_eq]
  tauto

theorem remains_eliminate {e : Equation K} (h : e.free = freeIndices e.lhs e.rhs)
    (missing : List FreeSymbol) : Remains (.of e.lhs (e.rhs.eliminate missing)) e where
  lhs := rfl
  free i hi := by
    rw [h, mem_freeIndices]
    exact (mem_freeIndices.mp hi).imp_right fun hfree => (Expr.mem_freeSymbols_eliminate hfree).1
  rhs := Expr.hasIndexStructure_eliminate

omit [Literal K] in
theorem Remains.refl (e : Equation K) : e.Remains e := ⟨rfl, List.Subset.refl _, id⟩

omit [Literal K] in
theorem Remains.trans {e e' e'' : Equation K} (h : e''.Remains e') (h' : e'.Remains e) :
    e''.Remains e :=
  ⟨h.lhs.trans h'.lhs, List.Subset.trans h.free h'.free, h.rhs ∘ h'.rhs⟩

instance : Std.Refl (Remains (K := K)) := ⟨Remains.refl⟩

instance : IsTrans (Equation K) Remains := ⟨fun _ _ _ => Remains.trans⟩

end Equation

namespace EquationSystem

variable {s s' : EquationSystem K} {missing : List FreeSymbol}

/-- **A system that has come from another one**: some equations are gone, and the others remain in
their order. -/
def Descends (s' s : EquationSystem K) : Prop :=
  List.SublistForall₂ Equation.Remains s'.equations s.equations

namespace Descends

omit [Literal K] in
theorem refl (s : EquationSystem K) : s.Descends s :=
  refl_of (List.SublistForall₂ Equation.Remains) s.equations

omit [Literal K] in
theorem trans {s'' : EquationSystem K} (h : s''.Descends s') (h' : s'.Descends s) :
    s''.Descends s :=
  trans_of (List.SublistForall₂ Equation.Remains) h h'

omit [Literal K] in
theorem map_lhs (h : s'.Descends s) :
    (s'.equations.map (·.lhs)).Sublist (s.equations.map (·.lhs)) := by
  obtain ⟨equations, hremains, hsub⟩ := List.sublistForall₂_iff.mp h
  have hlhs : s'.equations.map (·.lhs) = equations.map (·.lhs) := by
    rw [← List.forall₂_eq_eq_eq, List.forall₂_map_left_iff, List.forall₂_map_right_iff]
    exact hremains.imp fun _ _ => Equation.Remains.lhs
  exact hlhs ▸ hsub.map _

omit [Literal K] in
/-- **No system without indices gets any.** -/
theorem isIndexed (h : s'.Descends s) (hs : s.isIndexed = false) : s'.isIndexed = false := by
  obtain ⟨equations, hremains, hsub⟩ := List.sublistForall₂_iff.mp h
  refine List.any_eq_false.mpr fun e' he' => ?_
  obtain ⟨e, he, hremain⟩ := exists_of_forall₂ hremains he'
  have hscalar := List.any_eq_false.mp hs e (hsub.subset he)
  simp only [Equation.isIndexed, Equation.isScalar, Bool.not_eq_true, Bool.or_eq_false_iff,
    Bool.not_eq_false', List.isEmpty_iff] at hscalar ⊢
  exact ⟨List.subset_nil.mp (hscalar.1 ▸ hremain.free), hremain.rhs hscalar.2⟩

end Descends

/-- The system after some changes. -/
def after (s : EquationSystem K) (rs : List Revision) : EquationSystem K :=
  rs.foldl Revision.apply s

theorem after_append (s : EquationSystem K) (rs rs' : List Revision) :
    s.after (rs ++ rs') = (s.after rs).after rs' :=
  List.foldl_append

namespace WellFormed

omit [Literal K] in
theorem tagged (hs : s.WellFormed) : s.Tagged :=
  fun e he => (equation?_eq_ok.mp (hs.rebuilt e he)).2.2

theorem descends_eliminate (hs : s.WellFormed) (missing : List FreeSymbol) :
    (s.eliminate missing).Descends s := by
  by_cases h : missing = []
  · rw [h]
    exact .refl s
  · rw [eliminate_of_ne_nil h]
    refine List.sublistForall₂_iff.mpr ⟨s.equations.filter (·.lhs.toFree ∉ missing), ?_,
      List.filter_sublist⟩
    rw [List.forall₂_map_left_iff, List.forall₂_same]
    intro e he
    exact Equation.remains_eliminate (hs.tagged e (List.mem_filter.mp he).1) missing

theorem eliminate (hs : s.WellFormed) (missing : List FreeSymbol) :
    (s.eliminate missing).WellFormed where
  rebuilt e he := equation?_eq_ok.mpr ⟨rfl, rfl, hs.tagged.eliminate missing e he⟩
  distinct := by
    have hsub := (hs.descends_eliminate missing).map_lhs.map Target.state
    rw [List.map_map, List.map_map] at hsub
    exact hs.distinct.sublist hsub

/-- **One change** keeps what was checked, and brings in nothing. -/
theorem revised (hs : s.WellFormed) (r : Revision) :
    (r.apply s).WellFormed ∧ (r.apply s).Descends s := by
  cases r with
  | time name => exact ⟨⟨hs.rebuilt, hs.distinct⟩, .refl s⟩
  | zeros missing => exact ⟨hs.eliminate missing, hs.descends_eliminate missing⟩

/-- **Any number of changes** keep what was checked, and bring in nothing. -/
theorem after (hs : s.WellFormed) (rs : List Revision) :
    (s.after rs).WellFormed ∧ (s.after rs).Descends s := by
  induction rs generalizing s with
  | nil => exact ⟨hs, .refl s⟩
  | cons r rs ih =>
    obtain ⟨hwell, hdescends⟩ := hs.revised r
    obtain ⟨hwellAll, hdescendsAll⟩ := ih hwell
    exact ⟨hwellAll, hdescendsAll.trans hdescends⟩

end WellFormed

theorem sides_apply (hzero : Literal.isZero (Literal.zero : K) = true) (s : EquationSystem K)
    (r : Revision) :
    (r.apply s).sides = r.applySides s.sides := by
  cases r with
  | time name => rfl
  | zeros missing =>
    by_cases h : missing = []
    · rw [h]
      rfl
    · exact (sides_eliminate hzero h s).trans (if_neg fun hempty =>
        h (List.isEmpty_iff.mp hempty)).symm

theorem sides_after (hzero : Literal.isZero (Literal.zero : K) = true) (s : EquationSystem K)
    (rs : List Revision) : (s.after rs).sides = rs.foldl Revision.applySides s.sides := by
  unfold after
  induction rs generalizing s with
  | nil => rfl
  | cons r rs ih => rw [List.foldl_cons, List.foldl_cons, ih, sides_apply hzero]

/-- **Whatever is done to a system that was made from pairs, it stays well-formed.**  After any
changes its left-hand sides are some of those it was made from, in their order; the pairs that are
left when both sides are rewritten without a check have symbols on the left, and would make the same
equations again.  From any point of its history to a later one, equations only go, and those that
remain only lose free indices; no system without indices gets any. -/
theorem wellFormed_history (hzero : Literal.isZero (Literal.zero : K) = true)
    {pairs : List (Expr K × Expr K)} {s : EquationSystem K} (hs : ofPairs pairs = .ok s)
    (rs rs' : List Revision) :
    (s.after rs).WellFormed ∧
      (s.after rs).targets.Sublist (pairs.map (·.1)) ∧
      (∀ q ∈ rs.foldl Revision.applySides pairs, (∃ x, q.1 = .symbol x) ∨ ∃ t, q.1 = .indexed t) ∧
      ofPairs (rs.foldl Revision.applySides pairs) = .ok ⟨(s.after rs).equations, none⟩ ∧
      (s.after (rs ++ rs')).Descends (s.after rs) ∧
      ((s.after rs).isIndexed = false → (s.after (rs ++ rs')).isIndexed = false) := by
  obtain ⟨hwell, rfl, -⟩ := ofPairs_eq_ok.mp hs
  obtain ⟨hnow, hdescends⟩ := hwell.after rs
  have hlater : (s.after (rs ++ rs')).Descends (s.after rs) :=
    after_append s rs rs' ▸ (hnow.after rs').2
  rw [← sides_after hzero]
  refine ⟨hnow, ?_, ?_, ?_, hlater, hlater.isIndexed⟩
  · have hsub := hdescends.map_lhs.map (Target.toExpr (K := K))
    rw [List.map_map, List.map_map] at hsub
    rw [sides, List.map_map]
    exact hsub
  · intro q hq
    obtain ⟨e, -, rfl⟩ := List.mem_map.mp hq
    cases hlhs : e.lhs with
    | scalar x => exact .inl ⟨x, rfl⟩
    | indexed t => exact .inr ⟨t, rfl⟩
  · exact ofPairs_eq_ok.mpr ⟨⟨hnow.rebuilt, hnow.distinct⟩, rfl, rfl⟩

/-- A state that drives another one, and couples a family to one more index. -/
def drivenPair : EquationSystem Floating where
  equations := [
    .of (.scalar "x") (.neg (.symbol "x")),
    .of (.scalar "a") (.mul [.symbol "x", .symbol "a"]),
    .of (.indexed ⟨"n", [twoSites "i"]⟩)
      (.add [.indexed ⟨"n", [twoSites "i"]⟩, .mul [.symbol "x", .indexed ⟨"n", [twoSites "k"]⟩]])]
  time := none

theorem wellFormed_history_drivenPair : Literal.isZero (Literal.zero : Floating) = true ∧
    ofPairs drivenPair.sides = .ok drivenPair ∧
      drivenPair.equations.map (·.free) = [[], [], [twoSites "i", twoSites "k"]] ∧
      (drivenPair.after [.zeros [.scalar "x"], .time "t"]).equations.map (·.free) =
        [[], [twoSites "i"]] ∧
      (drivenPair.after [.zeros [.scalar "x"], .time "t"]).WellFormed ∧
      (drivenPair.after [.zeros [.scalar "x"], .time "t"]).Descends drivenPair := by
  have hzero : Literal.isZero (Literal.zero : Floating) = true := by decide +kernel
  have hs : ofPairs drivenPair.sides = .ok drivenPair := rfl
  refine ⟨hzero, hs, by decide +kernel, by decide +kernel, ?_, ?_⟩
  · exact (wellFormed_history hzero hs [.zeros [.scalar "x"], .time "t"] []).1
  · exact (wellFormed_history hzero hs [] [.zeros [.scalar "x"], .time "t"]).2.2.2.2.1

end EquationSystem

end History

end Fluxion
