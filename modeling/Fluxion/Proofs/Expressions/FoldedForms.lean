import Fluxion.Proofs.Expressions.Folding

/-!
# Proofs/Expressions/FoldedForms — the expressions that folding does not change

An expression is *irreducible* if no zero folds away at the expression itself.  A step of folding
leaves an expression as it is exactly if it is irreducible (`fold_eq_self_iff`).

    what is folded is irreducible everywhere            (`irreducible_of_within_simplify`)
    what is irreducible everywhere is not changed       (`simplify_of_irreducible`)

A child that becomes zero does so before its parent is looked at, and a sum that is left with one
term is that term, which is folded already.  So one pass is enough (`simplify_stable`).
-/

namespace Fluxion.Expr

variable {K : Type} [Literal K] {d e : Expr K}

/-- **No zero folds away** at the expression itself: sums have two terms at least and no zero among
them, products have no zero factor, and no negation, sum, condition, positive power or function of
zero is there that is zero. -/
def Irreducible : Expr K → Prop
  | .add terms => 2 ≤ terms.length ∧ ∀ t ∈ terms, t.isLiteralZero = false
  | .mul factors => ∀ t ∈ factors, t.isLiteralZero = false
  | .pow (.number b) (.number e) => (Literal.isZero b && Literal.isPositive e) = false
  | .neg inner => inner.isLiteralZero = false
  | .call func [arg] => (func.preservesZero && arg.isLiteralZero) = false
  | .sum _ _ body | .distinct _ _ body => body.isLiteralZero = false
  | _ => True

/-! ## One step -/

/-- Sums apart, an expression is irreducible if zeros among its children do not make it zero. -/
theorem vanishes_eq_false_iff (he : ∀ terms, e ≠ .add terms) :
    e.vanishes = false ↔ e.Irreducible := by
  cases e with
  | add terms => exact absurd rfl (he terms)
  | mul factors => simp [vanishes, Irreducible]
  | pow base exponent =>
    by_cases hnumbers : ∃ b e, base = .number b ∧ exponent = .number e
    · obtain ⟨b, e, rfl, rfl⟩ := hnumbers
      exact Iff.rfl
    · have hne : ∀ b e, base = .number b → exponent = .number e → False :=
        fun b e hb he => hnumbers ⟨b, e, hb, he⟩
      refine iff_of_true (vanishes_pow_of_ne hne) ?_
      unfold Irreducible
      split <;> simp_all
  | call func args =>
    rcases args with _ | ⟨arg, _ | ⟨arg', rest⟩⟩ <;> simp [vanishes, Irreducible]
  | _ => simp [vanishes, Irreducible]

/-- A sum is the same without its zeros if there are none and it has two terms at least. -/
theorem sumOf_filter_eq_iff {terms : List (Expr K)} :
    sumOf (terms.filter (!·.isLiteralZero)) = .add terms ↔ (Expr.add terms).Irreducible := by
  constructor
  · intro h
    rcases hkept : terms.filter (!·.isLiteralZero) with _ | ⟨t, _ | ⟨t', rest⟩⟩
    · rw [hkept] at h
      cases h
    · -- a sum is not one of its own terms
      rw [hkept, sumOf] at h
      have ht : t ∈ terms := (List.mem_filter.mp (hkept ▸ List.mem_singleton_self t)).1
      have hsize : sizeOf t < sizeOf (Expr.add terms) := sizeOf_lt_of_mem_children ht
      rw [h] at hsize
      exact absurd hsize (Nat.lt_irrefl _)
    · rw [hkept] at h
      have hterms : t :: t' :: rest = terms := add.inj h
      refine ⟨by simp [← hterms], fun s hs => ?_⟩
      rw [← hterms, ← hkept, List.mem_filter] at hs
      simpa using hs.2
  · rintro ⟨hlength, hnonzero⟩
    rw [List.filter_eq_self.mpr (by simpa using hnonzero)]
    rcases terms with _ | ⟨t, _ | ⟨t', rest⟩⟩
    · simp at hlength
    · simp at hlength
    · rfl

/-- **A step of folding changes exactly what is not irreducible.** -/
theorem fold_eq_self_iff : e.fold = e ↔ e.Irreducible := by
  by_cases hadd : ∃ terms, e = .add terms
  · obtain ⟨terms, rfl⟩ := hadd
    exact sumOf_filter_eq_iff
  · have hne : ∀ terms, e ≠ .add terms := fun terms h => hadd ⟨terms, h⟩
    rw [fold_eq_ite hne, ← vanishes_eq_false_iff hne]
    cases hvanishes : e.vanishes with
    | true =>
      refine iff_of_false (fun hzero => ?_) (by simp)
      rw [← hzero] at hvanishes
      cases hvanishes
    | false => simp

/-! ## At any depth -/

/-- **What is folded is irreducible everywhere.** -/
theorem irreducible_of_within_simplify (h : Within d e.simplify) : d.Irreducible :=
  fold_eq_self_iff.mp (fold_of_within_simplify h)

/-- **What is irreducible everywhere is not changed.** -/
theorem simplify_of_irreducible (h : ∀ d, Within d e → d.Irreducible) : e.simplify = e := by
  induction e using childInduction with
  | step e ih =>
    have hchildren : e.mapChildren simplify = e := by
      rw [mapChildren_congr fun c hc => ih c hc fun d hd => h d (.child hc hd)]
      exact mapChildren_id e
    rw [simplify_eq_fold, hchildren]
    exact fold_eq_self_iff.mpr (h e .self)

/-- **Folding is done in one pass.**  A second pass changes nothing, since nothing is left that
folds away, at any depth; and the expressions that a pass does not change are exactly those with
nothing to fold in them. -/
theorem simplify_stable (e : Expr K) :
    e.simplify.simplify = e.simplify ∧ (∀ d, Within d e.simplify → d.Irreducible) ∧
      (e.simplify = e ↔ ∀ d, Within d e → d.Irreducible) := by
  have hfolded : ∀ d, Within d e.simplify → d.Irreducible := fun _ => irreducible_of_within_simplify
  refine ⟨simplify_of_irreducible hfolded, hfolded, fun h => ?_, simplify_of_irreducible⟩
  rwa [h] at hfolded

end Fluxion.Expr
