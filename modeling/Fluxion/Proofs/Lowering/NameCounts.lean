import Fluxion.Proofs.Lowering.Lowered

/-!
# Proofs/Lowering/NameCounts — how far lowering counts

Lowering counts the names it makes up, and each sum goes on with the count that the one before has
left.  A variable takes one step of the count, and at most one more for each name that is taken; so
a whole expression takes no more than as many for each of its sums (`Expr.counts_of_lower`).  A word
of a machine that is larger than that does not overflow.
-/

namespace Fluxion

variable {K : Type} [Literal K]

namespace Expr

/-- The count goes on from `k` to `j`, by a bound for each sum at most. -/
def Counts (sums bound k j : Nat) : Prop := k ≤ j ∧ j ≤ k + sums * bound

theorem Counts.refl (sums bound k : Nat) : Counts sums bound k k :=
  ⟨Nat.le_refl k, Nat.le_add_right ..⟩

theorem Counts.trans {s t bound i j k : Nat} (h : Counts s bound i j) (h' : Counts t bound j k) :
    Counts (s + t) bound i k := by
  obtain ⟨h₁, h₂⟩ := h
  obtain ⟨h₃, h₄⟩ := h'
  rw [Counts, Nat.add_mul]
  omega

mutual

/-- **Lowering counts up**, for each sum by as many as there may be names in use there. -/
theorem counts_of_lower (c : LoweringContext K) {bound : Nat} : ∀ (e : Expr K) {scope : IndexScope}
    {k j : Nat} {n : Node K}, c.reserved.length + scope.length + e.summed.length ≤ bound →
      e.lower c scope k = .ok (n, j) → Counts e.summed.length bound k j
  | .number _, _, _, _, _, _, h | .imaginaryUnit, _, _, _, _, _, h
  | .symbol _, _, _, _, _, _, h => by
    obtain ⟨-, rfl⟩ := Prod.mk.inj (Except.ok.inj h)
    exact .refl ..
  | .indexed _, _, _, _, _, _, h | .index _, _, _, _, _, _, h => by
    obtain ⟨-, rfl⟩ := Lowering.ok_of_lift h
    exact .refl ..
  | .add terms, _, _, _, _, hle, h => counts_of_lowerTerms c terms hle h
  | .mul factors, _, _, _, _, hle, h => counts_of_lowerFactors c factors hle h
  | .pow base exponent, _, _, _, _, hle, h => by
    rw [summed, List.length_append] at hle ⊢
    obtain ⟨b, k₁, hb, h⟩ := Lowering.ok_of_bind h
    obtain ⟨e, k₂, he, h⟩ := Lowering.ok_of_bind h
    obtain ⟨-, rfl⟩ := Prod.mk.inj (Except.ok.inj h)
    exact (counts_of_lower c base (by omega) hb).trans (counts_of_lower c exponent (by omega) he)
  | .neg inner, _, _, _, _, hle, h => by
    obtain ⟨n, k₁, hn, h⟩ := Lowering.ok_of_bind h
    obtain ⟨-, rfl⟩ := Prod.mk.inj (Except.ok.inj h)
    exact counts_of_lower c inner hle hn
  | .call func args, _, _, _, _, hle, h => by
    obtain ⟨ns, k₁, hns, h⟩ := Lowering.ok_of_bind h
    obtain ⟨-, rfl⟩ := Prod.mk.inj (Except.ok.inj h)
    exact counts_of_lowerAll c args hle hns
  | .sum i away body, scope, _, _, _, hle, h => by
    rw [summed, List.length_cons] at hle ⊢
    obtain ⟨excluded, k₁, hexcluded, h⟩ := Lowering.ok_of_bind h
    obtain ⟨x, k₂, hx, h⟩ := Lowering.ok_of_bind h
    obtain ⟨n, k₃, hn, h⟩ := Lowering.ok_of_bind h
    obtain ⟨-, rfl⟩ := Prod.mk.inj (Except.ok.inj h)
    obtain ⟨-, rfl⟩ := Lowering.ok_of_lift hexcluded
    obtain ⟨hle', hge⟩ := LoweringContext.count_of_fresh hx
    have hname : Counts 1 bound _ k₂ := ⟨hle', by omega⟩
    have hnames : c.reserved.length + ((i, x) :: scope).length + body.summed.length ≤ bound := by
      rw [List.length_cons]
      omega
    exact Nat.add_comm .. ▸ hname.trans (counts_of_lower c body hnames hn)
  | .distinct i j body, _, _, _, _, hle, h => by
    obtain ⟨l, k₁, hl, h⟩ := Lowering.ok_of_bind h
    obtain ⟨r, k₂, hr, h⟩ := Lowering.ok_of_bind h
    obtain ⟨n, k₃, hn, h⟩ := Lowering.ok_of_bind h
    obtain ⟨-, rfl⟩ := Prod.mk.inj (Except.ok.inj h)
    obtain ⟨-, rfl⟩ := Lowering.ok_of_lift hl
    obtain ⟨-, rfl⟩ := Lowering.ok_of_lift hr
    exact counts_of_lower c body hle hn

theorem counts_of_lowerTerms (c : LoweringContext K) {bound : Nat} : ∀ (es : List (Expr K))
    {scope : IndexScope} {acc : Option (Node K)} {k j : Nat} {n : Node K},
    c.reserved.length + scope.length + (summedAll es).length ≤ bound →
      lowerTerms c scope acc es k = .ok (n, j) → Counts (summedAll es).length bound k j
  | [], _, _, _, _, _, _, h => by
    obtain ⟨-, rfl⟩ := Prod.mk.inj (Except.ok.inj h)
    exact .refl ..
  | e :: rest, _, _, _, _, _, hle, h => by
    rw [summedAll, List.length_append] at hle ⊢
    rcases lowerTerms_cons_eq_ok h with ⟨n, k', hn, h⟩ | ⟨inner, n, k', rfl, hn, h⟩
    · exact (counts_of_lower c e (by omega) hn).trans (counts_of_lowerTerms c rest (by omega) h)
    · have hneg : (Expr.neg inner).lower c _ _ = .ok (.neg n, k') := Lowering.bind_of_ok hn
      exact (counts_of_lower c (.neg inner) (by omega) hneg).trans
        (counts_of_lowerTerms c rest (by omega) h)

theorem counts_of_lowerFactors (c : LoweringContext K) {bound : Nat} : ∀ (es : List (Expr K))
    {scope : IndexScope} {acc : Option (Node K)} {k j : Nat} {n : Node K},
    c.reserved.length + scope.length + (summedAll es).length ≤ bound →
      lowerFactors c scope acc es k = .ok (n, j) → Counts (summedAll es).length bound k j
  | [], _, _, _, _, _, _, h => by
    obtain ⟨-, rfl⟩ := Prod.mk.inj (Except.ok.inj h)
    exact .refl ..
  | e :: rest, scope, _, k, _, _, hle, h => by
    rw [summedAll, List.length_append] at hle ⊢
    rcases lowerFactors_cons_eq_ok h with ⟨n, k', hn, h⟩ | ⟨base, v, n, k', rfl, hv, hn, h⟩
    · exact (counts_of_lower c e (by omega) hn).trans (counts_of_lowerFactors c rest (by omega) h)
    · exact (counts_of_lower c (.pow base (.number v)) (by omega) (lower_reciprocal hn v)).trans
        (counts_of_lowerFactors c rest (by omega) h)

theorem counts_of_lowerAll (c : LoweringContext K) {bound : Nat} : ∀ (es : List (Expr K))
    {scope : IndexScope} {k j : Nat} {ns : List (Node K)},
    c.reserved.length + scope.length + (summedAll es).length ≤ bound →
      lowerAll c scope es k = .ok (ns, j) → Counts (summedAll es).length bound k j
  | [], _, _, _, _, _, h => by
    obtain ⟨-, rfl⟩ := Prod.mk.inj (Except.ok.inj h)
    exact .refl ..
  | e :: rest, _, _, _, _, hle, h => by
    rw [summedAll, List.length_append] at hle ⊢
    obtain ⟨n, k₁, hn, h⟩ := Lowering.ok_of_bind h
    obtain ⟨ns, k₂, hns, h⟩ := Lowering.ok_of_bind h
    obtain ⟨-, rfl⟩ := Prod.mk.inj (Except.ok.inj h)
    exact (counts_of_lower c e (by omega) hn).trans (counts_of_lowerAll c rest (by omega) hns)

end

end Expr

namespace LoweringContext

end LoweringContext

end Fluxion
