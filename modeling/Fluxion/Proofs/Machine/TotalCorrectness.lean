import Fluxion.Proofs.Numbers.ExactArithmetic

/-!
# Proofs/Machine/TotalCorrectness — computations that end well

`Computation.Ends F x Q` says that `x` has a result, either a value with `Q` or an error with `F`.
Since a computation has at most one result in practice, this is total correctness; the rules below
follow the combinators that the meaning of a procedure is built from.  The rule for loops
(`ends_rounds`) is where termination is argued: the real part of the variable is an integer that
goes up by one until it is above that of the upper bound.
-/

namespace Fluxion

open Arithmetic

namespace Computation

variable {σ τ α β : Type} {F : σ → Prop} {x : Computation σ α} {Q R : α → Prop}

/-- **A computation ends** with a value or with an error, and each is as it should be. -/
def Ends (F : σ → Prop) (x : Computation σ α) (Q : α → Prop) : Prop :=
  (∃ a, x (.ok a) ∧ Q a) ∨ ∃ s, x (.error s) ∧ F s

theorem Ends.of_ok {a : α} (ha : Q a) : Ends F (.of (.ok a)) Q := .inl ⟨a, rfl, ha⟩

/-- More may be said of the values that a computation ends with. -/
theorem Ends.imp (h : Ends F x Q) (hQR : ∀ a, x (.ok a) → Q a → R a) : Ends F x R := by
  rcases h with ⟨a, hx, ha⟩ | herror
  · exact .inl ⟨a, hx, hQR a hx ha⟩
  · exact .inr herror

/-- **One computation after the other.** -/
theorem Ends.andThen {f : α → Computation σ β} {R : β → Prop} (h : Ends F x Q)
    (hf : ∀ a, Q a → Ends F (f a) R) : Ends F (x.andThen f) R := by
  rcases h with ⟨a, hx, ha⟩ | ⟨s, hx, hs⟩
  · rcases hf a ha with ⟨b, hb, hR⟩ | ⟨s, hb, hs⟩
    · exact .inl ⟨b, .inl ⟨a, hx, hb⟩, hR⟩
    · exact .inr ⟨s, .inl ⟨a, hx, hb⟩, hs⟩
  · exact .inr ⟨s, .inr ⟨s, hx, rfl⟩, hs⟩

theorem Ends.stopping {G : τ → Prop} {f : σ → τ} (h : Ends F x Q) (hF : ∀ s, F s → G (f s)) :
    Ends G (x.stopping f) Q := by
  rcases h with ⟨a, hx, ha⟩ | ⟨s, hx, hs⟩
  · exact .inl ⟨a, ⟨.ok a, hx, rfl⟩, ha⟩
  · exact .inr ⟨f s, ⟨.error s, hx, rfl⟩, hF s hs⟩

section Rounds

variable {K V : Type} [Field K] [LinearOrder K] [IsStrictOrderedRing K] [Literal K]
  [Arithmetic K V] [ExactIndices K V] {upper : V} {body : V → β → Computation σ β}

/-- **A counted loop ends**, if an invariant of the site, the variable and the state is kept: where
it ends, the site is the first one above the upper bound, or the one it started from. -/
theorem ends_rounds {hi : ℤ} (hupper : real upper = (hi : K)) {I : ℤ → V → β → Prop}
    (hreal : ∀ m v b, I m v b → real v = (m : K))
    (hbody : ∀ m v b, m ≤ hi → I m v b → Ends F (body v b) (I (m + 1) (add v one)))
    {m : ℤ} {v : V} {b : β} (h : I m v b) :
    Ends F (Rounds upper body v b) fun b' => ∃ v', I (max m (hi + 1)) v' b' := by
  induction hn : (hi + 1 - m).toNat generalizing m v b with
  | zero =>
    have hm : hi + 1 ≤ m := by omega
    have hdone : atMost v upper = false := by
      rw [Bool.eq_false_iff, ne_eq, atMost_iff (hreal m v b h) hupper]
      omega
    refine .inl ⟨b, .done hdone, v, ?_⟩
    rwa [max_eq_left hm]
  | succ n ih =>
    have hm : m ≤ hi := by omega
    have hstep : atMost v upper = true := (atMost_iff (hreal m v b h) hupper).mpr hm
    rcases hbody m v b hm h with ⟨b', hb, hI⟩ | ⟨s, hb, hs⟩
    · have hmax : max m (hi + 1) = max (m + 1) (hi + 1) := by omega
      rw [hmax]
      rcases ih hI (by omega) with ⟨b'', hr, hI'⟩ | ⟨s, hr, hs⟩
      · exact .inl ⟨b'', .step hstep hb hr, hI'⟩
      · exact .inr ⟨s, .step hstep hb hr, hs⟩
    · exact .inr ⟨s, .stop hstep hb, hs⟩

end Rounds

end Computation

end Fluxion
