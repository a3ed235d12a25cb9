import Fluxion.Proofs.Expressions.Folding

/-!
# Proofs/Expressions/Elimination — indices after symbols are set to zero

`Expr.eliminate` replaces symbols by zero and folds away what vanishes with them.  What is left
mentions no index that the expression did not mention before, and no index matters to it if none
did.
-/

namespace Fluxion.Expr

variable {K : Type}

/-! ## Indices -/

theorem mem_mentionsAll {i : Index} {es : List (Expr K)} :
    i ∈ mentionsAll es ↔ ∃ e ∈ es, i ∈ e.mentions := by
  induction es with
  | nil => simp [mentionsAll]
  | cons e es ih => simp [mentionsAll, ih]

/-- The indices that an expression mentions apart from its children. -/
def ownMentions : Expr K → List Index
  | .indexed s => s.indices
  | .index i => [i]
  | .sum i away _ => i :: away
  | .distinct a b _ => [a, b]
  | .number _ | .imaginaryUnit | .symbol _ | .add _ | .mul _ | .pow .. | .neg _ | .call .. => []

theorem inherited_mentions (i : Index) :
    Inherited (K := K) (fun _ e => i ∈ e.mentions) (fun _ e => i ∈ e.ownMentions) where
  iff _ e := by cases e <;> simp [mentions, ownMentions, children, mem_mentionsAll, or_assoc]
  mapChildren f _ e := by cases e <;> rfl
  not_number _ _ := List.not_mem_nil
  not_add _ _ := List.not_mem_nil

theorem mem_mentions_of_summed {i : Index} {e : Expr K} (h : i ∈ e.summed) : i ∈ e.mentions := by
  induction e using childInduction with
  | step e ih =>
    rw [(inherited_mentions i).iff [] e]
    rcases mem_summed.mp h with ⟨away, body, rfl⟩ | ⟨c, hc, h⟩
    · exact .inl List.mem_cons_self
    · exact .inr ⟨c, hc, ih c hc h⟩

/-! ## Index structure -/

theorem hasIndexStructureAny_iff {es : List (Expr K)} :
    hasIndexStructureAny es = true ↔ ∃ e ∈ es, e.hasIndexStructure = true := by
  induction es with
  | nil => simp [hasIndexStructureAny]
  | cons e es ih => simp [hasIndexStructureAny, ih]

/-- Whether an expression is an index, or has to do with one apart from its children. -/
def isIndexConstruct : Expr K → Bool
  | .indexed _ | .index _ | .sum .. | .distinct .. => true
  | .number _ | .imaginaryUnit | .symbol _ | .add _ | .mul _ | .pow .. | .neg _ | .call .. => false

theorem inherited_hasIndexStructure :
    Inherited (K := K) (fun _ e => e.hasIndexStructure = true)
      (fun _ e => e.isIndexConstruct = true) where
  iff _ e := by
    cases e with
    | add es | mul es | call _ es =>
      simp only [hasIndexStructure, isIndexConstruct, children, hasIndexStructureAny_iff,
        Bool.false_eq_true, false_or]
    | _ => simp [hasIndexStructure, isIndexConstruct, children]
  mapChildren f _ e := by cases e <;> rfl
  not_number _ _ h := by cases h
  not_add _ _ h := by cases h

variable [Literal K] {e : Expr K} {missing : List FreeSymbol}

/-- **Setting symbols to zero brings in no index.** -/
theorem mentions_eliminate {i : Index} (h : i ∈ (e.eliminate missing).mentions) : i ∈ e.mentions :=
  (inherited_mentions i).of_eliminate [] h

/-- **Setting symbols to zero brings in no index structure.** -/
theorem hasIndexStructure_eliminate (h : e.hasIndexStructure = false) :
    (e.eliminate missing).hasIndexStructure = false := by
  rw [← Bool.not_eq_true] at h ⊢
  exact fun hleft => h (inherited_hasIndexStructure.of_eliminate [] hleft)

end Fluxion.Expr
