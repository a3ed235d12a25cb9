import Fluxion.Expr.Subst
import Fluxion.Missing

/-!
# Proofs/Expressions/Subexpressions — the expressions inside an expression

`Expr.children` are the expressions right inside another one, and `Expr.Within` is what is reached
from it through any number of them.  A symbol or an indexed symbol occurs free exactly where it
stands within an expression, since a sum binds indices only.  `Expr.summed` lists the indices of all
sums within an expression.
-/

namespace Fluxion.Expr

variable {K : Type} {c d e : Expr K}

/-- The expressions right inside another one. -/
def children : Expr K → List (Expr K)
  | .add terms => terms
  | .mul factors => factors
  | .pow base exponent => [base, exponent]
  | .neg inner => [inner]
  | .call _ args => args
  | .sum _ _ body | .distinct _ _ body => [body]
  | .number _ | .imaginaryUnit | .symbol _ | .indexed _ | .index _ => []

/-- The expressions right inside another one, under the same indices. -/
def parts : Expr K → List (Expr K)
  | .add terms => terms
  | .mul factors => factors
  | .pow base exponent => [base, exponent]
  | .neg inner => [inner]
  | .call _ args => args
  | _ => []

theorem mem_children_of_mem_parts (hc : c ∈ e.parts) : c ∈ e.children := by
  cases e with
  | add | mul | pow | neg | call => exact hc
  | _ => cases hc

theorem sizeOf_lt_of_mem_children (hc : c ∈ e.children) : sizeOf c < sizeOf e := by
  cases e with
  | add terms =>
    have hsize : sizeOf c < sizeOf terms := List.sizeOf_lt_of_mem hc
    rw [add.sizeOf_spec]
    omega
  | mul factors =>
    have hsize : sizeOf c < sizeOf factors := List.sizeOf_lt_of_mem hc
    rw [mul.sizeOf_spec]
    omega
  | call func args =>
    have hsize : sizeOf c < sizeOf args := List.sizeOf_lt_of_mem hc
    rw [call.sizeOf_spec]
    omega
  | _ => grind [children]

/-- **Induction on the expressions right inside.** -/
theorem childInduction {Q : Expr K → Prop} (step : ∀ e, (∀ c ∈ e.children, Q c) → Q e)
    (e : Expr K) : Q e :=
  step e fun c _ => childInduction step c
termination_by sizeOf e
decreasing_by exact sizeOf_lt_of_mem_children ‹_›

/-- **An expression stands within another one.** -/
inductive Within (d : Expr K) : Expr K → Prop
  | self : Within d d
  | child {c e : Expr K} (hc : c ∈ e.children) (h : Within d c) : Within d e

theorem within_iff : Within d e ↔ e = d ∨ ∃ c ∈ e.children, Within d c := by
  constructor
  · rintro (_ | ⟨hc, h⟩)
    · exact .inl rfl
    · exact .inr ⟨_, hc, h⟩
  · rintro (rfl | ⟨c, hc, h⟩)
    · exact .self
    · exact .child hc h

/-- Nothing but itself stands within an expression without children. -/
theorem Within.eq_of_leaf (h : Within d e) (he : e.children = []) : e = d := by
  rcases within_iff.mp h with rfl | ⟨c, hc, -⟩
  · rfl
  · rw [he] at hc
    cases hc

/-! ## Sums -/

mutual

/-- The indices that an expression sums over. -/
def summed : Expr K → List Index
  | .number _ | .imaginaryUnit | .symbol _ | .indexed _ | .index _ => []
  | .add terms => summedAll terms
  | .mul factors => summedAll factors
  | .call _ args => summedAll args
  | .pow base exponent => summed base ++ summed exponent
  | .neg inner => summed inner
  | .sum i _ body => i :: summed body
  | .distinct _ _ body => summed body

/-- The indices that some expressions sum over. -/
def summedAll : List (Expr K) → List Index
  | [] => []
  | e :: rest => summed e ++ summedAll rest

end

theorem mem_summedAll {i : Index} {es : List (Expr K)} :
    i ∈ summedAll es ↔ ∃ e ∈ es, i ∈ e.summed := by
  induction es with
  | nil => simp [summedAll]
  | cons e es ih => simp [summedAll, ih]

/-- An expression sums over its own index, if it is a sum, and over those of its children. -/
theorem mem_summed {i : Index} :
    i ∈ e.summed ↔ (∃ away body, e = .sum i away body) ∨ ∃ c ∈ e.children, i ∈ c.summed := by
  cases e with
  | sum j away body => simp [summed, children, eq_comm]
  | _ => simp [summed, children, mem_summedAll]

/-! ## Free occurrences -/

theorem mem_occurrencesAll {s : FreeSymbol} {bound : List Index} {es : List (Expr K)} :
    s ∈ occurrencesAll bound es ↔ ∃ e ∈ es, s ∈ e.occurrences bound := by
  induction es with
  | nil => simp [occurrencesAll]
  | cons e es ih => simp [occurrencesAll, ih]

theorem declared?_inj {s : FreeSymbol} (hd : d.declared? = some s) :
    e.declared? = some s ↔ e = d := by
  constructor
  · intro he
    cases d <;> cases hd <;> cases e <;> cases he <;> rfl
  · rintro rfl
    exact hd

theorem mem_unbound {s : FreeSymbol} {bound is : List Index} :
    s ∈ unbound bound is ↔ ∃ i ∈ is, i ∉ bound ∧ s = .index i := by
  constructor
  · intro h
    obtain ⟨i, hi, rfl⟩ := List.mem_map.mp h
    obtain ⟨hi, hfree⟩ := List.mem_filter.mp hi
    exact ⟨i, hi, of_decide_eq_true hfree, rfl⟩
  · rintro ⟨i, hi, hfree, rfl⟩
    exact List.mem_map_of_mem (List.mem_filter.mpr ⟨hi, decide_eq_true hfree⟩)

theorem not_mem_unbound {s : FreeSymbol} {bound is : List Index} (hd : d.declared? = some s) :
    s ∉ unbound bound is := by
  intro h
  obtain ⟨i, -, -, rfl⟩ := mem_unbound.mp h
  cases d <;> cases hd

/-- **A symbol is free wherever it stands**, and so is an indexed symbol. -/
theorem mem_occurrences {s : FreeSymbol} {bound : List Index} (hd : d.declared? = some s) :
    s ∈ e.occurrences bound ↔ Within d e := by
  induction e using childInduction generalizing bound with
  | step e ih =>
    rw [within_iff, ← declared?_inj hd]
    cases e with
    | symbol | indexed =>
      simp [occurrences, children, declared?, not_mem_unbound hd, eq_comm]
    | add es | mul es | call _ es =>
      simp only [occurrences, mem_occurrencesAll, declared?, children, reduceCtorEq, false_or]
      exact exists_congr fun c => and_congr_right fun hc => ih c hc
    | _ => simp_all [occurrences, children, declared?, not_mem_unbound hd]

/-! ## Lists of expressions -/

theorem substituteAll_eq (σ : Substitution K) (bound : List Index) (es : List (Expr K)) :
    substituteAll σ bound es = es.map (substituteUnder σ bound) := by
  induction es with
  | nil => rfl
  | cons e es ih => rw [substituteAll, ih, List.map_cons]

theorem simplifyAll_eq [Literal K] (es : List (Expr K)) : simplifyAll es = es.map simplify := by
  induction es with
  | nil => rfl
  | cons e es ih => rw [simplifyAll, ih, List.map_cons]

end Fluxion.Expr
