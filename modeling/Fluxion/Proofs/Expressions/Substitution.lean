import Fluxion.Proofs.Expressions.Dependence

/-!
# Proofs/Expressions/Substitution — substituting for symbols is binding them to other values

    e ──substitute σ──▸ e.substitute σ ──evaluate b──▸ v
    e ──evaluate (b.rebind σ)──▸ v

All symbols are replaced at once, so replacements are evaluated under the bindings as they were.  A
replacement comes to stand under the sums of the expression; it has the same value there as outside,
since no index is free in it (`evaluateAt_eq_evaluate`).  The limits of sums are not expressions,
and nothing is substituted in them.
-/

namespace Fluxion

variable {K V : Type} [Literal K] [Arithmetic K V] {b b' : Bindings V} {sites : Sites}

/-- **Bindings under which some symbols have the values of what replaces them** under other
bindings, wherever that stands. -/
structure Substitution.Relates (σ : Substitution K) (b b' : Bindings V)
    (symbols : List FreeSymbol) :
    Prop where
  scalar : ∀ x, .scalar x ∈ symbols →
    ∀ sites, ((σ (.scalar x)).getD (.symbol x)).evaluateAt b sites = b'.get x
  scalars : ∀ s, s.isIndexLike = true → σ s = none
  site : b.site = b'.site

/-- **Replacements of scalars that have values**, which depend on no index. -/
structure Substitution.Settled (σ : Substitution K) (b : Bindings V) : Prop where
  scalars : ∀ s r, σ s = some r → ∃ x, s = .scalar x
  closed : ∀ s r, σ s = some r → ∀ i, .index i ∉ r.freeSymbols
  value : ∀ s r, σ s = some r → ∃ v, r.evaluate b = .ok v

/-- Binds each symbol that is replaced to the value of its replacement. -/
def Bindings.rebind (b : Bindings V) (σ : Substitution K) : Bindings V where
  scalar x :=
    match σ (.scalar x) with
    | some r => (r.evaluate b).toOption
    | none => b.scalar x
  site := b.site

theorem Bindings.scalar_rebind_of_none {σ : Substitution K} {x : String}
    (h : σ (.scalar x) = none) :
    (b.rebind σ).scalar x = b.scalar x := by
  simp only [rebind, h]

theorem Bindings.scalar_rebind_of_some {σ : Substitution K} {x : String} {r : Expr K}
    (h : σ (.scalar x) = some r) : (b.rebind σ).scalar x = (r.evaluate b).toOption := by
  simp only [rebind, h]

namespace Expr

variable {e : Expr K} {σ : Substitution K} {bound : List Index}

/-! ## Under sums -/

omit [Literal K] in
theorem exists_index_of_mem_ownOccurrences {s : FreeSymbol} (he : e.isAtom = false)
    (h : s ∈ e.ownOccurrences bound) : ∃ i, s = .index i := by
  have hunbound : ∀ is : List Index, s ∈ unbound bound is → ∃ i, s = .index i := by
    intro is hs
    obtain ⟨i, -, -, hi⟩ := mem_unbound.mp hs
    exact ⟨i, hi⟩
  cases e with
  | sum | distinct => exact hunbound _ h
  | add | mul | pow | neg | call => cases h
  | _ => cases he

/-- **What comes out of a substitution has the value of the expression** under bindings that give
each symbol the value of its replacement. -/
theorem evaluateAt_substituteUnder (h : σ.Relates b b' (e.occurrences bound))
    (hlimits : ∀ i ∈ e.summed, b.bound i.lower = b'.bound i.lower ∧
      b.bound i.upper = b'.bound i.upper) :
    (e.substituteUnder σ bound).evaluateAt b sites = e.evaluateAt b' sites := by
  induction e using childInduction generalizing bound sites with
  | step e ih =>
    cases he : e.isAtom with
    | true =>
      cases e with
      | number | imaginaryUnit => rfl
      | symbol x => exact h.scalar x List.mem_cons_self sites
      | indexed s =>
        rw [substituteUnder, h.scalars (.indexed s) rfl, Option.getD_none, evaluateAt, evaluateAt]
        simp only [Bindings.getSite, h.site]
      | index i =>
        rw [substituteUnder, h.scalars (.index i) rfl, Option.getD_none, ite_self, evaluateAt,
          evaluateAt]
      | _ => cases he
    | false =>
      rw [substituteUnder_eq_mapChildren σ bound he]
      refine (evaluateAt_mapChildren (fun s hs => ?_) (fun i away body hsum => ?_)
        fun c hc n => ?_).symm
      · obtain ⟨i, rfl⟩ := exists_index_of_mem_ownOccurrences he hs
        exact rfl
      · obtain ⟨hlower, hupper⟩ := hlimits i (mem_summed.mpr (.inl ⟨away, body, hsum⟩))
        exact ⟨hlower.symm, hupper.symm⟩
      · refine (ih c hc ⟨fun x hx => ?_, h.scalars, h.site⟩ fun i hi => ?_).symm
        · exact h.scalar x (((inherited_occurrences _).iff bound e).mpr (.inr ⟨c, hc, hx⟩))
        · exact hlimits i (mem_summed.mpr (.inr ⟨c, hc, hi⟩))

/-- Without free indices, the sites make no difference. -/
theorem evaluateAt_eq_evaluate (hclosed : ∀ i, .index i ∉ e.freeSymbols) (b : Bindings V)
    (sites : Sites) :
    e.evaluateAt b sites = e.evaluate b := by
  refine evaluateAt_congr [] (fun s hs => ?_) (fun i hi => by cases hi) fun _ _ => ⟨rfl, rfl⟩
  cases s with
  | scalar => exact rfl
  | indexed => exact fun _ => rfl
  | index i => exact absurd (mem_firsts.mpr hs) (hclosed i)

end Expr

omit [Literal K] in
theorem Substitution.mem_of_ofList {pairs : List (FreeSymbol × Expr K)} {s : FreeSymbol}
    {r : Expr K} (h : Substitution.ofList pairs s = some r) : (s, r) ∈ pairs := by
  obtain ⟨⟨t, r⟩, hfind, rfl⟩ := Option.map_eq_some_iff.mp h
  have ht : t = s := by simpa using List.find?_some hfind
  exact ht ▸ List.mem_reverse.mp (List.mem_of_find?_eq_some hfind)

theorem Substitution.settled_ofList {pairs : List (FreeSymbol × Expr K)}
    (h : ∀ p ∈ pairs, (∃ x, p.1 = .scalar x) ∧ (∀ i, .index i ∉ p.2.freeSymbols) ∧
      ∃ v, p.2.evaluate b = .ok v) : (Substitution.ofList pairs).Settled b where
  scalars _ _ hr := (h _ (mem_of_ofList hr)).1
  closed _ _ hr := (h _ (mem_of_ofList hr)).2.1
  value _ _ hr := (h _ (mem_of_ofList hr)).2.2

theorem Substitution.Settled.relates {σ : Substitution K} (h : σ.Settled b)
    (symbols : List FreeSymbol) :
    σ.Relates b (b.rebind σ) symbols where
  scalar x _ sites := by
    cases hx : σ (.scalar x) with
    | none =>
      rw [Bindings.get, Bindings.scalar_rebind_of_none hx]
      rfl
    | some r =>
      obtain ⟨v, hv⟩ := h.value _ r hx
      rw [Option.getD_some, Expr.evaluateAt_eq_evaluate (h.closed _ r hx) b sites, hv, Bindings.get,
        Bindings.scalar_rebind_of_some hx, hv]
      rfl
  scalars s hs := by
    cases hσ : σ s with
    | none => rfl
    | some r =>
      obtain ⟨x, rfl⟩ := h.scalars s r hσ
      cases hs
  site := rfl

namespace Expr

/-- **Substituting for symbols is binding them to the values of their replacements**, and a symbol
that is replaced is left only where a replacement has it. -/
theorem evaluateAt_substitute (e : Expr K) (σ : Substitution K) (b : Bindings V) (hσ : σ.Settled b)
    (hlimits : ∀ i ∈ e.summed, ∀ x, i.lower = .symbol x ∨ i.upper = .symbol x →
      σ (.scalar x) = none) :
    (∀ sites, (e.substitute σ).evaluateAt b sites = e.evaluateAt (b.rebind σ) sites) ∧
      ∀ x, σ (.scalar x) ≠ none → .scalar x ∈ (e.substitute σ).freeSymbols →
        ∃ y r, .scalar y ∈ e.freeSymbols ∧ σ (.scalar y) = some r ∧ .scalar x ∈ r.freeSymbols := by
  constructor
  · intro sites
    refine evaluateAt_substituteUnder (hσ.relates _) fun i hi => ⟨?_, ?_⟩
    · exact Bindings.bound_congr fun x hx =>
        (Bindings.scalar_rebind_of_none (hlimits i hi x (.inl hx))).symm
    · exact Bindings.bound_congr fun x hx =>
        (Bindings.scalar_rebind_of_none (hlimits i hi x (.inr hx))).symm
  · intro x hx hfree
    have hwithin : Within (.symbol x) (e.substitute σ) :=
      (mem_occurrences rfl).mp (mem_firsts.mp hfree)
    rcases within_substituteUnder rfl hwithin with ⟨-, hnone⟩ | ⟨s, hs, r, hr, hwithin⟩
    · exact absurd hnone hx
    · obtain ⟨y, rfl⟩ := hσ.scalars s r hr
      exact ⟨y, r, mem_firsts.mpr hs, hr, mem_firsts.mpr ((mem_occurrences rfl).mpr hwithin)⟩

/-- Two symbols for each other, one of them times a sum that has the other one. -/
def exchange : List (FreeSymbol × Expr ℚ) :=
  [(.scalar "x", .mul [.symbol "y", .sum ⟨"j", .literal 1, .symbol "N"⟩ [] (.symbol "x")]),
    (.scalar "y", .symbol "x")]

/-- One symbol at all sites but one, and the other symbol. -/
def exchanged : Expr ℚ :=
  .add [.sum ⟨"j", .literal 1, .symbol "N"⟩ [⟨"i", .literal 1, .literal 3⟩]
    (.mul [.indexed ⟨"n", [⟨"j", .literal 1, .symbol "N"⟩]⟩, .symbol "x"]), .symbol "y"]

theorem evaluateAt_substitute_exchanged :
    (Substitution.ofList exchange).Settled (otherBindings.bind "y" 4) ∧
      (exchanged.substitute (.ofList exchange)).evaluateAt (otherBindings.bind "y" 4)
        [(⟨"i", .literal 1, .literal 3⟩, 1)] = .ok 171 := by
  have hσ : (Substitution.ofList exchange).Settled (otherBindings.bind "y" 4) := by
    refine Substitution.settled_ofList
      (List.forall_mem_cons.mpr ⟨⟨⟨"x", rfl⟩, ?_, 24, by decide +kernel⟩,
      List.forall_mem_singleton.mpr ⟨⟨"y", rfl⟩, ?_, 3, by decide +kernel⟩⟩)
    all_goals simp [freeSymbols, occurrences, occurrencesAll, unbound]
  have hlimits : ∀ i ∈ exchanged.summed, ∀ x, i.lower = .symbol x ∨ i.upper = .symbol x →
      Substitution.ofList exchange (.scalar x) = none := by
    have hsummed : exchanged.summed = [⟨"j", .literal 1, .symbol "N"⟩] := rfl
    rw [hsummed]
    rintro i hi x hx
    obtain rfl := List.mem_singleton.mp hi
    rcases hx with hx | hx
    · cases hx
    · obtain rfl := Bound.symbol.inj hx
      rfl
  refine ⟨hσ, ((evaluateAt_substitute exchanged _ _ hσ hlimits).1 _).trans ?_⟩
  decide +kernel

end Expr

end Fluxion
