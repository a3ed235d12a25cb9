import Fluxion.Proofs.Expressions.Subexpressions

/-!
# Proofs/Expressions/Folding — folding zeros away, one construct at a time

`Expr.simplify` works from the inside out.  `Expr.fold` is its last step, on an expression whose
children are folded already:

    e ──simplify the children──▸ e' ──fold──▸ simplify e

`fold` looks at the children only to see which of them are literally zero.  Zeros stay zero when
further symbols are set to zero, so it makes no difference whether they are folded away before or
after (`simplify_substituteUnder_simplify`): setting symbols to zero one list after the other is
setting all of them to zero at once (`eliminate_eliminate`).

Neither folding nor setting symbols to zero brings in anything that an expression has from its
parts, be it free symbols, mentions of indices or index structure.  That is said once, of anything
that is inherited (`Inherited.of_eliminate`).
-/

namespace Fluxion.Expr

variable {K : Type} {c d e : Expr K}

/-! ## One construct at a time -/

/-- Whether an expression has no parts. -/
def isAtom : Expr K → Bool
  | .number _ | .imaginaryUnit | .symbol _ | .indexed _ | .index _ => true
  | .add _ | .mul _ | .pow .. | .neg _ | .call .. | .sum .. | .distinct .. => false

/-- The same construct over other expressions. -/
def mapChildren (f : Expr K → Expr K) : Expr K → Expr K
  | .add terms => .add (terms.map f)
  | .mul factors => .mul (factors.map f)
  | .pow base exponent => .pow (f base) (f exponent)
  | .neg inner => .neg (f inner)
  | .call func args => .call func (args.map f)
  | .sum i away body => .sum i away (f body)
  | .distinct a b body => .distinct a b (f body)
  | .number v => .number v
  | .imaginaryUnit => .imaginaryUnit
  | .symbol name => .symbol name
  | .indexed s => .indexed s
  | .index i => .index i

theorem children_mapChildren (f : Expr K → Expr K) (e : Expr K) :
    (e.mapChildren f).children = e.children.map f := by
  cases e <;> rfl

theorem children_of_isAtom (he : e.isAtom = true) : e.children = [] := by
  cases e with
  | number | imaginaryUnit | symbol | indexed | index => rfl
  | _ => cases he

theorem mapChildren_id (e : Expr K) : e.mapChildren id = e := by
  cases e <;> simp [mapChildren]

theorem mapChildren_mapChildren (f g : Expr K → Expr K) (e : Expr K) :
    (e.mapChildren f).mapChildren g = e.mapChildren (g ∘ f) := by
  cases e <;> simp [mapChildren]

theorem mapChildren_congr {f g : Expr K → Expr K} (h : ∀ c ∈ e.children, f c = g c) :
    e.mapChildren f = e.mapChildren g := by
  cases e <;> simp_all [mapChildren, children]

theorem isAtom_mapChildren (f : Expr K → Expr K) (e : Expr K) :
    (e.mapChildren f).isAtom = e.isAtom := by
  cases e <;> rfl

/-- The indices bound inside an expression, under those bound outside of it. -/
def boundInside (bound : List Index) : Expr K → List Index
  | .sum i _ _ => i :: bound
  | .number _ | .imaginaryUnit | .symbol _ | .indexed _ | .index _ | .add _ | .mul _
  | .pow .. | .neg _
  | .call .. | .distinct .. => bound

theorem boundInside_mapChildren (f : Expr K → Expr K) (bound : List Index) (e : Expr K) :
    (e.mapChildren f).boundInside bound = e.boundInside bound := by
  cases e <;> rfl

/-- **Substitution goes through a construct** to what is inside. -/
theorem substituteUnder_eq_mapChildren (σ : Substitution K) (bound : List Index)
    (he : e.isAtom = false) :
    e.substituteUnder σ bound = e.mapChildren (substituteUnder σ (e.boundInside bound)) := by
  cases e with
  | number | imaginaryUnit | symbol | indexed | index => cases he
  | add | mul | call => simp only [substituteUnder, substituteAll_eq, mapChildren, boundInside]
  | pow | neg | sum | distinct => rfl

/-- **Substitution replaces an atom** by what a free symbol of it stands for, or leaves it as it
is. -/
theorem substituteUnder_of_isAtom (σ : Substitution K) (bound : List Index) (he : e.isAtom = true) :
    (∃ s ∈ e.occurrences bound, σ s = some (e.substituteUnder σ bound)) ∨
      e.substituteUnder σ bound = e ∧ ∀ s, e.declared? = some s → σ s = none := by
  have hgetD (s : FreeSymbol) (hs : s ∈ e.occurrences bound)
      (hdeclared : ∀ s', e.declared? = some s' → s' = s) :
      (∃ s' ∈ e.occurrences bound, σ s' = some ((σ s).getD e)) ∨
        (σ s).getD e = e ∧ ∀ s', e.declared? = some s' → σ s' = none := by
    cases hreplaced : σ s with
    | none => exact .inr ⟨rfl, fun s' h => hdeclared s' h ▸ hreplaced⟩
    | some r => exact .inl ⟨s, hs, hreplaced⟩
  cases e with
  | number | imaginaryUnit => exact .inr ⟨rfl, fun _ h => by cases h⟩
  | symbol x => exact hgetD (.scalar x) List.mem_cons_self fun s' h => (Option.some.inj h).symm
  | indexed r => exact hgetD (.indexed r) List.mem_cons_self fun s' h => (Option.some.inj h).symm
  | index i =>
    rw [substituteUnder]
    split
    · exact .inr ⟨rfl, fun _ h => by cases h⟩
    · next hi => exact hgetD (.index i) (by simp [occurrences, unbound, hi]) fun _ h => by cases h
  | _ => cases he

variable [Literal K]

/-- Whether zeros among its children make an expression zero. -/
def vanishes : Expr K → Bool
  | .mul factors => factors.any isLiteralZero
  | .pow (.number b) (.number e) => Literal.isZero b && Literal.isPositive e
  | .neg inner => inner.isLiteralZero
  | .call func args => func.preservesZero && args.length == 1 && args.all isLiteralZero
  | .sum _ _ body => body.isLiteralZero
  | .distinct _ _ body => body.isLiteralZero
  | _ => false

/-- **One step of folding**: zero summands are left out, and what vanishes becomes zero. -/
def fold : Expr K → Expr K
  | .add terms => sumOf (terms.filter (!·.isLiteralZero))
  | e => if e.vanishes then zero else e

theorem vanishes_pow_of_ne {base exponent : Expr K}
    (h : ∀ b e, base = .number b → exponent = .number e → False) :
    (pow base exponent).vanishes = false := by
  cases base with
  | number b =>
    cases exponent with
    | number e => exact (h b e rfl rfl).elim
    | _ => rfl
  | _ => rfl

/-- **Folding is done child by child**, then by one step. -/
theorem simplify_eq_fold (e : Expr K) : e.simplify = (e.mapChildren simplify).fold := by
  cases e with
  | pow base exponent =>
    rw [simplify, mapChildren]
    generalize base.simplify = base, exponent.simplify = exponent
    split
    · rfl
    · next hne => exact (if_neg (by rw [vanishes_pow_of_ne hne]; simp)).symm
  | add | mul | call =>
    simp only [simplify, simplifyAll_eq, mapChildren]
    rfl
  | _ => rfl

theorem simplify_of_isAtom (he : e.isAtom = true) : e.simplify = e := by
  cases e with
  | number | imaginaryUnit | symbol | indexed | index => rfl
  | _ => cases he

/-- What a step of folding does to anything but a sum. -/
theorem fold_eq_ite (he : ∀ terms, e ≠ .add terms) : e.fold = if e.vanishes then zero else e := by
  cases e with
  | add terms => exact absurd rfl (he terms)
  | _ => rfl

theorem fold_of_vanishes (h : e.vanishes = true) : e.fold = zero := by
  cases e with
  | add terms => cases h
  | _ => exact if_pos h

/-! ## What is left -/

theorem sumOf_cases (es : List (Expr K)) : es = [] ∨ (∃ e, es = [e]) ∨ sumOf es = .add es := by
  match es with
  | [] => exact .inl rfl
  | [e] => exact .inr (.inl ⟨e, rfl⟩)
  | _ :: _ :: _ => exact .inr (.inr rfl)

/-- **What a step of folding leaves**: zero, one of the children, or a construct over some of them,
which another step does not change. -/
theorem fold_cases (e : Expr K) : e.fold = zero ∨ e.fold ∈ e.children ∨
    e.fold.fold = e.fold ∧ e.fold.children ⊆ e.children := by
  by_cases hadd : ∃ terms, e = .add terms
  · obtain ⟨terms, rfl⟩ := hadd
    rw [fold]
    have hsub : terms.filter (!·.isLiteralZero) ⊆ terms := List.filter_sublist.subset
    rcases sumOf_cases (terms.filter (!·.isLiteralZero)) with h | ⟨t, h⟩ | h
    · exact .inl (congrArg sumOf h)
    · rw [h] at hsub ⊢
      exact .inr (.inl (hsub (List.mem_singleton_self t)))
    · rw [h]
      refine .inr (.inr ⟨?_, hsub⟩)
      rw [fold, List.filter_filter]
      simpa using h
  · have hfold := fold_eq_ite fun terms h => hadd ⟨terms, h⟩
    cases hvanishes : e.vanishes with
    | true => exact .inl (hfold.trans (if_pos hvanishes))
    | false =>
      have hself : e.fold = e := hfold.trans (if_neg (by simp [hvanishes]))
      rw [hself]
      exact .inr (.inr ⟨hself, List.Subset.refl _⟩)

/-- **Nothing is left to fold**, wherever one looks. -/
theorem fold_of_within_simplify (h : Within d e.simplify) : d.fold = d := by
  induction e using childInduction with
  | step e ih =>
    have hchild : ∀ c ∈ (e.mapChildren simplify).children, Within d c → d.fold = d := by
      intro c hc hd
      rw [children_mapChildren] at hc
      obtain ⟨t, ht, rfl⟩ := List.mem_map.mp hc
      exact ih t ht hd
    rw [simplify_eq_fold] at h
    rcases fold_cases (e.mapChildren simplify) with hzero | hmem | ⟨hfold, hsub⟩
    · rw [hzero] at h
      rw [← h.eq_of_leaf rfl]
      rfl
    · exact hchild _ hmem h
    · rcases within_iff.mp h with rfl | ⟨c, hc, h⟩
      · exact hfold
      · exact hchild c (hsub hc) h

/-! ## Setting symbols to zero -/

section Zeros

variable {missing : List FreeSymbol} {bound : List Index}

theorem eq_zero_of_zeros {s : FreeSymbol} {r : Expr K} (h : Substitution.zeros missing s = some r) :
    r = zero := by
  unfold Substitution.zeros at h
  split at h
  · exact (Option.some.inj h).symm
  · cases h

/-- An atom in which symbols are set to zero is zero then, or as before. -/
theorem substituteUnder_zeros_of_isAtom (missing : List FreeSymbol) (bound : List Index)
    (he : e.isAtom = true) : e.substituteUnder (.zeros missing) bound = zero ∨
      e.substituteUnder (.zeros missing) bound = e := by
  rcases substituteUnder_of_isAtom (.zeros missing) bound he with ⟨s, -, hs⟩ | ⟨hself, -⟩
  · exact .inl (eq_zero_of_zeros hs)
  · exact .inr hself

theorem isAtom_of_isLiteralZero (h : e.isLiteralZero = true) : e.isAtom = true := by
  cases e with
  | number v => rfl
  | _ => cases h

/-- A literal zero that comes from setting symbols to zero was there before, or is the one put
in. -/
theorem eq_zero_of_substituteUnder
    (h : (e.substituteUnder (.zeros missing) bound).isLiteralZero = true)
    (hne : e.isLiteralZero = false) : e.substituteUnder (.zeros missing) bound = zero := by
  cases he : e.isAtom with
  | true =>
    rcases substituteUnder_zeros_of_isAtom missing bound he with hzero | hself
    · exact hzero
    · rw [hself, hne] at h
      cases h
  | false =>
    have hatom := isAtom_of_isLiteralZero h
    rw [substituteUnder_eq_mapChildren _ _ he, isAtom_mapChildren, he] at hatom
    cases hatom

/-- A literal zero that comes from folding was there before, or is the one put in. -/
theorem eq_zero_of_simplify (h : e.simplify.isLiteralZero = true) (he : e.isLiteralZero = false) :
    e.simplify = zero := by
  rw [simplify_eq_fold] at h ⊢
  cases e with
  | number v => exact absurd h (by simpa [mapChildren, fold, vanishes] using he)
  | add terms =>
    rw [mapChildren, fold] at h ⊢
    rcases sumOf_cases ((terms.map simplify).filter (!·.isLiteralZero)) with hs | ⟨t, hs⟩ | hs
    · exact congrArg sumOf hs
    · have ht : t ∈ (terms.map simplify).filter (!·.isLiteralZero) := hs ▸ List.mem_singleton_self t
      rw [hs] at h
      exact absurd h (by simpa [sumOf] using (List.mem_filter.mp ht).2)
    · rw [hs] at h
      cases h
  | _ =>
    rw [fold_eq_ite (fun _ h => by cases h)] at h ⊢
    split at h
    · exact if_pos ‹_›
    · cases h

/-- What is left of a literal zero is that zero. -/
theorem simplify_substituteUnder_of_isLiteralZero {σ : Substitution K}
    (h : e.isLiteralZero = true) :
    (e.substituteUnder σ bound).simplify = e := by
  cases e with
  | number v => rfl
  | _ => cases h

/-- A sum of one term is that term, also if symbols are set to zero in it. -/
theorem sumOf_singleton (he : e.isLiteralZero = false) :
    sumOf ([(e.substituteUnder (.zeros missing) bound).simplify].filter (!·.isLiteralZero))
      = (e.substituteUnder (.zeros missing) bound).simplify := by
  cases hzero : (e.substituteUnder (.zeros missing) bound).simplify.isLiteralZero with
  | false => simp [hzero, sumOf]
  | true =>
    rw [List.filter_cons_of_neg (by simp [hzero])]
    cases hliteral : (e.substituteUnder (.zeros missing) bound).isLiteralZero with
    | false => exact (eq_zero_of_simplify hzero hliteral).symm
    | true =>
      rw [eq_zero_of_substituteUnder hliteral he]
      rfl

/-- What vanishes also vanishes over other children, as long as literals stay as they are. -/
theorem vanishes_mapChildren {f : Expr K → Expr K} (hf : ∀ v, f (.number v) = .number v)
    (h : e.vanishes = true) : (e.mapChildren f).vanishes = true := by
  have hzero : ∀ c : Expr K, c.isLiteralZero = true → (f c).isLiteralZero = true := by
    intro c hc
    cases c with
    | number v => rwa [hf]
    | _ => cases hc
  cases e with
  | mul factors =>
    obtain ⟨c, hc, hany⟩ := List.any_eq_true.mp h
    exact List.any_eq_true.mpr ⟨f c, List.mem_map_of_mem hc, hzero c hany⟩
  | call func args =>
    simp only [vanishes, Bool.and_eq_true, List.all_eq_true] at h
    simpa [mapChildren, vanishes, h.1] using fun c hc => hzero c (h.2 c hc)
  | pow base exponent =>
    unfold vanishes at h
    split at h
    all_goals simp_all [mapChildren, vanishes]
  | neg inner => exact hzero inner h
  | sum _ _ body => exact hzero body h
  | distinct _ _ body => exact hzero body h
  | _ => cases h

theorem isAtom_of_vanishes (h : e.vanishes = true) : e.isAtom = false := by
  cases e with
  | number | imaginaryUnit | symbol | indexed | index => cases h
  | _ => rfl

/-- **Folding after a substitution** goes through a construct to what is inside. -/
theorem simplify_substituteUnder (σ : Substitution K) (bound : List Index) (he : e.isAtom = false) :
    (e.substituteUnder σ bound).simplify
      = (e.mapChildren fun c => (c.substituteUnder σ (e.boundInside bound)).simplify).fold := by
  rw [substituteUnder_eq_mapChildren σ bound he, simplify_eq_fold, mapChildren_mapChildren]
  rfl

/-- What vanishes leaves zero, whatever is substituted in it. -/
theorem simplify_substituteUnder_of_vanishes {σ : Substitution K} (h : e.vanishes = true) :
    (e.substituteUnder σ bound).simplify = zero := by
  rw [simplify_substituteUnder σ bound (isAtom_of_vanishes h)]
  exact fold_of_vanishes (vanishes_mapChildren (fun _ => rfl) h)

/-- **A step of folding makes no difference** to what is left when symbols are set to zero. -/
theorem simplify_substituteUnder_fold (missing : List FreeSymbol) (bound : List Index)
    (e : Expr K) :
    (e.fold.substituteUnder (.zeros missing) bound).simplify
      = (e.substituteUnder (.zeros missing) bound).simplify := by
  by_cases hadd : ∃ terms, e = .add terms
  · obtain ⟨terms, rfl⟩ := hadd
    -- a term that is zero already is zero in the end, and is left out then
    have hkept : ((terms.map fun t => (t.substituteUnder (.zeros missing) bound).simplify).filter
        (!·.isLiteralZero)) = (((terms.filter (!·.isLiteralZero)).map fun t =>
          (t.substituteUnder (.zeros missing) bound).simplify).filter (!·.isLiteralZero)) := by
      rw [List.filter_map, List.filter_map, List.filter_filter]
      refine congrArg _ (List.filter_congr fun t _ => ?_)
      cases ht : t.isLiteralZero with
      | false => simp
      | true => simp [simplify_substituteUnder_of_isLiteralZero ht, ht]
    rw [simplify_substituteUnder (e := .add terms) _ _ rfl, mapChildren, boundInside, fold,
      fold, hkept]
    rcases sumOf_cases (terms.filter (!·.isLiteralZero)) with h | ⟨t, h⟩ | h
    · rw [h]
      rfl
    · have ht : t ∈ terms.filter (!·.isLiteralZero) := h ▸ List.mem_singleton_self t
      rw [h, List.map_singleton, sumOf_singleton (by simpa using (List.mem_filter.mp ht).2)]
      rfl
    · rw [h, simplify_substituteUnder (e := .add _) _ _ rfl]
      rfl
  · rw [fold_eq_ite fun terms h => hadd ⟨terms, h⟩]
    cases hvanishes : e.vanishes with
    | false => rfl
    | true => exact (simplify_substituteUnder_of_vanishes hvanishes).symm

/-- **It makes no difference whether zeros are folded away before or after** symbols are set to
zero. -/
theorem simplify_substituteUnder_simplify (missing : List FreeSymbol) (e : Expr K)
    (bound : List Index) :
    (e.simplify.substituteUnder (.zeros missing) bound).simplify
      = (e.substituteUnder (.zeros missing) bound).simplify := by
  induction e using childInduction generalizing bound with
  | step e ih =>
    cases he : e.isAtom with
    | true => rw [simplify_of_isAtom he]
    | false =>
      rw [simplify_eq_fold e, simplify_substituteUnder_fold,
        simplify_substituteUnder _ _ ((isAtom_mapChildren _ _).trans he), boundInside_mapChildren,
        mapChildren_mapChildren, simplify_substituteUnder _ _ he]
      exact congrArg fold (mapChildren_congr fun c hc => ih c hc _)

/-- A symbol that is not in the first list is looked for in the second one. -/
theorem substituteUnder_getD_zeros (m₁ : List FreeSymbol) {m₂ : List FreeSymbol} {s : FreeSymbol}
    (he : e.substituteUnder (.zeros m₂) bound = (Substitution.zeros m₂ s).getD e) :
    ((Substitution.zeros m₁ s).getD e).substituteUnder (.zeros m₂) bound
      = (Substitution.zeros (m₁ ++ m₂) s).getD e := by
  by_cases hs : s ∈ m₁
  · simp [Substitution.zeros, hs, zero, substituteUnder]
  · simpa [Substitution.zeros, hs] using he

theorem substituteUnder_zeros_zeros (m₁ m₂ : List FreeSymbol) (e : Expr K) (bound : List Index) :
    (e.substituteUnder (.zeros m₁) bound).substituteUnder (.zeros m₂) bound
      = e.substituteUnder (.zeros (m₁ ++ m₂)) bound := by
  induction e using childInduction generalizing bound with
  | step e ih =>
    cases he : e.isAtom with
    | false =>
      rw [substituteUnder_eq_mapChildren _ _ he,
        substituteUnder_eq_mapChildren _ _ ((isAtom_mapChildren _ _).trans he),
        boundInside_mapChildren,
        mapChildren_mapChildren, substituteUnder_eq_mapChildren _ _ he]
      exact mapChildren_congr fun c hc => ih c hc _
    | true =>
      cases e with
      | number | imaginaryUnit => rfl
      | symbol x => exact substituteUnder_getD_zeros m₁ (s := .scalar x) rfl
      | indexed s => exact substituteUnder_getD_zeros m₁ (s := .indexed s) rfl
      | index i =>
        by_cases hi : i ∈ bound
        · simp [substituteUnder, hi]
        · have hfree : (index i : Expr K).substituteUnder (.zeros m₂) bound
              = (Substitution.zeros m₂ (.index i)).getD (.index i) := if_neg hi
          simpa [substituteUnder, hi] using substituteUnder_getD_zeros m₁ hfree
      | _ => cases he

/-- **Symbols are set to zero one list after the other**, or all at once. -/
theorem eliminate_eliminate (m₁ m₂ : List FreeSymbol) (e : Expr K) :
    (e.eliminate m₁).eliminate m₂ = e.eliminate (m₁ ++ m₂) := by
  rw [eliminate, eliminate, eliminate, substitute, substitute, substitute,
    simplify_substituteUnder_simplify, substituteUnder_zeros_zeros]

/-- Which symbols are set to zero counts, not in which order or how often they are listed. -/
theorem eliminate_congr {m₁ m₂ : List FreeSymbol} (h : ∀ s, s ∈ m₁ ↔ s ∈ m₂) :
    (eliminate m₁ : Expr K → Expr K) = eliminate m₂ := by
  have hzeros : (Substitution.zeros m₁ : Substitution K) = .zeros m₂ := by
    funext s
    simp only [Substitution.zeros, h]
  funext e
  rw [eliminate, eliminate, hzeros]

end Zeros

/-! ## What is inherited -/

/-- **What an expression has of its own or from its children**, under the indices bound so far.
What it has of its own depends on the construct alone; literals have nothing, and sums only what
their terms have. -/
structure Inherited (P own : List Index → Expr K → Prop) : Prop where
  iff : ∀ bound e, P bound e ↔ own bound e ∨ ∃ c ∈ e.children, P (e.boundInside bound) c
  mapChildren : ∀ f bound e, own bound (e.mapChildren f) ↔ own bound e
  not_number : ∀ bound v, ¬own bound (.number v)
  not_add : ∀ bound terms, ¬own bound (.add terms)

namespace Inherited

variable {P own : List Index → Expr K → Prop} {bound : List Index} {missing : List FreeSymbol}

theorem not_zero (h : Inherited P own) : ¬P bound zero := by
  rw [h.iff]
  rintro (hown | ⟨c, hc, -⟩)
  · exact h.not_number _ _ hown
  · cases hc

theorem of_fold (h : Inherited P own) (hP : P bound e.fold) : P bound e := by
  by_cases hadd : ∃ terms, e = .add terms
  · obtain ⟨terms, rfl⟩ := hadd
    rw [fold] at hP
    have hsub : terms.filter (!·.isLiteralZero) ⊆ terms := List.filter_sublist.subset
    refine (h.iff _ _).mpr (.inr ?_)
    rcases sumOf_cases (terms.filter (!·.isLiteralZero)) with hs | ⟨t, hs⟩ | hs
    · rw [hs] at hP
      exact absurd hP h.not_zero
    · rw [hs] at hP hsub
      exact ⟨t, hsub (List.mem_singleton_self t), hP⟩
    · rw [hs] at hP
      obtain ⟨t, ht, hP⟩ := ((h.iff _ _).mp hP).resolve_left (h.not_add _ _)
      exact ⟨t, hsub ht, hP⟩
  · rw [fold_eq_ite fun terms h => hadd ⟨terms, h⟩] at hP
    split at hP
    · exact absurd hP h.not_zero
    · exact hP

/-- **Folding brings in nothing** that is inherited. -/
theorem of_simplify (h : Inherited P own) (hP : P bound e.simplify) : P bound e := by
  induction e using childInduction generalizing bound with
  | step e ih =>
    rw [simplify_eq_fold] at hP
    rcases (h.iff _ _).mp (h.of_fold hP) with hown | ⟨c, hc, hP⟩
    · exact (h.iff _ _).mpr (.inl ((h.mapChildren _ _ _).mp hown))
    · rw [children_mapChildren] at hc
      obtain ⟨t, ht, rfl⟩ := List.mem_map.mp hc
      rw [boundInside_mapChildren] at hP
      exact (h.iff _ _).mpr (.inr ⟨t, ht, ih t ht hP⟩)

theorem of_substituteUnder (h : Inherited P own) {bound' : List Index}
    (hP : P bound (e.substituteUnder (.zeros missing) bound')) : P bound e := by
  induction e using childInduction generalizing bound bound' with
  | step e ih =>
    cases he : e.isAtom with
    | true =>
      rcases substituteUnder_zeros_of_isAtom missing bound' he with hzero | hself
      · rw [hzero] at hP
        exact absurd hP h.not_zero
      · rwa [hself] at hP
    | false =>
      rw [substituteUnder_eq_mapChildren _ _ he, h.iff, h.mapChildren, boundInside_mapChildren,
        children_mapChildren] at hP
      refine (h.iff _ _).mpr (hP.imp_right ?_)
      rintro ⟨c, hc, hP⟩
      obtain ⟨t, ht, rfl⟩ := List.mem_map.mp hc
      exact ⟨t, ht, ih t ht hP⟩

/-- **Setting symbols to zero brings in nothing** that is inherited. -/
theorem of_eliminate (h : Inherited P own) (bound : List Index)
    (hP : P bound (e.eliminate missing)) :
    P bound e :=
  h.of_substituteUnder (h.of_simplify hP)

end Inherited

/-! ## Free symbols -/

/-- The free occurrences that an expression has apart from those of its children. -/
def ownOccurrences (bound : List Index) : Expr K → List FreeSymbol
  | .symbol name => [.scalar name]
  | .indexed s => .indexed s :: unbound bound s.indices
  | .index i => unbound bound [i]
  | .sum _ away _ => unbound bound away
  | .distinct a b _ => unbound bound [a, b]
  | .number _ | .imaginaryUnit | .add _ | .mul _ | .pow .. | .neg _ | .call .. => []

omit [Literal K] in
theorem inherited_occurrences (s : FreeSymbol) :
    Inherited (K := K) (fun bound e => s ∈ e.occurrences bound)
    (fun bound e => s ∈ e.ownOccurrences bound) where
  iff bound e := by
    cases e <;> simp [occurrences, ownOccurrences, children, boundInside, mem_occurrencesAll]
  mapChildren f bound e := by cases e <;> rfl
  not_number _ _ := List.not_mem_nil
  not_add _ _ := List.not_mem_nil

omit [Literal K] in
/-- **What stands within an expression after a substitution** stood there before and is not
replaced, or it stands within what replaces a free symbol. -/
theorem within_substituteUnder {σ : Substitution K} {s : FreeSymbol} {bound : List Index}
    (hd : d.declared? = some s) (h : Within d (e.substituteUnder σ bound)) :
    Within d e ∧ σ s = none ∨ ∃ t ∈ e.occurrences bound, ∃ r, σ t = some r ∧ Within d r := by
  have hatom : d.isAtom = true := by
    cases d with
    | symbol | indexed => rfl
    | _ => cases hd
  induction e using childInduction generalizing bound with
  | step e ih =>
    cases he : e.isAtom with
    | true =>
      rcases substituteUnder_of_isAtom σ bound he with ⟨t, ht, hr⟩ | ⟨hself, hkept⟩
      · exact .inr ⟨t, ht, _, hr, h⟩
      · rw [hself] at h
        obtain rfl := h.eq_of_leaf (children_of_isAtom he)
        exact .inl ⟨h, hkept s hd⟩
    | false =>
      rw [substituteUnder_eq_mapChildren _ _ he] at h
      rcases within_iff.mp h with rfl | ⟨c, hc, h⟩
      · rw [isAtom_mapChildren, he] at hatom
        cases hatom
      · rw [children_mapChildren] at hc
        obtain ⟨t, ht, rfl⟩ := List.mem_map.mp hc
        rcases ih t ht h with ⟨h, hs⟩ | ⟨u, hu, hr⟩
        · exact .inl ⟨.child ht h, hs⟩
        · exact .inr ⟨u, ((inherited_occurrences u).iff bound e).mpr (.inr ⟨t, ht, hu⟩), hr⟩

/-- **What is set to zero does not stand within what is left.** -/
theorem not_within_substituteUnder {s : FreeSymbol} {missing : List FreeSymbol} {bound : List Index}
    (hs : s ∈ missing) (hd : d.declared? = some s) :
    ¬Within d (e.substituteUnder (.zeros missing) bound) := by
  intro h
  rcases within_substituteUnder hd h with ⟨-, hnone⟩ | ⟨t, -, r, hr, h⟩
  · rw [Substitution.zeros, if_pos hs] at hnone
    cases hnone
  · rw [eq_zero_of_zeros hr] at h
    obtain rfl := h.eq_of_leaf rfl
    cases hd

/-- **A symbol that is left when others are set to zero** was free before and is none of them,
unless it is an index. -/
theorem mem_freeSymbols_eliminate {s : FreeSymbol} {missing : List FreeSymbol}
    (h : s ∈ (e.eliminate missing).freeSymbols) :
    s ∈ e.freeSymbols ∧ (s ∈ missing → ∃ i, s = .index i) := by
  rw [freeSymbols, mem_firsts] at h ⊢
  refine ⟨(inherited_occurrences s).of_eliminate [] h, fun hs => ?_⟩
  have hleft := (inherited_occurrences s).of_simplify h
  cases s with
  | index i => exact ⟨i, rfl⟩
  | scalar x =>
    have hwithin : Within (.symbol x) _ := (mem_occurrences rfl).mp hleft
    exact absurd hwithin (not_within_substituteUnder hs rfl)
  | indexed r =>
    have hwithin : Within (.indexed r) _ := (mem_occurrences rfl).mp hleft
    exact absurd hwithin (not_within_substituteUnder hs rfl)

/-- **What is set to zero is gone**, and no other symbol comes in. -/
theorem within_eliminate {x : String} {missing : List FreeSymbol}
    (h : Within (.symbol x) (e.eliminate missing)) :
    Within (.symbol x) e ∧ .scalar x ∉ missing := by
  have hfree : FreeSymbol.scalar x ∈ (e.eliminate missing).freeSymbols :=
    mem_firsts.mpr ((mem_occurrences rfl).mpr h)
  obtain ⟨hbefore, hmissing⟩ := mem_freeSymbols_eliminate hfree
  refine ⟨(mem_occurrences rfl).mp (mem_firsts.mp hbefore), fun hx => ?_⟩
  obtain ⟨i, hi⟩ := hmissing hx
  cases hi

end Fluxion.Expr
