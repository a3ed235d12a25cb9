import Fluxion.Expr.Eval
import Fluxion.Proofs.Numbers.ExactArithmetic
import Fluxion.Proofs.Expressions.Folding

/-!
# Proofs/Expressions/Dependence — what the value of an expression depends on

Free symbols are collected under a list of bound indices, values are computed under a list of sites.
The two walks go together: what an expression looks up for itself is what it has free of its own
(`evaluateAt_mapChildren`), and a sum hides the same index on both sides.  Hence **the value of an
expression depends on its free symbols alone**, and on the symbols that bound its sums, which do not
count as free (`evaluateAt_congr`).
-/

namespace Fluxion

variable {K V : Type} {b b' : Bindings V} {sites sites' : Sites}

/-- **Bindings and sites agree on a symbol**: on its value, on the values at all its sites, or on
the innermost site of an index. -/
def FreeSymbol.Agrees (b : Bindings V) (sites : Sites) (b' : Bindings V) (sites' : Sites) :
    FreeSymbol → Prop
  | .scalar x => b.scalar x = b'.scalar x
  | .index i => sites.get i = sites'.get i
  | .indexed s => ∀ ns, b.site s.base ns = b'.site s.base ns

namespace Sites

theorem get_cons (i j : Index) (n : Int) (sites : Sites) :
    Sites.get ((i, n) :: sites) j = if i = j then .ok n else sites.get j := by
  by_cases h : i = j <;> simp [Sites.get, h]

theorem get_cons_congr {i j : Index} {n : Int} (h : sites.get j = sites'.get j) :
    Sites.get ((i, n) :: sites) j = Sites.get ((i, n) :: sites') j := by
  rw [get_cons, get_cons, h]

theorem mapM_get_congr {is : List Index} (h : ∀ i ∈ is, sites.get i = sites'.get i) :
    is.mapM sites.get = is.mapM sites'.get := by
  induction is with
  | nil => rfl
  | cons i is ih =>
    rw [List.mapM_cons, List.mapM_cons, h i List.mem_cons_self,
      ih fun j hj => h j (List.mem_cons_of_mem _ hj)]

/-- The sites of all other indices. -/
def without (sites : Sites) (i : Index) : Sites := sites.filter (·.1 ≠ i)

theorem get_without {i j : Index} (h : i ≠ j) (sites : Sites) :
    (sites.without i).get j = sites.get j := by
  have hfind : (sites.without i).find? (·.1 == j) = sites.find? (·.1 == j) := by
    rw [without, List.find?_filter]
    congr 1
    funext p
    by_cases hp : p.1 = j <;> simp [hp, h.symm]
  rw [Sites.get, Sites.get, hfind]

/-- **A site hides those of the same index further out.** -/
theorem get_cons_without (i j : Index) (n : Int) (sites : Sites) :
    Sites.get ((i, n) :: sites.without i) j = Sites.get ((i, n) :: sites) j := by
  rw [get_cons, get_cons]
  split
  · rfl
  · next h => exact get_without h sites

end Sites

theorem Bindings.bound_congr [Literal K] [Arithmetic K V] {limit : Bound}
    (h : ∀ x, limit = .symbol x → b.scalar x = b'.scalar x) : b.bound limit = b'.bound limit := by
  cases limit with
  | literal n => rfl
  | symbol x => rw [Bindings.bound, Bindings.bound, Bindings.get, Bindings.get, h x rfl]

theorem FreeSymbol.Agrees.cons {s : FreeSymbol} (h : s.Agrees b sites b' sites') (i : Index)
    (n : Int) :
    s.Agrees b ((i, n) :: sites) b' ((i, n) :: sites') := by
  cases s with
  | scalar | indexed => exact h
  | index j => exact Sites.get_cons_congr h

namespace Expr

variable [Literal K] [Arithmetic K V] {c e : Expr K} {bound : List Index}

/-- The sites inside an expression: a sum puts its index at one. -/
def sitesInside (sites : Sites) (n : Int) : Expr K → Sites
  | .sum i _ _ => (i, n) :: sites
  | .number _ | .imaginaryUnit | .symbol _ | .indexed _ | .index _ | .add _ | .mul _
  | .pow .. | .neg _
  | .call .. | .distinct .. => sites

omit [Literal K] [Arithmetic K V] in
theorem agrees_sitesInside {s : FreeSymbol} (h : s.Agrees b sites b' sites') (n : Int)
    (e : Expr K) :
    s.Agrees b (e.sitesInside sites n) b' (e.sitesInside sites' n) := by
  cases e with
  | sum i away body => exact h.cons i n
  | _ => exact h

/-! ## One construct -/

theorem evaluateSum_map {f : Expr K → Expr K} {es : List (Expr K)}
    (h : ∀ e ∈ es, e.evaluateAt b sites = (f e).evaluateAt b' sites') (acc : V) :
    evaluateSum b sites es acc = evaluateSum b' sites' (es.map f) acc := by
  induction es generalizing acc with
  | nil => rfl
  | cons e es ih =>
    rw [List.map_cons, evaluateSum, evaluateSum, h e List.mem_cons_self]
    simp only [ih fun c hc => h c (List.mem_cons_of_mem _ hc)]

theorem evaluateProduct_map {f : Expr K → Expr K} {es : List (Expr K)}
    (h : ∀ e ∈ es, e.evaluateAt b sites = (f e).evaluateAt b' sites') (acc : V) :
    evaluateProduct b sites es acc = evaluateProduct b' sites' (es.map f) acc := by
  induction es generalizing acc with
  | nil => rfl
  | cons e es ih =>
    rw [List.map_cons, evaluateProduct, evaluateProduct, h e List.mem_cons_self]
    simp only [ih fun c hc => h c (List.mem_cons_of_mem _ hc)]

/-- **A construct over other expressions has the same value**, if these have the same values and it
finds the same for what it looks up itself. -/
theorem evaluateAt_mapChildren {f : Expr K → Expr K}
    (hown : ∀ s ∈ e.ownOccurrences [], s.Agrees b sites b' sites')
    (hlimits : ∀ i away body, e = .sum i away body →
      b.bound i.lower = b'.bound i.lower ∧ b.bound i.upper = b'.bound i.upper)
    (hchildren : ∀ c ∈ e.children, ∀ n,
      c.evaluateAt b (e.sitesInside sites n) = (f c).evaluateAt b' (e.sitesInside sites' n)) :
    e.evaluateAt b sites = (e.mapChildren f).evaluateAt b' sites' := by
  have hget : ∀ is : List Index, unbound [] is ⊆ e.ownOccurrences [] →
      ∀ i ∈ is, sites.get i = sites'.get i := fun is his i hi =>
    hown (.index i) (his (mem_unbound.mpr ⟨i, hi, List.not_mem_nil, rfl⟩))
  cases e with
  | number | imaginaryUnit => rfl
  | symbol x =>
    have hx : b.scalar x = b'.scalar x := hown (.scalar x) List.mem_cons_self
    rw [mapChildren, evaluateAt, evaluateAt, Bindings.get, Bindings.get, hx]
  | indexed s =>
    have hs : ∀ ns, b.site s.base ns = b'.site s.base ns := hown (.indexed s) List.mem_cons_self
    have his := Sites.mapM_get_congr (hget s.indices (List.subset_cons_self _ _))
    simp only [mapChildren, evaluateAt, his, Bindings.getSite, hs]
  | index i =>
    have hi := hget [i] (List.Subset.refl _) i List.mem_cons_self
    rw [mapChildren, evaluateAt, evaluateAt, hi]
  | add terms => exact evaluateSum_map (fun c hc => hchildren c hc 0) _
  | mul factors => exact evaluateProduct_map (fun c hc => hchildren c hc 0) _
  | pow base exponent =>
    have hbase := hchildren base List.mem_cons_self 0
    have hexponent := hchildren exponent (List.mem_cons_of_mem _ List.mem_cons_self) 0
    simp only [sitesInside] at hbase hexponent
    rw [mapChildren, evaluateAt, evaluateAt, hbase, hexponent]
  | neg inner =>
    have hinner := hchildren inner List.mem_cons_self 0
    simp only [sitesInside] at hinner
    rw [mapChildren, evaluateAt, evaluateAt, hinner]
  | call func args =>
    cases args with
    | nil => rfl
    | cons arg rest =>
      have harg := hchildren arg List.mem_cons_self 0
      simp only [sitesInside] at harg
      rw [mapChildren, List.map_cons, evaluateAt, evaluateAt, harg]
  | sum i away body =>
    obtain ⟨hlower, hupper⟩ := hlimits i away body rfl
    have haway := Sites.mapM_get_congr (hget away (List.Subset.refl _))
    have hbody := funext (hchildren body List.mem_cons_self)
    simp only [sitesInside] at hbody
    rw [mapChildren, evaluateAt, evaluateAt, hlower, hupper, haway, hbody]
  | distinct i j body =>
    have hij := hget [i, j] (List.Subset.refl _)
    have hbody := hchildren body List.mem_cons_self 0
    simp only [sitesInside] at hbody
    rw [mapChildren, evaluateAt, evaluateAt, hij i (by simp), hij j (by simp), hbody]

/-! ## Whole expressions -/

omit [Literal K] in
/-- What is free in a construct of its own is free under other sums, or is bound there. -/
theorem mem_ownOccurrences_nil {s : FreeSymbol} (h : s ∈ e.ownOccurrences []) :
    s ∈ e.ownOccurrences bound ∨ ∃ i ∈ bound, s = .index i := by
  have hunbound : ∀ is : List Index, s ∈ unbound [] is →
      s ∈ unbound bound is ∨ ∃ i ∈ bound, s = .index i := by
    intro is hs
    obtain ⟨i, hi, -, rfl⟩ := mem_unbound.mp hs
    by_cases hbound : i ∈ bound
    · exact .inr ⟨i, hbound, rfl⟩
    · exact .inl (mem_unbound.mpr ⟨i, hi, hbound, rfl⟩)
  cases e with
  | indexed r =>
    rcases List.mem_cons.mp h with rfl | h
    · exact .inl List.mem_cons_self
    · exact (hunbound _ h).imp_left (List.mem_cons_of_mem _)
  | symbol => exact .inl h
  | index | sum | distinct => exact hunbound _ h
  | _ => cases h

omit [Literal K] in
theorem get_sitesInside (hbound : ∀ i ∈ bound, sites.get i = sites'.get i) (n : Int) (e : Expr K) :
    ∀ i ∈ e.boundInside bound, (e.sitesInside sites n).get i = (e.sitesInside sites' n).get i := by
  cases e with
  | sum j away body =>
    intro i hi
    rcases List.mem_cons.mp hi with rfl | hi
    · rw [sitesInside, sitesInside, Sites.get_cons, Sites.get_cons, if_pos rfl, if_pos rfl]
    · exact Sites.get_cons_congr (hbound i hi)
  | _ => exact hbound

/-- **The value of an expression depends on its free symbols**, on the sites of the indices bound
around it and on the limits of its sums. -/
theorem evaluateAt_congr (bound : List Index)
    (hfree : ∀ s ∈ e.occurrences bound, s.Agrees b sites b' sites')
    (hbound : ∀ i ∈ bound, sites.get i = sites'.get i)
    (hlimits : ∀ i ∈ e.summed, b.bound i.lower = b'.bound i.lower ∧
      b.bound i.upper = b'.bound i.upper) :
    e.evaluateAt b sites = e.evaluateAt b' sites' := by
  induction e using childInduction generalizing bound sites sites' with
  | step e ih =>
    have hstep : e.evaluateAt b sites = (e.mapChildren id).evaluateAt b' sites' := by
      refine evaluateAt_mapChildren ?_ ?_ ?_
      · -- a construct looks up bound indices too, which no sum of its own hides
        intro s hs
        rcases mem_ownOccurrences_nil hs with hs | ⟨i, hi, rfl⟩
        · exact hfree s (((inherited_occurrences s).iff bound e).mpr (.inl hs))
        · exact hbound i hi
      · rintro i away body rfl
        exact hlimits i List.mem_cons_self
      · intro c hc n
        refine ih c hc _ (fun s hs => ?_) (get_sitesInside hbound n e) fun i hi => ?_
        · exact agrees_sitesInside
            (hfree s (((inherited_occurrences s).iff bound e).mpr (.inr ⟨c, hc, hs⟩))) n e
        · exact hlimits i (mem_summed.mpr (.inr ⟨c, hc, hi⟩))
    rwa [mapChildren_id] at hstep

/-- **The body of a sum finds its index in that sum**, not further out. -/
theorem evaluateAt_cons_without (b : Bindings V) (i : Index) (n : Int) (outer : Sites)
    (body : Expr K) :
    body.evaluateAt b ((i, n) :: outer.without i) = body.evaluateAt b ((i, n) :: outer) := by
  have hget := fun j => Sites.get_cons_without i j n outer
  refine evaluateAt_congr [] (fun s _ => ?_) (fun j _ => hget j) fun _ _ => ⟨rfl, rfl⟩
  cases s with
  | scalar => exact rfl
  | indexed => exact fun _ => rfl
  | index j => exact hget j

/-- **Free symbols are all that counts** for the value of an expression, or for the error, along
with the symbols that bound its sums. -/
theorem evaluateAt_eq_of_freeSymbols (e : Expr K) (b b' : Bindings V) (sites sites' : Sites)
    (hfree : ∀ s ∈ e.freeSymbols, s.Agrees b sites b' sites')
    (hlimits : ∀ i ∈ e.summed, ∀ x, i.lower = .symbol x ∨ i.upper = .symbol x →
      b.scalar x = b'.scalar x) :
    e.evaluateAt b sites = e.evaluateAt b' sites' ∧
      ∀ i away body outer, Within (.sum i away body) e →
        (Expr.sum i away body).evaluateAt b outer = (do
          let lo ← b.bound i.lower
          let hi ← b.bound i.upper
          let excluded ← away.mapM outer.get
          sumSites Arithmetic.add excluded (fun n => body.evaluateAt b ((i, n) :: outer.without i))
            (hi - lo + 1).toNat lo Arithmetic.zero) := by
  constructor
  · refine evaluateAt_congr [] (fun s hs => hfree s (mem_firsts.mpr hs)) (fun i hi => ?_)
      fun i hi => ⟨?_, ?_⟩
    · cases hi
    · exact Bindings.bound_congr fun x hx => hlimits i hi x (.inl hx)
    · exact Bindings.bound_congr fun x hx => hlimits i hi x (.inr hx)
  · intro i away body outer _
    simp only [evaluateAt_cons_without]
    rw [evaluateAt]

/-- A site of a family times a symbol, over all sites but the one where the same index stands
further out. -/
def otherSites : Expr ℚ :=
  .sum ⟨"j", .literal 1, .symbol "N"⟩ [⟨"j", .literal 1, .symbol "N"⟩]
    (.mul [.indexed ⟨"n", [⟨"j", .literal 1, .symbol "N"⟩]⟩, .symbol "x"])

/-- Two sites and the symbols that count. -/
def otherBindings : Bindings ℚ :=
  (((Bindings.empty.bind "N" 2).bind "x" 3).bindSite "n" [1] 5).bindSite "n" [2] 7

theorem evaluateAt_eq_of_freeSymbols_otherSites :
    otherSites.evaluateAt otherBindings
        [(⟨"j", .literal 1, .symbol "N"⟩, 1), (⟨"j", .literal 1, .symbol "N"⟩, 2)] = .ok 21 ∧
      otherSites.evaluateAt ((otherBindings.bind "y" 4).bindSite "m" [1] 6)
        [(⟨"i", .literal 1, .literal 3⟩, 3), (⟨"j", .literal 1, .symbol "N"⟩, 1)] = .ok 21 := by
  have hvalue : otherSites.evaluateAt otherBindings
      [(⟨"j", .literal 1, .symbol "N"⟩, 1), (⟨"j", .literal 1, .symbol "N"⟩, 2)] = .ok 21 := by
    decide +kernel
  have hfree : otherSites.freeSymbols = [.index ⟨"j", .literal 1, .symbol "N"⟩,
      .indexed ⟨"n", [⟨"j", .literal 1, .symbol "N"⟩]⟩, .scalar "x"] := by
    decide
  have hsummed : otherSites.summed = [⟨"j", .literal 1, .symbol "N"⟩] := rfl
  refine ⟨hvalue,
    (evaluateAt_eq_of_freeSymbols otherSites otherBindings _ _ _ ?_ ?_).1.symm.trans hvalue⟩
  · simp [hfree, FreeSymbol.Agrees, Bindings.bind, Bindings.bindSite, Sites.get]
  · simp [hsummed, Bindings.bind, Bindings.bindSite]

end Expr

end Fluxion
