import Fluxion.Proofs.Generation.CheckedProcedures

/-!
# Proofs/Lowering/IndexScopes — lowering finds every index it looks for

Lowering looks an index up among those of the loop and the sums around it.  If the free indices of
an expression are in scope, every look-up succeeds, also under further sums, beside their exclusions
and inside conditions (`Expr.yields_lower`).  There are two reasons left for it to fail, and the
node it gives takes no variable from outside its scope.
-/

namespace Fluxion

variable {K : Type}

/-- Whether the indices among some symbols are in scope. -/
def IndexScope.Covers (scope : IndexScope) (symbols : List FreeSymbol) : Prop :=
  ∀ i, .index i ∈ symbols → i ∈ scope.map (·.1)

namespace IndexScope.Covers

variable {scope : IndexScope} {bound is : List Index} {s t : List FreeSymbol}

theorem left (h : scope.Covers (s ++ t)) : scope.Covers s :=
  fun i hi => h i (List.mem_append_left _ hi)

theorem right (h : scope.Covers (s ++ t)) : scope.Covers t :=
  fun i hi => h i (List.mem_append_right _ hi)

/-- An index is bound around, or free and so in scope. -/
theorem unbound (hbound : bound ⊆ scope.map (·.1)) (h : scope.Covers (Expr.unbound bound is)) :
    is ⊆ scope.map (·.1) := by
  intro i hi
  by_cases hmem : i ∈ bound
  · exact hbound hmem
  · exact h i (Expr.mem_unbound.mpr ⟨i, hi, hmem, rfl⟩)

end IndexScope.Covers

/-! ## Free variables of index arithmetic -/

section Subscripts

variable [Literal K] {vars : List String} {a b : Node K}

namespace Node

theorem freeVars_plus (ha : a.freeVars ⊆ vars) (hb : b.freeVars ⊆ vars) :
    (a.plus b).freeVars ⊆ vars := by
  unfold plus
  split
  · exact List.nil_subset _
  · split
    · exact hb
    · split
      · exact ha
      · exact List.append_subset.mpr ⟨ha, hb⟩

theorem freeVars_minus (ha : a.freeVars ⊆ vars) (hb : b.freeVars ⊆ vars) :
    (a.minus b).freeVars ⊆ vars := by
  unfold minus
  split
  · exact List.nil_subset _
  · split
    · exact ha
    · exact List.append_subset.mpr ⟨ha, hb⟩

theorem freeVars_times (ha : a.freeVars ⊆ vars) (hb : b.freeVars ⊆ vars) :
    (a.times b).freeVars ⊆ vars := by
  unfold times
  split
  · exact List.nil_subset _
  · split
    · exact hb
    · split
      · exact ha
      · exact List.append_subset.mpr ⟨ha, hb⟩

end Node

theorem ParamLayout.freeVars_boundNode (l : ParamLayout) (b : Bound) :
    (l.boundNode b : Node K).freeVars ⊆ [] := by
  unfold boundNode
  split
  · exact List.nil_subset _
  · split <;> exact List.nil_subset _

/-- A rule that takes no variable from outside. -/
structure AccessRule.Closed (r : AccessRule K) : Prop where
  start : r.start.freeVars ⊆ []
  dims : ∀ d ∈ r.dims, d.1.freeVars ⊆ [] ∧ d.2.freeVars ⊆ []

theorem AccessRule.Closed.freeVars_location {r : AccessRule K} (h : r.Closed)
    {sites : List (Node K)} (hsites : ∀ n ∈ sites, n.freeVars ⊆ vars) :
    (r.location sites).freeVars ⊆ vars := by
  have hdims : ∀ q ∈ r.dims.zip sites,
      (q.1.1.freeVars ⊆ [] ∧ q.1.2.freeVars ⊆ []) ∧ q.2.freeVars ⊆ vars := fun q hq =>
    ⟨h.dims _ (List.of_mem_zip hq).1, hsites _ (List.of_mem_zip hq).2⟩
  have hplace : r.start.freeVars ⊆ vars := List.Subset.trans h.start (List.nil_subset _)
  rw [location, Node.freeVars]
  -- the place built up so far, dimension by dimension
  generalize r.dims.zip sites = dims at hdims
  generalize r.start = place at hplace
  induction dims generalizing place with
  | nil => exact hplace
  | cons q dims ih =>
    obtain ⟨⟨⟨hlower, hstride⟩, hsite⟩, hdims⟩ := List.forall_mem_cons.mp hdims
    refine ih hdims _
      (Node.freeVars_plus hplace (Node.freeVars_times (Node.freeVars_minus hsite ?_) ?_))
    · exact List.Subset.trans hlower (List.nil_subset _)
    · exact List.Subset.trans hstride (List.nil_subset _)

end Subscripts

/-! ## What lowering promises -/

/-- **Why lowering can fail**, if every index it looks for is in scope. -/
inductive Lowering.Fails (zeroFill : Bool) : Error K → Prop
  | missingSymbols {symbols : List FreeSymbol} (hfill : zeroFill = false)
      (hsymbols : symbols ≠ []) :
      Fails zeroFill (.missingSymbols symbols)
  | incompatibleIndex (s : Indexed) : Fails zeroFill (.incompatibleIndex s)

open Lowering (Fails)

namespace LoweringContext

variable {c : LoweringContext K} {scope : IndexScope} {plain : Bool} {i : Index} {is : List Index}
  {a b n : Node K}

/-- What symbols and families stand for takes no variable from outside. -/
structure Closed (c : LoweringContext K) : Prop where
  names : ∀ q ∈ c.names, q.2.Finished []
  rules : ∀ s rule, c.rules.resolve s = .access rule → rule.Closed

/-- **What lowering promises of a node**: its variables are in scope, and if no index occurs in the
expression nothing is left in it for the passes to do. -/
structure Fits (c : LoweringContext K) (scope : IndexScope) (plain : Bool) (n : Node K) : Prop where
  vars : c.Closed → n.freeVars ⊆ scope.map (·.2)
  settled : c.Closed → plain = true → Node.Everywhere Node.Settled n

namespace Fits

theorem of_finished (h : c.Closed → n.Finished []) : c.Fits scope plain n where
  vars hc := List.Subset.trans (h hc).freeVars (List.nil_subset _)
  settled hc _ := (h hc).settled

/-- Where an index occurs, only variables count. -/
theorem of_vars (hplain : plain ≠ true) (h : c.Closed → n.freeVars ⊆ scope.map (·.2)) :
    c.Fits scope plain n := ⟨h, fun _ hp => absurd hp hplain⟩

theorem const (v : K) : c.Fits scope plain (.const v) :=
  of_finished fun _ => .const v

theorem named (x : String) : c.Fits scope plain (.named x) :=
  of_finished fun _ => ⟨⟨trivial, by simp [Node.children]⟩, List.nil_subset _⟩

theorem neg (h : c.Fits scope plain n) : c.Fits scope plain (.neg n) where
  vars := h.vars
  settled hc hp := ⟨trivial, by simp [Node.children, h.settled hc hp]⟩

theorem binary (op : BinaryOp) (ha : c.Fits scope plain a) (hb : c.Fits scope plain b) :
    c.Fits scope plain (.binary op a b) where
  vars hc := List.append_subset.mpr ⟨ha.vars hc, hb.vars hc⟩
  settled hc hp := ⟨trivial, by simp [Node.children, ha.settled hc hp, hb.settled hc hp]⟩

theorem call (func : String) {args : List (Node K)} (h : ∀ n ∈ args, c.Fits scope plain n) :
    c.Fits scope plain (.call func args) where
  vars hc x hx := by
    obtain ⟨n, hn, hx⟩ := Node.mem_freeVarsAll.mp hx
    exact (h n hn).vars hc hx
  settled hc hp := ⟨trivial, fun n hn => (h n hn).settled hc hp⟩

end Fits

/-! ## Indices -/

theorem yields_indexNode {F : Error K → Prop} (hi : i ∈ scope.map (·.1)) :
    Yields F (fun n => n.freeVars ⊆ scope.map (·.2)) (c.indexNode scope i) := by
  obtain ⟨x, hx⟩ := exists_lookup_of_mem hi
  refine .of_ok (a := .var x) ?_ (by rw [indexNode, hx])
  simpa [Node.freeVars] using ⟨i, mem_of_lookup hx⟩

theorem yields_indexNodes {F : Error K → Prop} (his : is ⊆ scope.map (·.1)) :
    Yields F (fun ns => ∀ n ∈ ns, n.freeVars ⊆ scope.map (·.2)) (c.indexNodes scope is) :=
  .mapM fun _ hi => yields_indexNode (his hi)

variable [Literal K]

theorem yields_indexedNode {s : Indexed} (hplain : plain ≠ true)
    (hs : s.indices ⊆ scope.map (·.1)) :
    Yields (Fails c.zeroFill) (c.Fits scope plain) (c.indexedNode scope s) := by
  unfold indexedNode
  split
  · next rule hrule =>
    refine (yields_indexNodes hs).bind fun sites hsites => ?_
    exact .of_vars hplain fun hc => (hc.rules s rule hrule).freeVars_location hsites
  · exact .incompatibleIndex s
  · split
    · split
      · exact Fits.of_vars hplain fun _ => List.nil_subset _
      · next i is hi =>
        have hmem : i ∈ scope.map (·.1) := hs (hi ▸ List.mem_cons_self)
        exact (yields_indexNode hmem).bind fun n hn => Fits.of_vars hplain fun _ => hn
    · next hfill => exact .missingSymbols (Bool.eq_false_iff.mpr hfill) (List.cons_ne_nil _ _)

end LoweringContext

/-! ## Lowering -/

namespace Expr

open LoweringContext

variable {c : LoweringContext K} {scope : IndexScope} {plain : Bool}

section Joins

variable {acc : Option (Node K)} {n : Node K}

theorem fits_joinTerm (hacc : ∀ a ∈ acc, c.Fits scope plain a) (hn : c.Fits scope plain n) :
    c.Fits scope plain (joinTerm acc n) := by
  cases acc with
  | none => exact hn
  | some a => exact .binary .add (hacc a rfl) hn

theorem fits_joinNegated (hacc : ∀ a ∈ acc, c.Fits scope plain a) (hn : c.Fits scope plain n) :
    c.Fits scope plain (joinNegated acc n) := by
  cases acc with
  | none => exact hn.neg
  | some a => exact .binary .sub (hacc a rfl) hn

theorem fits_joinFactor (hacc : ∀ a ∈ acc, c.Fits scope plain a) (hn : c.Fits scope plain n) :
    c.Fits scope plain (joinFactor acc n) := by
  cases acc with
  | none => exact hn
  | some a => exact .binary .mul (hacc a rfl) hn

theorem fits_getD {v : K} (hacc : ∀ a ∈ acc, c.Fits scope plain a) :
    c.Fits scope plain (acc.getD (.const v)) := by
  cases acc with
  | none => exact .const v
  | some a => exact hacc a rfl

theorem fits_joinDivisor [Literal K] (hacc : ∀ a ∈ acc, c.Fits scope plain a)
    (hn : c.Fits scope plain n) : c.Fits scope plain (joinDivisor acc n) :=
  .binary .div (fits_getD hacc) hn

end Joins

variable [Literal K]

theorem yields_sum {i : Index} {away : List Index} {body : Expr K} (hplain : plain ≠ true)
    (haway : away ⊆ scope.map (·.1)) (hbody : ∀ x, Lowering.Yields (Fails c.zeroFill)
      (c.Fits ((i, x) :: scope) plain) (body.lower c ((i, x) :: scope))) :
    Lowering.Yields (Fails c.zeroFill) (c.Fits scope plain) ((sum i away body).lower c scope) := by
  refine (Lowering.Yields.lift (yields_indexNodes haway)).bind fun excluded hexcluded => ?_
  refine Lowering.Yields.bind (P := fun _ => True) (fun _ => trivial) fun x _ => ?_
  refine (hbody x).bind fun n hn => .pure (.of_vars hplain fun hc => ?_)
  intro y hy
  simp only [Node.freeVars, List.subset_nil.mp (ParamLayout.freeVars_boundNode _ _),
    List.nil_append, List.mem_append, Node.mem_freeVarsAll, List.mem_filter,
    decide_eq_true_eq] at hy
  rcases hy with ⟨m, hm, hy⟩ | ⟨hy, hne⟩
  · exact hexcluded m hm hy
  · exact (List.mem_cons.mp (hn.vars hc hy)).resolve_left hne

theorem yields_distinct {i j : Index} {body : Expr K} (hplain : plain ≠ true)
    (hij : [i, j] ⊆ scope.map (·.1))
    (hbody : Lowering.Yields (Fails c.zeroFill) (c.Fits scope plain) (body.lower c scope)) :
    Lowering.Yields (Fails c.zeroFill) (c.Fits scope plain)
      ((distinct i j body).lower c scope) := by
  obtain ⟨hi, hj⟩ := List.cons_subset.mp hij
  refine (Lowering.Yields.lift (yields_indexNode hi)).bind fun l hl => ?_
  refine (Lowering.Yields.lift (yields_indexNode (hj List.mem_cons_self))).bind fun r hr => ?_
  refine hbody.bind fun n hn => .pure (.of_vars hplain fun hc => ?_)
  exact List.append_subset.mpr ⟨List.append_subset.mpr ⟨hl, hr⟩, hn.vars hc⟩

mutual

/-- **Lowering under a scope that covers the free indices** gives a node with variables of that
scope, or fails for another reason than an index. -/
theorem yields_lower (c : LoweringContext K) (bound : List Index) (scope : IndexScope)
    (hbound : bound ⊆ scope.map (·.1)) : ∀ e : Expr K, scope.Covers (e.occurrences bound) →
      (plain = true → e.hasIndexStructure = false) →
      Lowering.Yields (Fails c.zeroFill) (c.Fits scope plain) (e.lower c scope)
  | .number v, _, _ => .pure (.const v)
  | .imaginaryUnit, _, _ => .pure (.named _)
  | .symbol x, _, _ => by
    refine .pure ?_
    cases hx : c.names.lookup x with
    | none => exact .named x
    | some n => exact .of_finished fun hc => hc.names _ (mem_of_lookup hx)
  | .indexed s, he, hp => by
    have hplain : plain ≠ true := fun h => Bool.noConfusion (hp h)
    have hs : scope.Covers (unbound bound s.indices) := IndexScope.Covers.right (s := [_]) he
    exact .lift (yields_indexedNode hplain (hs.unbound hbound))
  | .index i, he, hp => by
    have hplain : plain ≠ true := fun h => Bool.noConfusion (hp h)
    have hi : i ∈ scope.map (·.1) := IndexScope.Covers.unbound hbound he List.mem_cons_self
    refine .lift ((yields_indexNode hi).mono (fun _ => id) fun n hn => ?_)
    exact .of_vars hplain fun _ => hn
  | .add terms, he, hp => yields_lowerTerms c bound scope hbound terms none he hp nofun
  | .mul factors, he, hp => yields_lowerFactors c bound scope hbound factors none he hp nofun
  | .pow base exponent, he, hp => by
    refine (yields_lower c bound scope hbound base he.left fun h => ?_).bind fun b hb =>
      (yields_lower c bound scope hbound exponent he.right fun h => ?_).bind fun e he =>
        .pure (.binary .pow hb he)
    · exact (Bool.or_eq_false_iff.mp (hp h)).1
    · exact (Bool.or_eq_false_iff.mp (hp h)).2
  | .neg inner, he, hp => (yields_lower c bound scope hbound inner he hp).bind fun _ hn =>
    .pure hn.neg
  | .call func args, he, hp =>
    (yields_lowerAll c bound scope hbound args he hp).bind fun _ hns => .pure (.call func.name hns)
  | .sum i away body, he, hp => by
    have hplain : plain ≠ true := fun h => Bool.noConfusion (hp h)
    refine yields_sum hplain (he.left.unbound hbound) fun x => ?_
    refine yields_lower c (i :: bound) ((i, x) :: scope) ?_ body ?_ fun h => absurd h hplain
    · exact List.cons_subset_cons i hbound
    · exact fun j hj => List.mem_cons_of_mem _ (he.right j hj)
  | .distinct i j body, he, hp => by
    have hplain : plain ≠ true := fun h => Bool.noConfusion (hp h)
    exact yields_distinct hplain (he.left.unbound hbound)
      (yields_lower c bound scope hbound body he.right fun h => absurd h hplain)

theorem yields_lowerTerms (c : LoweringContext K) (bound : List Index) (scope : IndexScope)
    (hbound : bound ⊆ scope.map (·.1)) : ∀ (es : List (Expr K)) (acc : Option (Node K)),
      scope.Covers (occurrencesAll bound es) → (plain = true → hasIndexStructureAny es = false) →
      (∀ a ∈ acc, c.Fits scope plain a) →
      Lowering.Yields (Fails c.zeroFill) (c.Fits scope plain) (lowerTerms c scope acc es)
  | [], _, _, _, hacc => .pure (fits_getD hacc)
  | e :: rest, acc, he, hp, hacc => by
    have hterm := yields_lower c bound scope hbound e he.left fun h =>
      (Bool.or_eq_false_iff.mp (hp h)).1
    have hrest (n : Node K) (hn : c.Fits scope plain n) :=
      yields_lowerTerms c bound scope hbound rest (some n) he.right
        (fun h => (Bool.or_eq_false_iff.mp (hp h)).2) fun a ha => Option.some.inj ha ▸ hn
    cases e with
    | neg inner =>
      rw [lowerTerms]
      have hinner := yields_lower c bound scope hbound inner he.left fun h =>
        (Bool.or_eq_false_iff.mp (hp h)).1
      exact hinner.bind fun n hn => hrest _ (fits_joinNegated hacc hn)
    | _ =>
      rw [lowerTerms]
      · exact hterm.bind fun n hn => hrest _ (fits_joinTerm hacc hn)
      · nofun

theorem yields_lowerFactors (c : LoweringContext K) (bound : List Index) (scope : IndexScope)
    (hbound : bound ⊆ scope.map (·.1)) : ∀ (es : List (Expr K)) (acc : Option (Node K)),
      scope.Covers (occurrencesAll bound es) → (plain = true → hasIndexStructureAny es = false) →
      (∀ a ∈ acc, c.Fits scope plain a) →
      Lowering.Yields (Fails c.zeroFill) (c.Fits scope plain) (lowerFactors c scope acc es)
  | [], _, _, _, hacc => .pure (fits_getD hacc)
  | e :: rest, acc, he, hp, hacc => by
    have hfactor := yields_lower c bound scope hbound e he.left fun h =>
      (Bool.or_eq_false_iff.mp (hp h)).1
    have hrest (n : Node K) (hn : c.Fits scope plain n) :=
      yields_lowerFactors c bound scope hbound rest (some n) he.right
        (fun h => (Bool.or_eq_false_iff.mp (hp h)).2) fun a ha => Option.some.inj ha ▸ hn
    cases e with
    | pow base exponent =>
      have hplain (h : plain = true) := Bool.or_eq_false_iff.mp (Bool.or_eq_false_iff.mp (hp h)).1
      have hbase := yields_lower c bound scope hbound base he.left.left fun h => (hplain h).1
      have hexponent := yields_lower c bound scope hbound exponent he.left.right fun h =>
          (hplain h).2
      rw [lowerFactors]
      refine hbase.bind fun b hb => ?_
      split
      · exact hrest _ (fits_joinDivisor hacc hb)
      · exact hexponent.bind fun e he => hrest _ (fits_joinFactor hacc (.binary .pow hb he))
    | _ =>
      rw [lowerFactors]
      · exact hfactor.bind fun n hn => hrest _ (fits_joinFactor hacc hn)
      · nofun

theorem yields_lowerAll (c : LoweringContext K) (bound : List Index) (scope : IndexScope)
    (hbound : bound ⊆ scope.map (·.1)) : ∀ es : List (Expr K),
      scope.Covers (occurrencesAll bound es) → (plain = true → hasIndexStructureAny es = false) →
      Lowering.Yields (Fails c.zeroFill) (fun ns => ∀ n ∈ ns, c.Fits scope plain n)
        (lowerAll c scope es)
  | [], _, _ => .pure (List.forall_mem_nil _)
  | e :: rest, he, hp => by
    refine (yields_lower c bound scope hbound e he.left fun h => ?_).bind fun n hn =>
      (yields_lowerAll c bound scope hbound rest he.right fun h => ?_).bind fun ns hns =>
        .pure (List.forall_mem_cons.mpr ⟨hn, hns⟩)
    · exact (Bool.or_eq_false_iff.mp (hp h)).1
    · exact (Bool.or_eq_false_iff.mp (hp h)).2

end

end Expr

end Fluxion
