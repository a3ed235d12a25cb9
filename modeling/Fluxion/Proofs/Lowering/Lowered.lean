import Fluxion.Proofs.Expressions.Subexpressions
import Fluxion.Proofs.Lowering.Fallible
import Fluxion.Proofs.Lowering.FreshNames

/-!
# Proofs/Lowering/Lowered — what lowering produces

`Expr.Lowered c scope e n` relates an expression to the node it is lowered to, rule by rule and
without the count of names that lowering carries along: all that is left of it is that the variable
of a sum is neither reserved nor one of those in scope.  `lowered_of_lower` says that lowering obeys
the rules, so that what holds of lowered nodes is proved by induction on them
(`RuleClosed.of_lowered`).
-/

namespace Fluxion

variable {K : Type} [Literal K]

/-- The variables that some indices stand for. -/
abbrev IndexScope.Names (scope : IndexScope) : List Index → List String → Prop :=
  List.Forall₂ fun i x => scope.lookup i = some x

namespace Expr

mutual

/-- **The rules of lowering.** -/
inductive Lowered (c : LoweringContext K) : IndexScope → Expr K → Node K → Prop
  | number {scope : IndexScope} (v : K) : Lowered c scope (.number v) (.const v)
  | imaginaryUnit {scope : IndexScope} : Lowered c scope .imaginaryUnit (.named Node.imaginaryName)
  | symbol {scope : IndexScope} (x : String) :
      Lowered c scope (.symbol x) ((c.names.lookup x).getD (.named x))
  | indexed {scope : IndexScope} {s : Indexed} {rule : AccessRule K} {xs : List String}
      (hrule : c.rules.resolve s = .access rule) (hxs : scope.Names s.indices xs) :
      Lowered c scope (.indexed s) (rule.location (xs.map .var))
  /-- A family that nothing declares is read as zero. -/
  | unknown {scope : IndexScope} {s : Indexed} (n : Node K) (hs : c.rules.resolve s = .unknown)
      (hfill : c.zeroFill = true) : Lowered c scope (.indexed s) (.access .zero n)
  | index {scope : IndexScope} {i : Index} {x : String} (hx : scope.lookup i = some x) :
      Lowered c scope (.index i) (.var x)
  | add {scope : IndexScope} {terms : List (Expr K)} {n : Node K}
      (h : LoweredTerms c scope none terms n) : Lowered c scope (.add terms) n
  | mul {scope : IndexScope} {factors : List (Expr K)} {n : Node K}
      (h : LoweredFactors c scope none factors n) : Lowered c scope (.mul factors) n
  | pow {scope : IndexScope} {base exponent : Expr K} {b e : Node K} (hb : Lowered c scope base b)
      (he : Lowered c scope exponent e) : Lowered c scope (.pow base exponent) (.binary .pow b e)
  | neg {scope : IndexScope} {inner : Expr K} {n : Node K} (h : Lowered c scope inner n) :
      Lowered c scope (.neg inner) (.neg n)
  | call {scope : IndexScope} {func : Func} {args : List (Expr K)} {ns : List (Node K)}
      (h : LoweredAll c scope args ns) : Lowered c scope (.call func args) (.call func.name ns)
  /-- A sum gets a variable of its own. -/
  | sum {scope : IndexScope} {i : Index} {away : List Index} {body : Expr K} {x : String}
      {xs : List String} {n : Node K} (hx : x ∉ c.taken scope) (hxs : scope.Names away xs)
      (h : Lowered c ((i, x) :: scope) body n) :
      Lowered c scope (.sum i away body)
        (.boundedSum x (c.params.boundNode i.lower) (c.params.boundNode i.upper) (xs.map .var) n)
  | distinct {scope : IndexScope} {i j : Index} {body : Expr K} {x y : String} {n : Node K}
      (hx : scope.lookup i = some x) (hy : scope.lookup j = some y) (h : Lowered c scope body n) :
      Lowered c scope (.distinct i j body) (.guarded (.var x) (.var y) n)

/-- The rules for terms behind others. -/
inductive LoweredTerms (c : LoweringContext K) :
    IndexScope → Option (Node K) → List (Expr K) → Node K → Prop
  | nil {scope : IndexScope} (acc : Option (Node K)) :
      LoweredTerms c scope acc [] (acc.getD (.const Literal.zero))
  | plus {scope : IndexScope} {acc : Option (Node K)} {e : Expr K} {rest : List (Expr K)}
      {n r : Node K} (he : Lowered c scope e n)
      (hr : LoweredTerms c scope (some (joinTerm acc n)) rest r) :
      LoweredTerms c scope acc (e :: rest) r
  | minus {scope : IndexScope} {acc : Option (Node K)} {e : Expr K} {rest : List (Expr K)}
      {n r : Node K} (he : Lowered c scope e n)
      (hr : LoweredTerms c scope (some (joinNegated acc n)) rest r) :
      LoweredTerms c scope acc (.neg e :: rest) r

/-- The rules for factors behind others. -/
inductive LoweredFactors (c : LoweringContext K) :
    IndexScope → Option (Node K) → List (Expr K) → Node K → Prop
  | nil {scope : IndexScope} (acc : Option (Node K)) :
      LoweredFactors c scope acc [] (acc.getD (.const Literal.one))
  | times {scope : IndexScope} {acc : Option (Node K)} {e : Expr K} {rest : List (Expr K)}
      {n r : Node K} (he : Lowered c scope e n)
      (hr : LoweredFactors c scope (some (joinFactor acc n)) rest r) :
      LoweredFactors c scope acc (e :: rest) r
  | divided {scope : IndexScope} {acc : Option (Node K)} {e : Expr K} {v : K} {rest : List (Expr K)}
      {n r : Node K} (he : Lowered c scope e n) (hv : Literal.eq v (Literal.ofInt (-1)) = true)
      (hr : LoweredFactors c scope (some (joinDivisor acc n)) rest r) :
      LoweredFactors c scope acc (.pow e (.number v) :: rest) r

/-- The rules for a list of expressions. -/
inductive LoweredAll (c : LoweringContext K) : IndexScope → List (Expr K) → List (Node K) → Prop
  | nil {scope : IndexScope} : LoweredAll c scope [] []
  | cons {scope : IndexScope} {e : Expr K} {rest : List (Expr K)} {n : Node K} {ns : List (Node K)}
      (he : Lowered c scope e n) (hr : LoweredAll c scope rest ns) :
      LoweredAll c scope (e :: rest) (n :: ns)

end

/-! ## Joining terms and factors -/

/-- **A property that sums and products inherit** from their terms and factors. -/
structure JoinClosed {K : Type} (P : Node K → Prop) : Prop where
  const (v : K) : P (.const v)
  neg {n : Node K} : P n → P (.neg n)
  binary (op : BinaryOp) {a b : Node K} : P a → P b → P (.binary op a b)

namespace JoinClosed

variable {P : Node K → Prop} {acc : Option (Node K)} {n : Node K}

omit [Literal K] in
theorem getD (h : JoinClosed P) (hacc : ∀ a ∈ acc, P a) {v : K} : P (acc.getD (.const v)) := by
  cases acc with
  | none => exact h.const v
  | some a => exact hacc a rfl

omit [Literal K] in
theorem joinTerm (h : JoinClosed P) (hacc : ∀ a ∈ acc, P a) (hn : P n) : P (joinTerm acc n) := by
  cases acc with
  | none => exact hn
  | some a => exact h.binary .add (hacc a rfl) hn

omit [Literal K] in
theorem joinNegated (h : JoinClosed P) (hacc : ∀ a ∈ acc, P a) (hn : P n) :
    P (joinNegated acc n) := by
  cases acc with
  | none => exact h.neg hn
  | some a => exact h.binary .sub (hacc a rfl) hn

omit [Literal K] in
theorem joinFactor (h : JoinClosed P) (hacc : ∀ a ∈ acc, P a) (hn : P n) :
    P (joinFactor acc n) := by
  cases acc with
  | none => exact hn
  | some a => exact h.binary .mul (hacc a rfl) hn

theorem joinDivisor (h : JoinClosed P) (hacc : ∀ a ∈ acc, P a) (hn : P n) :
    P (joinDivisor acc n) := h.binary .div (h.getD hacc) hn

end JoinClosed

/-! ## Induction on lowered nodes -/

/-- **A property that every rule of lowering keeps.**  For sums, products, powers and negations, and
for literals, it is enough that it is closed under joining and handed on by the parts of an
expression. -/
structure RuleClosed (c : LoweringContext K) (P : IndexScope → Expr K → Node K → Prop) : Prop where
  join (scope : IndexScope) (e : Expr K) : JoinClosed (P scope e)
  part {scope : IndexScope} {e t : Expr K} {n : Node K} (ht : t ∈ e.parts) (h : P scope t n) :
    P scope e n
  imaginaryUnit (scope : IndexScope) : P scope .imaginaryUnit (.named Node.imaginaryName)
  symbol (scope : IndexScope) (x : String) :
    P scope (.symbol x) ((c.names.lookup x).getD (.named x))
  indexed {scope : IndexScope} {s : Indexed} {rule : AccessRule K} {xs : List String}
    (hrule : c.rules.resolve s = .access rule) (hxs : scope.Names s.indices xs) :
    P scope (.indexed s) (rule.location (xs.map .var))
  unknown {scope : IndexScope} (s : Indexed) (n : Node K) : P scope (.indexed s) (.access .zero n)
  index {scope : IndexScope} {i : Index} {x : String} (hx : scope.lookup i = some x) :
    P scope (.index i) (.var x)
  call {scope : IndexScope} {func : Func} {args : List (Expr K)} {ns : List (Node K)}
    (h : ∀ n ∈ ns, P scope (.call func args) n) : P scope (.call func args) (.call func.name ns)
  sum {scope : IndexScope} {i : Index} {away : List Index} {body : Expr K} {x : String}
    {xs : List String} {n : Node K} (hx : x ∉ c.taken scope) (hxs : scope.Names away xs)
    (h : P ((i, x) :: scope) body n) :
    P scope (.sum i away body)
      (.boundedSum x (c.params.boundNode i.lower) (c.params.boundNode i.upper) (xs.map .var) n)
  distinct {scope : IndexScope} {i j : Index} {body : Expr K} {x y : String} {n : Node K}
    (hx : scope.lookup i = some x) (hy : scope.lookup j = some y) (h : P scope body n) :
    P scope (.distinct i j body) (.guarded (.var x) (.var y) n)

namespace RuleClosed

variable {c : LoweringContext K} {P : IndexScope → Expr K → Node K → Prop}

mutual

/-- **What every rule keeps holds of all that is lowered.** -/
theorem of_lowered (hP : RuleClosed c P) : ∀ {scope : IndexScope} {e : Expr K} {n : Node K},
    e.Lowered c scope n → P scope e n
  | _, _, _, .number v => (hP.join _ _).const v
  | scope, _, _, .imaginaryUnit => hP.imaginaryUnit scope
  | scope, _, _, .symbol x => hP.symbol scope x
  | _, _, _, .indexed hrule hxs => hP.indexed hrule hxs
  | _, _, _, .unknown n _ _ => hP.unknown _ n
  | _, _, _, .index hx => hP.index hx
  | _, _, _, .add h => of_loweredTerms hP h (fun _ ht => ht) fun _ h => by cases h
  | _, _, _, .mul h => of_loweredFactors hP h (fun _ ht => ht) fun _ h => by cases h
  | _, .pow base exponent, _, .pow hb he =>
    (hP.join _ _).binary .pow (hP.part List.mem_cons_self (of_lowered hP hb))
      (hP.part (List.mem_cons_of_mem _ List.mem_cons_self) (of_lowered hP he))
  | _, _, _, .neg h => (hP.join _ _).neg (hP.part List.mem_cons_self (of_lowered hP h))
  | _, _, _, .call h => hP.call (of_loweredAll hP h fun _ ht => ht)
  | _, _, _, .sum hx hxs h => hP.sum hx hxs (of_lowered hP h)
  | _, _, _, .distinct hx hy h => hP.distinct hx hy (of_lowered hP h)

theorem of_loweredTerms (hP : RuleClosed c P) : ∀ {scope : IndexScope} {acc : Option (Node K)}
    {es : List (Expr K)} {n : Node K} {e : Expr K}, LoweredTerms c scope acc es n →
      (∀ t ∈ es, t ∈ e.parts) → (∀ a ∈ acc, P scope e a) → P scope e n
  | _, _, _, _, _, .nil _, _, hacc => (hP.join _ _).getD hacc
  | _, _, _, _, _, .plus ht hr, hes, hacc => by
    obtain ⟨hpart, hes⟩ := List.forall_mem_cons.mp hes
    refine of_loweredTerms hP hr hes ?_
    rintro _ ⟨⟩
    exact (hP.join _ _).joinTerm hacc (hP.part hpart (of_lowered hP ht))
  | _, _, _, _, _, .minus ht hr, hes, hacc => by
    obtain ⟨hpart, hes⟩ := List.forall_mem_cons.mp hes
    refine of_loweredTerms hP hr hes ?_
    rintro _ ⟨⟩
    exact (hP.join _ _).joinNegated hacc
      (hP.part hpart (hP.part List.mem_cons_self (of_lowered hP ht)))

theorem of_loweredFactors (hP : RuleClosed c P) : ∀ {scope : IndexScope} {acc : Option (Node K)}
    {es : List (Expr K)} {n : Node K} {e : Expr K}, LoweredFactors c scope acc es n →
      (∀ t ∈ es, t ∈ e.parts) → (∀ a ∈ acc, P scope e a) → P scope e n
  | _, _, _, _, _, .nil _, _, hacc => (hP.join _ _).getD hacc
  | _, _, _, _, _, .times ht hr, hes, hacc => by
    obtain ⟨hpart, hes⟩ := List.forall_mem_cons.mp hes
    refine of_loweredFactors hP hr hes ?_
    rintro _ ⟨⟩
    exact (hP.join _ _).joinFactor hacc (hP.part hpart (of_lowered hP ht))
  | _, _, _, _, _, .divided ht _ hr, hes, hacc => by
    obtain ⟨hpart, hes⟩ := List.forall_mem_cons.mp hes
    refine of_loweredFactors hP hr hes ?_
    rintro _ ⟨⟩
    exact (hP.join _ _).joinDivisor hacc
      (hP.part hpart (hP.part List.mem_cons_self (of_lowered hP ht)))

theorem of_loweredAll (hP : RuleClosed c P) : ∀ {scope : IndexScope} {es : List (Expr K)}
    {ns : List (Node K)} {e : Expr K}, LoweredAll c scope es ns → (∀ t ∈ es, t ∈ e.parts) →
      ∀ n ∈ ns, P scope e n
  | _, _, _, _, .nil, _ => List.forall_mem_nil _
  | _, _, _, _, .cons ht hr, hes => by
    obtain ⟨hpart, hes⟩ := List.forall_mem_cons.mp hes
    exact List.forall_mem_cons.mpr ⟨hP.part hpart (of_lowered hP ht), of_loweredAll hP hr hes⟩

end

end RuleClosed

omit [Literal K] in
/-- A variable that is not taken is not in scope yet. -/
theorem not_mem_scope {c : LoweringContext K} {scope : IndexScope} {x : String}
    (hx : x ∉ c.taken scope) : x ∉ scope.map (·.2) := fun hmem => hx (List.mem_append_right _ hmem)

/-! ## Lowering obeys the rules -/

section Steps

variable {c : LoweringContext K} {scope : IndexScope} {i : Index} {is : List Index} {s : Indexed}
  {n : Node K} {ns : List (Node K)}

omit [Literal K] in
theorem indexNode_eq_ok (h : c.indexNode scope i = .ok n) :
    ∃ x, scope.lookup i = some x ∧ n = .var x := by
  rw [LoweringContext.indexNode] at h
  split at h
  · next x hx => exact ⟨x, hx, (Except.ok.inj h).symm⟩
  · cases h

omit [Literal K] in
theorem indexNodes_eq_ok (h : c.indexNodes scope is = .ok ns) :
    ∃ xs, scope.Names is xs ∧ ns = xs.map .var := by
  have hall := forall₂_of_mapM h
  clear h
  induction hall with
  | nil => exact ⟨[], .nil, rfl⟩
  | cons hi _ ih =>
    obtain ⟨x, hx, rfl⟩ := indexNode_eq_ok hi
    obtain ⟨xs, hxs, rfl⟩ := ih
    exact ⟨x :: xs, .cons hx hxs, rfl⟩

theorem lowered_indexed (h : c.indexedNode scope s = .ok n) : Lowered c scope (.indexed s) n := by
  rw [LoweringContext.indexedNode] at h
  split at h
  · next rule hrule =>
    obtain ⟨sites, hsites, h⟩ := ok_of_bind h
    obtain rfl := Except.ok.inj h
    obtain ⟨xs, hxs, rfl⟩ := indexNodes_eq_ok hsites
    exact .indexed hrule hxs
  · cases h
  · next hs =>
    split at h
    · next hfill =>
      split at h
      · obtain rfl := Except.ok.inj h
        exact .unknown _ hs hfill
      · obtain ⟨site, -, h⟩ := ok_of_bind h
        obtain rfl := Except.ok.inj h
        exact .unknown _ hs hfill
    · cases h

/-- A term is added, or its inner part is subtracted. -/
theorem lowerTerms_cons_eq_ok {acc : Option (Node K)} {e : Expr K} {rest : List (Expr K)} {k : Nat}
    {r : Node K × Nat} (h : lowerTerms c scope acc (e :: rest) k = .ok r) :
    (∃ n k', e.lower c scope k = .ok (n, k') ∧
      lowerTerms c scope (some (joinTerm acc n)) rest k' = .ok r) ∨
    ∃ inner n k', e = .neg inner ∧ inner.lower c scope k = .ok (n, k') ∧
      lowerTerms c scope (some (joinNegated acc n)) rest k' = .ok r := by
  cases e with
  | neg inner =>
    rw [lowerTerms] at h
    obtain ⟨n, k', hn, h⟩ := Lowering.ok_of_bind h
    exact .inr ⟨inner, n, k', rfl, hn, h⟩
  | _ =>
    rw [lowerTerms] at h
    · obtain ⟨n, k', hn, h⟩ := Lowering.ok_of_bind h
      exact .inl ⟨n, k', hn, h⟩
    · nofun

theorem eq_number_of_isMinusOne {e : Expr K} (h : e.isMinusOne = true) :
    ∃ v, e = .number v ∧ Literal.eq v (Literal.ofInt (-1)) = true := by
  cases e with
  | number v => exact ⟨v, rfl, h⟩
  | _ => cases h

/-- A factor is multiplied with, or the base of a reciprocal is divided by. -/
theorem lowerFactors_cons_eq_ok {acc : Option (Node K)} {e : Expr K} {rest : List (Expr K)}
    {k : Nat} {r : Node K × Nat} (h : lowerFactors c scope acc (e :: rest) k = .ok r) :
    (∃ n k', e.lower c scope k = .ok (n, k') ∧
      lowerFactors c scope (some (joinFactor acc n)) rest k' = .ok r) ∨
    ∃ base v n k', e = .pow base (.number v) ∧ Literal.eq v (Literal.ofInt (-1)) = true ∧
      base.lower c scope k = .ok (n, k') ∧
        lowerFactors c scope (some (joinDivisor acc n)) rest k' = .ok r := by
  cases e with
  | pow base exponent =>
    rw [lowerFactors] at h
    obtain ⟨b, k₁, hb, hrest⟩ := Lowering.ok_of_bind h
    split at hrest
    · next hminus =>
      obtain ⟨v, rfl, hv⟩ := eq_number_of_isMinusOne hminus
      exact .inr ⟨base, v, b, k₁, rfl, hv, hb, hrest⟩
    · obtain ⟨e, k₂, he, hrest⟩ := Lowering.ok_of_bind hrest
      refine .inl ⟨.binary .pow b e, k₂, ?_, hrest⟩
      rw [lower, Lowering.bind_of_ok hb, Lowering.bind_of_ok he]
      rfl
  | _ =>
    rw [lowerFactors] at h
    · obtain ⟨n, k', hn, h⟩ := Lowering.ok_of_bind h
      exact .inl ⟨n, k', hn, h⟩
    · nofun

theorem lower_reciprocal {base : Expr K} {k j : Nat} (h : base.lower c scope k = .ok (n, j))
    (v : K) :
    (Expr.pow base (.number v)).lower c scope k = .ok (.binary .pow n (.const v), j) := by
  rw [lower, Lowering.bind_of_ok h]
  rfl

end Steps

mutual

/-- **Lowering obeys the rules.** -/
theorem lowered_of_lower (c : LoweringContext K) : ∀ (e : Expr K) {scope : IndexScope} {k j : Nat}
    {n : Node K}, e.lower c scope k = .ok (n, j) → Lowered c scope e n
  | .number v, _, _, _, _, h => by
    obtain ⟨rfl, -⟩ := Prod.mk.inj (Except.ok.inj h)
    exact .number v
  | .imaginaryUnit, _, _, _, _, h => by
    obtain ⟨rfl, -⟩ := Prod.mk.inj (Except.ok.inj h)
    exact .imaginaryUnit
  | .symbol x, _, _, _, _, h => by
    obtain ⟨rfl, -⟩ := Prod.mk.inj (Except.ok.inj h)
    exact .symbol x
  | .indexed s, _, _, _, _, h => lowered_indexed (Lowering.ok_of_lift h).1
  | .index i, _, _, _, _, h => by
    obtain ⟨x, hx, rfl⟩ := indexNode_eq_ok (Lowering.ok_of_lift h).1
    exact .index hx
  | .add terms, _, _, _, _, h => .add (lowered_of_lowerTerms c terms h)
  | .mul factors, _, _, _, _, h => .mul (lowered_of_lowerFactors c factors h)
  | .pow base exponent, _, _, _, _, h => by
    obtain ⟨b, k₁, hb, h⟩ := Lowering.ok_of_bind h
    obtain ⟨e, k₂, he, h⟩ := Lowering.ok_of_bind h
    obtain ⟨rfl, -⟩ := Prod.mk.inj (Except.ok.inj h)
    exact .pow (lowered_of_lower c base hb) (lowered_of_lower c exponent he)
  | .neg inner, _, _, _, _, h => by
    obtain ⟨n, k₁, hn, h⟩ := Lowering.ok_of_bind h
    obtain ⟨rfl, -⟩ := Prod.mk.inj (Except.ok.inj h)
    exact .neg (lowered_of_lower c inner hn)
  | .call func args, _, _, _, _, h => by
    obtain ⟨ns, k₁, hns, h⟩ := Lowering.ok_of_bind h
    obtain ⟨rfl, -⟩ := Prod.mk.inj (Except.ok.inj h)
    exact .call (lowered_of_lowerAll c args hns)
  | .sum i away body, scope, _, _, _, h => by
    obtain ⟨excluded, k₁, hexcluded, h⟩ := Lowering.ok_of_bind h
    obtain ⟨x, k₂, hx, h⟩ := Lowering.ok_of_bind h
    obtain ⟨n, k₃, hn, h⟩ := Lowering.ok_of_bind h
    obtain ⟨rfl, -⟩ := Prod.mk.inj (Except.ok.inj h)
    obtain ⟨xs, hxs, rfl⟩ := indexNodes_eq_ok (Lowering.ok_of_lift hexcluded).1
    exact .sum (LoweringContext.not_mem_taken hx) hxs (lowered_of_lower c body hn)
  | .distinct i j body, _, _, _, _, h => by
    obtain ⟨l, k₁, hl, h⟩ := Lowering.ok_of_bind h
    obtain ⟨r, k₂, hr, h⟩ := Lowering.ok_of_bind h
    obtain ⟨n, k₃, hn, h⟩ := Lowering.ok_of_bind h
    obtain ⟨rfl, -⟩ := Prod.mk.inj (Except.ok.inj h)
    obtain ⟨x, hx, rfl⟩ := indexNode_eq_ok (Lowering.ok_of_lift hl).1
    obtain ⟨y, hy, rfl⟩ := indexNode_eq_ok (Lowering.ok_of_lift hr).1
    exact .distinct hx hy (lowered_of_lower c body hn)

theorem lowered_of_lowerTerms (c : LoweringContext K) : ∀ (es : List (Expr K)) {scope : IndexScope}
    {acc : Option (Node K)} {k j : Nat} {n : Node K},
    lowerTerms c scope acc es k = .ok (n, j) → LoweredTerms c scope acc es n
  | [], _, acc, _, _, _, h => by
    obtain ⟨rfl, -⟩ := Prod.mk.inj (Except.ok.inj h)
    exact .nil acc
  | e :: rest, _, _, _, _, _, h => by
    rcases lowerTerms_cons_eq_ok h with ⟨n, k', hn, h⟩ | ⟨inner, n, k', rfl, hn, h⟩
    · exact .plus (lowered_of_lower c e hn) (lowered_of_lowerTerms c rest h)
    · have hneg : (Expr.neg inner).lower c _ _ = .ok (.neg n, k') := Lowering.bind_of_ok hn
      cases lowered_of_lower c (.neg inner) hneg with
      | neg hinner => exact .minus hinner (lowered_of_lowerTerms c rest h)

theorem lowered_of_lowerFactors (c : LoweringContext K) : ∀ (es : List (Expr K))
    {scope : IndexScope} {acc : Option (Node K)} {k j : Nat} {n : Node K},
    lowerFactors c scope acc es k = .ok (n, j) → LoweredFactors c scope acc es n
  | [], _, acc, _, _, _, h => by
    obtain ⟨rfl, -⟩ := Prod.mk.inj (Except.ok.inj h)
    exact .nil acc
  | e :: rest, scope, _, k, _, _, h => by
    rcases lowerFactors_cons_eq_ok h with ⟨n, k', hn, h⟩ | ⟨base, v, n, k', rfl, hv, hn, h⟩
    · exact .times (lowered_of_lower c e hn) (lowered_of_lowerFactors c rest h)
    · cases lowered_of_lower c (.pow base (.number v)) (lower_reciprocal hn v) with
      | pow hbase _ => exact .divided hbase hv (lowered_of_lowerFactors c rest h)

theorem lowered_of_lowerAll (c : LoweringContext K) : ∀ (es : List (Expr K)) {scope : IndexScope}
    {k j : Nat} {ns : List (Node K)}, lowerAll c scope es k = .ok (ns, j) → LoweredAll c scope es ns
  | [], _, _, _, _, h => by
    obtain ⟨rfl, -⟩ := Prod.mk.inj (Except.ok.inj h)
    exact .nil
  | e :: rest, _, _, _, _, h => by
    obtain ⟨n, k₁, hn, h⟩ := Lowering.ok_of_bind h
    obtain ⟨ns, k₂, hns, h⟩ := Lowering.ok_of_bind h
    obtain ⟨rfl, -⟩ := Prod.mk.inj (Except.ok.inj h)
    exact .cons (lowered_of_lower c e hn) (lowered_of_lowerAll c rest hns)

end

end Expr

end Fluxion
