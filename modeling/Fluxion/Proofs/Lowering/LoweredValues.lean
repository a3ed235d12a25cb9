import Fluxion.Proofs.Expressions.Evaluation
import Fluxion.Proofs.Lowering.Lowered
import Fluxion.Proofs.Layout.Resolution
import Fluxion.Proofs.Nodes.SingleValue

/-!
# Proofs/Lowering/LoweredValues — lowered nodes have the values of their expressions

An expression is evaluated with indices at sites, a node with variables at values.  The two go
together if every variable in scope has the site of its index (`Stands`), and then **a node has the
value of the expression it was lowered from** (`Interprets.has_of_lowered`), provided that the
symbols do: what a context knows about symbols is collected in `Renders`.

What it is for a node to have a value is left open.  The rules that are needed are those of
`Interprets`, so that one induction serves every semantics of nodes in which conditions and
exclusions are left out of sums.  Indices in scope are looked up on both sides from the innermost
one out, so shadowed ones need no care (`Stands.push`).  Differences and quotients are where the
arithmetic matters, since an expression knows only sums of negated terms and products of
reciprocals.
-/

namespace Fluxion

open Arithmetic

variable {K V : Type} [Literal K] [Arithmetic K V]

/-- **Variables in scope stand at the sites of their indices.** -/
def Stands (scope : IndexScope) (sites : Sites) (env : Env V) : Prop :=
  ∀ i x m, scope.lookup i = some x → sites.get i = .ok m → env.lookup x = some (atSite m)

namespace Stands

variable {scope : IndexScope} {sites : Sites} {env : Env V} {i : Index} {x : String} {m : ℤ}

theorem nil (sites : Sites) (env : Env V) : Stands [] sites env := by
  intro i x m hx
  cases hx

theorem names (h : Stands scope sites env) {is : List Index} {xs : List String} {ms : List ℤ}
    (hxs : scope.Names is xs) (hms : is.mapM sites.get = .ok ms) :
    List.Forall₂ (fun x m => env.lookup x = some (atSite m)) xs ms := by
  have hall := forall₂_of_mapM hms
  clear hms
  induction hxs generalizing ms with
  | nil =>
    cases hall
    exact .nil
  | cons hx _ ih =>
    obtain ⟨m, ms, hm, hrest, rfl⟩ := List.forall₂_cons_left_iff.mp hall
    exact .cons (h _ _ _ hx hm) (ih hrest)

/-- A new variable at a site of its index, which may be in scope already. -/
theorem push (h : Stands scope sites env) (hx : x ∉ scope.map (·.2)) (i : Index) (m : ℤ) :
    Stands ((i, x) :: scope) ((i, m) :: sites) ((x, atSite m) :: env) := by
  intro j y k hy hk
  rw [List.lookup_cons] at hy
  rw [Sites.get_cons] at hk
  by_cases hji : j = i
  · subst hji
    rw [beq_self_eq_true] at hy
    rw [if_pos rfl] at hk
    obtain rfl := Option.some.inj hy
    obtain rfl := Except.ok.inj hk
    exact List.lookup_cons_self
  · rw [beq_false_of_ne hji] at hy
    rw [if_neg (Ne.symm hji)] at hk
    have hne : y ≠ x := fun hyx => hx (hyx ▸ List.mem_map_of_mem (mem_of_lookup hy))
    exact (Env.lookup_of_ne hne _ env).trans (h j y k hy hk)

end Stands

section Sites

open ExactLiteral ExactIndices

variable [Field K] [LinearOrder K] [IsStrictOrderedRing K] [ExactIndices K V]

theorem real_atSite (m : ℤ) : real (atSite m : V) = (m : K) := by
  rw [atSite, real_ofLiteral, ofInt_eq]

theorem reads_atSite {p : Procedure K} {inputs : Inputs K V} {env : Env V} {x : String} {m : ℤ}
    (h : env.lookup x = some (atSite m)) : (Node.var x).Reads p inputs env (m : K) :=
  real_atSite (V := V) m ▸ Node.reads_var h

/-- Sites are told apart by their values. -/
theorem same_atSite (m n : ℤ) : same (atSite m : V) (atSite n) = decide (m = n) := by
  rw [same, real_atSite, real_atSite, Bool.eq_iff_iff, eq_iff, decide_eq_true_iff, Int.cast_inj]

theorem span_atSite (m n : ℤ) : span (atSite m : V) (atSite n) = (n - m + 1).toNat := by
  rw [span, real_atSite, real_atSite, site_intCast, site_intCast]

/-- One of some sites. -/
theorem any_same_atSite (ms : List ℤ) (m : ℤ) :
    (ms.map atSite).any (same (atSite m : V)) = decide (m ∈ ms) := by
  induction ms with
  | nil => rfl
  | cons n ms ih =>
    rw [List.map_cons, List.any_cons, ih, same_atSite, ← Bool.decide_or]
    exact decide_eq_decide.mpr List.mem_cons.symm

end Sites

/-! ## Interpretations -/

/-- **A way in which lowered nodes have values.**  `Has n env v` says that a node has a value, and
`At v m` that a value bounds a sum at a site. -/
structure Interprets (inputs : Inputs K V) (At : V → ℤ → Prop) (Has : Node K → Env V → V → Prop) :
    Prop where
  const (a : K) (env : Env V) : Has (.const a) env (ofLiteral a)
  imaginaryUnit (env : Env V) : Has (.named Node.imaginaryName) env Arithmetic.imaginaryUnit
  time (env : Env V) : Has .time env (ofLiteral inputs.t)
  var {x : String} {env : Env V} {v : V} : env.lookup x = some v → Has (.var x) env v
  unknown (n : Node K) (env : Env V) : Has (.access .zero n) env zero
  access {p : Procedure K} {b : Buffer} {data : Array V} {n : Node K} {k : ℕ} {env : Env V}
    {v : V} :
    b ≠ .zero → (if b = .state then inputs.u else inputs.p) = data → n.Plain →
      n.Reads p inputs env (Literal.ofInt k) → data[k]? = some v → Has (.access b n) env v
  neg {n : Node K} {env : Env V} {v : V} : Has n env v → Has (.neg n) env (Arithmetic.neg v)
  binary {op : BinaryOp} {m n : Node K} {env : Env V} {v w : V} :
    Has m env v → Has n env w → Has (.binary op m n) env (op.apply v w)
  call {func : String} {b : Builtin} {n : Node K} {ns : List (Node K)} {env : Env V} {v : V} :
    Builtin.ofName? (canonicalFunc func) = some b → Has n env v →
      Has (.call func (n :: ns)) env (apply b v)
  /-- A body does not count where the sides of its guard are the same. -/
  guarded {x y : String} {n : Node K} {env : Env V} {v w u : V} :
    env.lookup x = some v → env.lookup y = some w → (same v w = true → u = zero) →
      (same v w = false → Has n env u) → Has (.guarded (.var x) (.var y) n) env u
  site (m : ℤ) : At (atSite m) m
  /-- A sum adds up the terms of the sites between its bounds, without those that are left out. -/
  sum {x : String} {lo hi n : Node K} {ys : List String} {env : Env V} {l u v : V} {m m' : ℤ}
    {ms : List ℤ} {term : ℤ → Except EvalError V} :
    Has lo env l → Has hi env u → At l m → At u m' →
      List.Forall₂ (fun y k => env.lookup y = some (atSite k)) ys ms →
      (∀ k w, term k = .ok w → Has n ((x, atSite k) :: env) w) →
      sumSites add ms term (m' - m + 1).toNat m zero = .ok v →
        Has (.boundedSum x lo hi (ys.map .var) n) env v

/-- A procedure without statements.  What an index reads does not depend on the procedure. -/
def Procedure.blank : Procedure K := ⟨⟨"", "", "", ""⟩, [], [], [], true⟩

theorem Interprets.access_ofInt [Field K] [LinearOrder K] [IsStrictOrderedRing K] [ExactIndices K V]
    {inputs : Inputs K V} {At : V → ℤ → Prop} {Has : Node K → Env V → V → Prop}
    (I : Interprets inputs At Has) {b : Buffer} {data : Array V} {k : ℕ} {v : V} (hb : b ≠ .zero)
    (hdata : (if b = .state then inputs.u else inputs.p) = data) (hv : data[k]? = some v)
    (env : Env V) : Has (.access b (.ofInt k)) env v :=
  I.access (p := .blank) hb hdata (.const _) (Node.reads_const_iff.mpr rfl) hv

/-- **A context whose symbols have the values they are bound to**, as far as lowering resolves
them. -/
structure Bindings.Renders (b : Bindings V) (At : V → ℤ → Prop) (Has : Node K → Env V → V → Prop)
    (c : LoweringContext K) (summed : List Index) : Prop where
  scalar : ∀ x v, b.scalar x = some v → ∃ n, c.names.lookup x = some n ∧ ∀ env, Has n env v
  member : ∀ s rule, c.rules.resolve s = .access rule →
    ∀ xs ms v env, xs.length = s.indices.length →
    List.Forall₂ (fun x m => env.lookup x = some (atSite m)) xs ms → b.site s.base ms = some v →
      Has (rule.location (xs.map .var)) env v
  unknown : c.zeroFill = true → ∀ s, c.rules.resolve s = .unknown → ∀ ms v,
    b.site s.base ms = some v → v = zero
  lower : ∀ i ∈ summed, ∀ m, b.bound i.lower = .ok m → ∀ env,
    ∃ v, Has (c.params.boundNode i.lower) env v ∧ At v m
  upper : ∀ i ∈ summed, ∀ m, b.bound i.upper = .ok m → ∀ env,
    ∃ v, Has (c.params.boundNode i.upper) env v ∧ At v m

/-! ## Terms and factors behind others -/

/-- The value of what has been lowered before, which is neutral if there is nothing. -/
def Accumulates (Has : Node K → Env V → V → Prop) (env : Env V) (neutral : V)
    (acc : Option (Node K)) (a : V) : Prop :=
  match acc with
  | none => a = neutral
  | some n => Has n env a

namespace Interprets

open ExactLiteral ExactArithmetic

variable [Field K] [LinearOrder K] [IsStrictOrderedRing K] [Field V] [ExactArithmetic K V]
  {inputs : Inputs K V} {At : V → ℤ → Prop} {Has : Node K → Env V → V → Prop} {env : Env V}
  {acc : Option (Node K)} {n : Node K} {a w : V}

theorem joinTerm (I : Interprets inputs At Has) (hacc : Accumulates Has env 0 acc a)
    (hn : Has n env w) : Has (Expr.joinTerm acc n) env (a + w) := by
  cases acc with
  | none =>
    obtain rfl : a = 0 := hacc
    rwa [zero_add]
  | some m =>
    rw [← eq_add]
    exact I.binary hacc hn

theorem joinNegated (I : Interprets inputs At Has) (hacc : Accumulates Has env 0 acc a)
    (hn : Has n env w) : Has (Expr.joinNegated acc n) env (a - w) := by
  cases acc with
  | none =>
    obtain rfl : a = 0 := hacc
    rw [zero_sub, ← eq_neg]
    exact I.neg hn
  | some m =>
    rw [← eq_sub]
    exact I.binary hacc hn

theorem joinFactor (I : Interprets inputs At Has) (hacc : Accumulates Has env 1 acc a)
    (hn : Has n env w) : Has (Expr.joinFactor acc n) env (a * w) := by
  cases acc with
  | none =>
    obtain rfl : a = 1 := hacc
    rwa [one_mul]
  | some m =>
    rw [← eq_mul]
    exact I.binary hacc hn

theorem joinDivisor (I : Interprets inputs At Has) (hacc : Accumulates Has env 1 acc a)
    (hn : Has n env w) : Has (Expr.joinDivisor acc n) env (a / w) := by
  have hfactors : Has (acc.getD (.const Literal.one)) env a := by
    cases acc with
    | none =>
      obtain rfl : a = 1 := hacc
      exact eq_one (V := V) ▸ I.const Literal.one env
    | some m => exact hacc
  rw [← eq_div]
  exact I.binary hfactors hn

end Interprets

section Exact

open ExactLiteral ExactArithmetic

variable [Field K] [LinearOrder K] [IsStrictOrderedRing K] [Field V] [ExactArithmetic K V]
  {b : Bindings V} {sites : Sites}

theorem add_atSite_one (m : ℤ) : add (atSite m : V) one = atSite (m + 1) := ofLiteral_succ m

/-- A reciprocal is a power that is recognised by its exponent. -/
theorem eq_reciprocal {e : K} (he : Literal.eq e (Literal.ofInt (-1)) = true) {v w : V}
    (h : (do return pow v (← (Expr.number e).evaluateAt b sites)) = Except.ok (ε := EvalError) w) :
    w = v⁻¹ := by
  have hminus : e = -1 := by rw [eq_iff.mp he, ofInt_eq, Int.cast_neg, Int.cast_one]
  rw [← Except.ok.inj h, hminus, pow_neg_one]

end Exact

/-! ## Nodes have the values of their expressions -/

variable {b : Bindings V} {sites : Sites}

/-- The sites of an occurrence that has a value. -/
theorem exists_site_of_evaluateAt {s : Indexed} {v : V}
    (h : (Expr.indexed s : Expr K).evaluateAt b sites = .ok v) :
    ∃ ms, s.indices.mapM sites.get = .ok ms ∧ b.site s.base ms = some v := by
  obtain ⟨ms, hms, h⟩ := ok_of_bind h
  refine ⟨ms, hms, ?_⟩
  rw [Bindings.getSite] at h
  split at h
  · next w hw => rw [hw, Except.ok.inj h]
  · cases h

omit [Literal K] in
/-- The value of a function that has one. -/
theorem ofName?_of_apply {func : Func} {v w : V} (h : func.apply v = .ok w) :
    ∃ b, Builtin.ofName? (canonicalFunc func.name) = some b ∧ w = apply b v := by
  cases func with
  | builtin b => exact ⟨b, by cases b <;> decide, (Except.ok.inj h).symm⟩
  | adjoint => exact ⟨.conj, by decide, (Except.ok.inj h).symm⟩
  | named name => cases h

section Nodes

variable {inputs : Inputs K V} {At : V → ℤ → Prop} {Has : Node K → Env V → V → Prop}
  {c : LoweringContext K} {summed : List Index} {scope : IndexScope} {env : Env V}

theorem Bindings.Renders.has_symbol (hc : b.Renders At Has c summed) {x : String} {v : V}
    (h : (Expr.symbol x : Expr K).evaluateAt b sites = .ok v) :
    Has ((c.names.lookup x).getD (.named x)) env v := by
  rw [Expr.evaluateAt, Bindings.get] at h
  split at h
  · next w hw =>
    obtain rfl := Except.ok.inj h
    obtain ⟨n, hn, hvalue⟩ := hc.scalar x w hw
    rw [hn, Option.getD_some]
    exact hvalue env
  · cases h

theorem Interprets.has_sum (I : Interprets inputs At Has) (hc : b.Renders At Has c summed)
    {i : Index} {away : List Index} {body : Expr K} {x : String} {xs : List String}
    {n : Node K} {v : V} (hi : i ∈ summed) (henv : Stands scope sites env)
    (hxs : scope.Names away xs) (hbody : ∀ m w, body.evaluateAt b ((i, m) :: sites) = .ok w →
      Has n ((x, atSite m) :: env) w)
    (h : (Expr.sum i away body).evaluateAt b sites = .ok v) :
    Has (.boundedSum x (c.params.boundNode i.lower) (c.params.boundNode i.upper) (xs.map .var) n)
      env v := by
  obtain ⟨lo, hlo, h⟩ := ok_of_bind h
  obtain ⟨hi', hhi, h⟩ := ok_of_bind h
  obtain ⟨excluded, hexcluded, h⟩ := ok_of_bind h
  obtain ⟨l, hl, hatl⟩ := hc.lower i hi lo hlo env
  obtain ⟨u, hu, hatu⟩ := hc.upper i hi hi' hhi env
  exact I.sum hl hu hatl hatu (henv.names hxs hexcluded) hbody h

theorem Interprets.has_distinct [Field K] [LinearOrder K] [IsStrictOrderedRing K] [ExactIndices K V]
    (I : Interprets inputs At Has) {i j : Index} {body : Expr K} {x y : String} {n : Node K} {v : V}
    (henv : Stands scope sites env) (hx : scope.lookup i = some x) (hy : scope.lookup j = some y)
    (hbody : ∀ w, body.evaluateAt b sites = .ok w → Has n env w)
    (h : (Expr.distinct i j body).evaluateAt b sites = .ok v) :
    Has (.guarded (.var x) (.var y) n) env v := by
  obtain ⟨m, hm, h⟩ := ok_of_bind h
  obtain ⟨m', hm', h⟩ := ok_of_bind h
  refine I.guarded (henv i x m hx hm) (henv j y m' hy hm') (fun hsame => ?_) fun hdiffer => ?_
  · rw [same_atSite, decide_eq_true_iff] at hsame
    rw [if_pos hsame] at h
    exact (Except.ok.inj h).symm
  · rw [same_atSite, decide_eq_false_iff_not] at hdiffer
    rw [if_neg hdiffer] at h
    exact hbody v h

end Nodes

namespace Interprets

mutual

/-- **A node has the value of the expression it was lowered from.** -/
theorem has_of_lowered [Field K] [LinearOrder K] [IsStrictOrderedRing K] [Field V]
    [ExactArithmetic K V] {inputs : Inputs K V} {At : V → ℤ → Prop}
    {Has : Node K → Env V → V → Prop} {b : Bindings V} {c : LoweringContext K} {summed : List Index}
    (I : Interprets inputs At Has) (hc : b.Renders At Has c summed) :
    ∀ {scope : IndexScope} {e : Expr K} {n : Node K}, e.Lowered c scope n →
      (∀ i ∈ e.summed, i ∈ summed) → ∀ {sites : Sites} {env : Env V} {v : V},
        Stands scope sites env → e.evaluateAt b sites = .ok v → Has n env v
  | _, _, _, .number a, _, _, env, _, _, h => Except.ok.inj h ▸ I.const a env
  | _, _, _, .imaginaryUnit, _, _, env, _, _, h => Except.ok.inj h ▸ I.imaginaryUnit env
  | _, _, _, .symbol _, _, _, _, _, _, h => hc.has_symbol h
  | _, _, _, .indexed hrule hxs, _, _, _, _, henv, h => by
    obtain ⟨ms, hms, hv⟩ := exists_site_of_evaluateAt h
    exact hc.member _ _ hrule _ ms _ _ hxs.length_eq.symm (henv.names hxs hms) hv
  | _, _, _, .unknown n hs hfill, _, _, env, _, _, h => by
    obtain ⟨ms, -, hv⟩ := exists_site_of_evaluateAt h
    exact hc.unknown hfill _ hs ms _ hv ▸ I.unknown n env
  | _, _, _, .index hx, _, _, _, _, henv, h => by
    obtain ⟨m, hm, h⟩ := ok_of_bind h
    exact Except.ok.inj h ▸ I.var (henv _ _ m hx hm)
  | _, _, _, .add hterms, hmem, _, _, _, henv, h => by
    obtain ⟨vs, hvs, rfl⟩ := Expr.evaluateSum_eq_ok.mp h
    rw [eq_zero]
    exact has_of_loweredTerms I hc hterms hmem henv hvs rfl
  | _, _, _, .mul hfactors, hmem, _, _, _, henv, h => by
    obtain ⟨vs, hvs, rfl⟩ := Expr.evaluateProduct_eq_ok.mp h
    rw [eq_one]
    exact has_of_loweredFactors I hc hfactors hmem henv hvs rfl
  | _, _, _, .pow hb he, hmem, _, _, _, henv, h => by
    obtain ⟨x, hx, h⟩ := ok_of_bind h
    obtain ⟨y, hy, h⟩ := ok_of_bind h
    have hbase := has_of_lowered I hc hb (fun i hi => hmem i (List.mem_append_left _ hi)) henv hx
    have hexponent :=
      has_of_lowered I hc he (fun i hi => hmem i (List.mem_append_right _ hi)) henv hy
    obtain rfl := Except.ok.inj h
    exact I.binary hbase hexponent
  | _, _, _, .neg hinner, hmem, _, _, _, henv, h => by
    obtain ⟨w, hw, h⟩ := ok_of_bind h
    exact Except.ok.inj h ▸ I.neg (has_of_lowered I hc hinner hmem henv hw)
  | _, _, _, .call (.cons harg _), hmem, _, _, _, henv, h => by
    obtain ⟨w, hw, h⟩ := ok_of_bind h
    obtain ⟨b, hb, rfl⟩ := ofName?_of_apply h
    exact I.call hb (has_of_lowered I hc harg (fun i hi =>
      hmem i (List.mem_append_left _ hi)) henv hw)
  | _, _, _, .sum hx hxs hbody, hmem, _, _, _, henv, h => by
    refine I.has_sum hc (hmem _ List.mem_cons_self) henv hxs (fun m w hw => ?_) h
    exact has_of_lowered I hc hbody (fun i hi => hmem i (List.mem_cons_of_mem _ hi))
      (henv.push (Expr.not_mem_scope hx) _ m) hw
  | _, _, _, .distinct hx hy hbody, hmem, _, _, _, henv, h =>
    I.has_distinct henv hx hy (fun _ hw => has_of_lowered I hc hbody hmem henv hw) h

/-- Terms are added up behind those lowered before. -/
theorem has_of_loweredTerms [Field K] [LinearOrder K] [IsStrictOrderedRing K] [Field V]
    [ExactArithmetic K V] {inputs : Inputs K V} {At : V → ℤ → Prop}
    {Has : Node K → Env V → V → Prop} {b : Bindings V} {c : LoweringContext K} {summed : List Index}
    (I : Interprets inputs At Has) (hc : b.Renders At Has c summed) :
    ∀ {scope : IndexScope} {acc : Option (Node K)} {es : List (Expr K)} {n : Node K},
      Expr.LoweredTerms c scope acc es n → (∀ i ∈ Expr.summedAll es, i ∈ summed) →
        ∀ {sites : Sites} {env : Env V} {vs : List V}, Stands scope sites env →
          Expr.Values b sites es vs → ∀ {a : V}, Accumulates Has env 0 acc a →
            Has n env (a + vs.sum)
  | _, _, _, _, .nil acc, _, _, env, _, _, .nil, a, hacc => by
    rw [List.sum_nil, add_zero]
    cases acc with
    | none =>
      obtain rfl : a = 0 := hacc
      exact eq_zero (V := V) ▸ I.const Literal.zero env
    | some n => exact hacc
  | _, _, _, _, .plus he hr, hmem, _, _, _, henv, .cons hw hws, a, hacc => by
    have hvalue := has_of_lowered I hc he (fun i hi => hmem i (List.mem_append_left _ hi)) henv hw
    rw [List.sum_cons, ← add_assoc]
    exact has_of_loweredTerms I hc hr (fun i hi => hmem i (List.mem_append_right _ hi)) henv hws
      (I.joinTerm hacc hvalue)
  | _, _, _, _, .minus he hr, hmem, _, _, _, henv, .cons hw hws, a, hacc => by
    obtain ⟨w, hinner, hw⟩ := ok_of_bind hw
    have hvalue :=
      has_of_lowered I hc he (fun i hi => hmem i (List.mem_append_left _ hi)) henv hinner
    rw [List.sum_cons, ← add_assoc, ← Except.ok.inj hw, ExactArithmetic.eq_neg, ← sub_eq_add_neg]
    exact has_of_loweredTerms I hc hr (fun i hi => hmem i (List.mem_append_right _ hi)) henv hws
      (I.joinNegated hacc hvalue)

/-- Factors are multiplied behind those lowered before. -/
theorem has_of_loweredFactors [Field K] [LinearOrder K] [IsStrictOrderedRing K] [Field V]
    [ExactArithmetic K V] {inputs : Inputs K V} {At : V → ℤ → Prop}
    {Has : Node K → Env V → V → Prop} {b : Bindings V} {c : LoweringContext K} {summed : List Index}
    (I : Interprets inputs At Has) (hc : b.Renders At Has c summed) :
    ∀ {scope : IndexScope} {acc : Option (Node K)} {es : List (Expr K)} {n : Node K},
      Expr.LoweredFactors c scope acc es n → (∀ i ∈ Expr.summedAll es, i ∈ summed) →
        ∀ {sites : Sites} {env : Env V} {vs : List V}, Stands scope sites env →
          Expr.Values b sites es vs → ∀ {a : V}, Accumulates Has env 1 acc a →
            Has n env (a * vs.prod)
  | _, _, _, _, .nil acc, _, _, env, _, _, .nil, a, hacc => by
    rw [List.prod_nil, mul_one]
    cases acc with
    | none =>
      obtain rfl : a = 1 := hacc
      exact eq_one (V := V) ▸ I.const Literal.one env
    | some n => exact hacc
  | _, _, _, _, .times he hr, hmem, _, _, _, henv, .cons hw hws, a, hacc => by
    have hvalue := has_of_lowered I hc he (fun i hi => hmem i (List.mem_append_left _ hi)) henv hw
    rw [List.prod_cons, ← mul_assoc]
    exact has_of_loweredFactors I hc hr (fun i hi => hmem i (List.mem_append_right _ hi)) henv hws
      (I.joinFactor hacc hvalue)
  | _, _, _, _, .divided he hv hr, hmem, _, _, _, henv, .cons hw hws, a, hacc => by
    obtain ⟨x, hx, hw⟩ := ok_of_bind hw
    have hvalue := has_of_lowered I hc he
      (fun i hi => hmem i (List.mem_append_left _ (List.mem_append_left _ hi))) henv hx
    rw [List.prod_cons, ← mul_assoc, eq_reciprocal hv hw, ← div_eq_mul_inv]
    exact has_of_loweredFactors I hc hr (fun i hi => hmem i (List.mem_append_right _ hi)) henv hws
      (I.joinDivisor hacc hvalue)

end

end Interprets

end Fluxion
