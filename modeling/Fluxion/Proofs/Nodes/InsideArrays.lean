import Fluxion.Proofs.Lowering.FreshNames
import Fluxion.Proofs.Machine.Simulation
import Fluxion.Proofs.Nodes.SingleValue

/-!
# Proofs/Nodes/InsideArrays — nodes that stay inside their arrays

A node is *safe* in a scope of indices if its variables are in scope, its sums range over declared
indices with variables of their own, and the subscripts of its accesses are inside their arrays
whenever every variable stands at a site of its index.  Safety is a property of the tree, so

* every pass keeps it (`safe_transform`): a pass applies one function at each node, and all five of
  them keep safety there and the reading of subscripts;
* a safe node that passes the checks of a procedure **ends** in every environment that fits its
  scope (`ends_of_safe`): with its value, or at a bound whose symbol nothing declares.
-/

namespace Fluxion

open Arithmetic Fluxion.Computation

variable {K V : Type}

theorem Node.transformAll_eq (f : Node K → Node K) (ns : List (Node K)) :
    Node.transformAll f ns = ns.map (Node.transform f) := by
  induction ns with
  | nil => rfl
  | cons n ns ih => rw [Node.transformAll, ih, List.map_cons]

theorem Node.transformExclusions_eq (f : Node K → Node K) (es : List (Exclusion K)) :
    Node.transformExclusions f es = es.map fun e => .mk (e.value.transform f) e.absorbed := by
  induction es with
  | nil => rfl
  | cons e es ih =>
    rw [Node.transformExclusions, ih, List.map_cons]
    cases e
    rfl

/-- A pass over what is inside a node. -/
def Node.descend (f : Node K → Node K) : Node K → Node K
  | .access b i => .access b (i.transform f)
  | .neg a => .neg (a.transform f)
  | .binary op a b => .binary op (a.transform f) (b.transform f)
  | .call func args => .call func (transformAll f args)
  | .boundedSum x lo hi es body =>
    .boundedSum x (lo.transform f) (hi.transform f) (transformAll f es) (body.transform f)
  | .sum x lo hi es body =>
    .sum x (lo.transform f) (hi.transform f) (transformExclusions f es) (body.transform f)
  | .guarded l r body => .guarded (l.transform f) (r.transform f) (body.transform f)
  | .indicator l r => .indicator (l.transform f) (r.transform f)
  | n => n

/-- A pass is applied to a node after what is inside it. -/
theorem Node.transform_eq_descend (f : Node K → Node K) (n : Node K) :
    n.transform f = f (n.descend f) := by
  cases n <;> rfl

/-- What a node is evaluated in, apart from its variables, and the indices that ranges are taken
from. -/
structure Setting (K V : Type) where
  procedure : Procedure K
  inputs : Inputs K V
  layout : ParamLayout
  indices : List Index

variable [Literal K] [Arithmetic K V]

namespace Setting

/-- A value stands at a site of an index. -/
def InRange (S : Setting K V) (i : Index) (v : V) : Prop :=
  ∃ lo hi m : ℤ, i.lower.site? S.layout S.inputs.p = some lo ∧
    i.upper.site? S.layout S.inputs.p = some hi ∧ lo ≤ m ∧ m ≤ hi ∧ real v = (Literal.ofInt m : K)

/-- **An environment fits a scope**: every variable stands at a site of its index. -/
def Fits (S : Setting K V) (scope : IndexScope) (env : Env V) : Prop :=
  ∀ i x, (i, x) ∈ scope → ∃ v, env.lookup x = some v ∧ S.InRange i v

/-- A new variable at a site of its index. -/
theorem Fits.cons {S : Setting K V} {scope : IndexScope} {env : Env V} (h : S.Fits scope env)
    {i : Index} {x : String} {v : V} (hx : x ∉ scope.map (·.2)) (hv : S.InRange i v) :
    S.Fits ((i, x) :: scope) ((x, v) :: env) := by
  intro j y hy
  rcases List.mem_cons.mp hy with hy | hy
  · obtain ⟨rfl, rfl⟩ := Prod.mk.inj hy
    exact ⟨v, List.lookup_cons_self, hv⟩
  · obtain ⟨w, hw, hrange⟩ := h j y hy
    have hne : y ≠ x := fun hyx => hx (hyx ▸ List.mem_map_of_mem hy)
    exact ⟨w, (Env.lookup_of_ne hne v env).trans hw, hrange⟩

theorem Fits.nil (S : Setting K V) : S.Fits [] [] := nofun

theorem Fits.single {S : Setting K V} {i : Index} {x : String} {v : V} (hv : S.InRange i v) :
    S.Fits [(i, x)] [(x, v)] := (Fits.nil S).cons List.not_mem_nil hv

/-- An index that stays below a size. -/
structure Inside (S : Setting K V) (scope : IndexScope) (size : ℕ) (n : Node K) : Prop where
  plain : n.Plain
  reads : ∀ env, S.Fits scope env → ∃ k < size, n.Reads S.procedure S.inputs env (Literal.ofInt k)

/-- An excluded value is a variable in scope. -/
def Excludes (scope : IndexScope) (n : Node K) : Prop := ∃ x ∈ scope.map (·.2), n = .var x

/-- A sum over a declared index whose variable is new. -/
def Ranges (S : Setting K V) (scope : IndexScope) (x : String) (lower upper : Node K) (i : Index) :
    Prop :=
  i ∈ S.indices ∧ x ∉ scope.map (·.2) ∧ lower = S.layout.boundNode i.lower ∧
    upper = S.layout.boundNode i.upper

mutual

/-- **A node that stays inside its arrays**, in a scope of indices. -/
def Safe (S : Setting K V) (scope : IndexScope) : Node K → Prop
  | .const _ | .imaginaryUnit | .named _ | .time => True
  | .var x => x ∈ scope.map (·.2)
  | .access .state i => S.Inside scope S.inputs.u.size i
  | .access .param i => S.Inside scope S.inputs.p.size i
  | .access .zero _ => True
  | .neg a => Safe S scope a
  | .binary _ a b => Safe S scope a ∧ Safe S scope b
  | .call _ args => SafeAll S scope args
  | .boundedSum x lo hi es body =>
    (∀ e ∈ es, Excludes scope e) ∧ ∃ i, S.Ranges scope x lo hi i ∧ Safe S ((i, x) :: scope) body
  | .sum x lo hi es body =>
    (∀ e ∈ es, Excludes scope e.value) ∧
      ∃ i, S.Ranges scope x lo hi i ∧ Safe S ((i, x) :: scope) body
  | .guarded l r body => Safe S scope l ∧ Safe S scope r ∧ Safe S scope body
  | .indicator l r => Safe S scope l ∧ Safe S scope r
  | .unresolved _ => False

/-- Every node of a list stays inside its arrays. -/
def SafeAll (S : Setting K V) (scope : IndexScope) : List (Node K) → Prop
  | [] => True
  | n :: rest => Safe S scope n ∧ SafeAll S scope rest

end

/-! ## Passes -/

variable {S : Setting K V} {scope : IndexScope} {f : Node K → Node K}

/-- **A pass that keeps safety**, stated of the function it applies at each node. -/
structure Keeps (S : Setting K V) (f : Node K → Node K) : Prop where
  var : ∀ x, f (.var x) = .var x
  bound : ∀ b, (S.layout.boundNode b).transform f = S.layout.boundNode b
  plain : ∀ n : Node K, n.Plain → (n.transform f).Plain
  reads : ∀ (n : Node K) env a, n.Plain → n.Reads S.procedure S.inputs env a →
    (n.transform f).Reads S.procedure S.inputs env a
  safe : ∀ scope n, S.Safe scope n → S.Safe scope (f n)

theorem Keeps.inside (hf : S.Keeps f) {size : ℕ} {n : Node K} (h : S.Inside scope size n) :
    S.Inside scope size (n.transform f) where
  plain := hf.plain n h.plain
  reads env henv := by
    obtain ⟨k, hk, hreads⟩ := h.reads env henv
    exact ⟨k, hk, hf.reads n env _ h.plain hreads⟩

theorem Keeps.excludes (hf : S.Keeps f) {n : Node K} (h : Excludes scope n) :
    Excludes scope (n.transform f) := by
  obtain ⟨x, hx, rfl⟩ := h
  exact ⟨x, hx, hf.var x⟩

theorem Keeps.ranges (hf : S.Keeps f) {x : String} {lo hi : Node K} {i : Index}
    (h : S.Ranges scope x lo hi i) : S.Ranges scope x (lo.transform f) (hi.transform f) i := by
  obtain ⟨hi, hx, rfl, rfl⟩ := h
  exact ⟨hi, hx, hf.bound _, hf.bound _⟩

theorem Keeps.of_descend (hf : S.Keeps f) {n : Node K} (h : S.Safe scope (n.descend f)) :
    S.Safe scope (n.transform f) := by
  rw [Node.transform_eq_descend]
  exact hf.safe scope _ h

mutual

/-- What is inside a node stays safe. -/
theorem safe_descend (hf : S.Keeps f) (scope : IndexScope) :
    ∀ n : Node K, S.Safe scope n → S.Safe scope (n.descend f)
  | .const _, h => h
  | .imaginaryUnit, h => h
  | .named _, h => h
  | .time, h => h
  | .var _, h => h
  | .unresolved _, h => h
  | .access .state i, h => hf.inside (n := i) h
  | .access .param i, h => hf.inside (n := i) h
  | .access .zero _, h => h
  | .neg a, h => by
    have ha := hf.of_descend (safe_descend hf scope a h)
    exact ha
  | .binary _ a b, h =>
    ⟨hf.of_descend (safe_descend hf scope a h.1), hf.of_descend (safe_descend hf scope b h.2)⟩
  | .call _ args, h => by
    have hargs := safeAll_transform hf scope args h
    exact hargs
  | .boundedSum x lo hi es body, h => by
    obtain ⟨hes, i, hranges, hbody⟩ := h
    refine ⟨?_, i, hf.ranges hranges, hf.of_descend (safe_descend hf _ body hbody)⟩
    rw [Node.transformAll_eq]
    exact List.forall_mem_map.mpr fun e he => hf.excludes (hes e he)
  | .sum x lo hi es body, h => by
    obtain ⟨hes, i, hranges, hbody⟩ := h
    refine ⟨?_, i, hf.ranges hranges, hf.of_descend (safe_descend hf _ body hbody)⟩
    rw [Node.transformExclusions_eq]
    exact List.forall_mem_map.mpr fun e he => hf.excludes (hes e he)
  | .guarded l r body, h =>
    ⟨hf.of_descend (safe_descend hf scope l h.1), hf.of_descend (safe_descend hf scope r h.2.1),
      hf.of_descend (safe_descend hf scope body h.2.2)⟩
  | .indicator l r, h =>
    ⟨hf.of_descend (safe_descend hf scope l h.1), hf.of_descend (safe_descend hf scope r h.2)⟩

theorem safeAll_transform (hf : S.Keeps f) (scope : IndexScope) :
    ∀ ns : List (Node K), S.SafeAll scope ns → S.SafeAll scope (Node.transformAll f ns)
  | [], h => h
  | n :: ns, h => ⟨hf.of_descend (safe_descend hf scope n h.1), safeAll_transform hf scope ns h.2⟩

end

/-- **Passes keep safety.** -/
theorem safe_transform (hf : S.Keeps f) (scope : IndexScope) (n : Node K) (h : S.Safe scope n) :
    S.Safe scope (n.transform f) := hf.of_descend (safe_descend hf scope n h)

/-- A pass that leaves plain nodes alone keeps safety, if it does so at each node. -/
theorem keeps_of_plain (hf : ∀ n, n.Plain → f n = n)
    (hsafe : ∀ scope n, S.Safe scope n → S.Safe scope (f n)) : S.Keeps f where
  var x := hf _ (.var x)
  bound b := (Node.Plain.boundNode S.layout b).transform_eq hf
  plain _ h := (h.transform_eq hf).symm ▸ h
  reads _ _ _ h hreads := (h.transform_eq hf).symm ▸ hreads
  safe := hsafe

theorem keeps_nativeSum (S : Setting K V) : S.Keeps Node.nativeSum := by
  refine keeps_of_plain (fun n => Node.Plain.nativeSum_eq) fun scope n h => ?_
  unfold Node.nativeSum
  split
  · obtain ⟨hes, hbody⟩ := h
    exact ⟨List.forall_mem_map.mpr hes, hbody⟩
  · exact h

/-- The factors that stand for exclusions are variables in scope. -/
theorem safe_absorb {x : String} {i : Index} {es : List (Exclusion K)} {body : Node K}
    (hes : ∀ e ∈ es, Excludes scope e.value) (hbody : S.Safe ((i, x) :: scope) body) :
    S.Safe ((i, x) :: scope) (Node.absorb x es body) := by
  rw [Node.absorb]
  induction es generalizing body with
  | nil => exact hbody
  | cons e es ih =>
    obtain ⟨he, hes⟩ := List.forall_mem_cons.mp hes
    refine ih hes ?_
    dsimp only
    split
    · exact hbody
    · obtain ⟨y, hy, hvalue⟩ := he
      rw [hvalue]
      exact ⟨⟨List.mem_cons_self, List.mem_cons_of_mem _ hy⟩, hbody⟩

theorem keeps_absorbGuard (S : Setting K V) : S.Keeps Node.absorbGuard := by
  refine keeps_of_plain (fun n => Node.Plain.absorbGuard_eq) fun scope n h => ?_
  unfold Node.absorbGuard
  split
  · obtain ⟨hl, hr, hbody⟩ := h
    exact ⟨⟨hl, hr⟩, hbody⟩
  · obtain ⟨hes, i, hranges, hbody⟩ := h
    exact ⟨List.forall_mem_map.mpr hes, i, hranges, safe_absorb hes hbody⟩
  · exact h

theorem keeps_stripExclusions (S : Setting K V) : S.Keeps Node.stripExclusions := by
  refine keeps_of_plain (fun n => Node.Plain.stripExclusions_eq) fun scope n h => ?_
  unfold Node.stripExclusions
  split
  · obtain ⟨hes, hbody⟩ := h
    exact ⟨fun e he => hes e (List.mem_filter.mp he).1, hbody⟩
  · exact h

theorem keeps_respell (S : Setting K V) : S.Keeps Node.respell := by
  refine keeps_of_plain (fun n => Node.Plain.respell_eq) fun scope n h => ?_
  unfold Node.respell
  split
  · split <;> trivial
  · exact h
  · exact h

theorem safe_foldBinary {op : BinaryOp} {a b : Node K} (ha : S.Safe scope a) (hb : S.Safe scope b) :
    S.Safe scope (Node.foldBinary op a b) := by
  unfold Node.foldBinary
  split
  · split
    · trivial
    · exact ⟨ha, hb⟩
  · split
    · trivial
    · exact ⟨ha, hb⟩
  · split
    · exact hb
    · split
      · exact ha
      · exact ⟨ha, hb⟩
  · split
    · exact ha
    · split
      · exact hb
      · exact ⟨ha, hb⟩
  · split
    · split
      · trivial
      · exact ⟨ha, hb⟩
    · exact ⟨ha, hb⟩

theorem safe_collapseZero {n : Node K} (h : S.Safe scope n) : S.Safe scope n.collapseZero := by
  unfold Node.collapseZero
  split
  · trivial
  · exact safe_foldBinary h.1 h.2
  · split
    · trivial
    · exact h
  · split
    · trivial
    · exact h
  · split
    · trivial
    · exact h
  · exact h

end Setting

/-! ## Safe nodes end -/

namespace Setting

open ExactLiteral ExactIndices

variable [Field K] [LinearOrder K] [IsStrictOrderedRing K] [ExactIndices K V] {S : Setting K V}
  {scope : IndexScope} {env : Env V} {F : Status K → Prop}

theorem keeps_collapseZero (S : Setting K V) : S.Keeps Node.collapseZero where
  var _ := rfl
  bound b := ParamLayout.collapseZeros_boundNode S.layout b
  plain _ h := h.collapseZeros
  reads _ _ _ h := Node.reads_collapseZeros h
  safe _ _ := safe_collapseZero

/-- **Normal forms are safe.** -/
theorem safe_normalize {n : Node K} (h : S.Safe scope n) : S.Safe scope n.normalize :=
  safe_transform (keeps_collapseZero S) _ _ <| safe_transform (keeps_stripExclusions S) _ _ <|
    safe_transform (keeps_absorbGuard S) _ _ <| safe_transform (keeps_nativeSum S) _ _ h

/-- **Inputs that serve a layout**: every parameter has its slot, and bounds are integral. -/
structure Admissible (S : Setting K V) : Prop where
  slots : ∀ name k, S.layout.slot? name = some k → k < S.inputs.p.size
  integral : ∀ i ∈ S.indices,
    i.lower.Integral S.layout S.inputs.p ∧ i.upper.Integral S.layout S.inputs.p

/-- The status at a bound that nothing declares. -/
def Unresolved (S : Setting K V) (s : Status K) : Prop :=
  ∃ name, s = .failed (.unresolvedSymbol name) ∧ S.layout.slot? name = none ∧
    ∃ i ∈ S.indices, i.lower = .symbol name ∨ i.upper = .symbol name

theorem Admissible.ends_lower (hS : S.Admissible) {i : Index} (hi : i ∈ S.indices) :
    ((S.layout.boundNode i.lower).meaning S.procedure S.inputs env).Ends S.Unresolved fun v =>
      ∃ n : ℤ, i.lower.site? S.layout S.inputs.p = some n ∧ real v = (n : K) :=
  ends_boundNode (hS.integral i hi).1 hS.slots fun name hname hslot =>
    ⟨name, rfl, hslot, i, hi, .inl hname⟩

theorem Admissible.ends_upper (hS : S.Admissible) {i : Index} (hi : i ∈ S.indices) :
    ((S.layout.boundNode i.upper).meaning S.procedure S.inputs env).Ends S.Unresolved fun v =>
      ∃ n : ℤ, i.upper.site? S.layout S.inputs.p = some n ∧ real v = (n : K) :=
  ends_boundNode (hS.integral i hi).2 hS.slots fun name hname hslot =>
    ⟨name, rfl, hslot, i, hi, .inr hname⟩

/-- The slot of an index that reads as a natural number. -/
theorem slot_of_real {array : String} {v : V} {k : ℕ} (h : real v = (Literal.ofInt k : K)) :
    Program.slot array v = .ok k := by
  rw [Program.slot, h, ofInt_eq, Int.cast_natCast, slot?_natCast]

/-- What an array holds at the slot of an index. -/
theorem read_of_real {inputs : Inputs K V} {b : Buffer} {data : Array V} {index v : V} {k : ℕ}
    (hb : b ≠ .zero) (hdata : (if b = .state then inputs.u else inputs.p) = data)
    (hindex : real index = (Literal.ofInt k : K)) (hv : data[k]? = some v) :
    inputs.read b index = v := by
  unfold Inputs.read
  rw [hindex, ofInt_eq, Int.cast_natCast, slot?_natCast]
  cases b with
  | state =>
    obtain rfl : inputs.u = data := hdata
    exact congrArg (Option.getD · zero) hv
  | param =>
    obtain rfl : inputs.p = data := hdata
    exact congrArg (Option.getD · zero) hv
  | zero => exact absurd rfl hb

/-- **The value of an access** is what the array holds at its slot. -/
theorem value_access {p : Procedure K} {inputs : Inputs K V} {b : Buffer} {data : Array V}
    {n : Node K} {v : V} {k : ℕ} (hb : b ≠ .zero)
    (hdata : (if b = .state then inputs.u else inputs.p) = data) (hn : n.Plain)
    (hreads : n.Reads p inputs env (Literal.ofInt k)) (hv : data[k]? = some v) :
    (Node.access b n).value inputs env = v := by
  obtain ⟨index, hindex, hreal⟩ := hreads
  rw [Node.value, ← hn.eq_value hindex]
  exact read_of_real hb hdata hreal hv

theorem value_access_ofInt {inputs : Inputs K V} {b : Buffer} {data : Array V} {v : V} {k : ℕ}
    (hb : b ≠ .zero) (hdata : (if b = .state then inputs.u else inputs.p) = data)
    (hv : data[k]? = some v) : (Node.access b (.ofInt k)).value inputs env = v :=
  read_of_real hb hdata (real_ofLiteral _) hv

theorem ends_fetch {b : Buffer} {data : Array V} {n : Node K} (hb : b ≠ .zero)
    (hdata : (if b = .state then S.inputs.u else S.inputs.p) = data)
    (h : S.Inside scope data.size n) (henv : S.Fits scope env) :
    ((Node.access b n).meaning S.procedure S.inputs env).Ends F fun v =>
      v = (Node.access b n).value S.inputs env := by
  obtain ⟨k, hk, index, hindex, hreal⟩ := h.reads env henv
  have hv : data[k]? = some data[k] := Array.getElem?_eq_getElem hk
  refine .inl ⟨data[k], ?_, ?_⟩
  · rw [Node.meaning, andThen_ok]
    refine ⟨index, hindex, ?_⟩
    rw [Procedure.fetch, hdata, slot_of_real hreal]
    dsimp only
    rw [hv]
    rfl
  · exact (value_access hb hdata h.plain ⟨index, hindex, hreal⟩ hv).symm

/-- **A sum ends** if its summand does at every site. -/
theorem ends_sum (hS : S.Admissible) {x : String} {lo hi body : Node K} {i : Index}
    (hranges : S.Ranges scope x lo hi i) (henv : S.Fits scope env)
    (hbody : ∀ env, S.Fits ((i, x) :: scope) env →
      (body.meaning S.procedure S.inputs env).Ends S.Unresolved fun v =>
        v = body.value S.inputs env) :
    ((Node.sum x lo hi [] body).meaning S.procedure S.inputs env).Ends S.Unresolved fun v =>
      v = (Node.sum x lo hi [] body).value S.inputs env := by
  obtain ⟨hi, hx, rfl, rfl⟩ := hranges
  rw [Node.meaning, Node.value]
  have hplain := Node.Plain.boundNode (K := K) S.layout
  refine ((hS.ends_upper hi).imp fun v hv hsite =>
    And.intro ((hplain i.upper).eq_value hv) hsite).andThen fun upper hu => ?_
  refine ((hS.ends_lower hi).imp fun v hv hsite =>
    And.intro ((hplain i.lower).eq_value hv) hsite).andThen fun lower hl => ?_
  obtain ⟨rfl, top, htop, hupper⟩ := hu
  obtain ⟨rfl, bottom, hbottom, hlower⟩ := hl
  generalize (S.layout.boundNode i.upper).value S.inputs env = upper at hupper ⊢
  generalize (S.layout.boundNode i.lower).value S.inputs env = lower at hlower ⊢
  have hspan : span lower upper = (top - bottom + 1).toNat := by
    rw [span, hlower, hupper, site_intCast, site_intCast]
  -- What is still to be added comes on top of the sum so far.
  let term := fun v => body.value S.inputs ((x, v) :: env)
  have hrounds : (Rounds upper (fun v acc => (body.meaning S.procedure S.inputs
      ((x, v) :: env)).andThen fun w => .of (.ok (add acc w))) lower zero).Ends S.Unresolved
        fun acc => acc = sumOver [] term lower upper := by
    refine (ends_rounds hupper (I := fun m v acc => bottom ≤ m ∧ real v = (m : K) ∧
      countUp (addTerm [] term) (top - m + 1).toNat v acc = sumOver [] term lower upper)
        (fun m v _ h => h.2.1) ?_ ⟨le_rfl, hlower, by rw [sumOver, hspan]⟩).imp ?_
    · rintro m v acc hm ⟨hlow, hv, hsum⟩
      have hrange : S.InRange i v := ⟨bottom, top, m, hbottom, htop, hlow, hm, by rw [hv, ofInt_eq]⟩
      refine (hbody _ (henv.cons hx hrange)).andThen fun w hw => .of_ok ⟨by omega, ?_, ?_⟩
      · rw [real_add, real_one, hv, Int.cast_add, Int.cast_one]
      · rw [← hsum, show (top - m + 1).toNat = (top - (m + 1) + 1).toNat + 1 by omega, countUp, hw]
        rfl
    · rintro acc - ⟨v, -, -, hsum⟩
      rw [← hsum, show (top - max bottom (top + 1) + 1).toNat = 0 by omega, countUp]
  rcases hrounds with ⟨w, hw, hvalue⟩ | ⟨s, hs, hF⟩
  · exact .inl ⟨w, ⟨rfl, hw⟩, hvalue⟩
  · exact .inr ⟨s, ⟨rfl, hs⟩, hF⟩

end Setting

namespace Setting

variable {S : Setting K V}

mutual

/-- **A safe node ends** with its value, once a procedure that contains it has been checked. -/
theorem ends_of_safe [Field K] [LinearOrder K] [IsStrictOrderedRing K] [ExactIndices K V]
    (hS : S.Admissible) :
    ∀ (n : Node K) {names : List String} {scope : IndexScope} {env : Env V}, S.Safe scope n →
      n.check names = .ok () → (∀ q ∈ n.subnodes, q.checkToken = .ok ()) → S.Fits scope env →
        (n.meaning S.procedure S.inputs env).Ends S.Unresolved fun v => v = n.value S.inputs env
  | .const v => fun _ _ _ _ => by
    rw [Node.meaning, Node.value]
    exact .of_ok rfl
  | .imaginaryUnit => fun _ _ _ _ => by
    rw [Node.meaning, Node.value]
    exact .of_ok rfl
  | .time => fun _ _ _ _ => by
    rw [Node.meaning, Node.value]
    exact .of_ok rfl
  | .named name => fun _ _ htokens _ => by cases htokens _ List.mem_cons_self
  | .var x => fun hsafe _ _ henv => by
    obtain ⟨⟨i, y⟩, hmem, rfl⟩ := List.mem_map.mp hsafe
    obtain ⟨v, hv, -⟩ := henv i y hmem
    rw [Node.meaning, Node.value, hv]
    exact .inl ⟨v, ⟨v, rfl, rfl⟩, rfl⟩
  | .unresolved name => fun hsafe _ _ _ => hsafe.elim
  | .access .state i => fun hsafe _ _ henv => ends_fetch (by decide) rfl hsafe henv
  | .access .param i => fun hsafe _ _ henv => ends_fetch (by decide) rfl hsafe henv
  | .access .zero i => fun _ hcheck _ _ => by cases hcheck
  | .neg a => fun hsafe hcheck htokens henv => by
    have ha := ends_of_safe hS a hsafe hcheck (fun q hq =>
        htokens q (List.mem_cons_of_mem _ hq)) henv
    rw [Node.meaning, Node.value]
    exact ha.andThen fun v hv => .of_ok (by rw [hv])
  | .binary op a b => fun hsafe hcheck htokens henv => by
    obtain ⟨⟨⟩, hcheck₁, hcheck₂⟩ := ok_of_bind hcheck
    have ha := ends_of_safe hS a hsafe.1 hcheck₁ (fun q hq => htokens q
      (List.mem_cons_of_mem _ (List.mem_append_left _ hq))) henv
    have hb := ends_of_safe hS b hsafe.2 hcheck₂ (fun q hq => htokens q
      (List.mem_cons_of_mem _ (List.mem_append_right _ hq))) henv
    rw [Node.meaning, Node.value]
    exact ha.andThen fun v hv => hb.andThen fun w hw => .of_ok (by rw [hv, hw])
  | .indicator l r => fun hsafe hcheck htokens henv => by
    obtain ⟨⟨⟩, hcheck₁, hcheck₂⟩ := ok_of_bind hcheck
    have hl := ends_of_safe hS l hsafe.1 hcheck₁ (fun q hq => htokens q
      (List.mem_cons_of_mem _ (List.mem_append_left _ hq))) henv
    have hr := ends_of_safe hS r hsafe.2 hcheck₂ (fun q hq => htokens q
      (List.mem_cons_of_mem _ (List.mem_append_right _ hq))) henv
    rw [Node.meaning, Node.value]
    exact hl.andThen fun v hv => hr.andThen fun w hw => .of_ok (by rw [hv, hw])
  | .call func args => fun hsafe hcheck htokens henv => by
    obtain ⟨b, hb, hone⟩ := Program.checkToken_call (htokens _ List.mem_cons_self)
    have hargs := endsAll_of_safe hS args hsafe hcheck
      (fun q hq => htokens q (List.mem_cons_of_mem _ hq)) henv
    rw [Node.meaning, Node.value]
    refine hargs.andThen fun vs hvs => ?_
    obtain ⟨v, hv⟩ := List.length_eq_one_iff.mp
      ((congrArg List.length (hvs.trans (Node.valueAll_eq args))).trans
        ((List.length_map _).trans hone))
    refine .inl ⟨apply b v, ⟨b, v, hb, hv, rfl⟩, ?_⟩
    rw [← hvs, hv, Node.callValue_cons (Builtin.ofName?_canonicalFunc hb)]
  | .sum x lo hi es body => fun hsafe hcheck htokens henv => by
    cases es with
    | cons e es => cases hcheck
    | nil =>
      obtain ⟨⟨⟩, -, hcheck⟩ := ok_of_bind hcheck
      obtain ⟨⟨⟩, -, hcheck⟩ := ok_of_bind hcheck
      obtain ⟨-, i, hranges, hbody⟩ := hsafe
      exact ends_sum hS hranges henv fun env' henv' => ends_of_safe hS body hbody hcheck
        (fun q hq => htokens q (List.mem_cons_of_mem _ (List.mem_append_right _ hq))) henv'
  | .boundedSum .. => fun _ hcheck _ _ => by cases hcheck
  | .guarded .. => fun _ hcheck _ _ => by cases hcheck

theorem endsAll_of_safe [Field K] [LinearOrder K] [IsStrictOrderedRing K] [ExactIndices K V]
    (hS : S.Admissible) :
    ∀ (ns : List (Node K)) {names : List String} {scope : IndexScope} {env : Env V},
      S.SafeAll scope ns → Node.checkAll names ns = .ok () →
        (∀ q ∈ Node.subnodesAll ns, q.checkToken = .ok ()) → S.Fits scope env →
          (Node.meaningAll S.procedure S.inputs ns env).Ends S.Unresolved
            fun vs => vs = Node.valueAll S.inputs ns env
  | [] => fun _ _ _ _ => by
    rw [Node.meaningAll, Node.valueAll]
    exact .of_ok rfl
  | n :: ns => fun hsafe hcheck htokens henv => by
    obtain ⟨⟨⟩, hcheck₁, hcheck₂⟩ := ok_of_bind hcheck
    have hn := ends_of_safe hS n hsafe.1 hcheck₁
      (fun q hq => htokens q (List.mem_append_left _ hq)) henv
    have hns := endsAll_of_safe hS ns hsafe.2 hcheck₂
      (fun q hq => htokens q (List.mem_append_right _ hq)) henv
    rw [Node.meaningAll, Node.valueAll]
    exact hn.andThen fun v hv => hns.andThen fun vs hvs => .of_ok (by rw [hv, hvs])

end

end Setting

end Fluxion
