import Fluxion.Proofs.Machine.Materialization
import Fluxion.Proofs.Nodes.Traversal
import Mathlib.Data.Int.ConditionallyCompleteOrder

/-!
# Proofs/Machine/RealEmbedding — real procedures over the complex numbers

A procedure without the imaginary unit can be called over the real and over the complex numbers.  In
exact arithmetic the real line is closed under all operations that are not cut along it, so on real
inputs the two calls are one:

    inputs, du ──────────call over K─────────▸ o
        │ ofReal                               │ ofReal
        ▾                                      ▾
    inputs, du ──────call over Complex K─────▸ o

`Computation.Image` says that the results of a computation are those of another one, mapped; it goes
through everything that meanings are made of, the rounds of a loop included.
-/

namespace Fluxion

open Arithmetic

/-! ## The real line -/

/-- **Exact elementary numbers**: literals, reciprocals and signs are those of an ordered field, in
which `x / 0 = 0`.  Nothing is said about roots and transcendental functions. -/
class ExactElementary (K : Type) [Field K] [LinearOrder K] [IsStrictOrderedRing K] [Elementary K] :
    Prop extends ExactLiteral K where
  div_eq (a b : K) : Elementary.div a b = a / b
  neg_eq (a : K) : Elementary.neg a = -a

section Numbers

variable {K : Type} [Field K] [LinearOrder K] [IsStrictOrderedRing K] [Elementary K]
  [ExactElementary K]

open ExactLiteral ExactElementary

instance : ExactIndices K K where
  real_ofLiteral _ := rfl
  real_add := add_eq
  real_sub := sub_eq
  real_neg := neg_eq
  real_mul_ofLiteral := mul_eq

instance : ExactIndices K (Complex K) where
  real_ofLiteral _ := rfl
  real_add v w := add_eq v.re w.re
  real_sub v w := sub_eq v.re w.re
  real_neg v := neg_eq v.re
  real_mul_ofLiteral v a := by
    change Literal.sub (Literal.mul v.re a) (Literal.mul v.im Literal.zero) = v.re * a
    rw [sub_eq, mul_eq, mul_eq, zero_eq, mul_zero, sub_zero]

/-- An integer of moderate size is an exponent. -/
theorem exponent?_ofInt {n : ℤ} (hn : |n| < 2147483647) :
    Literal.exponent? (Literal.ofInt n : K) = some n := by
  have hround : Literal.eq (Literal.round (Literal.ofInt n : K)) (Literal.ofInt n) = true := by
    rw [eq_iff, ofInt_eq, ExactLiteral.round_intCast]
  have hlimit : Literal.lt (Literal.abs (Literal.ofInt n : K)) Literal.exponentLimit = true := by
    rw [lt_iff, ExactLiteral.abs_eq, Literal.exponentLimit, ofInt_eq, ofInt_eq, ← Int.cast_abs]
    exact_mod_cast hn
  rw [Literal.exponent?, hround, hlimit, ofInt_eq, toInt_intCast]
  rfl

namespace Elementary

theorem powerFrom_eq (a r : K) (n : ℕ) : powerFrom a r n = r * a ^ n := by
  induction n using Nat.strongRecOn generalizing a r with
  | ind n ih =>
    have hbits : n = 2 * (n / 2) + n % 2 := (Nat.div_add_mod n 2).symm
    -- the lowest bit of the exponent goes into the factor
    have hfactor : (if n % 2 = 1 then Literal.mul r a else r) = r * a ^ (n % 2) := by
      rcases Nat.mod_two_eq_zero_or_one n with h | h <;> simp [h, mul_eq]
    rw [powerFrom, hfactor]
    split
    · next hzero => rw [show n % 2 = n by omega]
    · next hpos =>
      rw [ih (n / 2) (by omega), mul_eq, mul_assoc, ← pow_two, ← pow_mul, ← pow_add,
        add_comm, ← hbits]

/-- **Integral powers are those of the field.** -/
theorem power_eq (a : K) (n : ℤ) : power a n = a ^ n := by
  rw [power, powerFrom_eq, one_eq, one_mul]
  split
  · next hneg =>
    rw [div_eq, one_div, ← zpow_natCast, ← zpow_neg]
    congr 1
    omega
  · next hpos =>
    rw [← zpow_natCast]
    congr 1
    omega

end Elementary

namespace Complex

theorem eq_ofReal {z : Complex K} {x : K} (hre : z.re = x) (him : z.im = 0) : z = ofReal x := by
  obtain ⟨re, im⟩ := z
  rw [ofReal, zero_eq]
  exact congrArg₂ mk hre him

variable (a b : K)

theorem add_ofReal : add (ofReal a) (ofReal b) = ofReal (Literal.add a b) :=
  eq_ofReal rfl (by simp [add, ofReal, add_eq, zero_eq])

theorem sub_ofReal : sub (ofReal a) (ofReal b) = ofReal (Literal.sub a b) :=
  eq_ofReal rfl (by simp [sub, ofReal, sub_eq, zero_eq])

theorem neg_ofReal : neg (ofReal a) = ofReal (Elementary.neg a) :=
  eq_ofReal rfl (by simp [neg, ofReal, neg_eq, zero_eq])

theorem mul_ofReal : mul (ofReal a) (ofReal b) = ofReal (a * b) :=
  eq_ofReal (by simp [mul, ofReal, sub_eq, mul_eq, zero_eq])
    (by simp [mul, ofReal, add_eq, mul_eq, zero_eq])

theorem div_ofReal : div (ofReal a) (ofReal b) = ofReal (a / b) := by
  refine eq_ofReal ?_ (by simp [div, normSq, ofReal, add_eq, sub_eq, mul_eq, zero_eq, div_eq])
  simp only [div, normSq, ofReal, add_eq, mul_eq, zero_eq, div_eq, mul_zero, add_zero]
  -- the square below is no change where `b` is zero either
  rw [mul_div_assoc, div_self_mul_self', div_eq_mul_inv]

theorem inv_ofReal : inv (ofReal a) = ofReal a⁻¹ := by
  refine eq_ofReal ?_ (by simp [inv, normSq, ofReal, add_eq, mul_eq, zero_eq, div_eq, neg_eq])
  simp only [inv, normSq, ofReal, add_eq, mul_eq, zero_eq, div_eq, mul_zero, add_zero]
  exact div_self_mul_self' a

theorem powerRest_ofReal (acc : K) (e : ℕ) :
    powerRest (ofReal b) (ofReal acc) e = ofReal (acc * b ^ (2 * (e / 2))) := by
  induction e using Nat.strongRecOn generalizing b acc with
  | ind e ih =>
    rw [powerRest]
    split
    · next he =>
      have hfactor : (if e / 2 % 2 = 1 then mul (ofReal acc) (ofReal (b * b)) else ofReal acc)
          = ofReal (acc * (b * b) ^ (e / 2 % 2)) := by
        rcases Nat.mod_two_eq_zero_or_one (e / 2) with h | h <;> simp [h, mul_ofReal]
      rw [mul_ofReal]
      dsimp only
      rw [hfactor, ih (e / 2) (by omega), mul_assoc, ← pow_add, Nat.mod_add_div, pow_mul, pow_two]
    · next he => rw [show e / 2 = 0 by omega, Nat.mul_zero, pow_zero, mul_one]

theorem powerPos_ofReal {e : ℕ} (he : 0 < e) : powerPos (ofReal b) e = ofReal (b ^ e) := by
  induction e using Nat.strongRecOn generalizing b with
  | ind e ih =>
    rw [powerPos]
    split
    · next heven =>
      rw [mul_ofReal, ih (e / 2) (by omega) _ (by omega), ← pow_two, ← pow_mul]
      congr 2
      omega
    · split
      · next hone => rw [hone, pow_one]
      · next hodd hone =>
        rw [powerRest_ofReal, ← pow_succ']
        congr 2
        omega

/-- **An integral power of a real number is real**, and the power of the field. -/
theorem power_ofReal (n : ℤ) : power (ofReal a) n = ofReal (a ^ n) := by
  rw [power]
  split
  · next hzero => rw [hzero, zpow_zero, one_eq]
  · next hne =>
    split
    · next hneg =>
      rw [inv_ofReal, powerPos_ofReal _ (by omega), ← zpow_natCast, inv_zpow']
      congr 2
      omega
    · next hpos =>
      rw [powerPos_ofReal _ (by omega), ← zpow_natCast]
      congr 2
      omega

theorem pow_ofReal {n : ℤ} (hn : |n| < 2147483647) :
    pow (ofReal a) (ofReal (Literal.ofInt n)) = ofReal
      (Elementary.realPow a (Literal.ofInt n)) := by
  have hreal : Literal.isZero (Literal.zero : K) = true := isZero_iff.mpr zero_eq
  have hexponent := exponent?_ofInt (K := K) hn
  rw [pow, Elementary.realPow]
  simp only [ofReal, hreal, if_true, hexponent]
  rw [Elementary.power_eq]
  exact power_ofReal a n

end Complex

end Numbers

/-! ## Mapped computations -/

namespace Computation

variable {σ τ α α' β β' : Type} {f : α → α'} {g : σ → τ} {x : Computation σ α}
  {y : Computation τ α'}

/-- A result with its value mapped by one function and what stops it by another one. -/
def mapped (f : α → α') (g : σ → τ) : Except σ α → Except τ α'
  | .ok a => .ok (f a)
  | .error s => .error (g s)

/-- **The results of one computation are those of another one, mapped.** -/
def Image (f : α → α') (g : σ → τ) (x : Computation σ α) (y : Computation τ α') : Prop :=
  ∀ r', y r' ↔ ∃ r, x r ∧ r' = mapped f g r

namespace Image

theorem ok (hx : Image f g x y) {a' : α'} : y (.ok a') ↔ ∃ a, x (.ok a) ∧ a' = f a := by
  rw [hx]
  constructor
  · rintro ⟨r, hr, heq⟩
    cases r with
    | ok a => exact ⟨a, hr, Except.ok.inj heq⟩
    | error s => cases heq
  · rintro ⟨a, ha, rfl⟩
    exact ⟨.ok a, ha, rfl⟩

theorem error (hx : Image f g x y) {s' : τ} : y (.error s') ↔ ∃ s, x (.error s) ∧ s' = g s := by
  rw [hx]
  constructor
  · rintro ⟨r, hr, heq⟩
    cases r with
    | ok a => cases heq
    | error s => exact ⟨s, hr, Except.error.inj heq⟩
  · rintro ⟨s, hs, rfl⟩
    exact ⟨.error s, hs, rfl⟩

theorem of (f : α → α') (g : σ → τ) (r : Except σ α) : Image f g (.of r) (.of (mapped f g r)) := by
  refine fun r' => ⟨fun h => ⟨r, rfl, h⟩, ?_⟩
  rintro ⟨_, rfl, h⟩
  exact h

theorem empty (f : α → α') (g : σ → τ) : Image f g (fun _ => False) (fun _ => False) := by
  simp [Image]

/-- A condition that has nothing to do with values. -/
theorem and (P : Prop) (hx : Image f g x y) : Image f g (fun r => P ∧ x r) (fun r => P ∧ y r) := by
  intro r'
  simp only [hx r', and_assoc, exists_and_left]

theorem andThen {k : α → Computation σ β} {k' : α' → Computation τ β'} {f' : β → β'}
    (hx : Image f g x y) (hk : ∀ a, x (.ok a) → Image f' g (k a) (k' (f a))) :
    Image f' g (x.andThen k) (y.andThen k') := by
  intro r'
  constructor
  · rintro (⟨a', ha', hr'⟩ | ⟨s', hs', rfl⟩)
    · obtain ⟨a, ha, rfl⟩ := hx.ok.mp ha'
      obtain ⟨r, hr, rfl⟩ := (hk a ha r').mp hr'
      exact ⟨r, .inl ⟨a, ha, hr⟩, rfl⟩
    · obtain ⟨s, hs, rfl⟩ := hx.error.mp hs'
      exact ⟨.error s, .inr ⟨s, hs, rfl⟩, rfl⟩
  · rintro ⟨r, ⟨a, ha, hr⟩ | ⟨s, hs, rfl⟩, rfl⟩
    · exact .inl ⟨f a, hx.ok.mpr ⟨a, ha, rfl⟩, (hk a ha _).mpr ⟨r, hr, rfl⟩⟩
    · exact .inr ⟨g s, hx.error.mpr ⟨s, hs, rfl⟩, rfl⟩

theorem stopping {σ' τ' : Type} {h : σ → σ'} {h' : τ → τ'} {g' : σ' → τ'} (hx : Image f g x y)
    (hg : ∀ s, h' (g s) = g' (h s)) : Image f g' (x.stopping h) (y.stopping h') := by
  have hmapped (r : Except σ α) : (mapped f g r).mapError h' = mapped f g' (r.mapError h) := by
    cases r with
    | ok a => rfl
    | error s => exact congrArg Except.error (hg s)
  intro r'
  constructor
  · rintro ⟨_, hr', rfl⟩
    obtain ⟨r, hr, rfl⟩ := (hx _).mp hr'
    exact ⟨_, ⟨r, hr, rfl⟩, hmapped r⟩
  · rintro ⟨_, ⟨r, hr, rfl⟩, rfl⟩
    exact ⟨_, (hx _).mpr ⟨r, hr, rfl⟩, (hmapped r).symm⟩

variable {K V W : Type} [Literal K] [Arithmetic K V] [Arithmetic K W] {φ : V → W} {upper : V}
  {body : V → β → Computation σ β} {body' : W → β' → Computation τ β'} {f : β → β'}

/-- **The rounds of a loop are mapped if each of them is**, and if its variable is. -/
theorem rounds (hupper : ∀ v, atMost (φ v) (φ upper) = atMost v upper)
    (hnext : ∀ v, add (φ v) one = φ (add v one))
    (hbody : ∀ v b, Image f g (body v b) (body' (φ v) (f b))) (v : V) (b : β) :
    Image f g (Rounds upper body v b) (Rounds (φ upper) body' (φ v) (f b)) := by
  intro r'
  constructor
  · intro h
    generalize hv' : φ v = v', hb' : f b = b' at h
    induction h generalizing v b with
    | done hv =>
      subst hv' hb'
      exact ⟨.ok b, .done (hupper v ▸ hv), rfl⟩
    | step hv hb _ ih =>
      subst hv' hb'
      obtain ⟨b₁, hb₁, rfl⟩ := (hbody v b).ok.mp hb
      obtain ⟨r, hr, rfl⟩ := ih _ _ (hnext v).symm rfl
      exact ⟨r, .step (hupper v ▸ hv) hb₁ hr, rfl⟩
    | stop hv hb =>
      subst hv' hb'
      obtain ⟨s, hs, rfl⟩ := (hbody v b).error.mp hb
      exact ⟨.error s, .stop (hupper v ▸ hv) hs, rfl⟩
  · rintro ⟨r, hr, rfl⟩
    induction hr with
    | done hv => exact .done ((hupper _).trans hv)
    | step hv hb _ ih =>
      exact .step ((hupper _).trans hv) ((hbody _ _).ok.mpr ⟨_, hb, rfl⟩) (hnext _ ▸ ih)
    | stop hv hb => exact .stop ((hupper _).trans hv) ((hbody _ _).error.mpr ⟨_, hb, rfl⟩)

end Image

end Computation

/-! ## Meanings on the real line -/

variable {K : Type}

open Fluxion.Complex Fluxion.Computation

section Embedded

variable [Elementary K] {p : Procedure K} {inputs : Inputs K K} {env : Env K}

/-- The same inputs as complex numbers. -/
def Inputs.embedded (inputs : Inputs K K) : Inputs K (Complex K) :=
  ⟨inputs.u.map ofReal, inputs.p.map ofReal, inputs.t⟩

/-- The same variables with complex values. -/
def Env.embedded (env : Env K) : Env (Complex K) := env.map fun q => (q.1, ofReal q.2)

/-- The same outcome with a complex derivative, whose imaginary parts are all zero. -/
def Outcome.embedded (o : Outcome K K) : Outcome K (Complex K) := ⟨o.status, o.du.map ofReal⟩

theorem Env.lookup_embedded (env : Env K) (x : String) :
    env.embedded.lookup x = (env.lookup x).map ofReal := by
  induction env with
  | nil => rfl
  | cons q env ih =>
    obtain ⟨y, v⟩ := q
    rw [embedded, List.map_cons, List.lookup_cons, List.lookup_cons, ← embedded, ih]
    cases x == y <;> rfl

/-- Indices are read off real parts. -/
theorem Program.slot_ofReal (array : String) (v : K) :
    slot (K := K) array (ofReal v) = slot array v := rfl

namespace Procedure

theorem fetch_embedded (b : Buffer) (v : K) :
    p.fetch inputs.embedded b (ofReal v) = mapped ofReal id (p.fetch inputs b v) := by
  have hdata : (if b = .state then inputs.embedded.u else inputs.embedded.p)
      = (if b = .state then inputs.u else inputs.p).map ofReal := by
    split <;> rfl
  rw [fetch, fetch, hdata, Program.slot_ofReal]
  cases Program.slot (K := K) (p.bufferName b) v with
  | error e => rfl
  | ok n =>
    dsimp only
    rw [Array.getElem?_map, Array.size_map]
    cases (if b = .state then inputs.u else inputs.p)[n]? <;> rfl

theorem store_embedded (du : Array K) (index v : K) :
    p.store (du.map ofReal) (ofReal index) (ofReal v)
      = mapped (Array.map ofReal) id (p.store du index v) := by
  rw [store, store, Program.slot_ofReal]
  cases Program.slot (K := K) p.naming.derivative index with
  | error e => rfl
  | ok n =>
    dsimp only
    rw [Array.size_map]
    split
    · exact congrArg Except.ok Array.map_setIfInBounds.symm
    · rfl

end Procedure

theorem Arithmetic.differ_ofReal (v w : K) :
    differ (ofReal v) (ofReal w) = ofReal (differ v w) := by
  change ofBool (!Literal.eq v w) = ofReal (ofBool (!Literal.eq v w))
  cases Literal.eq v w <;> rfl

namespace Node

theorem image_var (x : String) : Image ofReal id ((Node.var x).meaning p inputs env)
    ((Node.var x).meaning p inputs.embedded env.embedded) := by
  intro r'
  rw [meaning, meaning, Env.lookup_embedded]
  constructor
  · rintro ⟨v', hv', rfl⟩
    obtain ⟨v, hv, rfl⟩ := Option.map_eq_some_iff.mp hv'
    exact ⟨.ok v, ⟨v, hv, rfl⟩, rfl⟩
  · rintro ⟨_, ⟨v, hv, rfl⟩, rfl⟩
    exact ⟨ofReal v, by rw [hv, Option.map_some], rfl⟩

theorem image_meaningAll {ns : List (Node K)}
    (h : ∀ n ∈ ns, Image ofReal id (n.meaning p inputs env)
      (n.meaning p inputs.embedded env.embedded)) :
    Image (List.map ofReal) id (meaningAll p inputs ns env)
      (meaningAll p inputs.embedded ns env.embedded) := by
  induction ns with
  | nil => exact .of _ _ (.ok [])
  | cons n ns ih =>
    obtain ⟨hn, hns⟩ := List.forall_mem_cons.mp h
    rw [meaningAll, meaningAll]
    refine hn.andThen fun v _ => (ih hns).andThen fun vs _ => ?_
    exact .of _ _ (.ok (v :: vs))

end Node

end Embedded

/-- **No function and no power takes a node off the real line**: it calls only `real`, `imag` and
`conj`, and exponents are integers that powers are multiplied out for. -/
def Node.Tame [Literal K] : Node K → Prop
  | .call func _ => func = "real" ∨ func = "imag" ∨ func = "conj"
  | .binary .pow _ e => ∃ n : ℤ, |n| < 2147483647 ∧ e = .ofInt n
  | _ => True

section Exact

variable [Field K] [LinearOrder K] [IsStrictOrderedRing K] [Elementary K] [ExactElementary K]

/-- Operations on real numbers are real, powers with the exponents that are multiplied out. -/
theorem BinaryOp.apply_ofReal (op : BinaryOp) (v w : K)
    (hpow : op = .pow → ∃ n : ℤ, |n| < 2147483647 ∧ w = Literal.ofInt n) :
    op.apply (ofReal v) (ofReal w) = ofReal (op.apply v w) := by
  cases op with
  | add => exact add_ofReal v w
  | sub => exact sub_ofReal v w
  | mul => exact (mul_ofReal v w).trans (congrArg ofReal (ExactLiteral.mul_eq v w).symm)
  | div => exact (div_ofReal v w).trans (congrArg ofReal (ExactElementary.div_eq v w).symm)
  | pow =>
    obtain ⟨n, hn, rfl⟩ := hpow rfl
    exact pow_ofReal v hn

/-- The functions that are defined part by part. -/
theorem Builtin.apply_ofReal {func : String} {b : Builtin} (hb : ofName? func = some b)
    (hfunc : func = "real" ∨ func = "imag" ∨ func = "conj") (v : K) :
    Arithmetic.apply b (ofReal v) = ofReal (Arithmetic.apply b v) := by
  rcases hfunc with rfl | rfl | rfl
  · obtain rfl : Builtin.real = b := Option.some.inj ((by decide : _ = _).symm.trans hb)
    rfl
  · obtain rfl : Builtin.imag = b := Option.some.inj ((by decide : _ = _).symm.trans hb)
    rfl
  · obtain rfl : Builtin.conj = b := Option.some.inj ((by decide : _ = _).symm.trans hb)
    exact eq_ofReal rfl (by simp [Arithmetic.apply, Complex.apply, Complex.conj, ofReal,
      ExactElementary.neg_eq, ExactLiteral.zero_eq])

namespace Node

theorem image_apply {func : String} (hfunc : func = "real" ∨ func = "imag" ∨ func = "conj")
    (vs : List K) : Image ofReal id
      (fun r : Except (Status K) K =>
        ∃ b v, Builtin.ofName? func = some b ∧ vs = [v] ∧ r = .ok (Arithmetic.apply b v))
      (fun r => ∃ b v, Builtin.ofName? func = some b ∧ vs.map ofReal = [v] ∧
        r = .ok (Arithmetic.apply b v)) := by
  intro r'
  constructor
  · rintro ⟨b, v', hb, hv', rfl⟩
    obtain ⟨v, rfl, rfl⟩ := List.map_eq_singleton_iff.mp hv'
    exact ⟨_, ⟨b, v, hb, rfl, rfl⟩, congrArg Except.ok (Builtin.apply_ofReal hb hfunc v)⟩
  · rintro ⟨_, ⟨b, v, hb, rfl, rfl⟩, rfl⟩
    exact ⟨b, ofReal v, hb, rfl, congrArg Except.ok (Builtin.apply_ofReal hb hfunc v).symm⟩

variable (p : Procedure K) (inputs : Inputs K K)

/-- **Over the complex numbers a node means the image of what it means over the real ones.** -/
theorem image_meaning (n : Node K) (hn : ∀ q ∈ n.subnodes, q.Tame ∧ q ≠ .imaginaryUnit)
    (env : Env K) :
    Image ofReal id (n.meaning p inputs env) (n.meaning p inputs.embedded env.embedded) := by
  induction n using childInduction generalizing env with
  | step n ih =>
    replace ih : ∀ m ∈ n.children, ∀ env : Env K,
        Image ofReal id (m.meaning p inputs env) (m.meaning p inputs.embedded env.embedded) :=
      fun m hm => ih m hm fun q hq => hn q (mem_subnodes_of_mem_children hm hq)
    obtain ⟨htame, himaginary⟩ := hn n (self_mem_subnodes n)
    cases n with
    | const v => exact .of _ _ (.ok _)
    | time => exact .of _ _ (.ok _)
    | unresolved x => exact .of _ _ (.error _)
    | imaginaryUnit => exact absurd rfl himaginary
    | named x => exact .empty _ _
    | boundedSum x lo hi es body => exact .empty _ _
    | guarded l r body => exact .empty _ _
    | var x => exact image_var x
    | access b i =>
      rw [meaning, meaning]
      refine (ih i (by simp [children]) env).andThen fun v _ => ?_
      rw [Procedure.fetch_embedded]
      exact .of _ _ _
    | neg a =>
      rw [meaning, meaning]
      refine (ih a (by simp [children]) env).andThen fun v _ => ?_
      rw [show Arithmetic.neg (ofReal v) = ofReal (Arithmetic.neg v) from neg_ofReal v]
      exact .of _ _ (.ok _)
    | binary op a b =>
      rw [meaning, meaning]
      refine (ih a (by simp [children]) env).andThen fun v _ =>
        (ih b (by simp [children]) env).andThen fun w hw => ?_
      have hpow : op = .pow → ∃ n : ℤ, |n| < 2147483647 ∧ w = Literal.ofInt n := by
        rintro rfl
        obtain ⟨n, hlimit, rfl⟩ := htame
        exact ⟨n, hlimit, Except.ok.inj hw⟩
      rw [op.apply_ofReal v w hpow]
      exact .of _ _ (.ok _)
    | call func args =>
      rw [meaning, meaning]
      exact (image_meaningAll fun m hm => ih m hm env).andThen fun vs _ => image_apply htame vs
    | indicator l r =>
      rw [meaning, meaning]
      refine (ih l (by simp [children]) env).andThen fun v _ =>
        (ih r (by simp [children]) env).andThen fun w _ => ?_
      rw [differ_ofReal]
      exact .of _ _ (.ok _)
    | sum x lo hi es body =>
      rw [meaning, meaning]
      refine (ih hi (by simp [children]) env).andThen fun upper _ =>
        (ih lo (by simp [children]) env).andThen fun lower _ => .and _ ?_
      refine .rounds (φ := ofReal) (fun _ => rfl) (fun v => add_ofReal v one) (fun v acc =>
        ?_) lower zero
      refine (ih body (by simp [children]) ((x, v) :: env)).andThen fun w _ => ?_
      rw [show Arithmetic.add (ofReal acc) (ofReal w) =
        ofReal (Arithmetic.add acc w) from add_ofReal acc w]
      exact .of _ _ (.ok _)

/-- What stops a node stops the run, with the image of the derivative. -/
theorem image_stopping (n : Node K) (hn : ∀ q ∈ n.subnodes, q.Tame ∧ q ≠ .imaginaryUnit)
    (env : Env K) (du : Array K) :
    Image ofReal Outcome.embedded ((n.meaning p inputs env).stopping (⟨·, du⟩))
      ((n.meaning p inputs.embedded env.embedded).stopping (⟨·, du.map ofReal⟩)) :=
  (n.image_meaning p inputs hn env).stopping fun _ => rfl

end Node

end Exact

namespace Stmt

variable [Elementary K] (p : Procedure K) (inputs : Inputs K K)

mutual

/-- **Over the complex numbers a statement does what it does over the real ones**, to the image of
the derivative. -/
theorem image_meaning [Field K] [LinearOrder K] [IsStrictOrderedRing K] [ExactElementary K] :
    ∀ s : Stmt K, (∀ q ∈ s.subnodes, q.Tame ∧ q ≠ .imaginaryUnit) → ∀ (env : Env K)
      (du : Array K), Image (Array.map ofReal) Outcome.embedded
      (s.meaning p inputs env du) (s.meaning p inputs.embedded env.embedded (du.map ofReal))
  | .assign slot value, hs, env, du => by
    rw [meaning, meaning]
    have hslot := slot.image_meaning p inputs (fun q hq => hs q (List.mem_append_left _ hq)) env
    have hvalue := value.image_meaning p inputs (fun q hq => hs q (List.mem_append_right _ hq)) env
    refine (hslot.andThen fun index _ => hvalue.andThen fun v _ => ?_).stopping fun _ => rfl
    rw [Procedure.store_embedded]
    exact .of _ _ _
  | .loop x lo hi body, hs, env, du => by
    rw [meaning, meaning]
    have hlo := lo.image_stopping p inputs (fun q hq => hs q (by
      simp only [subnodes, List.mem_append, hq, true_or])) env du
    have hhi := hi.image_stopping p inputs (fun q hq => hs q (by
      simp only [subnodes, List.mem_append, hq, true_or, or_true])) env du
    have hbody := image_meaningAll body fun q hq => hs q (by
      simp only [subnodes, List.mem_append, hq, or_true])
    refine hhi.andThen fun upper _ => hlo.andThen fun lower _ => ?_
    exact .rounds (φ := ofReal) (fun _ => rfl) (fun v => add_ofReal v one)
      (fun v du => hbody ((x, v) :: env) du) lower du

theorem image_meaningAll [Field K] [LinearOrder K] [IsStrictOrderedRing K] [ExactElementary K] :
    ∀ ss : List (Stmt K), (∀ q ∈ subnodesAll ss, q.Tame ∧ q ≠ .imaginaryUnit) → ∀ (env : Env K)
      (du : Array K), Image (Array.map ofReal) Outcome.embedded
      (meaningAll p inputs ss env du) (meaningAll p inputs.embedded ss env.embedded (du.map ofReal))
  | [], _, env, du => .of _ _ (.ok du)
  | s :: rest, hs, env, du => by
    rw [meaningAll, meaningAll]
    have hrest := image_meaningAll rest fun q hq => hs q (List.mem_append_right _ hq)
    exact (image_meaning s (fun q hq => hs q (List.mem_append_left _ hq)) env du).andThen
      fun du' _ =>
      hrest env du'

end

end Stmt

variable [Field K] [LinearOrder K] [IsStrictOrderedRing K] [Elementary K] [ExactElementary K]
  {p : Procedure K} {inputs : Inputs K K}

/-- **The outcomes over the complex numbers are the images of those over the real ones.** -/
theorem Procedure.means_embedded (hp : ∀ n ∈ p.nodes, n.Tame ∧ n ≠ .imaginaryUnit) (du : Array K)
    (o' : Outcome K (Complex K)) :
    p.Means inputs.embedded (du.map ofReal) o' ↔ ∃ o, p.Means inputs du o ∧ o' = o.embedded := by
  have himage := Stmt.image_meaningAll p inputs p.body hp [] du
  have hbody (r : Except (Outcome K K) (Array K)) :
      Outcome.ofBody (mapped (Array.map ofReal) Outcome.embedded r) =
          (Outcome.ofBody r).embedded := by
    cases r <;> rfl
  constructor
  · rintro ⟨_, hr', rfl⟩
    obtain ⟨r, hr, rfl⟩ := (himage _).mp hr'
    exact ⟨_, ⟨r, hr, rfl⟩, hbody r⟩
  · rintro ⟨_, ⟨r, hr, rfl⟩, rfl⟩
    exact ⟨_, (himage _).mpr ⟨r, hr, rfl⟩, (hbody r).symm⟩

namespace Callable

variable {c : Callable K}

/-- **Real and complex calls agree on real systems.**  A procedure that can be called over the real
numbers, that calls only `real`, `imag` and `conj` and whose exponents are integers below the limit
can be called over the complex numbers too.  On real inputs that call returns exactly when the real
one does, in the same way and with the same derivative, all of whose imaginary parts are zero. -/
theorem returns_embedded (h : p.materialize .real = .ok c) (hp : ∀ n ∈ p.nodes, n.Tame)
    (inputs : Inputs K K) (du : Array K) :
    ∃ c', p.materialize .complexNumbers = .ok c' ∧ ∀ o' : Outcome K (Complex K),
      c'.Returns inputs.embedded (du.map ofReal) o' ↔ ∃ o, c.Returns inputs du o ∧
        o' = o.embedded := by
  obtain ⟨hstructure, htokens, himaginary⟩ := (Procedure.exists_materialize_iff .real).mp ⟨c, h⟩
  obtain ⟨c', h'⟩ := (Procedure.exists_materialize_iff .complexNumbers).mpr
    ⟨hstructure, htokens, fun _ => rfl⟩
  have hreal : ∀ n ∈ p.nodes, n.Tame ∧ n ≠ .imaginaryUnit := by
    refine fun n hn => ⟨hp n hn, ?_⟩
    rintro rfl
    cases himaginary hn
  refine ⟨c', h', fun o' => ?_⟩
  constructor
  · intro ho'
    obtain ⟨o, ho, rfl⟩ := (Procedure.means_embedded hreal du o').mp (means_of_returns h' ho')
    exact ⟨o, returns_of_means h ho, rfl⟩
  · rintro ⟨o, ho, rfl⟩
    exact returns_of_means h' ((Procedure.means_embedded hreal du _).mpr
      ⟨o, means_of_returns h ho, rfl⟩)

end Callable

/-- The rationals with their elementary functions cut off behind the linear term. -/
def Fraction : Type := ℚ

namespace Fraction

instance : Field Fraction := inferInstanceAs (Field ℚ)

instance : LinearOrder Fraction := inferInstanceAs (LinearOrder ℚ)

instance : IsStrictOrderedRing Fraction := inferInstanceAs (IsStrictOrderedRing ℚ)

instance : DecidableEq Fraction := inferInstanceAs (DecidableEq ℚ)

instance : Elementary Fraction where
  toLiteral := rationalLiteral
  div := rationalArithmetic.div
  neg := rationalArithmetic.neg
  nan := (0 : ℚ)
  isInfinite _ := false
  isNaN _ := false
  isNegative a := decide (a < 0)
  sqrt := applyRational .sqrt
  exp := applyRational .exp
  log := applyRational .log
  sin := applyRational .sin
  cos := applyRational .cos
  sinh := applyRational .sin
  cosh := applyRational .cos
  pow := powRational
  hypot a b := max |a| |b|
  atan2 a b := a / b

instance : ExactElementary Fraction where
  toExactLiteral := inferInstanceAs (ExactLiteral ℚ)
  div_eq _ _ := rfl
  neg_eq _ := rfl

end Fraction

namespace Callable

/-- A procedure with a negative power, and with a sum of quotients of conjugates. -/
def coupledRates : Procedure Fraction where
  naming := ⟨"du", "u", "p", "t"⟩
  states := []
  params := []
  body := [
    .loop "i" (.ofInt 0) (.ofInt 1)
      [.assign (.var "i") (.binary .add (.binary .pow (.access .state (.var "i")) (.ofInt (-3)))
        (.sum "j" (.ofInt 0) (.ofInt 1) [] (.binary .div (.call "conj" [.access .state (.var "j")])
          (.access .param (.ofInt 0)))))]]
  checkBounds := true

theorem returns_embedded_coupledRates : ∃ c c', coupledRates.materialize .real = .ok c ∧
    (∀ n ∈ coupledRates.nodes, n.Tame) ∧
    c.Returns (V := Fraction) ⟨#[2, 0], #[4], 0⟩ #[0, 0] ⟨.finished, #[5 / 8, 1 / 2]⟩ ∧
    coupledRates.materialize .complexNumbers = .ok c' ∧
    c'.Returns (V := Complex Fraction) ⟨#[ofReal 2, ofReal 0], #[ofReal 4], 0⟩ #[ofReal 0, ofReal 0]
      ⟨.finished, #[ofReal (5 / 8), ofReal (1 / 2)]⟩ := by
  obtain ⟨c, hc⟩ : ∃ c, coupledRates.materialize .real = .ok c := ⟨_, rfl⟩
  have hrun : c.Returns (V := Fraction) ⟨#[2, 0], #[4], 0⟩ #[0, 0]
      ⟨.finished, #[5 / 8, 1 / 2]⟩ := by
    obtain rfl := Except.ok.inj hc
    exact ⟨(fun h => by cases h), 200, by decide +kernel⟩
  have htame : ∀ n ∈ coupledRates.nodes, n.Tame := by
    have hpower : ∃ n : ℤ, |n| < 2147483647 ∧ (Node.ofInt (-3) : Node Fraction) = .ofInt n :=
      ⟨-3, by decide, rfl⟩
    simpa [coupledRates, Procedure.nodes, Stmt.subnodesAll, Stmt.subnodes, Node.ofInt,
      Node.subnodes, Node.subnodesAll, Node.subnodesExclusions, Node.Tame] using hpower
  obtain ⟨c', hc', hreturns⟩ := returns_embedded hc htame ⟨#[2, 0], #[4], 0⟩ #[0, 0]
  refine ⟨c, c', hc, htame, hrun, hc', ?_⟩
  simpa [Inputs.embedded, Outcome.embedded] using (hreturns _).mpr ⟨_, hrun, rfl⟩

end Callable

end Fluxion
