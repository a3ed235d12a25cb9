import Fluxion.Proofs.Lowering.ArrayBindings
import Fluxion.Proofs.Machine.Refinement
import Fluxion.Proofs.Lowering.Valuation
import Mathlib.Data.Int.Range

/-!
# Proofs/Generation/LoopSites — the sites that a compiled loop visits

Limits that are parameters are numbers, and a number stands for the site next to it.  An expression
rounds the limits of a sum first and then goes through the sites between them.  A compiled loop
rounds nothing: its variable starts at the lower limit `a` and goes up by one as long as it is at
most the upper limit `c`, so its body is carried out `⌊c - a⌋ + 1` times (`rounds_iff_inTurn`).

Let both limits be next to a site, as close as a subscript has to be to a slot.  Then **the loop
visits the sites that the expression sums over exactly if the lower limit is not further above its
site than the upper one**; otherwise it loses the last site and no other (`visited_sites`).  Up to
`3 - 10⁻¹²` a loop from `1` goes to `2` (`last_site_lost`).
-/

namespace Fluxion

open Arithmetic

/-! ## Rounds in turn -/

namespace Computation

variable {σ α β : Type}

/-- A computation with one value, then the next on it. -/
theorem andThen_iff {x : Computation σ α} {a : α} (hx : x = of (.ok a)) {f : α → Computation σ β}
    {r : Except σ β} : x.andThen f r ↔ f a r := by
  rw [hx, of_andThen]

/-- **One computation for each of some values**, in this order. -/
def inTurn {V : Type} (body : V → β → Computation σ β) : List V → β → Computation σ β
  | [], b => .of (.ok b)
  | v :: vs, b => (body v b).andThen (inTurn body vs)

end Computation

section Rounds

variable {σ β K V : Type} [Literal K] [Arithmetic K V]

/-- So many values that go up by one from a first one. -/
def countUp (v : V) : ℕ → List V
  | 0 => []
  | k + 1 => v :: countUp (add v one) k

variable {upper v : V} {body : V → β → Computation σ β} {b : β} {r : Except σ β}

theorem rounds_of_above (h : atMost v upper = false) : Rounds upper body v b r ↔ r = .ok b := by
  constructor
  · rintro (- | ⟨hv, -⟩ | ⟨hv, -⟩)
    · rfl
    all_goals cases h.symm.trans hv
  · rintro rfl
    exact .done h

theorem rounds_of_atMost (h : atMost v upper = true) :
    Rounds upper body v b r ↔ (body v b).andThen (Rounds upper body (add v one)) r := by
  constructor
  · rintro (hv | ⟨-, hb, hr⟩ | ⟨-, hb⟩)
    · cases h.symm.trans hv
    · exact .inl ⟨_, hb, hr⟩
    · exact .inr ⟨_, hb, rfl⟩
  · rintro (⟨b', hb, hr⟩ | ⟨s, hb, rfl⟩)
    · exact .step h hb hr
    · exact .stop h hb

variable [Field K] [LinearOrder K] [IsStrictOrderedRing K] [ExactIndices K V]

open ExactLiteral ExactIndices

/-- **The rounds of a loop** are those in which the variable has not passed the upper limit. -/
theorem rounds_iff_countUp {k : ℕ} (hin : ∀ j < k, real v + j ≤ real upper)
    (hout : real upper < real v + k) :
    Rounds upper body v b r ↔ Computation.inTurn body (countUp v k) b r := by
  induction k generalizing v b r with
  | zero =>
    have habove : atMost v upper = false := by
      rw [atMost, Bool.eq_false_iff, ne_eq, le_iff, not_le]
      simpa using hout
    exact rounds_of_above habove
  | succ k ih =>
    have hatMost : atMost v upper = true := by
      rw [atMost, le_iff]
      simpa using hin 0 k.succ_pos
    -- the next round starts one higher and has one round less to go
    have hrest : ∀ b', Rounds upper body (add v one) b'
        = Computation.inTurn body (countUp (add v one) k) b' := by
      intro b'
      funext r
      refine propext (ih (fun j hj => ?_) ?_)
      · have hle := hin (j + 1) (Nat.succ_lt_succ hj)
        push_cast at hle
        rw [real_add, real_one]
        linarith
      · push_cast at hout
        rw [real_add, real_one]
        linarith
    rw [rounds_of_atMost hatMost, countUp, Computation.inTurn, funext hrest]

theorem map_real_countUp (v : V) (k : ℕ) :
    (countUp v k).map real = (List.range k).map fun j : ℕ => real v + (j : K) := by
  induction k generalizing v with
  | zero => rfl
  | succ k ih =>
    rw [countUp, List.map_cons, ih, List.range_succ_eq_map, List.map_cons, List.map_map,
      Nat.cast_zero, add_zero]
    congr 1
    refine List.map_congr_left fun j _ => ?_
    rw [Function.comp_apply, real_add, real_one, Nat.cast_succ]
    ring

variable [FloorRing K]

/-- **A loop is carried out `⌊c - a⌋ + 1` times** between limits `a` and `c`, if that is
positive. -/
theorem rounds_iff_inTurn : Rounds upper body v b r ↔
    Computation.inTurn body (countUp v (⌊real upper - real v⌋ + 1).toNat) b r := by
  refine rounds_iff_countUp (fun j hj => ?_) ?_
  · have hfloor : (j : ℤ) ≤ ⌊real upper - real v⌋ := by omega
    have hle := Int.le_floor.mp hfloor
    push_cast at hle
    linarith
  · have hlt := Int.lt_floor_add_one (real upper - real v)
    have hle : ((⌊real upper - real v⌋ + 1 : ℤ) : K) ≤ ((⌊real upper - real v⌋ + 1).toNat : ℤ) :=
      Int.cast_le.mpr (Int.self_le_toNat _)
    push_cast at hle
    linarith

end Rounds

/-! ## Numbers next to a site -/

section Near

variable {a c : ℚ}

/-- **A number next to an integer**, as close as a subscript has to be to its slot. -/
def NearSite (a : ℚ) : Prop := ∃ m : ℤ, |a - m| ≤ Literal.tolerance

theorem site_of_near {m : ℤ} (h : |a - m| ≤ Literal.tolerance) : Literal.site a = m := by
  obtain ⟨hlow, hhigh⟩ : -(1 / 1000000000) ≤ a - m ∧ a - m ≤ 1 / 1000000000 := abs_le.mp h
  have hround : roundRational a = m := by
    rw [roundRational]
    split
    · have hfloor : ⌊-a + 1 / 2⌋ = -m :=
        Int.floor_eq_iff.mpr ⟨by push_cast; linarith, by push_cast; linarith⟩
      rw [hfloor, neg_neg]
    · exact Int.floor_eq_iff.mpr ⟨by linarith, by linarith⟩
  change Literal.toInt ((roundRational a : ℤ) : ℚ) = m
  rw [hround, ExactLiteral.toInt_intCast]

namespace NearSite

/-- The site of a number next to one. -/
theorem bounds (h : NearSite a) :
    -(1 / 1000000000) ≤ a - Literal.site a ∧ a - Literal.site a ≤ 1 / 1000000000 := by
  obtain ⟨m, hm⟩ := h
  rw [site_of_near hm]
  exact abs_le.mp hm

theorem site_add (h : NearSite a) (j : ℕ) : Literal.site (a + j) = Literal.site a + j := by
  obtain ⟨m, hm⟩ := h
  rw [site_of_near hm]
  refine site_of_near ?_
  push_cast
  rwa [add_sub_add_right_eq_sub]

/-- **How many whole steps lie between two such numbers**, and one more: those between their sites,
or one less if the first is further above its site. -/
theorem floor_sub_add_one (ha : NearSite a) (hc : NearSite c) : ⌊c - a⌋ + 1 =
    (if a - Literal.site a ≤ c - Literal.site c then Literal.site c + 1 else Literal.site c)
      - Literal.site a := by
  have ha := ha.bounds
  have hc := hc.bounds
  split
  · have hfloor : ⌊c - a⌋ = Literal.site c - Literal.site a :=
      Int.floor_eq_iff.mpr ⟨by push_cast; linarith, by push_cast; linarith⟩
    omega
  · have hfloor : ⌊c - a⌋ = Literal.site c - Literal.site a - 1 :=
      Int.floor_eq_iff.mpr ⟨by push_cast; linarith, by push_cast; linarith⟩
    omega

end NearSite

variable {V : Type} [Arithmetic ℚ V] [ExactIndices ℚ V]

/-- Values that go up by one from next to a site stand next to one site after the other. -/
theorem map_site_countUp {v : V} (h : NearSite (real v)) (n : ℤ) :
    (countUp v (n - Literal.site (real v : ℚ)).toNat).map (fun w => Literal.site (real w))
      = Int.range (Literal.site (real v : ℚ)) n := by
  have hmap := congrArg (List.map Literal.site)
      (map_real_countUp v (n - Literal.site (real v : ℚ)).toNat)
  rw [List.map_map, List.map_map] at hmap
  exact hmap.trans (List.map_congr_left fun j _ => h.site_add j)

theorem range_eq_range_succ {m n : ℤ} : Int.range m n = Int.range m (n + 1) ↔ n < m := by
  constructor
  · intro h
    have hlength := congrArg List.length h
    simp only [Int.range, List.length_map, List.length_range] at hlength
    omega
  · intro h
    have hn : (n - m).toNat = (n + 1 - m).toNat := by omega
    rw [Int.range, Int.range, hn]

end Near

/-! ## Sums of expressions -/

section Sums

variable {K V : Type} [Literal K] [Arithmetic K V]

/-- **A sum over sites goes through them in turn**, without those that are left out. -/
theorem sumSites_eq_foldlM (op : V → V → V) (excluded : List ℤ) (term : ℤ → Except EvalError V)
    (lo hi : ℤ) (acc : V) : sumSites op excluded term (hi - lo + 1).toNat lo acc
      = ((Int.range lo (hi + 1)).filter (· ∉ excluded)).foldlM
          (fun acc n => do return op acc (← term n)) acc := by
  rw [Int.range, add_sub_right_comm]
  induction (hi - lo + 1).toNat generalizing lo acc with
  | zero => rfl
  | succ count ih =>
    have hshift : (List.range count).map ((fun j : ℕ => lo + (j : ℤ)) ∘ Nat.succ)
        = (List.range count).map fun j : ℕ => lo + 1 + (j : ℤ) :=
      List.map_congr_left fun j _ => by simp only [Function.comp_apply, Nat.cast_succ]; ring
    rw [sumSites, List.range_succ_eq_map, List.map_cons, List.map_map, hshift, Nat.cast_zero,
      add_zero]
    by_cases hlo : lo ∈ excluded
    · rw [if_pos hlo, List.filter_cons_of_neg (by simpa using hlo), ih]
    · rw [if_neg hlo, List.filter_cons_of_pos (by simpa using hlo), List.foldlM_cons]
      cases term lo with
      | error e => rfl
      | ok v => exact ih _ _

variable [Field K] [LinearOrder K] [IsStrictOrderedRing K] [ExactIndices K V]

/-- A limit stands for the site of what it holds. -/
theorem Bindings.bound_of_real? {b : Bindings V} {l : ParamLayout} {params : Array V}
    {limit : Bound} {a : K} (h : limit.real? l params = some a)
    (hb : ∀ x k v, l.slot? x = some k → params[k]? = some v → b.scalar x = some v) :
    b.bound limit = .ok (Literal.site a) := by
  cases limit with
  | literal n =>
    obtain rfl := Option.some.inj h
    rw [Bindings.bound, ExactLiteral.ofInt_eq, ExactLiteral.site_intCast]
  | symbol x =>
    obtain ⟨k, hk, h⟩ := Option.bind_eq_some_iff.mp h
    obtain ⟨v, hv, h⟩ := Option.bind_eq_some_iff.mp h
    obtain rfl := Option.some.inj h
    rw [Bindings.bound, Bindings.get, hb x k v hk hv]
    rfl

end Sums

/-! ## Compiled loops -/

section Compiled

variable {K V : Type} [Literal K] [Arithmetic K V]

open Program

/-- **The code of every sum and of every loop over an index carries out its body at some values of
the variable**, in this order and at no others, wherever it is placed in a program. -/
structure Index.RunsThrough (i : Index) (l : ParamLayout) (inputs : Inputs K V) (vs : List V) :
    Prop where
  sum : ∀ (p : Procedure K) (prog : Program K), prog.Serves p →
    ∀ (n : Node K) (x : String) (body : Node K),
      n = .sum x (l.boundNode i.lower) (l.boundNode i.upper) [] body →
      (∀ q ∈ n.subnodes, q.checkToken = .ok ()) → ∀ scope start piece env m,
        n.compile scope start = .ok piece → PieceAt prog start piece →
        Ready prog start scope env m →
          Implements prog inputs (Stopped prog inputs m.du)
            (fun v => Pushed start.locals piece.code.length m [v])
            (Computation.inTurn (fun v acc =>
              (body.meaning p inputs ((x, v) :: env)).andThen fun w =>
              .of (.ok (add acc w))) vs zero) m
  loop : ∀ (p : Procedure K) (prog : Program K), prog.Serves p →
    ∀ (s : Stmt K) (x : String) (body : List (Stmt K)),
      s = .loop x (l.boundNode i.lower) (l.boundNode i.upper) body →
      (∀ q ∈ s.subnodes, q.checkToken = .ok ()) → ∀ scope start piece env m,
        s.compile scope start = .ok piece → PieceAt prog start piece →
        Ready prog start scope env m →
          Implements prog inputs (Ended prog inputs) (Passed start.locals piece.code.length m)
            (Computation.inTurn (fun v du => Stmt.meaningAll p inputs body ((x, v) :: env) du)
              vs m.du) m

variable [Field K] [LinearOrder K] [IsStrictOrderedRing K] [ExactIndices K V] {l : ParamLayout}
  {inputs : Inputs K V}

/-- **What a loop between two limits runs through**: values that go up by one from the lower limit,
as many as fit below the upper one. -/
theorem Index.runsThrough [FloorRing K] {i : Index} {a c : K}
    (hlower : i.lower.real? l inputs.p = some a) (hupper : i.upper.real? l inputs.p = some c) :
    ∃ v : V, real v = a ∧ i.RunsThrough l inputs (countUp v (⌊c - a⌋ + 1).toNat) := by
  obtain ⟨v, rfl, hv⟩ := meaning_boundNode hlower
  obtain ⟨w, rfl, hw⟩ := meaning_boundNode hupper
  refine ⟨v, rfl, ?_, ?_⟩
  · rintro p prog hs _ x body rfl htokens scope start piece env m hcompile hpiece hready
    refine (carries hs _ htokens hcompile hpiece hready).congr fun r => ?_
    rw [Node.meaning]
    exact (Computation.andThen_iff (hw p env)).trans ((Computation.andThen_iff (hv p env)).trans
      ((and_iff_right rfl).trans rounds_iff_inTurn))
  · rintro p prog hs _ x body rfl htokens scope start piece env m hcompile hpiece hready
    refine (performs hs _ htokens hcompile hpiece hready).congr fun r => ?_
    rw [Stmt.meaning, hv, hw]
    exact (Computation.andThen_iff (Computation.of_stopping w _)).trans
      ((Computation.andThen_iff (Computation.of_stopping v _)).trans rounds_iff_inTurn)

end Compiled

/-! ## Sites -/

section Sites

variable {V : Type} [Arithmetic ℚ V] [ExactIndices ℚ V]

/-- **Compiled loops visit the sites of their limits**, those that an expression sums over, exactly
if there are none or the lower limit is not further above its site than the upper one.  Otherwise
they stop one site early. -/
theorem visited_sites (l : ParamLayout) (inputs : Inputs ℚ V) (i : Index) {a c : ℚ}
    (hlower : i.lower.real? l inputs.p = some a) (hupper : i.upper.real? l inputs.p = some c)
    (ha : NearSite a) (hc : NearSite c) :
    (∃ vs, i.RunsThrough l inputs vs ∧
      (vs.map (fun v => Literal.site (real v)) = Int.range (Literal.site a) (Literal.site c + 1) ↔
        Literal.site c < Literal.site a ∨ a - Literal.site a ≤ c - Literal.site c) ∧
      (c - Literal.site c < a - Literal.site a →
        vs.map (fun v => Literal.site (real v)) = Int.range (Literal.site a) (Literal.site c))) ∧
    ∀ b : Bindings V, (∀ x k v, l.slot? x = some k → inputs.p[k]? = some v → b.scalar x = some v) →
      ∀ away body outer, (Expr.sum i away body).evaluateAt b outer = (do
        let excluded ← away.mapM outer.get
        ((Int.range (Literal.site a) (Literal.site c + 1)).filter (· ∉ excluded)).foldlM
          (fun acc n => do return add acc (← body.evaluateAt b ((i, n) :: outer))) zero) := by
  constructor
  · obtain ⟨v, rfl, hruns⟩ := Index.runsThrough hlower hupper
    refine ⟨_, hruns, ?_⟩
    rw [ha.floor_sub_add_one hc, map_site_countUp ha]
    split
    · next h => exact ⟨⟨fun _ => .inr h, fun _ => rfl⟩, fun hlt => absurd h (not_le.mpr hlt)⟩
    · next h =>
      rw [range_eq_range_succ]
      exact ⟨⟨.inl, fun hsites => hsites.resolve_right h⟩, fun _ => rfl⟩
  · intro b hb away body outer
    rw [Expr.evaluateAt, Bindings.bound_of_real? hlower hb, Bindings.bound_of_real? hupper hb]
    simp only [sumSites_eq_foldlM]
    rfl

/-- An index between two parameters. -/
def spanned : Index := ⟨"k", .symbol "M", .symbol "N"⟩

/-- The two parameters in their slots. -/
def spannedLayout : ParamLayout := ⟨[("M", 0), ("N", 1)], [], 2⟩

/-- Values for the two parameters. -/
def spannedInputs (lower upper : ℚ) : Inputs ℚ ℚ := ⟨#[], #[lower, upper], 0⟩

/-- Up to just above three all sites are visited, up to just below the last one is not. -/
theorem visited_sites_spanned :
    (∃ vs, spanned.RunsThrough spannedLayout
      (spannedInputs (1 + 1 / 10 ^ 12) (3 + 1 / 10 ^ 10)) vs ∧
      vs.map (fun v => Literal.site (real v)) = [1, 2, 3]) ∧
    ∃ vs, spanned.RunsThrough spannedLayout (spannedInputs 1 (3 - 1 / 10 ^ 12)) vs ∧
      vs.map (fun v => Literal.site (real v)) = [1, 2] := by
  constructor
  · obtain ⟨⟨vs, hruns, hall, -⟩, -⟩ := visited_sites spannedLayout
      (spannedInputs (1 + 1 / 10 ^ 12) (3 + 1 / 10 ^ 10)) spanned rfl rfl ⟨1, by decide +kernel⟩
      ⟨3, by decide +kernel⟩
    exact ⟨vs, hruns, (hall.mpr (.inr (by decide +kernel))).trans (by decide +kernel)⟩
  · obtain ⟨⟨vs, hruns, -, hlast⟩, -⟩ :=
      visited_sites spannedLayout (spannedInputs 1 (3 - 1 / 10 ^ 12))
      spanned rfl rfl ⟨1, by decide +kernel⟩ ⟨3, by decide +kernel⟩
    exact ⟨vs, hruns, (hlast (by decide +kernel)).trans (by decide +kernel)⟩

/-- A state that counts the sites up to a parameter. -/
def counting : Equation ℚ := .of (.scalar "x") (.sum ⟨"k", .literal 1, .symbol "N"⟩ [] (.number 1))

/-- **Up to just below three a call counts two sites**, and the expression three. -/
theorem last_site_lost : NearSite (3 - 1 / 10 ^ 12) ∧ ∃ p c,
    EquationSystem.generate ⟨[counting], none⟩ [.symbol "N"] {} = .ok p ∧
      p.materialize .real = .ok c ∧
    c.Returns (V := ℚ) ⟨#[0], #[3 - 1 / 10 ^ 12], 0⟩ #[0] ⟨.finished, #[2]⟩ ∧
    counting.rhs.evaluateAt (EquationSystem.bindings (V := ℚ) ⟨[counting], none⟩ ⟨[("N", 0)], [], 1⟩
      ⟨#[0], #[3 - 1 / 10 ^ 12], 0⟩ {}) [] = .ok 3 := by
  exact ⟨⟨3, by decide +kernel⟩, _, _, rfl, rfl,
    ⟨by decide, 200, by decide +kernel⟩, by decide +kernel⟩

end Sites

end Fluxion
