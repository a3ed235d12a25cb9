import Fluxion.Proofs.Generation.IndexSafety
import Fluxion.Proofs.Nodes.PassValues
import Fluxion.Proofs.Lowering.Valuation

/-!
# Proofs/Generation/Correctness — generated procedures compute the right-hand sides

**Whatever the right-hand side of an equation evaluates to is what a call leaves in the derivative**
(`Callable.computes_derivative`), in exact arithmetic and for every system that a procedure can be
generated from.  The way there goes through the value of a node:

    right-hand side   ──clear──▸   ──lower──▸   node   ──passes──▸   node   ──run──▸   du
          evaluateAt                            value               value             meaning

Each arrow keeps the value: clearing by `Stages.Lead.evaluateAt_cleared`, lowering by
`Interprets.has_of_lowered`,
the passes by `Setting.value_normalize`, and a run ends with it by `Setting.ends_of_safe`.
-/

namespace Fluxion

open Arithmetic Fluxion.Computation

variable {K V : Type} [Literal K] [Arithmetic K V]

/-- **What an entry of the derivative has to be**: the value of its right-hand side, if that has
one. -/
def EquationSystem.Derives (system : EquationSystem K) (b : Bindings V) : Entry → V → Prop
  | .scalar k, v => ∀ e w, system.scalars[k]? = some e → e.rhs.evaluateAt b [] = .ok w → v = w
  | .member j m, v => ∀ q w, system.families[j]? = some q →
    q.1.rhs.evaluateAt b [(q.2, m)] = .ok w → v = w

namespace Stages

open ExactLiteral ExactIndices

variable [Field K] [LinearOrder K] [IsStrictOrderedRing K] [Field V] [ExactArithmetic K V]
  {g : Stages K} {system : EquationSystem K} {params : List (Expr K)} {options : Options}
  {p : Procedure K} {inputs : Inputs K V} {du : Array V} {n : Node K} {v : V}

/-- What is done to a lowered value keeps it. -/
theorem Lead.value_final (h : g.Lead system params options p) {S : Setting K V} {scope : IndexScope}
    (hn : S.Safe scope n) (env : Env V) :
    (g.final n).value S.inputs env = n.value S.inputs env := by
  rw [final, Setting.value_transform (Setting.preserves_respell S) (h.safe_finish hn)]
  rcases h.finish with hid | hnormalize
  · rw [hid]
    rfl
  · rw [hnormalize]
    exact Setting.value_normalize hn env

/-- The value of a scalar state is that of its right-hand side. -/
theorem Serves.value_scalar (hs : g.Serves system inputs) (h : g.Lead system params options p)
    (hsep : system.Separate params) (hbounds : system.Bounded g.layout inputs.p) {k : ℕ}
    (hn : g.scalars[k]? = some n) :
    system.Derives (system.bindings g.layout inputs options) (.scalar k)
      ((g.final n).value inputs []) := by
  intro e₀ w he₀ hw
  obtain ⟨e, c, he, hc, hlowered, hmentions⟩ := h.lowered_scalar hn
  obtain ⟨e', he', -, hrhs⟩ := getElem?_of_forall₂ h.forall₂_scalars he₀
  obtain rfl := Option.some.inj (he.symm.trans he')
  have hequation : e₀ ∈ system.equations := (List.mem_filter.mp (List.mem_of_getElem? he₀)).1
  have hcleared := hrhs ▸ h.evaluateAt_cleared hbounds hequation hw
  calc (g.final n).value inputs []
      = n.value inputs [] := h.value_final (hs.safe_scalar h hn) []
    _ = w := (interprets_value inputs).has_of_lowered (hs.renders h hsep hbounds hc) hlowered
        (fun i hi => hmentions i (Expr.mem_mentions_of_summed hi)) (.nil _ _) hcleared

/-- The value of a family at a site is that of its right-hand side. -/
theorem Serves.value_family (hs : g.Serves system inputs) (h : g.Lead system params options p)
    (hsep : system.Separate params) (hbounds : system.Bounded g.layout inputs.p) {j : ℕ} {m : ℤ}
    (hn : g.families[j]? = some n) :
    system.Derives (system.bindings g.layout inputs options) (.member j m)
      ((g.final n).value inputs [(g.var, atSite m)]) := by
  intro q₀ w hq₀ hw
  obtain ⟨q, hq, ⟨-, hrhs⟩, hindex⟩ := getElem?_of_forall₂ h.forall₂_families hq₀
  obtain ⟨c, hc, hlowered, hmentions⟩ := h.lowered_family hq hn
  have hequation := EquationSystem.mem_equations_of_family (List.mem_of_getElem? hq₀)
  have hcleared := hrhs ▸ h.evaluateAt_cleared hbounds hequation hw
  have hstands : Stands [(q.2, g.var)] [(q₀.2, m)] [(g.var, (atSite m : V))] := by
    rw [hindex]
    exact (Stands.nil [] []).push List.not_mem_nil q₀.2 m
  calc (g.final n).value inputs [(g.var, atSite m)]
      = n.value inputs [(g.var, atSite m)] := h.value_final (hs.safe_family h hq hn) _
    _ = w := (interprets_value inputs).has_of_lowered (hs.renders h hsep hbounds hc) hlowered
        (fun i hi => hmentions i (Expr.mem_mentions_of_summed hi)) hstands hcleared

/-- **A body leaves the values of the right-hand sides.** -/
theorem Serves.ends_values (hs : g.Serves system inputs) (h : g.Lead system params options p)
    (hsep : system.Separate params) (hbounds : system.Bounded g.layout inputs.p)
    (hdu : system.slots g.layout inputs.p ≤ du.size)
    (htokens : ∀ n ∈ p.nodes, n.checkToken = .ok ()) :
    (Stmt.meaningAll p inputs p.body [] du).Ends
      (fun o => (g.setting system p inputs).Unresolved o.status)
      (g.Leaves inputs (system.Derives (system.bindings g.layout inputs options)) du.size) := by
  refine hs.ends_body h hdu (P := fun m v => v = atSite m) {
    site := fun m _ hv => hv ▸ real_atSite m
    next := fun m _ hv => hv ▸ add_atSite_one m
    lower := fun q hq => ?_
    scalar := fun k n hn => ?_
    family := fun j n q lo hi m v hn hq hlo hhi hle hge hv => ?_ }
  · have hi := h.mem_indices hq
    refine ((hs.admissible h).ends_lower hi).imp fun v hv hsite => ?_
    obtain ⟨lo, hlo, -⟩ := hsite
    refine ⟨lo, hlo, ((Node.Plain.boundNode g.layout q.2.lower).eq_value hv).trans ?_⟩
    exact (hbounds q.2 hi).1.value_boundNode hlo []
  · refine (hs.ends_scalar htokens h hn).imp fun v _ hv => ?_
    exact hv ▸ hs.value_scalar h hsep hbounds hn
  · have hsite : (g.setting system p inputs).InRange q.2 v :=
      ⟨lo, hi, m, hlo, hhi, hle, hge, by rw [hv, real_atSite, ofInt_eq]⟩
    refine (hs.ends_family htokens h hq hn hsite).imp fun w _ hw => ?_
    rw [hw, hv]
    exact hs.value_family h hsep hbounds hn

end Stages

/-! ## Calls -/

namespace Callable

open EquationSystem (twoSites)

variable [Field K] [LinearOrder K] [IsStrictOrderedRing K] [Field V] [ExactArithmetic K V]

/-- **A call of a generated procedure computes the right-hand sides.**  States, parameters and the
time have names of their own, the arrays have a slot for each of them, and every symbolic bound is a
scalar parameter that holds an integer.  Then the call finishes, in exactly one way.  In the slot of
a scalar state, and in that of a family at each site of its range, it leaves what the right-hand
side evaluates to, with symbols bound to their values in the arrays and the index of the family at
the site. -/
theorem computes_derivative {system : EquationSystem K} {params : List (Expr K)} {options : Options}
    {p : Procedure K} {dialect : Dialect} {c : Callable K} (hnames : (system.names params).Nodup)
    (hp : system.generate params options = .ok p) (hc : p.materialize dialect = .ok c) :
    ∃ layout, ParamLayout.ofParams params = .ok layout ∧ ∀ (inputs : Inputs K V) (du : Array V),
      layout.size ≤ inputs.p.size → system.slots layout inputs.p ≤ inputs.u.size →
      system.slots layout inputs.p ≤ du.size → system.Bounded layout inputs.p →
        ∃ o, c.Returns inputs du o ∧ (∀ o', c.Returns inputs du o' → o' = o) ∧
          o.status = .finished ∧
          (∀ (k : ℕ) e v, system.scalars[k]? = some e →
            e.rhs.evaluateAt (system.bindings layout inputs options) [] = .ok v →
              o.du[k]? = some v) ∧
          ∀ (j : ℕ) e i lo hi m v, system.families[j]? = some (e, i) →
            i.lower.site? layout inputs.p = some lo → i.upper.site? layout inputs.p = some hi →
            lo ≤ m → m ≤ hi →
            e.rhs.evaluateAt (system.bindings layout inputs options) [(i, m)] = .ok v →
              o.du[Stages.memberSlot system.scalars.length j lo hi m]? = some v := by
  obtain ⟨g, h⟩ := EquationSystem.generate_stages hp
  refine ⟨g.layout, h.layout, fun inputs du hparams hstates hdu hbounds => ?_⟩
  have hs : g.Serves system inputs := ⟨hparams, hstates, fun i hi =>
    ⟨(hbounds i hi).1.integral, (hbounds i hi).2.integral⟩⟩
  have hsep := EquationSystem.separate_of_nodup hnames
  obtain ⟨-, htokens, -⟩ := Procedure.materialize_eq_ok hc
  rcases hs.ends_values h hsep hbounds hdu htokens with
    ⟨du', hdu', hleaves⟩ | ⟨o, -, name, -, hslot, i, hi, hsymbol⟩
  · have hreturns := returns_of_means hc ⟨_, hdu', rfl⟩
    refine ⟨_, hreturns, fun o' ho' => ho'.unique hreturns, rfl, ?_, ?_⟩
    · intro k e v he hv
      have hk : k < g.split.scalars.length :=
        h.forall₂_scalars.length_eq ▸ (List.getElem?_eq_some_iff.mp he).1
      obtain ⟨w, hw, hderives⟩ := hleaves.scalar k hk
      rw [← hderives e v he hv]
      exact hw
    · intro j e i lo hi m v hq hlo hhi hle hge hv
      obtain ⟨q, hq', -, hindex⟩ := getElem?_of_forall₂ h.forall₂_families hq
      obtain ⟨w, hw, hderives⟩ :=
        hleaves.member j q lo hi m hq' (hindex ▸ hlo) (hindex ▸ hhi) hle hge
      rw [h.forall₂_scalars.length_eq, ← hderives (e, i) v hq hv]
      exact hw
  · -- Every symbolic bound has a slot.
    rcases hsymbol with hlower | hupper
    · obtain ⟨k, n, hk, -⟩ := (hbounds i hi).1 name hlower
      cases hslot.symm.trans hk
    · obtain ⟨k, n, hk, -⟩ := (hbounds i hi).2 name hupper
      cases hslot.symm.trans hk

/-- A scalar state driven by time, and a family in which every member is driven by all others and by
a family of parameters.  Nothing declares `z` and `W`. -/
def drivenCrossTalk : EquationSystem ℚ where
  equations := [
    .of (.scalar "x")
      (.add [.mul [.symbol "a", .symbol "t"], .neg (.mul [.symbol "x", .symbol "z"])]),
    .of (.indexed ⟨"n", [upToN "i"]⟩) (.add [.symbol "x",
      .mul [.sum (upToN "j") [upToN "i"] (.indexed ⟨"n", [upToN "j"]⟩),
        .pow (.symbol "a") (.number (-1))],
      .sum (twoSites "k") [] (.mul [.index (twoSites "k"), .indexed ⟨"J", [twoSites "k"]⟩]),
      .sum (twoSites "k") [] (.indexed ⟨"W", [twoSites "k"]⟩)])]
  time := some "t"

/-- Its parameters. -/
def crossTalkParams : List (Expr ℚ) :=
  [.symbol "N", .symbol "a", .indexed ⟨"J", [twoSites "l"]⟩]

def crossTalkLayout : ParamLayout :=
  ⟨[("N", 0), ("a", 1)], [⟨"J", [twoSites "l"], 2, [(1, 2)]⟩], 4⟩

/-- Three members, `a = 2` and `t = 7`. -/
def crossTalkInputs : Inputs ℚ ℚ := ⟨#[5, 1, 2, 3], #[3, 2, 10, 20], 7⟩

theorem computes_derivative_drivenCrossTalk : ∃ p c,
    drivenCrossTalk.generate crossTalkParams { unknownsZero := true } = .ok p ∧
      p.materialize .real = .ok c ∧ ∃ o, c.Returns crossTalkInputs #[0, 0, 0, 0] o ∧
        o.status = .finished ∧ o.du[0]? = some 14 ∧ o.du[2]? = some 57 := by
  obtain ⟨p, hp⟩ : ∃ p,
      drivenCrossTalk.generate crossTalkParams { unknownsZero := true } = .ok p := ⟨_, rfl⟩
  obtain ⟨c, hc⟩ : ∃ c, p.materialize .real = .ok c := by
    obtain rfl := Except.ok.inj hp
    exact ⟨_, rfl⟩
  have hnames : (drivenCrossTalk.names crossTalkParams).Nodup := by decide +kernel
  obtain ⟨layout, hlayout, h⟩ := computes_derivative (V := ℚ) hnames hp hc
  obtain rfl : crossTalkLayout = layout := Except.ok.inj hlayout
  have hindices : ∀ i ∈ drivenCrossTalk.indices, i.lower = .literal 1 ∧
      (i.upper = .symbol "N" ∨ i.upper = .literal 2) := by decide +kernel
  have hbounded : drivenCrossTalk.Bounded crossTalkLayout crossTalkInputs.p := by
    intro i hi
    obtain ⟨hlower, hupper⟩ := hindices i hi
    rw [hlower]
    refine ⟨nofun, ?_⟩
    rintro name hname
    rcases hupper with hupper | hupper
    · obtain rfl := Bound.symbol.inj (hname.symm.trans hupper)
      exact ⟨0, 3, rfl, rfl⟩
    · cases hname.symm.trans hupper
  obtain ⟨o, ho, -, hfinished, hscalar, hfamily⟩ :=
    h crossTalkInputs #[0, 0, 0, 0] (by decide +kernel) (by decide +kernel)
      (by decide +kernel) hbounded
  refine ⟨p, c, hp, hc, o, ho, hfinished, ?_, ?_⟩
  · exact hscalar 0 _ 14 rfl (by decide +kernel)
  · exact hfamily 0 _ _ 1 3 2 57 rfl (by decide +kernel) (by decide +kernel) (by decide) (by decide)
      (by decide +kernel)

end Callable

end Fluxion
