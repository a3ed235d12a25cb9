import Fluxion.Proofs.Machine.Refinement
import Fluxion.Proofs.Generation.Statements

/-!
# Proofs/Generation/IndexSafety — generated procedures stay inside their arrays

The arrays of a call are large enough if they have a slot for every parameter and for every state, a
family counting once a site.  Then **a call of a generated procedure always returns**
(`Callable.returns_inside`): it finishes, or it stops where a bound has a symbol that is no scalar
parameter.  It never leaves an array, checked or not, and never meets an index that is no integer.

Only indices have to be exact for that.  The values of states and parameters may be anything.
-/

namespace Fluxion

open Arithmetic Fluxion.Computation

variable {K V : Type} [Literal K] [Arithmetic K V]

namespace Stages

variable {g : Stages K} {system : EquationSystem K} {params : List (Expr K)} {options : Options}
  {p : Procedure K} {inputs : Inputs K V} {du : Array V} {n : Node K}

variable [Field K] [LinearOrder K] [IsStrictOrderedRing K] [ExactIndices K V]

/-- What is done to a lowered value keeps it safe. -/
theorem Lead.safe_finish (h : g.Lead system params options p) {S : Setting K V} {scope : IndexScope}
    (hn : S.Safe scope n) : S.Safe scope (g.finish n) := by
  rcases h.finish with hid | hnormalize
  · rw [hid]
    exact hn
  · rw [hnormalize]
    exact Setting.safe_normalize hn

theorem Lead.safe_final (h : g.Lead system params options p) {S : Setting K V} {scope : IndexScope}
    (hn : S.Safe scope n) : S.Safe scope (g.final n) :=
  Setting.safe_transform (Setting.keeps_respell S) scope _ (h.safe_finish hn)

/-- The value of a scalar state is safe. -/
theorem Serves.safe_scalar (hs : g.Serves system inputs) (h : g.Lead system params options p)
    {k : ℕ} (hn : g.scalars[k]? = some n) : (g.setting system p inputs).Safe [] n := by
  obtain ⟨e, c, -, hc, hlowered, hmentions⟩ := h.lowered_scalar hn
  exact Setting.safe_of_lowered (hs.hosts h hc) hlowered hmentions

/-- The value of a family is safe at the sites of its index. -/
theorem Serves.safe_family (hs : g.Serves system inputs) (h : g.Lead system params options p)
    {j : ℕ} {q : Equation K × Index} (hq : g.split.families[j]? = some q)
    (hn : g.families[j]? = some n) : (g.setting system p inputs).Safe [(q.2, g.var)] n := by
  obtain ⟨c, hc, hlowered, hmentions⟩ := h.lowered_family hq hn
  exact Setting.safe_of_lowered (hs.hosts h hc) hlowered hmentions

section Ends

variable (htokens : ∀ n ∈ p.nodes, n.checkToken = .ok ())

include htokens

/-- The value of a scalar state ends. -/
theorem Serves.ends_scalar (hs : g.Serves system inputs)
    (h : g.Lead system params options p) {k : ℕ} (hn : g.scalars[k]? = some n) :
    ((g.final n).meaning p inputs []).Ends (g.setting system p inputs).Unresolved fun v =>
      v = (g.final n).value inputs [] := by
  obtain ⟨hcheck, hsubnodes⟩ := h.passed_scalar htokens (List.mem_of_getElem? hn)
  have hsafe := h.safe_final (hs.safe_scalar h hn)
  exact Setting.ends_of_safe (hs.admissible h) _ hsafe hcheck hsubnodes (.nil _)

/-- The value of a family ends at each site of its index. -/
theorem Serves.ends_family (hs : g.Serves system inputs)
    (h : g.Lead system params options p) {j : ℕ} {q : Equation K × Index}
    (hq : g.split.families[j]? = some q) (hn : g.families[j]? = some n)
    {v : V} (hv : (g.setting system p inputs).InRange q.2 v) :
    ((g.final n).meaning p inputs [(g.var, v)]).Ends (g.setting system p inputs).Unresolved fun w =>
      w = (g.final n).value inputs [(g.var, v)] := by
  obtain ⟨hcheck, hsubnodes⟩ := h.passed_family htokens (List.mem_of_getElem? hn)
  have hsafe := h.safe_final (hs.safe_family h hq hn)
  exact Setting.ends_of_safe (hs.admissible h) _ hsafe hcheck hsubnodes (.single hv)

/-- **The body of a generated procedure ends.** -/
theorem Serves.ends_generated (hs : g.Serves system inputs) (h : g.Lead system params options p)
    (hdu : system.slots g.layout inputs.p ≤ du.size) :
    (Stmt.meaningAll p inputs p.body [] du).Ends
      (fun o => (g.setting system p inputs).Unresolved o.status) fun _ => True := by
  have hvalues : g.EndsWell system p inputs (fun m v => real v = (m : K)) fun _ _ => True := {
    site := fun _ _ hv => hv
    next := fun m v hv => by
      rw [ExactIndices.real_add, real_one, hv, Int.cast_add, Int.cast_one]
    lower := fun q hq => (hs.admissible h).ends_lower (h.mem_indices hq)
    scalar := fun k n hn => (hs.ends_scalar htokens h hn).imp fun _ _ _ => trivial
    family := fun j n q lo hi m v hn hq hlo hhi hle hge hv => by
      have hsite : (g.setting system p inputs).InRange q.2 v :=
        ⟨lo, hi, m, hlo, hhi, hle, hge, by rw [hv, ExactLiteral.ofInt_eq]⟩
      exact (hs.ends_family htokens h hq hn hsite).imp fun _ _ _ => trivial }
  exact (hs.ends_body h hdu hvalues).imp fun _ _ _ => trivial

end Ends

end Stages

/-! ## Calls -/

namespace Callable

variable [Field K] [LinearOrder K] [IsStrictOrderedRing K] [ExactIndices K V]

/-- **A call of a generated procedure stays inside its arrays.**  If these have a slot for every
parameter and every state, and the parameters that bounds read have integral real parts, the call
returns in exactly one way.  It finishes, or it stops at a bound whose symbol is no scalar
parameter; so it finishes if there is no such bound. -/
theorem returns_inside {system : EquationSystem K} {params : List (Expr K)} {options : Options}
    {p : Procedure K} {dialect : Dialect} {c : Callable K}
    (hp : system.generate params options = .ok p) (hc : p.materialize dialect = .ok c) :
    ∃ layout, ParamLayout.ofParams params = .ok layout ∧ ∀ (inputs : Inputs K V) (du : Array V),
      layout.size ≤ inputs.p.size → system.slots layout inputs.p ≤ inputs.u.size →
      system.slots layout inputs.p ≤ du.size →
      (∀ i ∈ system.indices, i.lower.Integral layout inputs.p ∧ i.upper.Integral layout inputs.p) →
        ∃ o, c.Returns inputs du o ∧ (∀ o', c.Returns inputs du o' → o' = o) ∧
          (o.status = .finished ∨ ∃ name, o.status = .failed (.unresolvedSymbol name) ∧
            .symbol name ∉ params ∧
              ∃ i ∈ system.indices, i.lower = .symbol name ∨ i.upper = .symbol name) ∧
          ((∀ i ∈ system.indices, ∀ name, i.lower = .symbol name ∨ i.upper = .symbol name →
            .symbol name ∈ params) → o.status = .finished) := by
  obtain ⟨g, h⟩ := EquationSystem.generate_stages hp
  refine ⟨g.layout, h.layout, fun inputs du hparams hstates hdu hintegral => ?_⟩
  have hs : g.Serves system inputs := ⟨hparams, hstates, hintegral⟩
  obtain ⟨-, htokens, -⟩ := Procedure.materialize_eq_ok hc
  rcases hs.ends_generated htokens h hdu with ⟨du', hdu', -⟩ | ⟨o, ho, name, hname, hslot, hbound⟩
  · have hreturns := returns_of_means hc ⟨_, hdu', rfl⟩
    exact ⟨_, hreturns, fun o' ho' => ho'.unique hreturns, .inl rfl, fun _ => rfl⟩
  · have hreturns := returns_of_means hc ⟨_, ho, rfl⟩
    have hundeclared := h.not_mem_of_slot?_eq_none hslot
    refine ⟨_, hreturns, fun o' ho' => ho'.unique hreturns, .inr ⟨name, hname, hundeclared, hbound⟩,
      fun hdeclared => ?_⟩
    obtain ⟨i, hi, hsymbol⟩ := hbound
    exact absurd (hdeclared i hi name hsymbol) hundeclared

/-- The sites from one to `N`. -/
def upToN (label : String) : Index := ⟨label, .literal 1, .symbol "N"⟩

/-- A scalar state, and a family in which every member is driven by all others. -/
def crossTalk : EquationSystem ℚ where
  equations := [.of (.scalar "x") (.neg (.symbol "x")),
    .of (.indexed ⟨"n", [upToN "i"]⟩) (.add [.symbol "x",
      .sum (upToN "j") [upToN "i"] (.indexed ⟨"n", [upToN "j"]⟩)])]
  time := none

theorem returns_inside_crossTalk : ∃ p c, crossTalk.generate [.symbol "N"] {} = .ok p ∧
    p.materialize .real = .ok c ∧ ∃ o, c.Returns (V := ℚ) ⟨#[5, 1, 2, 3], #[3], 0⟩ #[0, 0, 0, 0] o ∧
      o.status = .finished := by
  obtain ⟨p, hp⟩ : ∃ p, crossTalk.generate [.symbol "N"] {} = .ok p := ⟨_, rfl⟩
  obtain ⟨c, hc⟩ : ∃ c, p.materialize .real = .ok c := by
    obtain rfl := Except.ok.inj hp
    exact ⟨_, rfl⟩
  obtain ⟨layout, hlayout, h⟩ := returns_inside (V := ℚ) hp hc
  obtain rfl := Except.ok.inj hlayout
  have hslots : crossTalk.slots ⟨[("N", 0)], [], 1⟩ #[(3 : ℚ)] = 4 := by decide +kernel
  have hbounds : ∀ i ∈ crossTalk.indices, i.lower = .literal 1 ∧ i.upper = .symbol "N" := by
    decide +kernel
  have hintegral : ∀ i ∈ crossTalk.indices, i.lower.Integral ⟨[("N", 0)], [], 1⟩ #[(3 : ℚ)] ∧
      i.upper.Integral ⟨[("N", 0)], [], 1⟩ #[(3 : ℚ)] := by
    intro i hi
    obtain ⟨hlower, hupper⟩ := hbounds i hi
    rw [hlower, hupper]
    refine ⟨nofun, ?_⟩
    rintro _ _ _ ⟨⟩ ⟨⟩ ⟨⟩
    exact ⟨3, rfl⟩
  have hcall := h ⟨#[5, 1, 2, 3], #[3], 0⟩ #[0, 0, 0, 0] (by decide) hslots.le hslots.le hintegral
  obtain ⟨o, ho, -, -, hfinished⟩ := hcall
  refine ⟨p, c, hp, hc, o, ho, hfinished fun i hi name hname => ?_⟩
  obtain ⟨hlower, hupper⟩ := hbounds i hi
  rw [hlower, hupper] at hname
  rcases hname with hname | hname
  · cases hname
  · rw [← Bound.symbol.inj hname]
    exact List.mem_cons_self

end Callable

end Fluxion
