import Fluxion.Proofs.Nodes.Denotation
import Fluxion.Proofs.Lowering.Valuation

/-!
# Proofs/Lowering/LoweredDenotation — lowering keeps the value of an expression

The node that lowering leaves still has its conditions and exclusions, and `Node.evaluate` gives it
a value if it has one.  That is the value of the expression (`Expr.evaluate_of_lowersTo`), for
bindings that agree with the arrays and for variables that stand at the sites of their indices: what
the expression does not evaluate, the node need not have a value for either.

One thing is asked of the expression.  An expression may sum up to any symbol that has a value, but
in a node the bounds of a sum are read from the parameters.  With another symbol for a bound the
node has no value in any reading (`evaluate_of_stateBound`).
-/

namespace Fluxion

open Arithmetic

variable {K V : Type} [Literal K] [Arithmetic K V]

/-! ## Index arithmetic -/

/-- What an access fetches is what it reads. -/
theorem Inputs.read?_of_fetch {p : Procedure K} {inputs : Inputs K V} {b : Buffer} {index v : V}
    (hb : b ≠ .zero) (h : p.fetch inputs b index = .ok v) :
    inputs.read? b (some index) = some v := by
  rw [read?, if_neg hb, Option.bind_some]
  rw [Procedure.fetch, Program.slot] at h
  cases hslot : Literal.slot? (real index) with
  | none =>
    rw [hslot] at h
    cases h
  | some k =>
    rw [hslot] at h
    dsimp only at h
    split at h
    · next hw => exact hw.trans (congrArg some (Except.ok.inj h))
    · cases h

namespace Node

variable {S : Reading K V} {p : Procedure K} {env : Env V} {n : Node K} {v : V}

theorem evaluate_of_meaning_const {a : K} (hv : (Node.const a).meaning p S.inputs env (.ok v)) :
    (Node.const a).evaluate S env = some v := by
  rw [meaning] at hv
  exact congrArg some (Except.ok.inj hv).symm

/-- Index arithmetic has the value that a run of it ends with. -/
theorem Plain.evaluate_of_meaning (h : n.Plain) (hv : n.meaning p S.inputs env (.ok v)) :
    n.evaluate S env = some v := by
  induction h generalizing v with
  | const a => exact evaluate_of_meaning_const hv
  | var x =>
    rw [meaning] at hv
    obtain ⟨w, hw, hv⟩ := hv
    rw [evaluate, hw, Except.ok.inj hv]
  | param a =>
    rw [meaning, Computation.andThen_ok] at hv
    obtain ⟨index, hindex, hv⟩ := hv
    rw [evaluate, evaluate_of_meaning_const hindex]
    exact Inputs.read?_of_fetch (by decide) hv.symm
  | unresolved name =>
    rw [meaning] at hv
    cases hv
  | neg _ ih =>
    rw [meaning, Computation.andThen_ok] at hv
    obtain ⟨w, hw, hv⟩ := hv
    rw [evaluate, ih hw]
    exact congrArg some (Except.ok.inj hv).symm
  | add _ _ ihm ihn =>
    obtain ⟨w, w', hw, hw', rfl⟩ := meaning_binary.mp hv
    exact evaluate_binary (ihm hw) (ihn hw')
  | sub _ _ ihm ihn =>
    obtain ⟨w, w', hw, hw', rfl⟩ := meaning_binary.mp hv
    exact evaluate_binary (ihm hw) (ihn hw')
  | mul _ a ih =>
    obtain ⟨w, w', hw, hw', rfl⟩ := meaning_binary.mp hv
    exact evaluate_binary (ih hw) (evaluate_of_meaning_const hw')

/-- Variables that stand at sites have their values. -/
theorem evaluateAll_vars {xs : List String} {ms : List ℤ}
    (h : List.Forall₂ (fun x m => env.lookup x = some (atSite m)) xs ms) :
    evaluateAll S (xs.map .var) env = some (ms.map atSite) := by
  induction h with
  | nil => rfl
  | cons hx _ ih =>
    rw [List.map_cons, evaluateAll, evaluate, hx, ih]
    rfl

end Node

/-! ## Nodes are evaluated like expressions -/

section Exact

open ExactLiteral ExactIndices

variable [Field K] [LinearOrder K] [IsStrictOrderedRing K] [ExactIndices K V]

/-- **A sum over sites** adds up the terms of the sites that are not left out. -/
theorem Reading.addUp_of_sumSites {S : Reading K V} (hS : S.strict = false) {excluded : List ℤ}
    {t : V → Option V} {term : ℤ → Except EvalError V}
    (hterm : ∀ m w, term m = .ok w → t (atSite m) = some w) {count : ℕ} {m : ℤ} {acc v : V}
    (h : sumSites add excluded term count m acc = .ok v) :
    S.addUp (excluded.map atSite) t (sitesFrom count m) acc = some v := by
  induction count generalizing m acc with
  | zero => exact congrArg some (Except.ok.inj h)
  | succ count ih =>
    rw [sumSites] at h
    rw [sitesFrom, addUp, any_same_atSite]
    by_cases hm : m ∈ excluded
    · rw [if_pos hm] at h
      rw [if_pos (decide_eq_true hm), without, hS]
      exact ih h
    · rw [if_neg hm] at h
      rw [if_neg (by rwa [decide_eq_true_iff])]
      split at h
      · next w hw =>
        rw [hterm m w hw]
        exact ih h
      · cases h

/-- An access by index arithmetic reads the array at the slot. -/
theorem Node.Plain.evaluate_access {S : Reading K V} {p : Procedure K} {env : Env V} {n : Node K}
    {b : Buffer} {data : Array V} {k : ℕ} {v : V} (hn : n.Plain) (hb : b ≠ .zero)
    (hdata : (if b = .state then S.inputs.u else S.inputs.p) = data)
    (hreads : n.Reads p S.inputs env (Literal.ofInt k)) (hv : data[k]? = some v) :
    (Node.access b n).evaluate S env = some v := by
  obtain ⟨index, hindex, hreal⟩ := hreads
  rw [evaluate, hn.evaluate_of_meaning hindex, Inputs.read?, if_neg hb, Option.bind_some, hreal,
    ofInt_eq, Int.cast_natCast, slot?_natCast, Option.bind_some, hdata, hv]

/-- **Evaluation by sites** is an interpretation of nodes. -/
theorem interprets_evaluate (inputs : Inputs K V) :
    Interprets inputs (fun v m => Literal.site (real v) = m)
      fun n env v => n.evaluate (.bySites inputs) env = some v where
  const _ _ := rfl
  imaginaryUnit _ := rfl
  time _ := rfl
  var hx := hx
  unknown _ _ := rfl
  access hb hdata hn hreads hv := hn.evaluate_access hb hdata hreads hv
  neg hn := by
    rw [Node.evaluate, hn]
    rfl
  binary hm hn := Node.evaluate_binary hm hn
  call hb hn := by
    rw [Node.evaluate, Node.evaluateFirst, hn, hb]
    rfl
  guarded hx hy hsame hdiffer := by
    rw [Node.evaluate, Node.evaluate, Node.evaluate, hx, hy, Option.bind_some, Option.bind_some,
      Reading.guard]
    split
    · next h => exact congrArg some (hsame h).symm
    · next h => exact hdiffer (Bool.eq_false_iff.mpr h)
  site m := by rw [real_atSite, site_intCast]
  sum hlo hhi hl hu hys hterm hv := by
    subst hl hu
    rw [Node.evaluate, Node.evaluateAll_vars hys, hlo, hhi]
    exact Reading.addUp_of_sumSites rfl hterm hv

end Exact

/-- **Lowering keeps the value of an expression.**  The context is made from the layouts of a
system, the bindings agree with the arrays, and the variables in scope stand at the sites of their
indices.  Then the node has the value of the expression it was lowered from, if the symbols that
bound sums are parameters, and if every state without an index is a plain symbol where unknown
families are read as zero. -/
theorem Expr.evaluate_of_lowersTo [Field K] [LinearOrder K] [IsStrictOrderedRing K] [Field V]
    [ExactArithmetic K V] {system : EquationSystem K} {split : Split K} {l : ParamLayout}
    {c : LoweringContext K} {b : Bindings V} {inputs : Inputs K V} {scope : IndexScope} {e : Expr K}
    {n : Node K} {sites : Sites} {env : Env V} {v : V} (hsplit : Split.ofSystem system = .ok split)
    (hc : c.Serves split l system.time) (hn : e.LowersTo c scope n)
    (hb : b.Agrees split l system.time inputs) (henv : Stands scope sites env)
    (hparam : ∀ i ∈ e.summed, ∀ name, i.lower = .symbol name ∨ i.upper = .symbol name →
      name ∈ l.scalars.map (·.1))
    (hplain : c.zeroFill = true → ∀ e ∈ split.scalars, e.lhs = .scalar e.lhs.state)
    (hv : e.evaluateAt b sites = .ok v) : n.evaluate (.bySites inputs) env = some v := by
  obtain ⟨i, j, hlower⟩ := hn
  have hrenders : b.Renders (fun v m => Literal.site (real v) = m)
      (fun n env v => n.evaluate (.bySites inputs) env = some v) c e.summed := by
    refine hb.renders (interprets_evaluate inputs) (Split.divides_ofSystem hsplit) hc
      (fun hfill _ _ _ => hb.eq_zero (hplain hfill)) fun i hi name hname => ?_
    exact ⟨hparam i hi name hname, fun _ _ => rfl⟩
  exact (interprets_evaluate inputs).has_of_lowered hrenders (lowered_of_lower c e hlower)
    (fun _ => id) henv hv

namespace EquationSystem

/-- An index from one to `N`. -/
def upTo (label : String) : Index := ⟨label, .literal 1, .symbol "N"⟩

/-- Differences, a quotient, an index as a value, and a sum inside another one over the same
index. -/
def shadowedSums : Expr ℚ :=
  .add [.symbol "x", .neg (.index (upTo "i")), .symbol "t",
    .mul [.indexed ⟨"n", [upTo "i"]⟩, .pow (.symbol "x") (.number (-1))],
    .sum (upTo "j") [upTo "i"] (.mul [.indexed ⟨"n", [upTo "j"]⟩,
      .sum (upTo "j") [] (.indexed ⟨"n", [upTo "j"]⟩)])]

/-- A scalar state and a family, with a symbol for time. -/
def shadowed : EquationSystem ℚ where
  equations := [.of (.scalar "x") (.neg (.symbol "x")),
    .of (.indexed ⟨"n", [upTo "i"]⟩) shadowedSums]
  time := some "t"

/-- Three members behind the scalar state, and `N` for the only parameter. -/
def shadowedInputs : Inputs ℚ ℚ := ⟨#[2, 1, 2, 3], #[3], 1⟩

theorem shadowed_agrees {split : Split ℚ} (h : Split.ofSystem shadowed = .ok split) :
    (shadowed.declaredBindings ⟨[("N", 0)], [], 1⟩ shadowedInputs {}).Agrees split
      ⟨[("N", 0)], [], 1⟩ shadowed.time shadowedInputs := by
  have hindex : ∀ q ∈ shadowed.families, q.2 = upTo "i" := by decide
  have hl : ParamLayout.Places ⟨[("N", 0)], [], 1⟩ [(.symbol "N" : Expr ℚ)] :=
    ParamLayout.places_ofParams rfl
  refine agrees (separate_of_nodup (by decide)) hl (Split.divides_ofSystem h) rfl fun q hq => ?_
  rw [hindex q hq]
  refine ⟨nofun, ?_⟩
  rintro _ _ _ ⟨⟩ ⟨⟩ ⟨⟩
  exact ⟨3, rfl⟩

theorem evaluate_of_lowersTo_shadowed : ∃ split c n, Split.ofSystem shadowed = .ok split ∧
    c.Serves split ⟨[("N", 0)], [], 1⟩ shadowed.time ∧
      shadowedSums.LowersTo c [(upTo "i", "i")] n ∧
        n.evaluate (.bySites shadowedInputs) [("i", 2)] = some 26 := by
  obtain ⟨split, hsplit⟩ : ∃ split, Split.ofSystem shadowed = .ok split := ⟨_, rfl⟩
  obtain ⟨c, hc, hfill, n, hn⟩ : ∃ c : LoweringContext ℚ,
      c.Serves split ⟨[("N", 0)], [], 1⟩ shadowed.time ∧ c.zeroFill = false ∧
        ∃ n, shadowedSums.LowersTo c [(upTo "i", "i")] n := by
    obtain rfl := Except.ok.inj hsplit
    exact ⟨⟨_, _, _, false, [], .scalar ""⟩, ⟨rfl, rfl, [upTo "i", upTo "j"], 65536, rfl⟩,
      rfl, _, 0, _, rfl⟩
  have henv : Stands [(upTo "i", "i")] [(upTo "i", 2)] [("i", (2 : ℚ))] :=
    (Stands.nil [] []).push List.not_mem_nil (upTo "i") 2
  have hparam : ∀ i ∈ shadowedSums.summed, i.lower = .literal 1 ∧ i.upper = .symbol "N" := by decide
  have hvalue : shadowedSums.evaluateAt
      (shadowed.declaredBindings ⟨[("N", 0)], [], 1⟩ shadowedInputs {}) [(upTo "i", 2)] =
          .ok 26 := by
    decide +kernel
  refine ⟨split, c, n, hsplit, hc, hn, Expr.evaluate_of_lowersTo hsplit hc hn
    (shadowed_agrees hsplit)
    henv (fun i hi name hname => ?_) (fun h => ?_) hvalue⟩
  · obtain ⟨hlower, hupper⟩ := hparam i hi
    rw [hlower, hupper] at hname
    rcases hname with hname | hname
    · cases hname
    · rw [← Bound.symbol.inj hname]
      exact List.mem_cons_self
  · rw [hfill] at h
    cases h

/-- A sum that a state bounds. -/
def summedUpToState : Expr ℚ := .sum (upTo "k") [] (.number 1)

/-- A state, and another one that is driven by a sum up to it. -/
def boundByState : EquationSystem ℚ where
  equations := [.of (.scalar "N") (.number 0), .of (.scalar "x") summedUpToState]
  time := none

/-- **A sum up to a state has a value, and its node has none.** -/
theorem evaluate_of_stateBound : ∃ split c n, Split.ofSystem boundByState = .ok split ∧
    c.Serves split .empty none ∧ summedUpToState.LowersTo c [] n ∧
      ∃ b : Bindings ℚ, b.Agrees split .empty none ⟨#[3, 0], #[], 0⟩ ∧
        summedUpToState.evaluateAt b [] = .ok 3 ∧ ∀ S env, n.evaluate (V := ℚ) S env = none := by
  obtain ⟨split, hsplit⟩ : ∃ split, Split.ofSystem boundByState = .ok split := ⟨_, rfl⟩
  have hl : ParamLayout.empty.Places ([] : List (Expr ℚ)) := ParamLayout.places_ofParams rfl
  have hb : (boundByState.declaredBindings .empty ⟨#[3, 0], #[], 0⟩ {}).Agrees split .empty none
      (⟨#[3, 0], #[], 0⟩ : Inputs ℚ ℚ) :=
    agrees (separate_of_nodup (by decide)) hl (Split.divides_ofSystem hsplit) rfl nofun
  obtain rfl := Except.ok.inj hsplit
  refine ⟨_, ⟨_, _, _, false, [], .scalar ""⟩, _, rfl, ⟨rfl, rfl, [], 65536, rfl⟩,
    ⟨0, _, rfl⟩, _, hb, by decide +kernel, fun S env => rfl⟩

end EquationSystem

end Fluxion
