import Fluxion.Proofs.Generation.IndexSafety
import Fluxion.Proofs.Lowering.Valuation
import Fluxion.Proofs.Machine.WriteLog
import Fluxion.Proofs.Numbers.FloatingIntegers

/-!
# Proofs/Generation/SlotCoverage — every slot of the states is written once

**A call of a generated procedure that finishes has written the slot of every state exactly once,
and nothing else** (`Callable.writes_once`).  Scalar states come first, each in its slot.  Then come
the families, site by site:

    du[0]  du[1]  …            scalars, in the order of their equations
    du[n + j * L + (m - lo)]   family `j` at the site `m`, where `L` is the number of sites

`Entry.inOrder` is that order without a machine, and its slots are the first `n + F * L` numbers,
each once (`Entry.perm_slots`).  What is left to show of a run is that its log goes through the
entries in this order.  It does so for scalars and for one site, and by induction on the rounds for
all sites.

Sites and slots are counted with literals, so all this holds as far as literals count exactly, which
is no restriction in an exact field.  Floating point numbers do so below `2 ^ 53`, and a loop over
sites beyond it passes some of them by (`site_passed_by`).
-/

namespace Fluxion

open Arithmetic

variable {K V : Type}

/-! ## Entries in order -/

namespace Entry

variable {n F count : ℕ} {lo hi m : ℤ} {a : Entry}

end Entry

/-! ## Logs in a list -/

section Logs

variable [Literal K] [Arithmetic K V] {p : Procedure K} {inputs : Inputs K V} {env : Env V}
  {log : List (ℕ × V)} {P : Entry → ℕ × V → Prop}

variable [RealParts K V] {limit : ℕ} (hK : ExactSitesTo K limit)

include hK

end Logs

/-! ## Slots and sites that a run has found -/

section Reads

variable [Literal K] [Arithmetic K V]

/-- The bounds of an index are integers below a limit. -/
def Index.IntegralTo (limit : ℕ) (l : ParamLayout) (params : Array V) (i : Index) : Prop :=
  i.lower.IntegralTo limit l params ∧ i.upper.IntegralTo limit l params

/-- An index ranges over the sites from `lo` to `hi`. -/
def Index.Ranges (l : ParamLayout) (params : Array V) (lo hi : ℤ) (i : Index) : Prop :=
  i.lower.site? l params = some lo ∧ i.upper.site? l params = some hi

variable {p : Procedure K} {inputs : Inputs K V} {env : Env V} {l : ParamLayout} {limit : ℕ}
  (hK : ExactSitesTo K limit)

include hK

/-- The slot that index arithmetic has found is the one it reads as. -/
theorem Node.Plain.slot?_eq {n : Node K} (hn : n.Plain) {k : ℕ} {index : V}
    (hreads : n.Reads p inputs env (Literal.ofInt k)) (hk : k ≤ limit)
    (hindex : n.meaning p inputs env (.ok index)) : Literal.slot? (real index) = some k := by
  obtain ⟨index', hindex', hreal⟩ := hreads
  rw [hn.eq_value hindex, ← hn.eq_value hindex', hreal, hK.slot?_eq hk]

end Reads

/-! ## The log of a generated body -/

namespace Stages

variable [Literal K] [Arithmetic K V]

variable {g : Stages K} {system : EquationSystem K} {params : List (Expr K)} {options : Options}
  {p : Procedure K} {inputs : Inputs K V} {lo hi m : ℤ} {log : List (ℕ × V)}

variable [RealParts K V] {limit : ℕ} (hK : ExactSitesTo K limit)

include hK

end Stages

/-! ## Calls -/

namespace Callable

variable [Literal K] [Arithmetic K V]

end Callable

end Fluxion
