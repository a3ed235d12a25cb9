import Fluxion.Procedure.Canonical
import Fluxion.Proofs.Layout.Subscripts

/-!
# Proofs/Nodes/SingleValue — the value of a node

`Node.meaning` is what a run can end with; `Node.value` is a function.  It gives every node a value,
also those that no finished procedure contains: a bounded sum and a guard have the value that an
expression would give them, and what cannot be evaluated is zero.  That makes it the one yardstick
for a node on its way from lowering through the passes to the procedure.

The operations are those of the number type, in the order in which a run performs them, so nothing
about them is assumed.
-/

namespace Fluxion

open Arithmetic

variable {K V : Type}

/-- A variable is looked up behind one of another name. -/
theorem Env.lookup_of_ne {x y : String} (h : y ≠ x) (v : V) (env : Env V) :
    List.lookup y ((x, v) :: env) = env.lookup y := by
  rw [List.lookup_cons, beq_false_of_ne h]

variable [Literal K] [Arithmetic K V]

/-- The value of a variable at a site. -/
def atSite (m : ℤ) : V := ofLiteral (Literal.ofInt m : K)

namespace Arithmetic

/-- Whether two values have the same real part. -/
def same (v w : V) : Bool := Literal.eq (real v : K) (real w)

/-- The number of sites from a value up to another one. -/
def span (lower upper : V) : ℕ := (Literal.site (real upper) - Literal.site (real lower) + 1).toNat

/-- **Counting up**: some rounds from a value on, each with what the one before has left. -/
def countUp (step : V → V → V) : ℕ → V → V → V
  | 0, _, acc => acc
  | n + 1, v, acc => countUp step n (add v one) (step v acc)

/-- Adds the term at a value, unless that is left out. -/
def addTerm (excluded : List V) (term : V → V) (v acc : V) : V :=
  if excluded.any (same v) then acc else add acc (term v)

/-- The sum of a term over a range, without some values. -/
def sumOver (excluded : List V) (term : V → V) (lower upper : V) : V :=
  countUp (addTerm excluded term) (span lower upper) lower zero

end Arithmetic

/-- What an access reads, zero outside the array. -/
def Inputs.read (inputs : Inputs K V) (b : Buffer) (index : V) : V :=
  match b, Literal.slot? (real index) with
  | .state, some k => inputs.u[k]?.getD zero
  | .param, some k => inputs.p[k]?.getD zero
  | _, _ => zero

/-- What a name stands for by itself: the imaginary unit, or nothing. -/
def Node.nameValue (name : String) : V :=
  if name == Node.imaginaryName then Arithmetic.imaginaryUnit else zero

/-- The value of a function at its first argument, in any of its spellings. -/
def Node.callValue (func : String) (vs : List V) : V :=
  match Builtin.ofName? (canonicalFunc func), vs with
  | some b, v :: _ => apply b v
  | _, _ => zero

namespace Node

mutual

/-- **The value of a node** where variables have values. -/
def value (inputs : Inputs K V) : Node K → Env V → V
  | .const v, _ => ofLiteral v
  | .imaginaryUnit, _ => Arithmetic.imaginaryUnit
  | .named name, _ => nameValue name
  | .time, _ => ofLiteral inputs.t
  | .var x, env => (env.lookup x).getD zero
  | .unresolved _, _ => zero
  | .access b i, env => inputs.read b (value inputs i env)
  | .neg a, env => Arithmetic.neg (value inputs a env)
  | .binary op a b, env => op.apply (value inputs a env) (value inputs b env)
  | .call func args, env => callValue func (valueAll inputs args env)
  | .boundedSum x lo hi es body, env =>
    sumOver (valueAll inputs es env) (fun v => value inputs body ((x, v) :: env))
      (value inputs lo env) (value inputs hi env)
  | .sum x lo hi es body, env =>
    sumOver (valueExclusions inputs es env) (fun v => value inputs body ((x, v) :: env))
      (value inputs lo env) (value inputs hi env)
  | .guarded l r body, env =>
    if same (value inputs l env) (value inputs r env) then zero else value inputs body env
  | .indicator l r, env => differ (value inputs l env) (value inputs r env)

/-- The values of some nodes. -/
def valueAll (inputs : Inputs K V) : List (Node K) → Env V → List V
  | [], _ => []
  | n :: rest, env => value inputs n env :: valueAll inputs rest env

/-- The value of an exclusion that the summand does not account for. -/
def valueExclusion (inputs : Inputs K V) : Exclusion K → Env V → List V
  | .mk v absorbed, env => if absorbed then [] else [value inputs v env]

/-- The values of the exclusions that the summand does not account for. -/
def valueExclusions (inputs : Inputs K V) : List (Exclusion K) → Env V → List V
  | [], _ => []
  | e :: rest, env => valueExclusion inputs e env ++ valueExclusions inputs rest env

end

variable {inputs : Inputs K V} {env : Env V}

theorem callValue_cons {func : String} {b : Builtin}
    (h : Builtin.ofName? (canonicalFunc func) = some b) (v : V) (vs : List V) :
    callValue func (v :: vs) = apply b v := by
  unfold callValue
  rw [h]

theorem valueAll_eq (ns : List (Node K)) :
    valueAll inputs ns env = ns.map (·.value inputs env) := by
  induction ns with
  | nil => rfl
  | cons n ns ih => rw [valueAll, ih, List.map_cons]

theorem valueExclusions_eq (es : List (Exclusion K)) :
    valueExclusions inputs es env
      = (es.filter (!·.absorbed)).map (·.value.value inputs env) := by
  induction es with
  | nil => rfl
  | cons e es ih =>
    obtain ⟨v, absorbed⟩ := e
    rw [valueExclusions, valueExclusion, ih, List.filter_cons]
    cases absorbed <;> rfl

end Node

/-! ## Runs end with the value -/

/-- Every builtin is found under the spelling that its name gets. -/
theorem Builtin.ofName?_canonicalFunc {func : String} {b : Builtin} (h : ofName? func = some b) :
    ofName? (canonicalFunc func) = some b := by
  have hname : b.name = func := by simpa using List.find?_some h
  subst hname
  revert h
  cases b <;> decide

namespace Node

open Fluxion.Computation

variable {p : Procedure K} {inputs : Inputs K V} {env : Env V} {n : Node K} {v : V}

theorem read_of_fetch {b : Buffer} {index : V} (hb : b ≠ .zero)
    (h : p.fetch inputs b index = .ok v) : v = inputs.read b index := by
  rw [Procedure.fetch, Program.slot] at h
  unfold Inputs.read
  cases hk : Literal.slot? (real index) with
  | none =>
    rw [hk] at h
    cases h
  | some k =>
    rw [hk] at h
    dsimp only at h
    split at h
    · next hdata =>
      obtain rfl := Except.ok.inj h
      cases b with
      | state => exact (congrArg (Option.getD · zero) hdata).symm
      | param => exact (congrArg (Option.getD · zero) hdata).symm
      | zero => exact absurd rfl hb
    · cases h

/-- Index arithmetic ends with its value. -/
theorem Plain.eq_value (h : n.Plain) (hv : n.meaning p inputs env (.ok v)) :
    v = n.value inputs env := by
  induction h generalizing v with
  | const a =>
    rw [meaning] at hv
    exact Except.ok.inj hv
  | var x =>
    rw [meaning] at hv
    obtain ⟨w, hw, hv⟩ := hv
    rw [value, hw, Except.ok.inj hv, Option.getD_some]
  | param a =>
    rw [meaning, andThen_ok] at hv
    obtain ⟨index, hindex, hv⟩ := hv
    rw [meaning] at hindex
    obtain rfl := Except.ok.inj hindex
    exact read_of_fetch (by decide) hv.symm
  | unresolved name =>
    rw [meaning] at hv
    cases hv
  | neg _ ih =>
    rw [meaning, andThen_ok] at hv
    obtain ⟨w, hw, hv⟩ := hv
    rw [value, ← ih hw]
    exact Except.ok.inj hv
  | add _ _ ihm ihn =>
    obtain ⟨w, w', hw, hw', rfl⟩ := meaning_binary.mp hv
    rw [value, ← ihm hw, ← ihn hw']
  | sub _ _ ihm ihn =>
    obtain ⟨w, w', hw, hw', rfl⟩ := meaning_binary.mp hv
    rw [value, ← ihm hw, ← ihn hw']
  | mul _ a ih =>
    obtain ⟨w, w', hw, hw', rfl⟩ := meaning_binary.mp hv
    rw [meaning] at hw'
    rw [value, ← ih hw, Except.ok.inj hw', value]

end Node

end Fluxion
