import Fluxion.Callable

/-!
# Proofs/Machine/Meaning — what a procedure computes, without a machine

`Procedure.Means` is the big-step meaning of a procedure: the outcomes a run of it can have, read
off the statements alone.  A node denotes a *computation* (`Node.meaning`), the set of results it
can end with — a value, or the status that stops the run; an empty set is a computation that never
ends.  Loops and sums are the only source of that: their rounds (`Rounds`) go on as long as the
variable is at most the upper bound, and values are compared by real parts that nothing is assumed
of.

Everything is strict from left to right, the upper bound of a range comes before the lower one, and
what stops a statement leaves the derivative as it was written so far.  A node that no checked
procedure contains — a bounded sum, a guard, a foreign name — has no result.
-/

namespace Fluxion

/-- Variables with their values, the innermost binder first. -/
abbrev Env (V : Type) := List (String × V)

/-- The results a computation can end with: a value, or what stops it. -/
def Computation (σ α : Type) : Type := Except σ α → Prop

namespace Computation

variable {σ τ α β : Type}

/-- Ends at once. -/
def of (r : Except σ α) : Computation σ α := fun r' => r' = r

/-- **One computation, then the next on its value**; what stops the first stops both. -/
def andThen (x : Computation σ α) (f : α → Computation σ β) : Computation σ β := fun r =>
  (∃ a, x (.ok a) ∧ f a r) ∨ ∃ s, x (.error s) ∧ r = .error s

/-- The same computation, with more said about what stops it. -/
def stopping (x : Computation σ α) (f : σ → τ) : Computation τ α := fun r =>
  ∃ r', x r' ∧ r = r'.mapError f

/-- A value of both is one of the next, on a value of the first. -/
theorem andThen_ok {x : Computation σ α} {f : α → Computation σ β} {b : β} :
    x.andThen f (.ok b) ↔ ∃ a, x (.ok a) ∧ f a (.ok b) := by
  constructor
  · rintro (h | ⟨s, -, hs⟩)
    · exact h
    · cases hs
  · exact .inl

/-- A computation that ends at once with a value, then the next on it. -/
theorem of_andThen (a : α) (f : α → Computation σ β) : (of (.ok a)).andThen f = f a := by
  funext r
  refine propext ⟨?_, fun h => .inl ⟨a, rfl, h⟩⟩
  rintro (⟨b, hb, h⟩ | ⟨s, hs, -⟩)
  · rwa [← Except.ok.inj hb]
  · cases hs

theorem of_stopping (a : α) (f : σ → τ) :
    (of (.ok a) : Computation σ α).stopping f = of (.ok a) := by
  funext r
  refine propext ⟨?_, fun h => ⟨.ok a, rfl, h⟩⟩
  rintro ⟨_, rfl, h⟩
  exact h

theorem stopping_ok {x : Computation σ α} {f : σ → τ} {a : α} (h : x.stopping f (.ok a)) :
    x (.ok a) := by
  obtain ⟨r, hr, heq⟩ := h
  cases r with
  | error s => cases heq
  | ok b => rwa [Except.ok.inj heq]

end Computation

variable {K V : Type} [Literal K] [Arithmetic K V]

namespace Arithmetic

/-- Whether a value is at most another one, by their real parts. -/
def atMost (v w : V) : Bool := Literal.le (real v : K) (real w)

/-- One where two values differ in their real parts, zero elsewhere. -/
def differ (v w : V) : V := ofBool !(Literal.eq (real v : K) (real w))

/-- **Truth values are told apart by their real parts**, which is how a conditional jump reads
them.  This is all that running a procedure needs to know of a number type. -/
class TruthValues (K : outParam Type) (V : Type) [Literal K] [Arithmetic K V] : Prop where
  isZero_real_zero : Literal.isZero (real (zero : V) : K) = true
  isZero_real_one : Literal.isZero (real (one : V) : K) = false

end Arithmetic

open Arithmetic

/-- **The rounds of a counted loop** from a value of its variable on, each with the state that the
one before has left. -/
inductive Rounds {σ β : Type} (upper : V) (body : V → β → Computation σ β) :
    V → β → Computation σ β
  | done {v : V} {b : β} (hv : atMost v upper = false) : Rounds upper body v b (.ok b)
  | step {v : V} {b b' : β} {r : Except σ β} (hv : atMost v upper = true) (hb : body v b (.ok b'))
      (hr : Rounds upper body (add v one) b' r) : Rounds upper body v b r
  | stop {v : V} {b : β} {s : σ} (hv : atMost v upper = true) (hb : body v b (.error s)) :
      Rounds upper body v b (.error s)

/-- What an operation does to two values. -/
def BinaryOp.apply : BinaryOp → V → V → V
  | .add => Arithmetic.add
  | .sub => Arithmetic.sub
  | .mul => Arithmetic.mul
  | .div => Arithmetic.div
  | .pow => Arithmetic.pow

namespace Procedure

variable (p : Procedure K) (inputs : Inputs K V)

/-- The name of an array in errors. -/
def bufferName : Buffer → String
  | .state => p.naming.state
  | .param => p.naming.params
  | .zero => "zero"

/-- How an access outside an array ends the run. -/
def outOfRange (array : String) (index size : Nat) : Status K :=
  if p.checkBounds then .failed (.indexOutOfBounds array index size) else .outside index size

/-- The element of an array at an index: the index is converted to a slot, then read. -/
def fetch (b : Buffer) (index : V) : Except (Status K) V :=
  let data := if b = .state then inputs.u else inputs.p
  match Program.slot (p.bufferName b) index with
  | .error e => .error (.failed e)
  | .ok n =>
    match data[n]? with
    | some x => .ok x
    | none => .error (p.outOfRange (p.bufferName b) n data.size)

/-- The derivative with an element written: the index is converted to a slot, then written. -/
def store (du : Array V) (index v : V) : Except (Status K) (Array V) :=
  match Program.slot p.naming.derivative index with
  | .error e => .error (.failed e)
  | .ok n =>
    if n < du.size then .ok (du.setIfInBounds n v)
    else .error (p.outOfRange p.naming.derivative n du.size)

end Procedure

namespace Node

variable (p : Procedure K) (inputs : Inputs K V)

mutual

/-- **The meaning of a node** where variables have values. -/
def meaning : Node K → Env V → Computation (Status K) V
  | .const v, _ => .of (.ok (ofLiteral v))
  | .imaginaryUnit, _ => .of (.ok Arithmetic.imaginaryUnit)
  | .time, _ => .of (.ok (ofLiteral inputs.t))
  | .var x, env => fun r => ∃ v, env.lookup x = some v ∧ r = .ok v
  | .unresolved name, _ => .of (.error (.failed (.unresolvedSymbol name)))
  | .access b i, env => (meaning i env).andThen fun index => .of (p.fetch inputs b index)
  | .neg a, env => (meaning a env).andThen fun v => .of (.ok (Arithmetic.neg v))
  | .binary op a b, env =>
    (meaning a env).andThen fun v => (meaning b env).andThen fun w => .of (.ok (op.apply v w))
  | .call func args, env =>
    (meaningAll args env).andThen fun vs r =>
      ∃ b v, Builtin.ofName? func = some b ∧ vs = [v] ∧ r = .ok (apply b v)
  | .indicator l r, env =>
    (meaning l env).andThen fun v => (meaning r env).andThen fun w => .of (.ok (differ v w))
  | .sum x lo hi es body, env =>
    (meaning hi env).andThen fun upper => (meaning lo env).andThen fun lower r =>
      es = [] ∧ Rounds upper (fun v acc =>
        (meaning body ((x, v) :: env)).andThen fun w => .of (.ok (add acc w))) lower zero r
  | .named _, _ | .boundedSum .., _ | .guarded .., _ => fun _ => False

/-- The meanings of some nodes, from left to right. -/
def meaningAll : List (Node K) → Env V → Computation (Status K) (List V)
  | [], _ => .of (.ok [])
  | n :: rest, env =>
    (meaning n env).andThen fun v => (meaningAll rest env).andThen fun vs => .of (.ok (v :: vs))

end

section Values

variable {p : Procedure K} {inputs : Inputs K V} {m n : Node K} {ns : List (Node K)}
  {env : Env V} {v : V}

theorem meaning_neg : (Node.neg n).meaning p inputs env (.ok v) ↔
    ∃ w, n.meaning p inputs env (.ok w) ∧ v = Arithmetic.neg w := by
  rw [meaning, Computation.andThen_ok]
  simp only [Computation.of, Except.ok.injEq]

/-- Both operands of an operation have values. -/
theorem meaning_binary {op : BinaryOp} : (Node.binary op m n).meaning p inputs env (.ok v) ↔
      ∃ w w', m.meaning p inputs env (.ok w) ∧ n.meaning p inputs env (.ok w') ∧
        v = op.apply w w' := by
  rw [meaning, Computation.andThen_ok]
  simp only [Computation.andThen_ok, Computation.of, Except.ok.injEq]
  constructor
  · rintro ⟨w, hw, w', hw', rfl⟩
    exact ⟨w, w', hw, hw', rfl⟩
  · rintro ⟨w, w', hw, hw', rfl⟩
    exact ⟨w, hw, w', hw', rfl⟩

theorem meaningAll_cons {vs : List V} : meaningAll p inputs (n :: ns) env (.ok vs) ↔
    ∃ w ws, n.meaning p inputs env (.ok w) ∧ meaningAll p inputs ns env (.ok ws) ∧
      vs = w :: ws := by
  rw [meaningAll, Computation.andThen_ok]
  simp only [Computation.andThen_ok, Computation.of, Except.ok.injEq]
  constructor
  · rintro ⟨w, hw, ws, hws, rfl⟩
    exact ⟨w, ws, hw, hws, rfl⟩
  · rintro ⟨w, ws, hw, hws, rfl⟩
    exact ⟨w, hw, ws, hws, rfl⟩

/-- A function is applied to its one argument. -/
theorem meaning_call {func : String} : (Node.call func ns).meaning p inputs env (.ok v) ↔
    ∃ a b w, ns = [a] ∧ Builtin.ofName? func = some b ∧ a.meaning p inputs env (.ok w) ∧
      v = apply b w := by
  rw [meaning]
  constructor
  · intro h
    obtain ⟨_, hargs, b, w, hb, rfl, hv⟩ := Computation.andThen_ok.mp h
    match ns with
    | [] => cases hargs
    | a :: rest =>
      obtain ⟨w', ws, hw, hrest, heq⟩ := meaningAll_cons.mp hargs
      obtain ⟨rfl, rfl⟩ := List.cons.inj heq
      match rest with
      | [] => exact ⟨a, b, w, rfl, hb, hw, Except.ok.inj hv⟩
      | _ :: _ =>
        obtain ⟨_, _, -, -, hnil⟩ := meaningAll_cons.mp hrest
        cases hnil
  · rintro ⟨a, b, w, rfl, hb, hw, rfl⟩
    exact Computation.andThen_ok.mpr
      ⟨[w], meaningAll_cons.mpr ⟨w, [], hw, rfl, rfl⟩, b, w, hb, rfl, rfl⟩

end Values

end Node

namespace Stmt

variable (p : Procedure K) (inputs : Inputs K V)

mutual

/-- **The meaning of a statement**: the derivative it leaves, or the outcome of the run it ends. -/
def meaning : Stmt K → Env V → Array V → Computation (Outcome K V) (Array V)
  | .assign slot value, env, du =>
    ((slot.meaning p inputs env).andThen fun index => (value.meaning p inputs env).andThen fun v =>
      .of (p.store du index v)).stopping (⟨·, du⟩)
  | .loop x lo hi body, env, du =>
    ((hi.meaning p inputs env).stopping (⟨·, du⟩)).andThen fun upper =>
      ((lo.meaning p inputs env).stopping (⟨·, du⟩)).andThen fun lower =>
        Rounds upper (fun v du => meaningAll body ((x, v) :: env) du) lower du

/-- The meaning of some statements, in order. -/
def meaningAll : List (Stmt K) → Env V → Array V → Computation (Outcome K V) (Array V)
  | [], _, du => .of (.ok du)
  | s :: rest, env, du => (meaning s env du).andThen fun du => meaningAll rest env du

end

/-- An assignment goes well if slot and value have values and the slot is there. -/
theorem meaning_assign {p : Procedure K} {inputs : Inputs K V} {slot value : Node K} {env : Env V}
    {du du' : Array V} : (Stmt.assign slot value).meaning p inputs env du (.ok du') ↔
      ∃ index v, slot.meaning p inputs env (.ok index) ∧ value.meaning p inputs env (.ok v) ∧
        p.store du index v = .ok du' := by
  rw [meaning]
  constructor
  · intro h
    obtain ⟨index, hindex, h⟩ := Computation.andThen_ok.mp (Computation.stopping_ok h)
    obtain ⟨v, hv, h⟩ := Computation.andThen_ok.mp h
    exact ⟨index, v, hindex, hv, h.symm⟩
  · rintro ⟨index, v, hindex, hv, h⟩
    refine ⟨.ok du', Computation.andThen_ok.mpr ⟨index, hindex, ?_⟩, rfl⟩
    exact Computation.andThen_ok.mpr ⟨v, hv, h.symm⟩

end Stmt

/-- The outcome of the statements of a procedure: finished, if nothing stops them. -/
def Outcome.ofBody : Except (Outcome K V) (Array V) → Outcome K V
  | .ok du => ⟨.finished, du⟩
  | .error o => o

/-- **The meaning of a procedure**: how a run from a derivative can end. -/
def Procedure.Means (p : Procedure K) (inputs : Inputs K V) (du : Array V) (o : Outcome K V) :
    Prop :=
  ∃ r, Stmt.meaningAll p inputs p.body [] du r ∧ o = .ofBody r

end Fluxion
