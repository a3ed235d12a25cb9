import Fluxion.Bytecode.Compile
import Fluxion.Bytecode.Machine
import Fluxion.Procedure.Check
import Fluxion.Procedure.Source

/-!
# Callable — procedures ready to be called

`Procedure.materialize` checks a procedure and compiles it for a number type.  The result can be
called on one state or on a batch of states, one a row.  Every row of a batch is evaluated into a
fresh row of zeros and copied when it has finished, so a row that fails leaves no trace.

Here the rows of a batch are taken in their order, and the first that fails stops it.  They depend
on nothing but their own state, so an implementation may evaluate them side by side; which rows are
replaced before a failure stops it, and which one of several failures it reports, is then open.
-/

namespace Fluxion

/-- A procedure with its program. -/
structure Callable (K : Type) where
  procedure : Procedure K
  program : Program K

/-- **A rectangular array**, row by row. -/
structure Matrix (V : Type) where
  cols : Nat
  rows : List (Array V)
  size_eq : ∀ row ∈ rows, row.size = cols

/-- Why a batch has no result. -/
inductive BatchError (K : Type) where
  | dimensionMismatch (expected found : Nat)
  /-- How the call on a row ended, if it did not finish. -/
  | row (s : Status K)

namespace Procedure

variable {K : Type} [Literal K]

/-- Checks a procedure and compiles it for the numbers of a dialect. -/
def materialize (dialect : Dialect) (p : Procedure K) : Except ProgramError (Callable K) := do
  p.checkStructure
  p.checkTokens
  let (program, imaginary) ← p.compile
  if imaginary && !dialect.complex then .error (.complexUnsupported dialect.scalar)
  else return ⟨p, program⟩

end Procedure

namespace Callable

variable {K V : Type} [Literal K] [Arithmetic K V]

/-- Writes the derivative of one state. -/
def call (c : Callable K) (fuel : Nat) (du : Array V) (inputs : Inputs K V) : Outcome K V :=
  c.program.run fuel du inputs

/-- A row of zeros. -/
def zeroRow (n : Nat) : Array V := Array.replicate n Arithmetic.zero

/-- The derivative of a state in a fresh row, unless the call fails. -/
def callRow (c : Callable K) (fuel : Nat) (n : Nat) (u p : Array V) (t : K) :
    Except (BatchError K) (Array V) :=
  match c.call fuel (zeroRow n) ⟨u, p, t⟩ with
  | ⟨.finished, du⟩ => .ok du
  | ⟨s, _⟩ => .error (.row s)

/-- Copies a derivative into a row, as far as both go. -/
def overwrite (row du : Array V) : Array V := row.mapIdx fun i v => du[i]?.getD v

/-- The rows of a batch after evaluation, in the order of the batch, and the error that stopped it
if one did: rows before it are replaced, the others are kept. -/
def callRows (c : Callable K) (fuel : Nat) (n : Nat) (p : Array V) (t : K) :
    List (Array V) → List (Array V) → List (Array V) × Option (BatchError K)
  | old :: olds, u :: us =>
    match c.callRow fuel n u p t with
    | .ok du =>
      let (rest, e) := callRows c fuel n p t olds us
      (overwrite old du :: rest, e)
    | .error e => (old :: olds, some e)
  | olds, _ => (olds, none)

/-- Rows keep their lengths. -/
theorem size_of_mem_callRows {c : Callable K} {fuel n cols : Nat} {p : Array V} {t : K}
    {olds us : List (Array V)} (h : ∀ row ∈ olds, row.size = cols) :
    ∀ row ∈ (c.callRows fuel n p t olds us).1, row.size = cols := by
  fun_induction callRows c fuel n p t olds us with
  | case1 old olds u us du hrow rest e hrest ih =>
    obtain ⟨hfirst, holds⟩ := List.forall_mem_cons.mp h
    rw [hrest] at ih
    exact List.forall_mem_cons.mpr ⟨Array.size_mapIdx.trans hfirst, ih holds⟩
  | case2 => exact h
  | case3 => exact h

/-- Writes the derivatives of a batch of states. -/
def callBatch (c : Callable K) (fuel : Nat) (du u : Matrix V) (p : Array V) (t : K) :
    Matrix V × Option (BatchError K) :=
  if du.rows.length ≠ u.rows.length then
    (du, some (.dimensionMismatch u.rows.length du.rows.length))
  else if du.cols ≠ u.cols then (du, some (.dimensionMismatch u.cols du.cols))
  else
    let r := c.callRows fuel du.cols p t du.rows u.rows
    (⟨du.cols, r.1, size_of_mem_callRows du.size_eq⟩, r.2)

end Callable

/-- The message of a batch whose shapes differ. -/
def dimensionMessage (expected found : Nat) : String :=
  "Dimension mismatch: expected " ++ toString expected ++ ", got " ++ toString found

end Fluxion
