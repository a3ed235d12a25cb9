import Fluxion.Json.Printer
import Fluxion.Procedure.Check
import Fluxion.Procedure.Codec

/-!
# Procedure/Store — procedures kept as text

A procedure is stored as indented JSON and checked again when it is restored.
-/

namespace Fluxion

/-- Why a stored procedure cannot be restored. -/
inductive RestoreError where
  /-- The text is no JSON form of a procedure, or one that nests too deep. -/
  | unreadable
  | rejected (e : ProgramError)

namespace Procedure

variable {K : Type} [Codec K]

/-- The text a procedure is stored as. -/
def toText (p : Procedure K) : String := (encode p : Json).pretty

/-- Checks the structure of a procedure that has been read. -/
def restore (p : Option (Procedure K)) : Except RestoreError (Procedure K) :=
  match p with
  | none => .error .unreadable
  | some p =>
    match p.checkStructure with
    | .ok _ => .ok p
    | .error e => .error (.rejected e)

/-- Restores a procedure from its text. -/
def ofText (text : String) : Except RestoreError (Procedure K) := restore (decodeText? text)

end Procedure

end Fluxion
