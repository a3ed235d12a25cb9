import Fluxion.Bytecode.Compile
import Fluxion.Bytecode.Machine

/-!
# Proofs/Machine/Steps — runs of the machine through a piece of code

`Program.run` is a function of its fuel; the proofs about compiled code speak of *steps* instead.
`Steps n m m'` says that `n` instructions lead from `m` to `m'`, `StopsAt m s` that the next one
ends the run.  Three facts tie them to `runFrom`:

* `runFrom_of_steps` — steps are taken off the fuel;
* `runFrom_of_stopsAt`, `runFrom_of_end` — the two ways to end;
* `Terminates.of_steps` — what is left of a run that ends still ends, with that much less fuel.

`PieceAt` places a compiled piece inside a whole program, in all three numberings at once.
-/

namespace Fluxion

variable {K V : Type} [Literal K] [Arithmetic K V]

namespace Program

variable {prog : Program K} {inputs : Inputs K V} {m m' m₁ : Machine V} {s : Status K} {n k : Nat}

/-! ## Steps -/

/-- `n` instructions lead from one machine to another. -/
def Steps (prog : Program K) (inputs : Inputs K V) : Nat → Machine V → Machine V → Prop
  | 0, m, m' => m = m'
  | n + 1, m, m' => ∃ op m₁,
    prog.code[m.pc]? = some op ∧ prog.step inputs m op = .ok m₁ ∧ Steps prog inputs n m₁ m'

/-- The next instruction ends the run. -/
def StopsAt (prog : Program K) (inputs : Inputs K V) (m : Machine V) (s : Status K) : Prop :=
  ∃ op, prog.code[m.pc]? = some op ∧ prog.step inputs m op = .error s

/-- The run ends before its fuel does. -/
def Terminates (prog : Program K) (inputs : Inputs K V) (n : Nat) (m : Machine V) : Prop :=
  (prog.runFrom inputs n m).status ≠ .outOfFuel

theorem Steps.refl (m : Machine V) : Steps prog inputs 0 m m := rfl

/-- One run after the other. -/
theorem Steps.trans (h : Steps prog inputs n m m₁) (h' : Steps prog inputs k m₁ m') :
    Steps prog inputs (n + k) m m' := by
  induction n generalizing m with
  | zero =>
    obtain rfl := h
    rwa [Nat.zero_add]
  | succ n ih =>
    obtain ⟨op, m₂, hop, hstep, hrest⟩ := h
    rw [Nat.add_right_comm]
    exact ⟨op, m₂, hop, hstep, ih hrest⟩

theorem runFrom_of_end (h : prog.code[m.pc]? = none) :
    prog.runFrom inputs n m = ⟨.finished, m.du⟩ := by
  rw [runFrom.eq_def]
  simp only [h]

theorem runFrom_succ {op : Opcode K} (hop : prog.code[m.pc]? = some op)
    (hstep : prog.step inputs m op = .ok m') :
    prog.runFrom inputs (n + 1) m = prog.runFrom inputs n m' := by
  rw [runFrom.eq_def]
  simp only [hop, hstep]

theorem runFrom_zero {op : Opcode K} (hop : prog.code[m.pc]? = some op) :
    prog.runFrom inputs 0 m = ⟨.outOfFuel, m.du⟩ := by
  rw [runFrom.eq_def]
  simp only [hop]

theorem runFrom_of_stopsAt (h : StopsAt prog inputs m s) :
    prog.runFrom inputs (n + 1) m = ⟨s, m.du⟩ := by
  obtain ⟨op, hop, hstep⟩ := h
  rw [runFrom.eq_def]
  simp only [hop, hstep]

/-- **Steps are taken off the fuel.** -/
theorem runFrom_of_steps (h : Steps prog inputs k m m') :
    prog.runFrom inputs (k + n) m = prog.runFrom inputs n m' := by
  induction k generalizing m with
  | zero =>
    obtain rfl := h
    rw [Nat.zero_add]
  | succ k ih =>
    obtain ⟨op, m₂, hop, hstep, hrest⟩ := h
    rw [Nat.add_right_comm, runFrom_succ hop hstep, ih hrest]

/-- **What is left of a run that ends still ends**, with that much less fuel. -/
theorem Terminates.of_steps (ht : Terminates prog inputs n m) (h : Steps prog inputs k m m') :
    k ≤ n ∧ Terminates prog inputs (n - k) m' := by
  induction k generalizing m n with
  | zero =>
    obtain rfl := h
    exact ⟨Nat.zero_le n, ht⟩
  | succ k ih =>
    obtain ⟨op, m₂, hop, hstep, hrest⟩ := h
    cases n with
    | zero =>
      rw [Terminates, runFrom_zero hop] at ht
      exact absurd rfl ht
    | succ n =>
      rw [Terminates, runFrom_succ hop hstep] at ht
      obtain ⟨hk, hm⟩ := ih ht hrest
      rw [Nat.succ_sub_succ]
      exact ⟨Nat.succ_le_succ hk, hm⟩

/-- An instruction that stops the run does not finish it. -/
theorem StopsAt.ne_finished (h : StopsAt prog inputs m s) : s ≠ .finished := by
  obtain ⟨op, -, hstep⟩ := h
  cases op with
  | load b =>
    rw [step, read] at hstep
    grind [outOfRange]
  | storeDerivative =>
    rw [step, write] at hstep
    grind [outOfRange]
  | fail n =>
    rw [step] at hstep
    grind
  | jumpIfFalse target =>
    rw [step] at hstep
    grind
  | _ =>
    rw [step] at hstep
    cases hstep

/-- No instruction claims to have run out of fuel. -/
theorem StopsAt.ne_outOfFuel (h : StopsAt prog inputs m s) : s ≠ .outOfFuel := by
  obtain ⟨op, -, hstep⟩ := h
  cases op with
  | load b =>
    rw [step, read] at hstep
    grind [outOfRange]
  | storeDerivative =>
    rw [step, write] at hstep
    grind [outOfRange]
  | fail n =>
    rw [step] at hstep
    grind
  | jumpIfFalse target =>
    rw [step] at hstep
    grind
  | _ =>
    rw [step] at hstep
    cases hstep

/-- More fuel does not change how a run ends. -/
theorem Terminates.runFrom_eq (ht : Terminates prog inputs n m) (hn : n ≤ k) :
    prog.runFrom inputs k m = prog.runFrom inputs n m := by
  induction n generalizing m k with
  | zero =>
    cases hop : prog.code[m.pc]? with
    | none => rw [runFrom_of_end hop, runFrom_of_end hop]
    | some op =>
      rw [Terminates, runFrom_zero hop] at ht
      exact absurd rfl ht
  | succ n ih =>
    obtain ⟨k, rfl⟩ : ∃ k', k = k' + 1 := ⟨k - 1, by omega⟩
    cases hop : prog.code[m.pc]? with
    | none => rw [runFrom_of_end hop, runFrom_of_end hop]
    | some op =>
      cases hstep : prog.step inputs m op with
      | error s => rw [runFrom_of_stopsAt ⟨op, hop, hstep⟩, runFrom_of_stopsAt ⟨op, hop, hstep⟩]
      | ok m₁ =>
        rw [Terminates, runFrom_succ hop hstep] at ht
        rw [runFrom_succ hop hstep, runFrom_succ hop hstep]
        exact ih ht (by omega)

/-! ## Code in its place

The entries of a list stand in a longer one from a position on; instructions and unresolved symbols
are both placed that way. -/

/-- The entries of `part` are those of `get` from a position on. -/
def Placed {α : Type} (get : Nat → Option α) (position : Nat) (part : List α) : Prop :=
  ∀ i a, part[i]? = some a → get (position + i) = some a

section Placed

variable {α : Type} {get : Nat → Option α} {position : Nat} {a : α} {l r : List α}

theorem Placed.left (h : Placed get position (l ++ r)) : Placed get position l := by
  intro i a hi
  refine h i a ?_
  rw [List.getElem?_append_left (List.getElem?_eq_some_iff.mp hi).1, hi]

theorem Placed.right (h : Placed get position (l ++ r)) : Placed get (position + l.length) r := by
  intro i a hi
  rw [Nat.add_assoc]
  refine h (l.length + i) a ?_
  rw [List.getElem?_append_right (Nat.le_add_right _ _), Nat.add_sub_cancel_left, hi]

theorem Placed.head (h : Placed get position (a :: l)) : get position = some a := h 0 a rfl

theorem Placed.tail (h : Placed get position (a :: l)) : Placed get (position + 1) l :=
  Placed.right (l := [a]) h

end Placed

/-- The program has these instructions from an address on. -/
abbrev CodeAt (prog : Program K) (address : Nat) (code : List (Opcode K)) : Prop :=
  Placed (prog.code[·]?) address code

/-- **A piece in its place**: its instructions, its locals and its unresolved symbols are those of
the program from there on. -/
structure PieceAt (prog : Program K) (start : Place) (piece : Piece K) : Prop where
  code : CodeAt prog start.address piece.code
  locals : start.locals + piece.locals ≤ prog.locals
  unresolved : Placed (prog.unresolved[·]?) start.unresolved piece.unresolved

namespace PieceAt

variable {start : Place} {x y : Piece K} {c : List (Opcode K)}

omit [Literal K] in
theorem left (h : PieceAt prog start (x ++ y)) : PieceAt prog start x where
  code := h.code.left
  locals := Nat.le_trans (Nat.add_le_add_left (Nat.le_add_right _ _) _) h.locals
  unresolved := h.unresolved.left

omit [Literal K] in
theorem right (h : PieceAt prog start (x ++ y)) : PieceAt prog (start.after x) y where
  code := h.code.right
  locals := by
    rw [Place.after, Nat.add_assoc]
    exact h.locals
  unresolved := h.unresolved.right

omit [Literal K] in
/-- The last instructions of a piece. -/
theorem tail (h : PieceAt prog start (x ++ .ofCode c)) :
    CodeAt prog (start.address + x.code.length) c := h.right.code

end PieceAt

end Program

end Fluxion
