import Fluxion.Proofs.Machine.WriteLog

/-!
# Proofs/Machine/WriteOnly — a call writes its derivative and never reads it

An instruction sees of the derivative that is being written nothing but its size.  So a machine
whose derivative is exchanged for another one of the same size does the same, and makes the same
writes:

    m           ──op──▸   m'                        with the writes `written m op`
    m.into d    ──op──▸   m'.into (applyWrites d (written m op))

Step by step this is what a run does (`runFrom_into`).  What a call leaves in the derivative is
therefore what was there, with the log of the call written over it, in whatever way the call ends
(`Callable.write_only`).
-/

namespace Fluxion

open Arithmetic

variable {K V : Type} [Literal K] [Arithmetic K V]

/-! ## Derivatives behind some writes -/

/-- What is written to a slot last. -/
def lastWrite (log : List (ℕ × V)) (k : ℕ) : Option V := log.reverse.lookup k

/-- **A derivative with some writes over it**: where something is written, it is what is written
last, and elsewhere it is what was there. -/
structure Overwritten (du : Array V) (log : List (ℕ × V)) (du' : Array V) : Prop where
  size : du'.size = du.size
  written : ∀ k v, lastWrite log k = some v → du'[k]? = some v
  kept : ∀ k ∉ log.map (·.1), du'[k]? = du[k]?

/-- A slot holds what is written to it last, or else what it held before. -/
theorem getElem?_applyWrites_eq {du : Array V} {log : List (ℕ × V)}
    (hlog : ∀ w ∈ log, w.1 < du.size) (k : ℕ) :
    (applyWrites du log)[k]? = (lastWrite log k).or du[k]? := by
  induction log generalizing du with
  | nil => rfl
  | cons w log ih =>
    obtain ⟨hw, hlog⟩ := List.forall_mem_cons.mp hlog
    have hrest : (applyWrites (du.setIfInBounds w.1 w.2) log)[k]?
        = (lastWrite log k).or (du.setIfInBounds w.1 w.2)[k]? :=
      ih (by rwa [Array.size_setIfInBounds])
    have hfirst : (du.setIfInBounds w.1 w.2)[k]? = (List.lookup k [w]).or du[k]? := by
      by_cases hk : k = w.1
      · subst hk
        rw [Array.getElem?_setIfInBounds_self_of_lt hw, List.lookup_cons_self, Option.some_or]
      · rw [Array.getElem?_setIfInBounds_ne (Ne.symm hk), List.lookup_cons, beq_false_of_ne hk,
          List.lookup_nil, Option.none_or]
    calc (applyWrites du (w :: log))[k]?
        = (lastWrite log k).or ((List.lookup k [w]).or du[k]?) := hrest.trans (by rw [hfirst])
      _ = (lastWrite (w :: log) k).or du[k]? := by
        rw [← Option.or_assoc, lastWrite, lastWrite, List.reverse_cons, List.lookup_append]

theorem Leads.refl (du : Array V) : Leads du [] du := ⟨by simp, rfl⟩

theorem Leads.overwritten {du du' : Array V} {log : List (ℕ × V)} (h : Leads du log du') :
    Overwritten du log du' := by
  obtain ⟨hlog, rfl⟩ := h
  refine ⟨size_applyWrites du log, fun k v hv => ?_, fun k hk => ?_⟩
  · rw [getElem?_applyWrites_eq hlog, hv, Option.some_or]
  · exact getElem?_applyWrites fun w hw heq => hk (heq ▸ List.mem_map_of_mem hw)

/-! ## Instructions -/

namespace Machine

/-- A machine that writes into another derivative. -/
def into (m : Machine V) (d : Array V) : Machine V := { m with du := d }

@[simp] theorem pc_into (m : Machine V) (d : Array V) : (m.into d).pc = m.pc := rfl

@[simp] theorem du_into (m : Machine V) (d : Array V) : (m.into d).du = d := rfl

@[simp] theorem top_into (m : Machine V) (d : Array V) : (m.into d).top = m.top := rfl

@[simp] theorem drop_into (m : Machine V) (d : Array V) : (m.into d).drop = m.drop.into d := rfl

@[simp] theorem into_du (m : Machine V) : m.into m.du = m := rfl

end Machine

namespace Program

variable {prog : Program K} {inputs : Inputs K V} {m m' : Machine V} {op : Opcode K}
  {d du du' : Array V}

theorem written_into (m : Machine V) (d : Array V) (op : Opcode K) :
    written (m.into d) op = written m op := by
  cases op <;> rfl

/-- Whether a write succeeds depends on the size of the derivative only. -/
theorem write_eq_map (hsize : d.size = du.size) (index v : V) :
    prog.write d index v = (prog.write du index v).map fun _ =>
      applyWrites d ((Literal.slot? (real index)).map (·, v)).toList := by
  unfold write slot
  cases Literal.slot? (real index) with
  | none => rfl
  | some k =>
    dsimp only
    rw [hsize]
    split <;> rfl

/-- A write that succeeds has a slot of the derivative. -/
theorem exists_slot_of_write {index v : V} (h : prog.write du index v = .ok du') :
    ∃ k < du.size, Literal.slot? (real index) = some k := by
  unfold write slot at h
  cases hk : Literal.slot? (real index) with
  | none =>
    rw [hk] at h
    cases h
  | some k =>
    rw [hk] at h
    dsimp only at h
    split at h
    · next hlt => exact ⟨k, hlt, rfl⟩
    · cases h

/-- **An instruction does the same with another derivative of that size**, and makes the same
writes. -/
theorem step_into (hsize : d.size = m.du.size) (op : Opcode K) :
    prog.step inputs (m.into d) op
      = (prog.step inputs m op).map (·.into (applyWrites d (written m op))) := by
  cases op with
  | load b =>
    rw [step, step, Machine.top_into]
    cases prog.read inputs b m.top <;> rfl
  | jumpIfFalse target =>
    rw [step, step, Machine.top_into]
    split <;> rfl
  | storeDerivative =>
    rw [step, step, Machine.drop_into, Machine.top_into, Machine.top_into, Machine.du_into,
      write_eq_map hsize]
    cases prog.write m.du m.drop.top m.top <;> rfl
  | _ => rfl

/-- What an instruction writes is in the derivative, and is all that changes there. -/
theorem leads_step (hstep : prog.step inputs m op = .ok m') : Leads m.du (written m op) m'.du := by
  constructor
  · cases op with
    | storeDerivative =>
      rw [step] at hstep
      cases hwrite : prog.write m.du m.drop.top m.top with
      | error s =>
        rw [hwrite] at hstep
        cases hstep
      | ok du =>
        obtain ⟨k, hlt, hk⟩ := exists_slot_of_write hwrite
        rw [written, hk]
        simpa using hlt
    | _ => simp [written]
  · have hsame : prog.step inputs (m.into m.du) op = _ := step_into rfl op
    rw [Machine.into_du, hstep] at hsame
    exact congrArg Machine.du (Except.ok.inj hsame)

/-! ## Runs -/

variable (prog inputs)

/-- **A run does the same with another derivative of that size**: it has the same log and the same
status, and leaves the log in the derivative. -/
theorem runFrom_into (hsize : d.size = m.du.size) (fuel : ℕ) :
    prog.writesFrom inputs fuel (m.into d) = prog.writesFrom inputs fuel m ∧
      (prog.runFrom inputs fuel (m.into d)).status = (prog.runFrom inputs fuel m).status ∧
      Leads d (prog.writesFrom inputs fuel m) (prog.runFrom inputs fuel (m.into d)).du := by
  induction fuel generalizing m d with
  | zero =>
    cases hop : prog.code[m.pc]? with
    | none =>
      rw [runFrom_of_end hop, runFrom_of_end (m := m.into d) hop]
      exact ⟨rfl, rfl, .refl d⟩
    | some op =>
      rw [runFrom_zero hop, runFrom_zero (m := m.into d) hop]
      exact ⟨rfl, rfl, .refl d⟩
  | succ fuel ih =>
    rw [writesFrom, writesFrom, Machine.pc_into]
    cases hop : prog.code[m.pc]? with
    | none =>
      rw [runFrom_of_end hop, runFrom_of_end (m := m.into d) hop]
      exact ⟨rfl, rfl, .refl d⟩
    | some op =>
      dsimp only
      have hinto : prog.step inputs (m.into d) op = _ := step_into hsize op
      cases hstep : prog.step inputs m op with
      | error s =>
        rw [hstep] at hinto
        rw [hinto, runFrom_of_stopsAt ⟨op, hop, hstep⟩,
          runFrom_of_stopsAt (m := m.into d) ⟨op, hop, hinto⟩]
        exact ⟨rfl, rfl, .refl d⟩
      | ok m₁ =>
        rw [hstep] at hinto
        obtain ⟨hbounds, hdu⟩ := leads_step hstep
        have hsize₁ : (applyWrites d (written m op)).size = m₁.du.size := by
          rw [hdu, size_applyWrites, size_applyWrites, hsize]
        have hfirst : Leads d (written m op) (applyWrites d (written m op)) :=
          ⟨hsize ▸ hbounds, rfl⟩
        obtain ⟨hlog, hstatus, hrest⟩ := ih hsize₁
        rw [hinto, runFrom_succ hop hstep, runFrom_succ (m := m.into d) hop hinto]
        exact ⟨congrArg₂ _ (written_into m d op) hlog, hstatus, hfirst.append hrest⟩

end Program

/-! ## Calls -/

namespace Callable

open Program

variable (c : Callable K) (inputs : Inputs K V) {du du' : Array V}

/-- **A call leaves its log in the derivative**, whatever it ends with. -/
theorem leads_call (fuel : ℕ) (du : Array V) :
    Leads du (c.writes fuel du inputs) (c.call fuel du inputs).du :=
  (runFrom_into c.program inputs (m := c.program.start du) rfl fuel).2.2

theorem size_call (fuel : ℕ) (du : Array V) : (c.call fuel du inputs).du.size = du.size :=
  (c.leads_call inputs fuel du).overwritten.size

/-- **The derivative is only written.**  Two calls that differ in what is in the derivative before
return both or neither, and with the same fuel they end in the same way and make the same writes in
the same order.  Each of them leaves what was there with these writes over it, also where it
fails. -/
theorem write_only (hsize : du'.size = du.size) :
    ((∃ o, c.Returns inputs du o) ↔ ∃ o, c.Returns inputs du' o) ∧
    ∀ fuel, (c.call fuel du' inputs).status = (c.call fuel du inputs).status ∧
      c.writes fuel du' inputs = c.writes fuel du inputs ∧
      Overwritten du (c.writes fuel du inputs) (c.call fuel du inputs).du ∧
      Overwritten du' (c.writes fuel du inputs) (c.call fuel du' inputs).du := by
  have hsame (fuel : ℕ) := runFrom_into c.program inputs (m := c.program.start du) hsize fuel
  refine ⟨⟨?_, ?_⟩, fun fuel => ?_⟩
  · rintro ⟨_, hends, fuel, rfl⟩
    exact ⟨_, (hsame fuel).2.1.trans_ne hends, fuel, rfl⟩
  · rintro ⟨_, hends, fuel, rfl⟩
    exact ⟨_, (hsame fuel).2.1.symm.trans_ne hends, fuel, rfl⟩
  · obtain ⟨hlog, hstatus, hleads⟩ := hsame fuel
    exact ⟨hstatus, hlog, (c.leads_call inputs fuel du).overwritten, hleads.overwritten⟩

/-- A procedure that writes the states to the second slot, one over the other. -/
def lastState : Procedure ℚ where
  naming := ⟨"du", "u", "p", "t"⟩
  states := []
  params := []
  body := [.loop "i" (.ofInt 0) (.ofInt 2) [.assign (.ofInt 1) (.access .state (.var "i"))]]
  checkBounds := true

/-- With two states the call fails behind two writes, and what is in the other slots stays. -/
theorem write_only_lastState : ∃ c, lastState.materialize .real = .ok c ∧
    c.writes (V := ℚ) 100 #[8, 9, 4] ⟨#[5, 7], #[], 0⟩ = [(1, 5), (1, 7)] ∧
    (c.call (V := ℚ) 100 #[8, 9, 4] ⟨#[5, 7], #[], 0⟩).status =
      .failed (.indexOutOfBounds "u" 2 2) ∧
    (c.call (V := ℚ) 100 #[8, 9, 4] ⟨#[5, 7], #[], 0⟩).du[1]? = some 7 ∧
    (c.call (V := ℚ) 100 #[8, 9, 4] ⟨#[5, 7], #[], 0⟩).du[2]? = some 4 := by
  obtain ⟨c, hc, hwrites, hstatus⟩ : ∃ c, lastState.materialize .real = .ok c ∧
      c.writes (V := ℚ) 100 #[0, 0, 0] ⟨#[5, 7], #[], 0⟩ = [(1, 5), (1, 7)] ∧
      (c.call (V := ℚ) 100 #[0, 0, 0] ⟨#[5, 7], #[], 0⟩).status =
          .failed (.indexOutOfBounds "u" 2 2) :=
    ⟨_, rfl, by decide +kernel, by decide +kernel⟩
  have hsize : (#[8, 9, 4] : Array ℚ).size = (#[0, 0, 0] : Array ℚ).size := rfl
  obtain ⟨-, hsame⟩ := c.write_only ⟨#[5, 7], #[], 0⟩ hsize
  obtain ⟨hstatus', hlog, -, -, hwritten, hkept⟩ := hsame 100
  rw [hwrites] at hlog hwritten hkept
  exact ⟨c, hc, hlog, hstatus'.trans hstatus, hwritten 1 7 rfl, hkept 2 (by decide)⟩

end Callable

end Fluxion
