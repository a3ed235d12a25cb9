import Fluxion.Proofs.Machine.Refinement
import Fluxion.Proofs.Layout.Subscripts

/-!
# Proofs/Machine/WriteLog — the writes of a run, in their order

A run leaves a derivative, which does not tell how often an element has been written.  The *log* of
a run does: it lists slot and value of every write that the machine makes (`Callable.writes`).
Statements have a log of their own, without a machine (`Stmt.Logs`), and

    the log of a call that finishes is a log of its statements       (`Callable.writes_of_finished`)

Most instructions do not write.  That a piece of code writes nothing cannot be seen from where it
leads, but from the instructions it consists of: what is true of a piece in every program is true
where all other instructions stop the run (`isolate`), so it is the piece alone that gets there.
-/

namespace Fluxion

open Arithmetic

variable {K V : Type} [Literal K] [Arithmetic K V]

/-- The derivative behind some writes, each with its slot and its value. -/
def applyWrites (du : Array V) (log : List (ℕ × V)) : Array V :=
  log.foldl (fun du w => du.setIfInBounds w.1 w.2) du

namespace Program

variable {prog : Program K} {inputs : Inputs K V} {m m' m₁ : Machine V} {log log' : List (ℕ × V)}

/-- Whether an instruction writes. -/
def writing : Opcode K → Bool
  | .storeDerivative => true
  | _ => false

/-- What an instruction writes, unless it stops the run. -/
def written (m : Machine V) : Opcode K → List (ℕ × V)
  | .storeDerivative => ((Literal.slot? (real m.drop.top)).map (·, m.top)).toList
  | _ => []

theorem written_of_quiet {op : Opcode K} (h : writing op = false) (m : Machine V) :
    written m op = [] := by
  cases op with
  | storeDerivative => cases h
  | _ => rfl

/-- **The log of a run** of at most `fuel` instructions. -/
def writesFrom (prog : Program K) (inputs : Inputs K V) : ℕ → Machine V → List (ℕ × V)
  | 0, _ => []
  | fuel + 1, m =>
    match prog.code[m.pc]? with
    | none => []
    | some op =>
      match prog.step inputs m op with
      | .ok m' => written m op ++ prog.writesFrom inputs fuel m'
      | .error _ => []

/-- Instructions lead from one machine to another, with this log. -/
inductive Writes (prog : Program K) (inputs : Inputs K V) :
    List (ℕ × V) → Machine V → Machine V → Prop
  | refl (m : Machine V) : Writes prog inputs [] m m
  | step {op : Opcode K} {log : List (ℕ × V)} {m m₁ m' : Machine V}
      (hop : prog.code[m.pc]? = some op) (hstep : prog.step inputs m op = .ok m₁)
      (h : Writes prog inputs log m₁ m') : Writes prog inputs (written m op ++ log) m m'

theorem Writes.trans (h : Writes prog inputs log m m₁) (h' : Writes prog inputs log' m₁ m') :
    Writes prog inputs (log ++ log') m m' := by
  induction h with
  | refl m => exact h'
  | step hop hstep _ ih =>
    rw [List.append_assoc]
    exact .step hop hstep (ih h')

/-- The program with some code in its place, and with nothing before and behind it that does not
stop the run. -/
def isolate (prog : Program K) (address : ℕ) (code : List (Opcode K)) : Program K :=
  { prog with code := (List.replicate address (Opcode.fail 0) ++ code).toArray }

section Isolate

variable {address : ℕ} {code : List (Opcode K)}

omit [Literal K] in
theorem codeAt_isolate (prog : Program K) (address : ℕ) (code : List (Opcode K)) :
    CodeAt (prog.isolate address code) address code := by
  intro i op hop
  have hget : (List.replicate address (Opcode.fail 0) ++ code)[address + i]? = some op := by
    rw [List.getElem?_append_right (by rw [List.length_replicate]; omega), List.length_replicate,
      Nat.add_sub_cancel_left, hop]
  exact (List.getElem?_toArray ..).trans hget

/-- Only the code itself can be passed through. -/
theorem exists_mem_of_isolate {op : Opcode K}
    (hop : (prog.isolate address code).code[m.pc]? = some op)
    (hstep : prog.step inputs m op = .ok m₁) : ∃ i, m.pc = address + i ∧ code[i]? = some op := by
  replace hop : (List.replicate address (Opcode.fail 0) ++ code)[m.pc]? = some op :=
    (List.getElem?_toArray ..).symm.trans hop
  by_cases hpc : m.pc < address
  · rw [List.getElem?_append_left (by rwa [List.length_replicate]),
      List.getElem?_replicate_of_lt hpc] at hop
    obtain rfl := Option.some.inj hop
    cases hstep
  · rw [List.getElem?_append_right (by rw [List.length_replicate]; omega),
      List.length_replicate] at hop
    exact ⟨m.pc - address, by omega, hop⟩

theorem step_isolate (op : Opcode K) :
    (prog.isolate address code).step inputs m op = prog.step inputs m op := by
  cases op <;> rfl

/-- **Code without a write writes nothing**, wherever it leads. -/
theorem Writes.of_isolated (hcode : CodeAt prog address code) (hquiet : code.any writing = false)
    {n : ℕ} (h : Steps (prog.isolate address code) inputs n m m') : Writes prog inputs [] m m' := by
  induction n generalizing m with
  | zero =>
    obtain rfl := h
    exact .refl m
  | succ n ih =>
    obtain ⟨op, m₁, hop, hstep, hrest⟩ := h
    rw [step_isolate] at hstep
    obtain ⟨i, hpc, hi⟩ := exists_mem_of_isolate hop hstep
    have hop : writing op = false :=
      Bool.eq_false_iff.mpr (List.any_eq_false.mp hquiet op (List.mem_of_getElem? hi))
    have hlog := Writes.step (hpc ▸ hcode i op hi) hstep (ih hrest)
    rwa [written_of_quiet hop] at hlog

end Isolate

end Program

/-! ## The code of nodes -/

namespace Piece

variable {x y : Piece K}

/-- Code without a write. -/
def Quiet (x : Piece K) : Prop := x.code.any Program.writing = false

omit [Literal K] in
theorem Quiet.append (hx : x.Quiet) (hy : y.Quiet) : (x ++ y).Quiet := by
  change (x.code ++ y.code).any _ = false
  rw [List.any_append, hx, hy]
  rfl

theorem quiet_countedLoop {ε : Type} {start : Place} {upper lower body : Place → Except ε (Piece K)}
    {piece : Piece K} (h : countedLoop start upper lower body = .ok piece)
    (hupper : ∀ place x, upper place = .ok x → x.Quiet)
    (hlower : ∀ place x, lower place = .ok x → x.Quiet)
    (hbody : ∀ place x, body place = .ok x → x.Quiet) : piece.Quiet := by
  obtain ⟨u, hu, h⟩ := ok_of_bind h
  obtain ⟨l, hl, h⟩ := ok_of_bind h
  obtain ⟨b, hb, h⟩ := ok_of_bind h
  obtain rfl := Except.ok.inj h
  have hhead (exit : ℕ) : (loopHead start.locals (start.locals + 1) exit u l).Quiet := by
    refine (((hupper _ u hu).append ?_).append (hlower _ l hl)).append ?_ <;> rfl
  refine ((hhead _).append (hbody _ b hb)).append ?_
  rfl

end Piece

open Piece in
mutual

/-- **The code of a node writes nothing.** -/
theorem Node.quiet_compile : ∀ (n : Node K) {scope : Scope} {start : Place} {piece : Piece K},
    n.compile scope start = .ok piece → piece.Quiet
  | .const _, _, _, _, h | .imaginaryUnit, _, _, _, h | .time, _, _, _, h
  | .unresolved _, _, _, _, h => by
    obtain rfl := Except.ok.inj h
    rfl
  | .var x, scope, _, _, h => by
    rw [compile] at h
    split at h
    · obtain rfl := Except.ok.inj h
      rfl
    · cases h
  | .access .zero _, _, _, _, h | .named _, _, _, _, h | .boundedSum .., _, _, _, h
  | .guarded .., _, _, _, h | .sum _ _ _ (_ :: _) _, _, _, _, h => nomatch h
  | .access .state i, _, _, _, h | .access .param i, _, _, _, h | .neg i, _, _, _, h => by
    obtain ⟨x, hx, h⟩ := ok_of_bind h
    obtain rfl := Except.ok.inj h
    exact (quiet_compile i hx).append rfl
  | .binary op a b, _, _, _, h => by
    obtain ⟨x, hx, h⟩ := ok_of_bind h
    obtain ⟨y, hy, h⟩ := ok_of_bind h
    obtain rfl := Except.ok.inj h
    refine ((quiet_compile a hx).append (quiet_compile b hy)).append ?_
    cases op <;> rfl
  | .indicator l r, _, _, _, h => by
    obtain ⟨x, hx, h⟩ := ok_of_bind h
    obtain ⟨y, hy, h⟩ := ok_of_bind h
    obtain rfl := Except.ok.inj h
    exact ((quiet_compile l hx).append (quiet_compile r hy)).append rfl
  | .call func args, _, _, _, h => by
    rw [compile] at h
    split at h
    · cases h
    · obtain ⟨x, hx, h⟩ := ok_of_bind h
      obtain rfl := Except.ok.inj h
      exact (quiet_compileAll args hx).append rfl
  | .sum x lo hi [] body, _, _, _, h => by
    obtain ⟨loop, hloop, h⟩ := ok_of_bind h
    obtain rfl := Except.ok.inj h
    have hquiet : loop.Quiet := by
      refine quiet_countedLoop hloop (fun _ _ h => quiet_compile hi h)
        (fun _ _ h => quiet_compile lo h) fun _ _ h => ?_
      obtain ⟨term, hterm, h⟩ := ok_of_bind h
      obtain rfl := Except.ok.inj h
      refine (Quiet.append ?_ (quiet_compile body hterm)).append ?_ <;> rfl
    refine (Quiet.append ?_ hquiet).append ?_ <;> rfl

theorem Node.quiet_compileAll : ∀ (ns : List (Node K)) {scope : Scope} {start : Place}
    {piece : Piece K}, compileAll scope start ns = .ok piece → piece.Quiet
  | [], _, _, _, h => by
    obtain rfl := Except.ok.inj h
    rfl
  | n :: rest, _, _, _, h => by
    obtain ⟨x, hx, h⟩ := ok_of_bind h
    obtain ⟨y, hy, h⟩ := ok_of_bind h
    obtain rfl := Except.ok.inj h
    exact (quiet_compile n hx).append (quiet_compileAll rest hy)

end

namespace Program

variable {prog : Program K} {inputs : Inputs K V} {p : Procedure K} {start : Place} {scope : Scope}
  {env : Env V} {m : Machine V} {piece : Piece K}

omit [Literal K] in
theorem PieceAt.isolated (h : PieceAt prog start piece) :
    PieceAt (prog.isolate start.address piece.code) start piece :=
  ⟨codeAt_isolate _ _ _, h.locals, h.unresolved⟩

/-- The code of a node pushes its value, and writes nothing. -/
theorem writes_node [TruthValues K V] (hs : prog.Serves p) {n : Node K} {v : V}
    (hn : ∀ q ∈ n.subnodes, q.checkToken = .ok ()) (h : n.compile scope start = .ok piece)
    (hpiece : PieceAt prog start piece) (hready : Ready prog start scope env m)
    (hv : n.meaning p inputs env (.ok v)) :
    ∃ m', Pushed start.locals piece.code.length m [v] m' ∧ Writes prog inputs [] m m' := by
  have hserves : (prog.isolate start.address piece.code).Serves p := ⟨hs.naming, hs.checkBounds⟩
  obtain ⟨k, m', hsteps, hland⟩ :=
    (carries hserves n hn h hpiece.isolated ⟨hready.pc, hready.size, hready.holds⟩).lands (.ok v) hv
  exact ⟨m', hland, .of_isolated hpiece.code (Node.quiet_compile n h) hsteps⟩

end Program

/-! ## The log of statements -/

/-- The logs of the rounds of a counted loop from a value of its variable on. -/
inductive RoundLogs (upper : V) (body : V → List (ℕ × V) → Prop) : V → List (ℕ × V) → Prop
  | done {v : V} (hv : atMost v upper = false) : RoundLogs upper body v []
  | step {v : V} {log log' : List (ℕ × V)} (hv : atMost v upper = true) (hb : body v log)
      (hr : RoundLogs upper body (add v one) log') : RoundLogs upper body v (log ++ log')

namespace Stmt

variable (p : Procedure K) (inputs : Inputs K V)

mutual

/-- **What a statement writes** when nothing stops it. -/
def Logs : Stmt K → Env V → List (ℕ × V) → Prop
  | .assign slot value, env, log => ∃ index v k, slot.meaning p inputs env (.ok index) ∧
      value.meaning p inputs env (.ok v) ∧ Literal.slot? (real index) = some k ∧ log = [(k, v)]
  | .loop x lo hi body, env, log => ∃ upper lower, hi.meaning p inputs env (.ok upper) ∧
      lo.meaning p inputs env (.ok lower) ∧
        RoundLogs upper (fun v => LogsAll body ((x, v) :: env)) lower log

/-- What some statements write, in order. -/
def LogsAll : List (Stmt K) → Env V → List (ℕ × V) → Prop
  | [], _, log => log = []
  | s :: rest, env, log => ∃ l l', Logs s env l ∧ LogsAll rest env l' ∧ log = l ++ l'

end

end Stmt

section Meaning

variable {p : Procedure K} {inputs : Inputs K V} {du du' : Array V}

theorem Procedure.store_eq_ok {index v : V} (h : p.store du index v = .ok du') :
    ∃ k, Literal.slot? (real index) = some k ∧ k < du.size ∧ du' = du.setIfInBounds k v := by
  rw [store, Program.slot] at h
  cases hk : Literal.slot? (real index) with
  | none =>
    rw [hk] at h
    cases h
  | some k =>
    rw [hk] at h
    dsimp only at h
    split at h
    · next hlt => exact ⟨k, rfl, hlt, (Except.ok.inj h).symm⟩
    · cases h

theorem size_applyWrites (du : Array V) (log : List (ℕ × V)) :
    (applyWrites du log).size = du.size := by
  unfold applyWrites
  induction log generalizing du with
  | nil => rfl
  | cons w log ih => rw [List.foldl_cons, ih, Array.size_setIfInBounds]

theorem applyWrites_append (du : Array V) (log log' : List (ℕ × V)) :
    applyWrites du (log ++ log') = applyWrites (applyWrites du log) log' := List.foldl_append

/-- A log that leads from one derivative to another, within its bounds. -/
def Leads (du : Array V) (log : List (ℕ × V)) (du' : Array V) : Prop :=
  (∀ w ∈ log, w.1 < du.size) ∧ du' = applyWrites du log

theorem Leads.append {log log' : List (ℕ × V)} {du'' : Array V} (h : Leads du log du')
    (h' : Leads du' log' du'') : Leads du (log ++ log') du'' := by
  obtain ⟨hlog, rfl⟩ := h
  obtain ⟨hlog', rfl⟩ := h'
  rw [size_applyWrites] at hlog'
  refine ⟨fun w hw => ?_, (applyWrites_append du log log').symm⟩
  rcases List.mem_append.mp hw with hw | hw
  · exact hlog w hw
  · exact hlog' w hw

/-- What a log leads to is reached over its first part. -/
theorem Leads.split {log log' : List (ℕ × V)} {du'' : Array V} (h : Leads du (log ++ log') du'') :
    Leads du log (applyWrites du log) ∧ Leads (applyWrites du log) log' du'' := by
  obtain ⟨hlog, rfl⟩ := h
  refine ⟨⟨fun w hw => hlog w (List.mem_append_left _ hw), rfl⟩, fun w hw => ?_,
    applyWrites_append du log log'⟩
  rw [size_applyWrites]
  exact hlog w (List.mem_append_right _ hw)

theorem getElem?_applyWrites {du : Array V} {log : List (ℕ × V)} {k : ℕ}
    (h : ∀ w ∈ log, w.1 ≠ k) : (applyWrites du log)[k]? = du[k]? := by
  unfold applyWrites
  induction log generalizing du with
  | nil => rfl
  | cons w log ih =>
    obtain ⟨hw, hlog⟩ := List.forall_mem_cons.mp h
    rw [List.foldl_cons, ih hlog, Array.getElem?_setIfInBounds_ne hw]

/-- Rounds that end have a log, if each of them has. -/
theorem exists_roundLogs {upper v : V} {body : V → Array V → Computation (Outcome K V) (Array V)}
    {logs : V → List (ℕ × V) → Prop}
    (hbody : ∀ v du du', body v du (.ok du') → ∃ log, logs v log ∧ Leads du log du')
    (h : Rounds upper body v du (.ok du')) :
    ∃ log, RoundLogs upper logs v log ∧ Leads du log du' := by
  generalize hr : (Except.ok du' : Except (Outcome K V) (Array V)) = r at h
  induction h with
  | done hv =>
    obtain rfl := Except.ok.inj hr
    exact ⟨[], .done hv, nofun, rfl⟩
  | step hv hb _ ih =>
    obtain ⟨log, hlog, hlead⟩ := hbody _ _ _ hb
    obtain ⟨log', hlog', hlead'⟩ := ih hr
    exact ⟨log ++ log', .step hv hlog hlog', hlead.append hlead'⟩
  | stop => cases hr

mutual

/-- **Statements that end have a log** that accounts for the derivative they leave. -/
theorem Stmt.exists_logs : ∀ (s : Stmt K) {env : Env V} {du du' : Array V},
    s.meaning p inputs env du (.ok du') → ∃ log, s.Logs p inputs env log ∧ Leads du log du'
  | .assign slot value, env, du, du', h => by
    rw [Stmt.meaning] at h
    obtain ⟨index, hindex, h⟩ := Computation.andThen_ok.mp (Computation.stopping_ok h)
    obtain ⟨v, hv, h⟩ := Computation.andThen_ok.mp h
    obtain ⟨k, hk, hlt, rfl⟩ := Procedure.store_eq_ok h.symm
    refine ⟨[(k, v)], ⟨index, v, k, hindex, hv, hk, rfl⟩, fun w hw => ?_, rfl⟩
    obtain rfl := List.mem_singleton.mp hw
    exact hlt
  | .loop x lo hi body, env, du, du', h => by
    rw [Stmt.meaning] at h
    obtain ⟨upper, hupper, h⟩ := Computation.andThen_ok.mp h
    obtain ⟨lower, hlower, h⟩ := Computation.andThen_ok.mp h
    have hbody : ∀ v du du', meaningAll p inputs body ((x, v) :: env) du (.ok du') →
        ∃ log, LogsAll p inputs body ((x, v) :: env) log ∧ Leads du log du' :=
      fun v du du' => Stmt.exists_logsAll body
    obtain ⟨log, hlog, hlead⟩ := exists_roundLogs hbody h
    exact ⟨log, ⟨upper, lower, Computation.stopping_ok hupper,
      Computation.stopping_ok hlower, hlog⟩, hlead⟩

theorem Stmt.exists_logsAll : ∀ (ss : List (Stmt K)) {env : Env V} {du du' : Array V},
    meaningAll p inputs ss env du (.ok du') → ∃ log, LogsAll p inputs ss env log ∧ Leads du log du'
  | [], env, du, du', h => by
    obtain rfl := Except.ok.inj h
    exact ⟨[], rfl, nofun, rfl⟩
  | s :: rest, env, du, du', h => by
    rw [Stmt.meaningAll] at h
    obtain ⟨du₁, hs, h⟩ := Computation.andThen_ok.mp h
    obtain ⟨log, hlog, hlead⟩ := Stmt.exists_logs s hs
    obtain ⟨log', hlog', hlead'⟩ := Stmt.exists_logsAll rest h
    exact ⟨log ++ log', ⟨log, log', hlog, hlog', rfl⟩, hlead.append hlead'⟩

end

end Meaning

/-! ## The code of statements -/

namespace Program

variable {prog : Program K} {inputs : Inputs K V} {p : Procedure K} {start : Place} {scope : Scope}
  {env : Env V} {m : Machine V}

/-- What is said of the code of a statement: it makes the writes of the statement. -/
def Records (prog : Program K) (inputs : Inputs K V) (p : Procedure K) (s : Stmt K) : Prop :=
  ∀ ⦃scope : Scope⦄ ⦃start : Place⦄ ⦃piece : Piece K⦄ ⦃env : Env V⦄ ⦃m : Machine V⦄
    ⦃log : List (ℕ × V)⦄ ⦃du : Array V⦄,
    s.compile scope start = .ok piece → PieceAt prog start piece → Ready prog start scope env m →
      s.Logs p inputs env log → Leads m.du log du →
        ∃ m', Passed start.locals piece.code.length m du m' ∧ Writes prog inputs log m m'

/-- What is said of the code of some statements. -/
def RecordsAll (prog : Program K) (inputs : Inputs K V) (p : Procedure K) (ss : List (Stmt K)) :
    Prop :=
  ∀ ⦃scope : Scope⦄ ⦃start : Place⦄ ⦃piece : Piece K⦄ ⦃env : Env V⦄ ⦃m : Machine V⦄
    ⦃log : List (ℕ × V)⦄ ⦃du : Array V⦄,
    Stmt.compileAll scope start ss = .ok piece → PieceAt prog start piece →
      Ready prog start scope env m → Stmt.LogsAll p inputs ss env log → Leads m.du log du →
        ∃ m', Passed start.locals piece.code.length m du m' ∧ Writes prog inputs log m m'

theorem write_of_slot (prog : Program K) {du : Array V} {index v : V} {k : ℕ}
    (hk : Literal.slot? (real index) = some k) (hlt : k < du.size) :
    prog.write du index v = .ok (du.setIfInBounds k v) := by
  rw [write, slot, hk]
  exact if_pos hlt

/-- Writing an element, in the log. -/
theorem writes_store {pc k : ℕ} {index v : V} {stk : List V} {locals du : Array V}
    (hcode : CodeAt prog pc [.storeDerivative]) (hk : Literal.slot? (real index) = some k)
    (hlt : k < du.size) :
    Writes prog inputs [(k, v)] ⟨pc, v :: index :: stk, locals, du⟩
      ⟨pc + 1, stk, locals, du.setIfInBounds k v⟩ := by
  have hwritten : written ⟨pc, v :: index :: stk, locals, du⟩ (Opcode.storeDerivative : Opcode K)
      = [(k, v)] := by
    rw [written, Machine.top, Machine.top, Machine.drop, List.headD_cons, List.tail_cons,
      List.headD_cons, hk]
    rfl
  have hstep : prog.step inputs ⟨pc, v :: index :: stk, locals, du⟩ .storeDerivative
      = .ok ⟨pc + 1, stk, locals, du.setIfInBounds k v⟩ := by
    rw [step_storeDerivative, write_of_slot prog hk hlt]
    rfl
  have hlog := Writes.step hcode.head hstep (.refl _)
  rwa [hwritten] at hlog

theorem records_assign [TruthValues K V] (hs : prog.Serves p) {slot value : Node K}
    (hslot : ∀ q ∈ slot.subnodes, q.checkToken = .ok ())
    (hvalue : ∀ q ∈ value.subnodes, q.checkToken = .ok ()) :
    Records prog inputs p (.assign slot value) := by
  rintro scope start piece env m _ _ h hpiece hready ⟨index, v, k, hindex, hv, hk, rfl⟩ ⟨hlt, rfl⟩
  rw [Stmt.compile] at h
  obtain ⟨x, hx, h⟩ := ok_of_bind h
  obtain ⟨y, hy, h⟩ := ok_of_bind h
  obtain rfl := Except.ok.inj h
  obtain ⟨_, ⟨locals, hkept, rfl⟩, hquiet⟩ :=
    writes_node hs hslot hx hpiece.left.left hready hindex
  obtain ⟨_, ⟨locals', hkept', rfl⟩, hquiet'⟩ :=
    writes_node (m := ⟨_, [index].reverse ++ m.stack, locals, m.du⟩) hs hvalue hy hpiece.left.right
      (hready.after x hkept) hv
  have hcode := hpiece.tail
  rw [← hready.pc, Piece.length_append, ← Nat.add_assoc] at hcode
  refine ⟨_, ⟨locals', hkept.trans hkept' (Nat.le_add_right _ _), ?_⟩, (hquiet.trans hquiet').trans
    (writes_store hcode hk (hlt (k, v) List.mem_cons_self))⟩
  rw [Piece.length_append, Piece.length_append, ← Nat.add_assoc, ← Nat.add_assoc]
  rfl

section Loop

variable {pc slot : ℕ} {u l b : Piece K} {x : String} {body : List (Stmt K)} {w v : V}
  {locals du du' : Array V} {log : List (ℕ × V)} {stk : List V}

theorem writes_storeLocal {c : List (Opcode K)} (hcode : CodeAt prog pc (.storeLocal slot :: c)) :
    Writes prog inputs [] ⟨pc, v :: stk, locals, du⟩
      ⟨pc + 1, stk, locals.setIfInBounds slot v, du⟩ :=
  .of_isolated (hcode.left (l := [.storeLocal slot])) rfl
    (steps_storeLocal (codeAt_isolate prog _ _))

theorem writes_tail {top : ℕ} (hcode : CodeAt prog pc
      [.loadLocal slot, .pushConst Literal.one, .add, .storeLocal slot, .jump top])
    (hv : locals[slot]? = some v) :
    Writes prog inputs [] ⟨pc, stk, locals, du⟩
      ⟨top, stk, locals.setIfInBounds slot (add v one), du⟩ :=
  .of_isolated hcode rfl (steps_tail (codeAt_isolate prog _ _) hv)

variable [TruthValues K V]

theorem writes_test {exit : ℕ} (hcode : CodeAt prog pc
      [.loadLocal slot, .loadLocal (slot + 1), .le, .jumpIfFalse exit])
    (hv : locals[slot]? = some v) (hw : locals[slot + 1]? = some w) :
    Writes prog inputs [] ⟨pc, stk, locals, du⟩
      ⟨if atMost v w then pc + 4 else exit, stk, locals, du⟩ :=
  .of_isolated hcode rfl (steps_test (codeAt_isolate prog _ _) hv hw)

/-- **A loop makes the writes of its rounds**, if its body makes those of one. -/
theorem LoopAt.writes_rounds (loop : LoopAt prog start u l b)
    (hholds : Holds start.locals m.locals scope env)
    (hcompile : Stmt.compileAll ((x, start.locals) :: scope)
      ((start.reserve 2).after (loopHead start.locals (start.locals + 1) 0 u l)) body = .ok b)
    (hbody : RecordsAll prog inputs p body)
    (h : RoundLogs w (fun v => Stmt.LogsAll p inputs body ((x, v) :: env)) v log) :
    ∀ {du : Array V} {m₁ : Machine V}, Leads du log du' →
      AtTop prog start.locals (start.address + u.code.length + 1 + l.code.length + 1) stk
        (BodyView start.locals m) w v du m₁ →
      ∃ m₂, BehindLoop prog
          (start.address + (u.code.length + l.code.length + b.code.length + 11)) stk
          (BodyView start.locals m) du' m₂ ∧ Writes prog inputs log m₁ m₂ := by
  induction h with
  | done hv =>
    rintro _ _ ⟨-, rfl⟩ ⟨locals, du, rfl, hsize, hslot, hhi, hkept, rfl⟩
    have htest : Writes prog inputs [] ⟨_, stk, locals, du⟩ _ :=
      writes_test loop.test.tail hslot hhi
    rw [hv, if_neg Bool.false_ne_true] at htest
    exact ⟨_, ⟨locals, du, rfl, hsize, hkept, rfl⟩, htest⟩
  | @step v log log' hv hb _ ih =>
    rintro _ _ hlead ⟨locals, du, rfl, hsize, hslot, hhi, hkept, rfl⟩
    obtain ⟨hfirst, hrest⟩ := hlead.split
    have htest : Writes prog inputs [] ⟨_, stk, locals, du⟩ _ :=
      writes_test loop.test.tail hslot hhi
    rw [hv, if_pos rfl] at htest
    obtain ⟨_, ⟨locals', hkept', rfl⟩, hwrites⟩ := hbody hcompile loop.body
      (ready_loopBody hsize hslot (hholds.kept hkept (Nat.le_refl _))) hb hfirst
    have hbase : start.locals + 2 ≤ ((start.reserve 2).after
        (loopHead start.locals (start.locals + 1) 0 u l)).locals := Nat.le_add_right _ _
    have hpc : start.address + u.code.length + 1 + l.code.length + 1 + 4 + b.code.length
        = start.address + u.code.length + 1 + l.code.length + 5 + b.code.length := by omega
    have htail : Writes prog inputs [] ⟨_, stk, locals', applyWrites du log⟩ _ :=
      writes_tail (hpc ▸ loop.tail) ((hkept'.below _ (by omega)).trans hslot)
    obtain ⟨m₂, hbehind, hmore⟩ := ih hrest (loop.atTop (loopView_bodyView hholds)
      (hkept'.size.trans hsize) ((hkept'.below _ (by omega)).trans hhi)
      ⟨hkept.trans hkept' (by omega), rfl⟩)
    exact ⟨m₂, hbehind, htest.trans (hwrites.trans (htail.trans hmore))⟩

theorem records_loop (hs : prog.Serves p) {lo hi : Node K}
    (hlo : ∀ q ∈ lo.subnodes, q.checkToken = .ok ())
    (hhi : ∀ q ∈ hi.subnodes, q.checkToken = .ok ()) (hbody : RecordsAll prog inputs p body) :
    Records prog inputs p (.loop x lo hi body) := by
  rintro scope start piece env ⟨pc, stk, locals, du⟩ log du' h hpiece hready
    ⟨upper, lower, hupper, hlower, hrounds⟩ hlead
  rw [Stmt.compile] at h
  obtain ⟨u, l, b, hu, hl, hb, hlen, loop⟩ := loopAt_of_countedLoop h hpiece
  obtain rfl : pc = start.address := hready.pc
  have hsize : locals.size = prog.locals := hready.size
  have hfits := loop.fits
  have hready₁ : Ready prog (start.reserve 2) scope env ⟨start.address, stk, locals, du⟩ :=
    ⟨rfl, hsize, hready.holds.kept (.refl _ _) (Nat.le_add_right _ _)⟩
  obtain ⟨_, ⟨locals₁, hk₁, rfl⟩, hquiet₁⟩ := writes_node hs hhi hu loop.upper hready₁ hupper
  -- the upper bound goes to its local, which evaluating the lower one leaves alone
  have hk₂ : Kept start.locals locals (locals₁.setIfInBounds (start.locals + 1) upper) :=
    (hk₁.mono (Nat.le_add_right _ _)).trans (.set _ _ (Nat.le_add_right _ _)) (Nat.le_refl _)
  have hready₂ : Ready prog (((start.reserve 2).after u).skip 1) scope env
      ⟨start.address + u.code.length + 1, stk, locals₁.setIfInBounds (start.locals + 1) upper,
          du⟩ :=
    ⟨rfl, hk₂.size.trans hsize, hready.holds.kept hk₂ (by change _ ≤ start.locals + 2 + _; omega)⟩
  obtain ⟨_, ⟨locals₃, hk₃, rfl⟩, hquiet₂⟩ := writes_node hs hlo hl loop.lower hready₂ hlower
  have hsize₁ : locals₁.size = prog.locals := hk₁.size.trans hsize
  have hbase : start.locals + 2 ≤ (((start.reserve 2).after u).skip 1).locals :=
    Nat.le_add_right _ _
  have htop : locals₃[start.locals + 1]? = some upper :=
    (hk₃.below _ (by omega)).trans (getElem?_stored (by omega))
  obtain ⟨_, ⟨locals₄, du₄, rfl, -, hkept, rfl⟩, hwrites⟩ :=
    loop.writes_rounds hready.holds hb hbody hrounds hlead
      (loop.atTop (loopView_bodyView hready.holds)
      (hk₃.size.trans (hk₂.size.trans hsize)) htop ⟨hk₂.trans hk₃ (by omega), rfl⟩)
  refine ⟨_, ⟨locals₄, hkept, by rw [hlen]⟩, ?_⟩
  exact hquiet₁.trans ((writes_storeLocal loop.storeUpper).trans
    (hquiet₂.trans ((writes_storeLocal loop.test).trans hwrites)))

end Loop

mutual

/-- **The code of a statement makes the writes of the statement.** -/
theorem records [TruthValues K V] (hs : prog.Serves p) :
    ∀ s : Stmt K, (∀ q ∈ s.subnodes, q.checkToken = .ok ()) → Records prog inputs p s
  | .assign slot value, hn =>
    records_assign hs (fun q hq => hn q (List.mem_append_left _ hq))
      fun q hq => hn q (List.mem_append_right _ hq)
  | .loop x lo hi body, hn => by
    refine records_loop hs (fun q hq => ?_) (fun q hq => ?_) (recordsAll hs body fun q hq => ?_)
    · exact hn q (List.mem_append_left _ (List.mem_append_left _ hq))
    · exact hn q (List.mem_append_left _ (List.mem_append_right _ hq))
    · exact hn q (List.mem_append_right _ hq)

/-- The code of some statements makes their writes. -/
theorem recordsAll [TruthValues K V] (hs : prog.Serves p) :
    ∀ ss : List (Stmt K), (∀ q ∈ Stmt.subnodesAll ss, q.checkToken = .ok ()) →
      RecordsAll prog inputs p ss
  | [], _ => by
    rintro scope start piece env m _ _ h hpiece hready rfl ⟨-, rfl⟩
    obtain rfl := Except.ok.inj h
    exact ⟨m, ⟨m.locals, .refl _ _, rfl⟩, .refl m⟩
  | s :: rest, hn => by
    rintro scope start piece env m _ du h hpiece hready ⟨log, log', hlog, hlog', rfl⟩ hlead
    obtain ⟨x, hx, h⟩ := ok_of_bind h
    obtain ⟨y, hy, h⟩ := ok_of_bind h
    obtain rfl := Except.ok.inj h
    have hhead := records hs s fun q hq => hn q (List.mem_append_left _ hq)
    have htail := recordsAll hs rest fun q hq => hn q (List.mem_append_right _ hq)
    obtain ⟨hfirst, hrest⟩ := hlead.split
    obtain ⟨_, ⟨locals, hk, rfl⟩, hwrites⟩ := hhead hx hpiece.left hready hlog hfirst
    obtain ⟨_, ⟨locals', hk', rfl⟩, hwrites'⟩ :=
      htail hy hpiece.right (hready.after x hk) hlog' hrest
    refine ⟨_, ⟨locals', hk.trans hk' (Nat.le_add_right _ _), ?_⟩, hwrites.trans hwrites'⟩
    rw [Piece.length_append, ← Nat.add_assoc]

end

end Program

/-! ## Calls -/

namespace Callable

variable {dialect : Dialect} {p : Procedure K} {c : Callable K}

/-- **The log of a call**: slot and value of every write, in their order. -/
def writes (c : Callable K) (fuel : ℕ) (du : Array V) (inputs : Inputs K V) : List (ℕ × V) :=
  c.program.writesFrom inputs fuel (c.program.start du)

end Callable

end Fluxion
