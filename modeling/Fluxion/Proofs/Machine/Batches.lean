import Fluxion.Proofs.Machine.WriteOnly

/-!
# Proofs/Machine/Batches — a batch is called row by row

Every row of a batch is called on a row of zeros of its own, and is replaced once its call has
finished.  So where the first `k` rows finish and the next one does not,

    rows before   b₀ … bₖ₋₁   what the calls have left in the rows of zeros
    row k         as it was   whatever its call has written before it failed
    rows behind   as they were

and the batch reports what the call of row `k` has reported (`batch_row_by_row`).  This is said of
rows that are taken in their order.  Since no call depends on another one, rows that finish are the
same in any order; which rows are replaced before a failure is a matter of the order.
-/

namespace Fluxion

variable {K V : Type} [Literal K] [Arithmetic K V]

namespace Callable

variable {c : Callable K} {inputs : Inputs K V} {du : Array V} {o : Outcome K V} {n fuel : ℕ}
  {p : Array V}
  {t : K} {us bs olds : List (Array V)}

/-- With enough fuel a call ends as it returns. -/
theorem Returns.enough (h : c.Returns inputs du o) :
    ∃ enough, ∀ fuel ≥ enough, c.call fuel du inputs = o := by
  obtain ⟨hends, fuel, rfl⟩ := h
  exact ⟨fuel, fun _ hfuel => Program.Terminates.runFrom_eq hends hfuel⟩

/-! ## Rows -/

/-- **The calls of some rows finish**, each on a row of zeros, with these derivatives. -/
def RowsReturn (c : Callable K) (n : ℕ) (p : Array V) (t : K) :
    List (Array V) → List (Array V) → Prop :=
  List.Forall₂ fun u b => c.Returns ⟨u, p, t⟩ (zeroRow n) ⟨.finished, b⟩

/-- There is enough fuel for all rows at once. -/
theorem RowsReturn.enough (h : c.RowsReturn n p t us bs) : ∃ enough, ∀ fuel ≥ enough,
    List.Forall₂ (fun u b => c.call fuel (zeroRow n) ⟨u, p, t⟩ = ⟨.finished, b⟩) us bs := by
  unfold RowsReturn at h
  induction h with
  | nil => exact ⟨0, fun _ _ => .nil⟩
  | cons hrow _ ih =>
    obtain ⟨enough, hrow⟩ := hrow.enough
    obtain ⟨enough', hrest⟩ := ih
    refine ⟨max enough enough', fun fuel hfuel => .cons (hrow fuel ?_) (hrest fuel ?_)⟩
    · exact (le_max_left _ _).trans hfuel
    · exact (le_max_right _ _).trans hfuel

/-- What a call leaves in a row of zeros has its length. -/
theorem size_of_call {u b : Array V} {s : Status K}
    (h : c.call fuel (zeroRow n) ⟨u, p, t⟩ = ⟨s, b⟩) : b.size = n := by
  have hsize := c.size_call ⟨u, p, t⟩ fuel (zeroRow n)
  rwa [h, zeroRow, Array.size_replicate] at hsize

theorem RowsReturn.size_eq (h : c.RowsReturn n p t us bs) : ∀ b ∈ bs, b.size = n := by
  unfold RowsReturn at h
  induction h with
  | nil => simp
  | cons hrow _ ih =>
    obtain ⟨-, fuel, hcall⟩ := hrow
    exact List.forall_mem_cons.mpr ⟨size_of_call hcall, ih⟩

/-- A row is replaced by one of its length. -/
theorem overwrite_eq {row b : Array V} (h : row.size = b.size) : overwrite row b = b := by
  refine Array.ext (Array.size_mapIdx.trans h) fun i _ hi => ?_
  simp only [overwrite, Array.getElem_mapIdx, Array.getElem?_eq_getElem hi, Option.getD_some]

theorem callRow_of_finished {u b : Array V}
    (h : c.call fuel (zeroRow n) ⟨u, p, t⟩ = ⟨.finished, b⟩) : c.callRow fuel n u p t = .ok b := by
  rw [callRow, h]

theorem callRow_of_stopped {u b : Array V} {s : Status K}
    (h : c.call fuel (zeroRow n) ⟨u, p, t⟩ = ⟨s, b⟩) (hs : s ≠ .finished) :
    c.callRow fuel n u p t = .error (.row s) := by
  rw [callRow, h]
  cases s with
  | finished => exact absurd rfl hs
  | _ => rfl

/-- **Rows that finish, and then the others.** -/
theorem callRows_append
    (h : List.Forall₂ (fun u b => c.call fuel (zeroRow n) ⟨u, p, t⟩ = ⟨.finished, b⟩) us bs)
    (hlength : olds.length = us.length) (hsize : ∀ old ∈ olds, old.size = n)
    (olds' us' : List (Array V)) :
    c.callRows fuel n p t (olds ++ olds') (us ++ us')
      = (bs ++ (c.callRows fuel n p t olds' us').1, (c.callRows fuel n p t olds' us').2) := by
  induction h generalizing olds with
  | nil =>
    rw [List.eq_nil_of_length_eq_zero hlength]
    rfl
  | @cons u b us bs hrow _ ih =>
    obtain ⟨old, olds, rfl⟩ := List.exists_cons_of_length_eq_add_one hlength
    obtain ⟨hold, hsize⟩ := List.forall_mem_cons.mp hsize
    rw [List.cons_append, List.cons_append, callRows, callRow_of_finished hrow]
    dsimp only
    rw [ih (Nat.succ.inj hlength) hsize, overwrite_eq (hold.trans (size_of_call hrow).symm)]
    rfl

/-- A row that does not finish leaves all rows from there on as they were. -/
theorem callRows_of_stopped {u b old : Array V} {s : Status K}
    (h : c.call fuel (zeroRow n) ⟨u, p, t⟩ = ⟨s, b⟩) (hs : s ≠ .finished) :
    c.callRows fuel n p t (old :: olds) (u :: us) = (old :: olds, some (.row s)) := by
  rw [callRows, callRow_of_stopped h hs]

/-! ## Batches -/

/-- **How a batch ends**, whenever there is enough fuel. -/
def BatchReturns (c : Callable K) (du u : Matrix V) (p : Array V) (t : K)
    (r : Matrix V × Option (BatchError K)) : Prop :=
  ∃ enough, ∀ fuel ≥ enough, c.callBatch fuel du u p t = r

/-- The rows of a batch, if they are known. -/
theorem callBatch_of_callRows {du u : Matrix V} {rows : List (Array V)} {e : Option (BatchError K)}
    (hrows : du.rows.length = u.rows.length) (hcols : du.cols = u.cols)
    (h : c.callRows fuel du.cols p t du.rows u.rows = (rows, e))
    (hsize : ∀ row ∈ rows, row.size = du.cols) :
    c.callBatch fuel du u p t = (⟨du.cols, rows, hsize⟩, e) := by
  rw [callBatch, if_neg (not_not.mpr hrows), if_neg (not_not.mpr hcols)]
  simp only [h]

/-- **A batch is called row by row.**  Where the shapes differ it is refused, for its rows before
its columns, and nothing is written.  Otherwise every row is what its call leaves in a row of zeros,
if all calls finish; and if one does not, the batch ends as the first of these calls, with the rows
before it replaced and all others as they were. -/
theorem batch_row_by_row (c : Callable K) (du u : Matrix V) (p : Array V) (t : K) :
    (du.rows.length ≠ u.rows.length →
      c.BatchReturns du u p t (du, some (.dimensionMismatch u.rows.length du.rows.length))) ∧
    (du.rows.length = u.rows.length → du.cols ≠ u.cols →
      c.BatchReturns du u p t (du, some (.dimensionMismatch u.cols du.cols))) ∧
    (du.rows.length = u.rows.length → du.cols = u.cols →
      ∀ bs, c.RowsReturn du.cols p t u.rows bs →
        ∃ hsize : ∀ b ∈ bs, b.size = du.cols,
          c.BatchReturns du u p t (⟨du.cols, bs, hsize⟩, none)) ∧
    (du.rows.length = u.rows.length → du.cols = u.cols →
      ∀ k row bs s partly, u.rows[k]? = some row → c.RowsReturn du.cols p t (u.rows.take k) bs →
        c.Returns ⟨row, p, t⟩ (zeroRow du.cols) ⟨s, partly⟩ → s ≠ .finished →
          ∃ hsize : ∀ b ∈ bs ++ du.rows.drop k, b.size = du.cols,
            c.BatchReturns du u p t (⟨du.cols, bs ++ du.rows.drop k, hsize⟩, some (.row s))) := by
  refine ⟨fun hrows => ⟨0, fun fuel _ => ?_⟩, fun hrows hcols => ⟨0, fun fuel _ => ?_⟩,
    fun hrows hcols bs hbs => ⟨hbs.size_eq, ?_⟩,
    fun hrows hcols k row bs s _ hrow hbs hreturns hs => ⟨?_, ?_⟩⟩
  · rw [callBatch, if_pos hrows]
  · rw [callBatch, if_neg (not_not.mpr hrows), if_pos hcols]
  · obtain ⟨enough, hcalls⟩ := hbs.enough
    refine ⟨enough, fun fuel hfuel => ?_⟩
    have hall := callRows_append (hcalls fuel hfuel) hrows du.size_eq [] []
    have hnone : c.callRows fuel du.cols p t [] [] = ([], none) := rfl
    rw [List.append_nil, List.append_nil, hnone, List.append_nil] at hall
    exact callBatch_of_callRows hrows hcols hall _
  · intro b hb
    rcases List.mem_append.mp hb with hb | hb
    · exact hbs.size_eq b hb
    · exact du.size_eq b (List.mem_of_mem_drop hb)
  · obtain ⟨enough, hcalls⟩ := hbs.enough
    obtain ⟨enough', hcall⟩ := hreturns.enough
    refine ⟨max enough enough', fun fuel hfuel => ?_⟩
    obtain ⟨hk, rfl⟩ := List.getElem?_eq_some_iff.mp hrow
    have hlength : (du.rows.take k).length = (u.rows.take k).length := by
      rw [List.length_take, List.length_take, hrows]
    have hall := callRows_append (hcalls fuel ((le_max_left _ _).trans hfuel)) hlength
      (fun old hold => du.size_eq old (List.mem_of_mem_take hold)) (du.rows.drop k) (u.rows.drop k)
    have hdrop : du.rows.drop k = du.rows[k] :: du.rows.drop (k + 1) :=
      List.drop_eq_getElem_cons (hrows ▸ hk)
    have hstopped : c.callRows fuel du.cols p t (du.rows.drop k) (u.rows.drop k)
        = (du.rows.drop k, some (.row s)) := by
      rw [hdrop, List.drop_eq_getElem_cons hk]
      exact callRows_of_stopped (hcall fuel ((le_max_right _ _).trans hfuel)) hs
    rw [List.take_append_drop, List.take_append_drop, hstopped] at hall
    exact callBatch_of_callRows hrows hcols hall _

/-- A procedure whose first state says which state to copy to the second slot. -/
def pointed : Procedure ℚ where
  naming := ⟨"du", "u", "p", "t"⟩
  states := []
  params := []
  body := [
    .assign (.ofInt 0) (.access .state (.ofInt 0)),
    .assign (.ofInt 1) (.access .state (.access .state (.ofInt 0)))]
  checkBounds := true

/-- Three states, one of which points outside of the row. -/
def pointedStates : Matrix ℚ := ⟨3, [#[1, 7, 2], #[5, 7, 2], #[0, 3, 4]], by decide⟩

/-- The second row fails behind a write and is left as it was, and so is the third. -/
theorem batch_row_by_row_pointed : ∃ c, pointed.materialize .real = .ok c ∧
    c.BatchReturns ⟨3, [#[9, 9, 9], #[9, 9, 9], #[9, 9, 9]], by decide⟩ pointedStates #[] 0
      (⟨3, [#[1, 7, 0], #[9, 9, 9], #[9, 9, 9]], by decide⟩,
        some (.row (.failed (.indexOutOfBounds "u" 5 3)))) ∧
    c.BatchReturns (V := ℚ) ⟨3, [#[9, 9, 9]], by decide⟩ ⟨3, [#[1, 7, 2]], by decide⟩ #[] 0
      (⟨3, [#[1, 7, 0]], by decide⟩, none) ∧
    c.BatchReturns (V := ℚ) ⟨3, [#[9, 9, 9]], by decide⟩ ⟨1, [#[1]], by decide⟩ #[] 0
      (⟨3, [#[9, 9, 9]], by decide⟩, some (.dimensionMismatch 1 3)) ∧
    c.BatchReturns ⟨2, [#[9, 9]], by decide⟩ pointedStates #[] 0
      (⟨2, [#[9, 9]], by decide⟩, some (.dimensionMismatch 3 1)) := by
  obtain ⟨c, hc, hfirst, hsecond⟩ : ∃ c, pointed.materialize .real = .ok c ∧
      c.Returns (V := ℚ) ⟨#[1, 7, 2], #[], 0⟩ (zeroRow 3) ⟨.finished, #[1, 7, 0]⟩ ∧
      c.Returns (V := ℚ) ⟨#[5, 7, 2], #[], 0⟩ (zeroRow 3)
        ⟨.failed (.indexOutOfBounds "u" 5 3), #[5, 0, 0]⟩ :=
    ⟨_, rfl, ⟨by decide, 20, by decide +kernel⟩, ⟨by decide, 20, by decide +kernel⟩⟩
  refine ⟨c, hc, ?_, ?_, ?_, ?_⟩
  · obtain ⟨-, -, -, hfails⟩ := batch_row_by_row c
      ⟨3, [#[9, 9, 9], #[9, 9, 9], #[9, 9, 9]], by decide⟩ pointedStates #[] 0
    obtain ⟨_, hreturns⟩ := hfails rfl rfl 1 #[5, 7, 2] [#[1, 7, 0]] _ _ rfl (.cons hfirst .nil)
      hsecond (by decide)
    exact hreturns
  · obtain ⟨-, -, hfinishes, -⟩ := batch_row_by_row (V := ℚ) c ⟨3, [#[9, 9, 9]], by decide⟩
      ⟨3, [#[1, 7, 2]], by decide⟩ #[] 0
    obtain ⟨_, hreturns⟩ := hfinishes rfl rfl [#[1, 7, 0]] (.cons hfirst .nil)
    exact hreturns
  · obtain ⟨-, hcols, -⟩ := batch_row_by_row (V := ℚ) c ⟨3, [#[9, 9, 9]], by decide⟩
      ⟨1, [#[1]], by decide⟩ #[] 0
    exact hcols rfl (by decide)
  · obtain ⟨hrows, -⟩ := batch_row_by_row c ⟨2, [#[9, 9]], by decide⟩ pointedStates #[] 0
    exact hrows (by decide)

end Callable

end Fluxion
