import Fluxion.Proofs.Generation.SafeLowering
import Fluxion.Proofs.Nodes.Traversal

/-!
# Proofs/Generation/Statements — what the statements of a generated procedure write

A generated body assigns the scalar states one after the other and then, site by site, the families.
No slot is written twice, so every entry of the derivative still has its value at the end.  That is
`Serves.ends_body`: if the values of a body end well, so does the body, and what was said of a value
can be said of its slot.

The theorem leaves open what is said of values and of the loop variable.  Index safety says nothing
of values; the derivative of a system says what they are.
-/

namespace Fluxion

open Arithmetic Fluxion.Computation

variable {K V : Type}

namespace Computation

variable {σ α β γ : Type}

theorem ok_andThen (a : α) (f : α → Computation σ β) : (of (.ok a)).andThen f = f a := by
  funext r
  refine propext ⟨?_, fun h => .inl ⟨a, rfl, h⟩⟩
  rintro (⟨_, ha, h⟩ | ⟨_, hs, -⟩)
  · obtain rfl := Except.ok.inj ha
    exact h
  · cases hs

theorem andThen_assoc (x : Computation σ α) (f : α → Computation σ β) (g : β → Computation σ γ) :
    (x.andThen f).andThen g = x.andThen fun a => (f a).andThen g := by
  funext r
  refine propext ⟨?_, ?_⟩
  · rintro (⟨b, (⟨a, ha, hb⟩ | ⟨s, -, hs⟩), hr⟩ | ⟨s, (⟨a, ha, hs⟩ | ⟨s', hx, hs⟩), hr⟩)
    · exact .inl ⟨a, ha, .inl ⟨b, hb, hr⟩⟩
    · cases hs
    · exact .inl ⟨a, ha, .inr ⟨s, hs, hr⟩⟩
    · exact .inr ⟨s', hx, hr.trans (congrArg _ (Except.error.inj hs))⟩
  · rintro (⟨a, ha, (⟨b, hb, hr⟩ | ⟨s, hs, hr⟩)⟩ | ⟨s, hx, hr⟩)
    · exact .inl ⟨b, .inl ⟨a, ha, hb⟩, hr⟩
    · exact .inr ⟨s, .inl ⟨a, ha, hs⟩, hr⟩
    · exact .inr ⟨s, .inr ⟨s, hx, rfl⟩, hr⟩

/-- What stops a computation ends the run, with the derivative as it is then. -/
theorem Ends.outcome {F : Status K → Prop} {x : Computation (Status K) α} {Q : α → Prop}
    (h : Ends F x Q) (du : Array V) :
    Ends (fun o : Outcome K V => F o.status) (x.stopping (⟨·, du⟩)) Q :=
  h.stopping fun _ hs => hs

end Computation

/-! ## Statements in a list -/

namespace Stmt

variable {f : Node K → Node K} {scope : List String} {ss ss' : List (Stmt K)} {s : Stmt K}
  {slots values : List (Node K)}

theorem transformAll_eq (f : Node K → Node K) (ss : List (Stmt K)) :
    transformAll f ss = ss.map (transform f) := by
  induction ss with
  | nil => rfl
  | cons s ss ih => rw [transformAll, ih, List.map_cons]

/-- A pass over assignments is a pass over their slots and their values. -/
theorem transformAll_assign (f : Node K → Node K) (slots values : List (Node K)) :
    transformAll f (.zipWith .assign slots values)
      = .zipWith .assign (slots.map (Node.transform f)) (values.map (Node.transform f)) := by
  rw [transformAll_eq, List.map_zipWith, List.zipWith_map]
  rfl

theorem check_of_mem (h : checkAll scope ss = .ok ()) (hs : s ∈ ss) : s.check scope = .ok () := by
  induction ss with
  | nil => cases hs
  | cons s' ss ih =>
    obtain ⟨⟨⟩, hfirst, hrest⟩ := ok_of_bind h
    rcases List.mem_cons.mp hs with rfl | hs
    · exact hfirst
    · exact ih hrest hs

/-- Every value of some assignments belongs to one of them. -/
theorem exists_assign (hlength : values.length ≤ slots.length) {value : Node K}
    (h : value ∈ values) : ∃ slot, .assign slot value ∈ List.zipWith Stmt.assign slots values := by
  obtain ⟨i, hi, rfl⟩ := List.getElem_of_mem h
  have hi' : i < (List.zipWith Stmt.assign slots values).length := by
    rw [List.length_zipWith]
    omega
  refine ⟨slots[i], ?_⟩
  rw [← List.getElem_zipWith (h := hi')]
  exact List.getElem_mem hi'

end Stmt

section Rules

variable [Literal K] [Arithmetic K V] {p : Procedure K} {inputs : Inputs K V} {env : Env V}
  {du : Array V} {F : Status K → Prop} {G : Outcome K V → Prop}

/-- Statements after others. -/
theorem Stmt.meaningAll_append (ss ss' : List (Stmt K)) :
    Stmt.meaningAll p inputs (ss ++ ss') env du
      = (Stmt.meaningAll p inputs ss env du).andThen (Stmt.meaningAll p inputs ss' env) := by
  induction ss generalizing du with
  | nil => rw [List.nil_append, Stmt.meaningAll, ok_andThen]
  | cons s ss ih =>
    rw [List.cons_append, Stmt.meaningAll, Stmt.meaningAll, andThen_assoc]
    exact congrArg _ (funext fun du => ih)

/-- **An assignment** of a value that ends well to a slot of the derivative. -/
theorem ends_assign [Field K] [LinearOrder K] [IsStrictOrderedRing K] [ExactIndices K V]
    {slot value : Node K} {k : ℕ} {Q : V → Prop}
    (hslot : slot.Reads p inputs env (Literal.ofInt k)) (hk : k < du.size)
    (hvalue : (value.meaning p inputs env).Ends F Q) :
    (Stmt.meaning p inputs (.assign slot value) env du).Ends (fun o => F o.status) fun du' =>
      ∃ v, Q v ∧ du' = du.setIfInBounds k v := by
  obtain ⟨index, hindex, hreal⟩ := hslot
  rw [Stmt.meaning]
  have hends : (slot.meaning p inputs env).Ends F fun index => real index = (Literal.ofInt k : K) :=
    .inl ⟨index, hindex, hreal⟩
  refine Ends.outcome (hends.andThen fun index hreal => hvalue.andThen fun v hv => ?_) du
  rw [Procedure.store, Setting.slot_of_real hreal]
  dsimp only
  rw [if_pos hk]
  exact .of_ok ⟨v, hv, rfl⟩

/-- **Assignments one after the other**, with an invariant that counts them. -/
theorem ends_assigns {I : ℕ → Array V → Prop} {slots values : List (Node K)}
    (hlength : slots.length = values.length)
    (hstep : ∀ i slot value du, slots[i]? = some slot → values[i]? = some value → I i du →
      (Stmt.meaning p inputs (.assign slot value) env du).Ends G (I (i + 1)))
    (h : I 0 du) :
    (Stmt.meaningAll p inputs (.zipWith .assign slots values) env du).Ends G (I values.length) := by
  induction slots generalizing values I du with
  | nil =>
    obtain rfl := List.length_eq_zero_iff.mp hlength.symm
    rw [List.zipWith_nil_left, Stmt.meaningAll]
    exact .of_ok h
  | cons slot slots ih =>
    cases values with
    | nil => cases hlength
    | cons value values =>
      rw [List.zipWith_cons_cons, Stmt.meaningAll]
      refine (hstep 0 slot value du rfl rfl h).andThen fun du' hdu' => ?_
      exact ih (I := fun i => I (i + 1)) (Nat.succ.inj hlength)
        (fun i slot value du hslot hvalue => hstep (i + 1) slot value du hslot hvalue) hdu'

end Rules

/-! ## The body of a procedure -/

namespace Stages

variable [Literal K] {g : Stages K} {system : EquationSystem K} {params : List (Expr K)}
  {options : Options} {p : Procedure K}

/-- A lowered value as it stands in the procedure. -/
def final (g : Stages K) (n : Node K) : Node K := (g.finish n).transform Node.respell

theorem respell_slotsFrom (k n : ℕ) :
    (slotsFrom k n : List (Node K)).map (Node.transform Node.respell) = slotsFrom k n := by
  rw [slotsFrom, List.map_map]
  rfl

/-- The slots of families are spelled as they are. -/
theorem respell_slots (g : Stages K) (x : String) :
    (g.states.families.map (·.slot g.layout (.var x))).map (Node.transform Node.respell)
      = g.states.families.map (·.slot g.layout (.var x)) := by
  rw [List.map_map]
  refine List.map_congr_left fun f hf => ?_
  exact (StateLayout.plain_slot hf x).transform_eq fun n hn => hn.respell_eq

theorem respell_boundNode (l : ParamLayout) (b : Bound) :
    (l.boundNode b : Node K).transform Node.respell = l.boundNode b :=
  (Node.Plain.boundNode l b).transform_eq fun _ hn => hn.respell_eq

/-- **The statements of a generated procedure.** -/
theorem Lead.body_eq (h : g.Lead system params options p) :
    p.body = .zipWith .assign (slotsFrom 0 g.split.scalars.length) (g.scalars.map g.final) ++
      loopOver g.layout g.var g.states.families (g.families.map g.final) := by
  have hbody : p.body = Stmt.transformAll Node.respell g.body := by rw [h.procedure]; rfl
  have hvalues : ∀ ns : List (Node K),
      (ns.map g.finish).map (Node.transform Node.respell) = ns.map g.final := by
    intro ns
    rw [List.map_map]
    rfl
  rw [hbody, body, Stmt.transformAll_eq, List.map_append, ← Stmt.transformAll_eq,
    ← Stmt.transformAll_eq, Stmt.transformAll_assign, respell_slotsFrom, hvalues]
  congr 1
  have hslots := respell_slots g g.var
  unfold loopOver
  split
  · rfl
  · rw [Stmt.transformAll, Stmt.transform, Stmt.transformAll_assign, hslots, hvalues,
      respell_boundNode, respell_boundNode]
    rfl

theorem Lead.checkAll_body (h : g.Lead system params options p) :
    Stmt.checkAll [] p.body = .ok () := (Procedure.checkStructure_eq_ok.mp h.checked).2

@[simp] theorem length_slotsFrom (k n : ℕ) : (slotsFrom k n : List (Node K)).length = n := by
  rw [slotsFrom, List.length_map, List.length_range']

theorem slotsFrom_eq_some {n i : ℕ} {slot : Node K} (h : (slotsFrom 0 n)[i]? = some slot) :
    i < n ∧ slot = .ofInt i := by
  rw [slotsFrom, List.getElem?_map] at h
  obtain ⟨k, hk, rfl⟩ := Option.map_eq_some_iff.mp h
  obtain ⟨hi, rfl⟩ := List.getElem?_eq_some_iff.mp hk
  rw [List.getElem_range', Nat.zero_add, Nat.one_mul]
  rw [List.length_range'] at hi
  exact ⟨hi, rfl⟩

theorem Lead.length_scalars (h : g.Lead system params options p) :
    g.scalars.length = g.split.scalars.length := h.scalars.length_eq.symm

theorem Lead.length_families (h : g.Lead system params options p) :
    g.families.length = g.split.families.length := by
  rw [← h.families.length_eq, List.length_map]

theorem length_states (g : Stages K) : g.states.families.length = g.split.families.length :=
  (forall₂_placeFamilies g.layout (.ofInt g.split.scalars.length) g.split.families).length_eq.symm

/-- A node that has passed the checks of a procedure, under the variables in scope. -/
structure Passed (scope : List String) (n : Node K) : Prop where
  check : n.check scope = .ok ()
  tokens : ∀ q ∈ n.subnodes, q.checkToken = .ok ()

/-- The values of scalar states have passed the checks. -/
theorem Lead.passed_scalar (h : g.Lead system params options p)
    (htokens : ∀ n ∈ p.nodes, n.checkToken = .ok ()) {n : Node K} (hn : n ∈ g.scalars) :
    Passed [] (g.final n) := by
  have hlength : (g.scalars.map g.final).length
      ≤ (slotsFrom 0 g.split.scalars.length : List (Node K)).length := by
    rw [List.length_map, length_slotsFrom, h.length_scalars]
  obtain ⟨slot, hmem⟩ := Stmt.exists_assign hlength (List.mem_map_of_mem hn)
  have hmem : .assign slot (g.final n) ∈ p.body := h.body_eq ▸ List.mem_append_left _ hmem
  obtain ⟨⟨⟩, -, hcheck⟩ := ok_of_bind (Stmt.check_of_mem h.checkAll_body hmem)
  exact ⟨hcheck, fun q hq => htokens q (Stmt.subnodes_of_mem hmem (List.mem_append_right _ hq))⟩

/-- The values of families have passed the checks, under the variable of the loop. -/
theorem Lead.passed_family (h : g.Lead system params options p)
    (htokens : ∀ n ∈ p.nodes, n.checkToken = .ok ()) {n : Node K} (hn : n ∈ g.families) :
    Passed [g.var] (g.final n) := by
  have hlength : (g.families.map g.final).length
      ≤ (g.states.families.map (·.slot g.layout (.var g.var))).length := by
    rw [List.length_map, List.length_map, h.length_families, length_states]
  obtain ⟨slot, hmem⟩ := Stmt.exists_assign hlength (List.mem_map_of_mem hn)
  cases hfs : g.states.families with
  | nil =>
    rw [hfs] at hmem
    cases hmem
  | cons f fs =>
    have hloop : .loop g.var (g.layout.boundNode f.index.lower) (g.layout.boundNode f.index.upper)
        (.zipWith .assign (g.states.families.map (·.slot g.layout (.var g.var)))
          (g.families.map g.final)) ∈ p.body := by
      rw [h.body_eq, loopOver.eq_def, hfs]
      exact List.mem_append_right _ List.mem_cons_self
    obtain ⟨⟨⟩, -, hcheck⟩ := ok_of_bind (Stmt.check_of_mem h.checkAll_body hloop)
    obtain ⟨⟨⟩, -, hcheck⟩ := ok_of_bind hcheck
    obtain ⟨⟨⟩, -, hcheck⟩ := ok_of_bind (Stmt.check_of_mem hcheck hmem)
    refine ⟨hcheck, fun q hq => htokens q (Stmt.subnodes_of_mem hloop ?_)⟩
    exact List.mem_append_right _ (Stmt.subnodes_of_mem hmem (List.mem_append_right _ hq))

end Stages

/-! ## Entries of the derivative -/

/-- **What a procedure writes**: the derivative of a scalar state, or of a member of a family. -/
inductive Entry where
  | scalar (k : ℕ)
  | member (j : ℕ) (m : ℤ)

namespace Entry

variable {n F k size : ℕ} {lo hi m : ℤ} {a b : Entry} {du : Array V} {Q : Entry → V → Prop}
  {done done' : Entry → Prop} {v : V}

/-- Where an entry is written, behind `n` scalars and with families from `lo` to `hi`. -/
def slot (n : ℕ) (lo hi : ℤ) : Entry → ℕ
  | .scalar k => k
  | .member j m => Stages.memberSlot n j lo hi m

/-- An entry of a scalar state, or one at a site. -/
def Proper (n : ℕ) (lo hi : ℤ) : Entry → Prop
  | .scalar k => k < n
  | .member _ m => lo ≤ m ∧ m ≤ hi

/-- **No slot is written twice.** -/
theorem slot_inj (ha : a.Proper n lo hi) (hb : b.Proper n lo hi)
    (h : a.slot n lo hi = b.slot n lo hi) : a = b := by
  cases a with
  | scalar k =>
    cases b with
    | scalar k' => exact congrArg _ h
    | member j m =>
      rw [slot, slot, Stages.memberSlot] at h
      rw [Proper] at ha
      omega
  | member j m =>
    cases b with
    | scalar k =>
      rw [slot, slot, Stages.memberSlot] at h
      rw [Proper] at hb
      omega
    | member j' m' =>
      obtain ⟨hle, hge⟩ := ha
      obtain ⟨hle', hge'⟩ := hb
      have hm : (m - lo).toNat < (hi - lo + 1).toNat := by omega
      have hm' : (m' - lo).toNat < (hi - lo + 1).toNat := by omega
      rw [slot, slot, Stages.memberSlot, Stages.memberSlot, Nat.add_assoc, Nat.add_assoc,
        Nat.add_left_cancel_iff] at h
      have hj : j = j' := by
        have hdiv := congrArg (· / (hi - lo + 1).toNat) h
        simpa [Nat.add_comm, Nat.add_mul_div_right, Nat.div_eq_of_lt, hm, hm',
          (Nat.zero_le _).trans_lt hm] using hdiv
      obtain rfl := hj
      have hsite : (m - lo).toNat = (m' - lo).toNat := Nat.add_left_cancel h
      rw [show m = m' by omega]

/-- Every entry that is done has its value in its slot. -/
def Wrote (n : ℕ) (lo hi : ℤ) (Q : Entry → V → Prop) (size : ℕ) (done : Entry → Prop)
    (du : Array V) : Prop :=
  du.size = size ∧ ∀ a, done a → ∃ v, du[a.slot n lo hi]? = some v ∧ Q a v

theorem Wrote.mono (h : Wrote n lo hi Q size done du) (hdone : ∀ a, done' a → done a) :
    Wrote n lo hi Q size done' du := ⟨h.1, fun a ha => h.2 a (hdone a ha)⟩

/-- **Writing one entry more** leaves those before as they are. -/
theorem Wrote.write (h : Wrote n lo hi Q size done du) (hdone : ∀ b, done b → b.Proper n lo hi)
    (ha : a.Proper n lo hi) (hsize : a.slot n lo hi < size) (hv : Q a v) :
    Wrote n lo hi Q size (fun b => done b ∨ b = a) (du.setIfInBounds (a.slot n lo hi) v) := by
  refine ⟨by rw [Array.size_setIfInBounds, h.1], fun b hb => ?_⟩
  by_cases hslot : b.slot n lo hi = a.slot n lo hi
  · have hab : b = a := by
      rcases hb with hb | hb
      · exact slot_inj (hdone b hb) ha hslot
      · exact hb
    refine ⟨v, ?_, hab ▸ hv⟩
    rw [hslot, Array.getElem?_setIfInBounds_self_of_lt (h.1 ▸ hsize)]
  · rcases hb with hb | rfl
    · rw [Array.getElem?_setIfInBounds_ne (Ne.symm hslot)]
      exact h.2 b hb
    · exact absurd rfl hslot

/-- What has been written when the loop stands at a site, with some families done there. -/
def Before (n F : ℕ) (lo m : ℤ) (j : ℕ) : Entry → Prop
  | .scalar k => k < n
  | .member j' m' => j' < F ∧ lo ≤ m' ∧ (m' < m ∨ m' = m ∧ j' < j)

theorem Before.proper {j : ℕ} (h : a.Before n F lo m j) (hm : m ≤ hi) : a.Proper n lo hi := by
  cases a with
  | scalar k => exact h
  | member j' m' =>
    obtain ⟨-, hlo, hbefore⟩ := h
    exact ⟨hlo, by omega⟩

theorem Before.succ {j : ℕ} (h : a.Before n F lo m (j + 1)) :
    a.Before n F lo m j ∨ a = .member j m := by
  cases a with
  | scalar k => exact .inl h
  | member j' m' =>
    obtain ⟨hj, hlo, hbefore⟩ := h
    by_cases hlast : m' = m ∧ j' = j
    · exact .inr (by rw [hlast.1, hlast.2])
    · exact .inl ⟨hj, hlo, by omega⟩

/-- The next site begins where the last family of a site is done. -/
theorem Before.next (h : a.Before n F lo (m + 1) 0) : a.Before n F lo m F := by
  cases a with
  | scalar k => exact h
  | member j' m' =>
    obtain ⟨hj, hlo, hbefore⟩ := h
    exact ⟨hj, hlo, by omega⟩

end Entry

/-! ## The body ends well -/

namespace Stages

open ExactLiteral ExactIndices

variable [Literal K] [Arithmetic K V] [Field K] [LinearOrder K] [IsStrictOrderedRing K]
  [ExactIndices K V] {g : Stages K} {system : EquationSystem K} {params : List (Expr K)}
  {options : Options} {p : Procedure K} {inputs : Inputs K V} {du : Array V} {Q : Entry → V → Prop}
  {F : Status K → Prop} {lo hi m : ℤ}

/-- The scalar states are written. -/
theorem Lead.ends_scalars (h : g.Lead system params options p)
    (hdu : system.slots g.layout inputs.p ≤ du.size)
    (hvalues : ∀ k n, g.scalars[k]? = some n →
      ((g.final n).meaning p inputs []).Ends F (Q (.scalar k))) :
    (Stmt.meaningAll p inputs (.zipWith .assign (slotsFrom 0 g.split.scalars.length)
      (g.scalars.map g.final)) [] du).Ends (fun o => F o.status) fun du' => ∀ lo hi,
        Entry.Wrote g.split.scalars.length lo hi Q du.size
          (Entry.Before g.split.scalars.length g.split.families.length lo lo 0) du' := by
  have hlength : (slotsFrom 0 g.split.scalars.length : List (Node K)).length
      = (g.scalars.map g.final).length := by
    rw [length_slotsFrom, List.length_map, h.length_scalars]
  have hstep : ∀ i slot value (du' : Array V),
      (slotsFrom 0 g.split.scalars.length)[i]? = some slot →
      (g.scalars.map g.final)[i]? = some value →
      (∀ lo hi, Entry.Wrote g.split.scalars.length lo hi Q du.size
        (fun a => ∃ k < i, a = .scalar k) du') →
      (Stmt.meaning p inputs (.assign slot value) [] du').Ends (fun o => F o.status)
        fun du'' => ∀ lo hi, Entry.Wrote g.split.scalars.length lo hi Q du.size
          (fun a => ∃ k < i + 1, a = .scalar k) du'' := by
    intro i slot value du' hslot hvalue hwrote
    obtain ⟨hlt, rfl⟩ := slotsFrom_eq_some hslot
    rw [List.getElem?_map] at hvalue
    obtain ⟨n, hn, rfl⟩ := Option.map_eq_some_iff.mp hvalue
    have hsize : i < du.size := by
      rw [h.slots_eq] at hdu
      omega
    refine (ends_assign (F := F) (Node.reads_const_iff.mpr rfl) ((hwrote 0 0).1.symm ▸ hsize)
      (hvalues i n hn)).imp ?_
    rintro _ - ⟨v, hv, rfl⟩ lo hi
    have hscalars : ∀ a : Entry, (∃ k < i, a = .scalar k) →
        a.Proper g.split.scalars.length lo hi := by
      rintro _ ⟨k, hk, rfl⟩
      exact hk.trans hlt
    refine ((hwrote lo hi).write (a := .scalar i) hscalars hlt hsize hv).mono ?_
    rintro _ ⟨k, hk, rfl⟩
    rcases Nat.lt_succ_iff_lt_or_eq.mp hk with hk | rfl
    · exact .inl ⟨k, hk, rfl⟩
    · exact .inr rfl
  refine (ends_assigns hlength hstep fun _ _ => ⟨rfl, nofun⟩).imp
    fun du' _ hdu' lo hi => (hdu' lo hi).mono fun a ha => ?_
  cases a with
  | scalar k => exact ⟨k, by rwa [List.length_map, h.length_scalars], rfl⟩
  | member j m =>
    obtain ⟨-, hlo, hbefore⟩ := ha
    omega

/-- The families are written at a site. -/
theorem Serves.ends_site (hs : g.Serves system inputs) (h : g.Lead system params options p)
    {size : ℕ} (hdu : system.slots g.layout inputs.p ≤ size)
    (hsites : ∀ q ∈ g.split.families, q.2.lower.site? g.layout inputs.p = some lo ∧
      q.2.upper.site? g.layout inputs.p = some hi)
    (hlo : lo ≤ m) (hhi : m ≤ hi) {v : V} (hv : real v = (m : K))
    (hvalues : ∀ j n, g.families[j]? = some n →
      ((g.final n).meaning p inputs [(g.var, v)]).Ends F (Q (.member j m)))
    (hwrote : Entry.Wrote g.split.scalars.length lo hi Q size
      (Entry.Before g.split.scalars.length g.split.families.length lo m 0) du) :
    (Stmt.meaningAll p inputs (.zipWith .assign
      (g.states.families.map (·.slot g.layout (.var g.var))) (g.families.map g.final))
        [(g.var, v)] du).Ends (fun o => F o.status)
          (Entry.Wrote g.split.scalars.length lo hi Q size
            (Entry.Before g.split.scalars.length g.split.families.length lo (m + 1) 0)) := by
  have hlength : (g.states.families.map (·.slot g.layout (.var g.var))).length
      = (g.families.map g.final).length := by
    rw [List.length_map, List.length_map, h.length_families, length_states]
  have hstep : ∀ j slot value (du' : Array V),
      (g.states.families.map (·.slot g.layout (.var g.var)))[j]? = some slot →
      (g.families.map g.final)[j]? = some value →
      Entry.Wrote g.split.scalars.length lo hi Q size
        (Entry.Before g.split.scalars.length g.split.families.length lo m j) du' →
      (Stmt.meaning p inputs (.assign slot value) [(g.var, v)] du').Ends (fun o => F o.status)
        (Entry.Wrote g.split.scalars.length lo hi Q size
          (Entry.Before g.split.scalars.length g.split.families.length lo m (j + 1))) := by
    intro j slot value du' hslot hvalue hwrote
    rw [List.getElem?_map] at hslot hvalue
    obtain ⟨f, hf, rfl⟩ := Option.map_eq_some_iff.mp hslot
    obtain ⟨n, hn, rfl⟩ := Option.map_eq_some_iff.mp hvalue
    obtain ⟨q, hq, -, hindex⟩ := StateLayout.exists_of_family hf
    obtain ⟨hlower, hupper⟩ := hindex ▸ hsites q (List.mem_of_getElem? hq)
    have hsite : (Node.var g.var).Reads p inputs [(g.var, v)] (m : K) :=
      hv ▸ Node.reads_var List.lookup_cons_self
    obtain ⟨hlow, hhigh⟩ := hs.reads_bounds h hf hlower hupper
    rw [← ofInt_eq] at hsite hlow hhigh
    have hreads := h.reads_slot (exactSitesTo (lo.natAbs + hi.natAbs + 1 +
      (g.split.scalars.length + (j + 1) * (hi - lo + 1).toNat))) hf hlow hhigh hsite hlo hhi
      (by omega) (by omega) (by omega)
    have hsize : Stages.memberSlot g.split.scalars.length j lo hi m < size :=
      (memberSlot_lt hlo hhi).trans_le ((h.slots_family hf hlower hupper).trans hdu)
    refine (ends_assign hreads (hwrote.1.symm ▸ hsize) (hvalues j n hn)).imp ?_
    rintro _ - ⟨w, hw, rfl⟩
    exact (hwrote.write (a := .member j m) (fun b hb => hb.proper hhi) ⟨hlo, hhi⟩ hsize hw).mono
      fun a ha => ha.succ
  refine (ends_assigns hlength hstep hwrote).imp fun du' _ hdu' => hdu'.mono fun a ha => ?_
  rw [List.length_map, h.length_families]
  exact ha.next

/-- What is said of an entry can be said of its slot, in the end. -/
structure Leaves (g : Stages K) (inputs : Inputs K V) (Q : Entry → V → Prop) (size : ℕ)
    (du : Array V) : Prop where
  size : du.size = size
  scalar : ∀ k < g.split.scalars.length, ∃ v, du[k]? = some v ∧ Q (.scalar k) v
  member : ∀ (j : ℕ) q lo hi m, g.split.families[j]? = some q →
    q.2.lower.site? g.layout inputs.p = some lo → q.2.upper.site? g.layout inputs.p = some hi →
      lo ≤ m → m ≤ hi →
        ∃ v, du[memberSlot g.split.scalars.length j lo hi m]? = some v ∧ Q (.member j m) v

/-- **Values that end well.**  `P` is what is known of the loop variable at a site, `Q` what is said
of the value of an entry. -/
structure EndsWell (g : Stages K) (system : EquationSystem K) (p : Procedure K)
    (inputs : Inputs K V) (P : ℤ → V → Prop) (Q : Entry → V → Prop) : Prop where
  site : ∀ m v, P m v → real v = (m : K)
  next : ∀ m v, P m v → P (m + 1) (add v one)
  lower : ∀ q ∈ g.split.families, ((g.layout.boundNode q.2.lower).meaning p inputs []).Ends
    (g.setting system p inputs).Unresolved fun v =>
      ∃ lo, q.2.lower.site? g.layout inputs.p = some lo ∧ P lo v
  scalar : ∀ k n, g.scalars[k]? = some n → ((g.final n).meaning p inputs []).Ends
    (g.setting system p inputs).Unresolved (Q (.scalar k))
  family : ∀ j n q lo hi m v, g.families[j]? = some n → g.split.families[j]? = some q →
    q.2.lower.site? g.layout inputs.p = some lo → q.2.upper.site? g.layout inputs.p = some hi →
      lo ≤ m → m ≤ hi → P m v → ((g.final n).meaning p inputs [(g.var, v)]).Ends
        (g.setting system p inputs).Unresolved (Q (.member j m))

omit [Field K] [LinearOrder K] [IsStrictOrderedRing K] [ExactIndices K V] in
/-- What has been written behind the last site is what is left. -/
theorem leaves_of_wrote {size : ℕ}
    (hsites : ∀ q ∈ g.split.families, q.2.lower.site? g.layout inputs.p = some lo ∧
      q.2.upper.site? g.layout inputs.p = some hi) (hm : hi < m)
    (hwrote : Entry.Wrote g.split.scalars.length lo hi Q size
      (Entry.Before g.split.scalars.length g.split.families.length lo m 0) du) :
    g.Leaves inputs Q size du where
  size := hwrote.1
  scalar k hk := hwrote.2 (.scalar k) hk
  member j q lo' hi' m' hq hlo' hhi' hle hge := by
    obtain ⟨hlower, hupper⟩ := hsites q (List.mem_of_getElem? hq)
    obtain rfl := Option.some.inj (hlower.symm.trans hlo')
    obtain rfl := Option.some.inj (hupper.symm.trans hhi')
    have hj := (List.getElem?_eq_some_iff.mp hq).1
    exact hwrote.2 (.member j m') ⟨hj, hle, .inl (by omega)⟩

section Body

variable {P : ℤ → V → Prop}

/-- **The loop over all families ends well** if the values do. -/
theorem Serves.ends_loop (hs : g.Serves system inputs) (h : g.Lead system params options p)
    (hvalues : g.EndsWell system p inputs P Q) {size : ℕ}
    (hsize : system.slots g.layout inputs.p ≤ size) {q : Equation K × Index}
    (hq : q ∈ g.split.families)
    (hdu : ∀ lo hi, Entry.Wrote g.split.scalars.length lo hi Q size
      (Entry.Before g.split.scalars.length g.split.families.length lo lo 0) du) :
    (Stmt.meaning p inputs (.loop g.var (g.layout.boundNode q.2.lower)
      (g.layout.boundNode q.2.upper) (.zipWith .assign
        (g.states.families.map (·.slot g.layout (.var g.var))) (g.families.map g.final)))
          [] du).Ends (fun o => (g.setting system p inputs).Unresolved o.status)
            (g.Leaves inputs Q size) := by
  rw [Stmt.meaning]
  refine (((hs.admissible h).ends_upper (h.mem_indices hq)).outcome du).andThen
    fun upper htop => ((hvalues.lower q hq).outcome du).andThen fun lower hbottom => ?_
  obtain ⟨hi, hhi, hu⟩ := htop
  obtain ⟨lo, hlo, hP⟩ := hbottom
  have hsites : ∀ q' ∈ g.split.families, q'.2.lower.site? g.layout inputs.p = some lo ∧
      q'.2.upper.site? g.layout inputs.p = some hi := by
    intro q' hq'
    obtain ⟨hlower, hupper⟩ := h.divides.sameRange q' hq' q hq
    rw [hlower, hupper]
    exact ⟨hlo, hhi⟩
  refine (ends_rounds hu (I := fun m v du' => lo ≤ m ∧ P m v ∧
    Entry.Wrote g.split.scalars.length lo hi Q size
      (Entry.Before g.split.scalars.length g.split.families.length lo m 0) du')
        (fun m v _ hI => hvalues.site m v hI.2.1) ?_ ⟨le_rfl, hP, hdu lo hi⟩).imp ?_
  · rintro m v du' hm ⟨hlom, hPm, hwrote⟩
    refine (hs.ends_site h hsize hsites hlom hm (hvalues.site m v hPm) ?_ hwrote).imp
      fun _ _ hwrote => ⟨by omega, hvalues.next m v hPm, hwrote⟩
    intro j n hn
    have hj : j < g.split.families.length :=
      h.length_families ▸ (List.getElem?_eq_some_iff.mp hn).1
    obtain ⟨hlower, hupper⟩ := hsites _ (List.getElem_mem hj)
    exact hvalues.family j n _ lo hi m v hn (List.getElem?_eq_getElem hj) hlower hupper hlom hm hPm
  · rintro du' - ⟨v, -, -, hwrote⟩
    exact leaves_of_wrote hsites (by omega) hwrote

/-- **A body ends well if its values do.** -/
theorem Serves.ends_body (hs : g.Serves system inputs) (h : g.Lead system params options p)
    (hdu : system.slots g.layout inputs.p ≤ du.size) (hvalues : g.EndsWell system p inputs P Q) :
    (Stmt.meaningAll p inputs p.body [] du).Ends
      (fun o => (g.setting system p inputs).Unresolved o.status) (g.Leaves inputs Q du.size) := by
  rw [h.body_eq, Stmt.meaningAll_append]
  refine (h.ends_scalars hdu hvalues.scalar).andThen fun du₁ hdu₁ => ?_
  cases hfs : g.states.families with
  | nil =>
    rw [loopOver, Stmt.meaningAll]
    have hnone : g.split.families = [] := by
      rw [← List.length_eq_zero_iff, ← length_states, hfs]
      rfl
    refine .of_ok ⟨(hdu₁ 0 0).1, fun k hk => (hdu₁ 0 0).2 (.scalar k) hk, ?_⟩
    intro j q lo hi m hq
    rw [hnone] at hq
    cases hq
  | cons f fs =>
    have hf : g.states.families[0]? = some f := by rw [hfs]; rfl
    obtain ⟨q, hq, -, hindex⟩ := StateLayout.exists_of_family hf
    rw [loopOver, Stmt.meaningAll, hindex, ← hfs]
    refine (hs.ends_loop h hvalues hdu (List.mem_of_getElem? hq) hdu₁).andThen fun du' hdu' => ?_
    rw [Stmt.meaningAll]
    exact .of_ok hdu'

end Body

end Stages

end Fluxion
