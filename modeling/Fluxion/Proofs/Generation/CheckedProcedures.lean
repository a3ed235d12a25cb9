import Fluxion.Proofs.Nodes.NormalForms
import Fluxion.Proofs.Generation.Statements

/-!
# Proofs/Generation/CheckedProcedures — what passes the check of a procedure

A node passes the check under some variables if it takes no others from outside and nothing is left
in it that a procedure must not contain.  The first is a matter of free variables, the second of
every single node inside: `Everywhere Settled`.

The normal form of *every* node is settled everywhere (`Node.settled_normalize`).  The first three
passes, which make one, leave no bounded sum, no guard and no exclusion; the last one leaves no read
of the zero array.  So statements with values in normal form make a procedure
(`finishProcedure_of_finished`).
-/

namespace Fluxion

variable {K : Type}

namespace Node

variable {m n : Node K} {f φ : Node K → Node K} {Q R : Node K → Prop} {scope : List String}

/-! ## Properties of all nodes inside -/

/-- **A node and all nodes inside it** have a property. -/
inductive Everywhere (Q : Node K → Prop) : Node K → Prop
  | intro {n : Node K} (self : Q n) (inside : ∀ m ∈ n.children, Everywhere Q m) : Everywhere Q n

/-- A property of nodes that their children inherit. -/
theorem everywhere_of_inherited {P : Node K → Prop} (hP : ∀ n, P n → ∀ m ∈ n.children, P m)
    (hQ : ∀ n, P n → Q n) (h : P n) : Everywhere Q n := by
  induction n using childInduction with
  | step n ih => exact ⟨hQ n h, fun m hm => ih m hm (hP n h m hm)⟩

theorem everywhere_true (n : Node K) : Everywhere (fun _ => True) n :=
  childInduction (fun _ ih => ⟨trivial, ih⟩) n

theorem Plain.child (h : n.Plain) (hm : m ∈ n.children) : m.Plain := by
  cases h with
  | const | var | unresolved => cases hm
  | param a => exact List.mem_singleton.mp hm ▸ .const a
  | neg h => exact List.mem_singleton.mp hm ▸ h
  | add ha hb | sub ha hb =>
    rcases List.mem_pair.mp hm with rfl | rfl
    exacts [ha, hb]
  | mul h a =>
    rcases List.mem_pair.mp hm with rfl | rfl
    exacts [h, .const a]

/-- What holds of plain nodes holds everywhere in them. -/
theorem Plain.everywhere (h : n.Plain) (hQ : ∀ n, Plain n → Q n) : Everywhere Q n :=
  everywhere_of_inherited (fun _ hn _ => hn.child) hQ h

theorem everywhere_iff : Everywhere Q n ↔ ∀ m ∈ n.subnodes, Q m := by
  induction n using childInduction with
  | step n ih =>
    constructor
    · rintro ⟨self, inside⟩ m hm
      rcases mem_subnodes.mp hm with rfl | ⟨k, hk, hm⟩
      exacts [self, (ih k hk).mp (inside k hk) m hm]
    · intro h
      refine ⟨h n (self_mem_subnodes n), fun m hm => (ih m hm).mpr fun k hk => h k ?_⟩
      exact mem_subnodes.mpr (.inr ⟨m, hm, hk⟩)

theorem children_mapChildren (φ : Node K → Node K) (n : Node K) :
    (n.mapChildren φ).children = n.children.map φ := by
  cases n <;> simp [mapChildren, children, Exclusion.value, Function.comp_def]

/-- **What a pass makes of a node**, if it makes it of every node whose children it has gone
through. -/
theorem Everywhere.transform (hQ : ∀ (n : Node K) (φ : Node K → Node K), Q n → Q (n.mapChildren φ))
    (hf : ∀ n, Q n → (∀ m ∈ n.children, Everywhere R m) → Everywhere R (f n)) (h : Everywhere Q n) :
    Everywhere R (n.transform f) := by
  induction h with
  | @intro n self _ ih =>
    rw [transform_eq_mapChildren]
    refine hf _ (hQ n _ self) ?_
    rw [children_mapChildren]
    exact List.forall_mem_map.mpr ih

/-- A pass that leaves every single node alone leaves the node alone. -/
theorem Everywhere.transform_eq (hf : ∀ n, Q n → f n = n) (h : Everywhere Q n) :
    n.transform f = n := by
  induction h with
  | @intro n self _ ih =>
    rw [transform_eq_mapChildren, mapChildren_congr (ψ := id) ih, mapChildren_id, hf n self]

/-! ## Settled nodes -/

/-- No bounded sum, no guard and no exclusion at the node itself. -/
def Native : Node K → Prop
  | .boundedSum .. | .guarded .. => False
  | .sum _ _ _ es _ => es = []
  | _ => True

/-- **Nothing is left at the node itself** that a procedure must not contain. -/
def Settled : Node K → Prop
  | .access .zero _ => False
  | n => n.Native

theorem Native.mapChildren (h : n.Native) (φ : Node K → Node K) : (n.mapChildren φ).Native := by
  cases n with
  | sum x lo hi es body =>
    obtain rfl : es = [] := h
    rfl
  | _ => exact h

theorem Settled.mapChildren (h : n.Settled) (φ : Node K → Node K) : (n.mapChildren φ).Settled := by
  cases n with
  | sum x lo hi es body =>
    obtain rfl : es = [] := h
    rfl
  | access b i => cases b <;> exact h
  | _ => exact h

/-! ## Passes -/

/-- **A property of what the first three passes build**: variables, conditions, factors, and sums
that exclude nothing. -/
structure Built (P : Node K → Prop) : Prop where
  var (x : String) : P (.var x)
  indicator {l r : Node K} : P l → P r → P (.indicator l r)
  mul {a b : Node K} : P a → P b → P (.binary .mul a b)
  sum {x : String} {lo hi body : Node K} : P lo → P hi → P body → P (.sum x lo hi [] body)

namespace Built

variable {P : Node K → Prop} {x : String} {lo hi body : Node K} {es : List (Exclusion K)}

theorem absorb (hP : Built P) (hes : ∀ e ∈ es, P e.value) (hbody : P body) :
    P (absorb x es body) := by
  unfold Node.absorb
  induction es generalizing body with
  | nil => exact hbody
  | cons e es ih =>
    obtain ⟨he, hes⟩ := List.forall_mem_cons.mp hes
    refine ih hes ?_
    dsimp only
    split
    · exact hbody
    · exact hP.mul (hP.indicator (hP.var x) he) hbody

/-- A sum is left without exclusions, since all of them have become factors. -/
theorem strip_sum (hP : Built P) (h : ∀ m ∈ (Node.sum x lo hi es body).children, P m) :
    P (stripExclusions (absorbGuard (.sum x lo hi es body))) := by
  simp only [children, List.forall_mem_cons, List.forall_mem_map] at h
  obtain ⟨hlo, hhi, hbody, hes⟩ := h
  have habsorbed : (es.map fun e => Exclusion.mk e.value true).filter (!·.absorbed) = [] := by
    simp [Exclusion.absorbed]
  rw [absorbGuard, stripExclusions, habsorbed]
  exact hP.sum hlo hhi (hP.absorb hes hbody)

/-- **What the first three passes make of a node.** -/
theorem strip (hP : Built P) (hn : n.Native → P n) (h : ∀ m ∈ n.children, P m) :
    P ((stripExclusions ∘ absorbGuard ∘ nativeSum) n) := by
  cases n with
  | boundedSum x lo hi es body =>
    refine hP.strip_sum fun m hm => h m ?_
    simpa [children, Exclusion.value, Function.comp_def] using hm
  | sum x lo hi es body => exact hP.strip_sum h
  | guarded l r body =>
    obtain ⟨hl, hr, hbody, -⟩ := by simpa only [children, List.forall_mem_cons] using h
    exact hP.mul (hP.indicator hl hr) hbody
  | _ => exact hn trivial

end Built

theorem built_native : Built (Everywhere (Native (K := K))) where
  var x := ⟨trivial, by simp [children]⟩
  indicator hl hr := ⟨trivial, by simp [children, hl, hr]⟩
  mul ha hb := ⟨trivial, by simp [children, ha, hb]⟩
  sum hlo hhi hbody := ⟨rfl, by simp [children, hlo, hhi, hbody]⟩

theorem native_stripAbsorbed (n : Node K) :
    Everywhere Native n.nativeSums.absorbGuards.stripAbsorbed := by
  rw [stripAbsorbed_absorbGuards_nativeSums]
  exact (everywhere_true n).transform (fun _ _ _ => trivial) fun _ _ h =>
    built_native.strip (⟨·, h⟩) h

theorem settled_respell (h : n.Settled) : (respell n).Settled := by
  cases n with
  | named x =>
    rw [respell]
    split <;> trivial
  | _ => exact h

theorem Everywhere.respell (h : Everywhere Settled n) :
    Everywhere Settled (n.transform respell) := by
  refine h.transform (fun _ φ hn => hn.mapChildren φ) fun n hn hchildren => ?_
  refine ⟨settled_respell hn, ?_⟩
  cases n with
  | named x =>
    rw [Node.respell]
    split <;> simp [children]
  | _ => exact hchildren

theorem settled_const (v : K) : Everywhere Settled (.const v) := ⟨trivial, by simp [children]⟩

section Zeros

variable [Literal K]

/-- **What the last pass can make of a node**: zero, an operand of an operation whose other operand
is zero, or the node as it is, if it does not read the zero array. -/
inductive Folded : Node K → Node K → Prop
  | zero (n : Node K) : Folded n (.const Literal.zero)
  | left (op : BinaryOp) (a b : Node K) : Folded (.binary op a b) a
  | right (op : BinaryOp) (a b : Node K) : Folded (.binary op a b) b
  | negated (op : BinaryOp) (a b : Node K) : Folded (.binary op a b) (.neg b)
  | self {n : Node K} (h : n.Native → n.Settled) : Folded n n

theorem folded_foldBinary (op : BinaryOp) (a b : Node K) :
    Folded (.binary op a b) (foldBinary op a b) := by
  unfold foldBinary
  cases op with
  | mul | div =>
    dsimp only
    split
    exacts [.zero _, .self id]
  | add =>
    dsimp only
    split
    · exact .right ..
    · split
      exacts [.left .., .self id]
  | sub =>
    dsimp only
    split
    · exact .left ..
    · split
      exacts [.negated .., .self id]
  | pow =>
    dsimp only
    split
    · split
      exacts [.zero _, .self id]
    · exact .self id

theorem folded_collapseZero (n : Node K) : Folded n (collapseZero n) := by
  cases n with
  | access b i =>
    cases b with
    | zero => exact .zero _
    | state | param => exact .self id
  | binary op a b => exact folded_foldBinary op a b
  | neg a =>
    rw [collapseZero]
    split
    exacts [.zero _, .self id]
  | call func args =>
    match args with
    | [a] =>
      rw [collapseZero]
      split
      exacts [.zero _, .self id]
    | [] | _ :: _ :: _ => exact .self id
  | sum x lo hi es body =>
    rw [collapseZero]
    split
    exacts [.zero _, .self id]
  | _ => exact .self id

theorem Folded.settled (hf : Folded n m) (hn : n.Native)
    (h : ∀ k ∈ n.children, Everywhere Settled k) :
    Everywhere Settled m := by
  cases hf with
  | zero => exact settled_const _
  | left op a b => exact h _ (by simp [children])
  | right op a b => exact h _ (by simp [children])
  | negated op a b => exact ⟨trivial, by simp [children, h b (by simp [children])]⟩
  | self hself => exact ⟨hself hn, h⟩

theorem Folded.freeVars (hf : Folded n m) : m.freeVars ⊆ n.freeVars := by
  cases hf with
  | zero => exact List.nil_subset _
  | left op a b => exact List.subset_append_left _ _
  | right op a b | negated op a b => exact List.subset_append_right _ _
  | self => exact List.Subset.refl _

/-- **Nothing is left in a normal form** that a procedure must not contain. -/
theorem settled_normalize (n : Node K) : Everywhere Settled n.normalize :=
  (native_stripAbsorbed n).transform (fun _ φ hn => hn.mapChildren φ) fun n =>
    (folded_collapseZero n).settled

theorem freeVars_normalize (n : Node K) : n.normalize.freeVars ⊆ n.freeVars := by
  have hstripped : n.nativeSums.absorbGuards.stripAbsorbed.freeVars ⊆ n.freeVars :=
    List.Subset.trans (freeVars_transform freeVars_stripExclusions _)
      (List.Subset.trans (freeVars_transform freeVars_absorbGuard _)
        (freeVars_transform freeVars_nativeSum n))
  exact List.Subset.trans (freeVars_transform (fun n => (folded_collapseZero n).freeVars) _)
    hstripped

end Zeros

theorem freeVars_respell (n : Node K) : (respell n).freeVars ⊆ n.freeVars := by
  cases n with
  | named x =>
    rw [respell]
    split <;> exact List.Subset.refl _
  | _ => exact List.Subset.refl _

/-! ## Finished nodes -/

/-- **A node as a procedure can contain it**, under the variables around it. -/
structure Finished (scope : List String) (n : Node K) : Prop where
  settled : Everywhere Settled n
  freeVars : n.freeVars ⊆ scope

theorem Finished.const (v : K) : (Node.const v).Finished scope :=
  ⟨settled_const v, List.nil_subset _⟩

theorem Finished.access {b : Buffer} (hb : b ≠ .zero) (v : K) :
    (Node.access b (.const v)).Finished scope := by
  refine ⟨⟨?_, by simp [children, settled_const]⟩, List.nil_subset _⟩
  cases b with
  | zero => exact absurd rfl hb
  | state | param => trivial

theorem Finished.normalize [Literal K] (h : n.freeVars ⊆ scope) : n.normalize.Finished scope :=
  ⟨settled_normalize n, List.Subset.trans (freeVars_normalize n) h⟩

theorem Finished.respell (h : n.Finished scope) : (n.transform respell).Finished scope :=
  ⟨h.settled.respell, List.Subset.trans (freeVars_transform freeVars_respell n) h.freeVars⟩

theorem Plain.settled (h : n.Plain) : Everywhere Settled n :=
  h.everywhere fun n hn => by cases hn <;> trivial

theorem checkAll_of_forall {ns : List (Node K)} (h : ∀ n ∈ ns, n.check scope = .ok ()) :
    checkAll scope ns = .ok () := by
  induction ns with
  | nil => rfl
  | cons n ns ih =>
    obtain ⟨hn, hns⟩ := List.forall_mem_cons.mp h
    exact (bind_of_ok hn).trans (ih hns)

theorem Everywhere.check (h : Everywhere Settled n) (hvars : n.freeVars ⊆ scope) :
    n.check scope = .ok () := by
  induction h generalizing scope with
  | @intro n self _ ih =>
    cases n with
    | const v | imaginaryUnit | named x | time | unresolved x => rfl
    | var x => exact if_pos (hvars (by simp [Node.freeVars]))
    | access b i =>
      cases b with
      | zero => cases self
      | state | param => exact ih i (by simp [children]) hvars
    | neg a => exact ih a (by simp [children]) hvars
    | binary op a b | indicator a b =>
      rw [Node.freeVars, List.append_subset] at hvars
      exact (bind_of_ok (ih a (by simp [children]) hvars.1)).trans
        (ih b (by simp [children]) hvars.2)
    | call func args =>
      refine checkAll_of_forall fun a ha => ih a ha fun x hx => hvars ?_
      exact mem_freeVarsAll.mpr ⟨a, ha, hx⟩
    | sum x lo hi es body =>
      obtain rfl : es = [] := self
      simp only [Node.freeVars, freeVarsExclusions, List.append_nil, List.append_subset] at hvars
      obtain ⟨⟨hlo, hhi⟩, hbody⟩ := hvars
      have hinside : body.freeVars ⊆ x :: scope := by
        intro y hy
        by_cases hyx : y = x
        · simp [hyx]
        · exact List.mem_cons_of_mem _ (hbody (by simp [hy, hyx]))
      exact (bind_of_ok (ih lo (by simp [children]) hlo)).trans
        ((bind_of_ok (ih hi (by simp [children]) hhi)).trans (ih body (by simp [children]) hinside))
    | boundedSum x lo hi es body | guarded l r body => cases self

/-- **A finished node passes the check.** -/
theorem Finished.check (h : n.Finished scope) : n.check scope = .ok () := h.settled.check h.freeVars

end Node

/-! ## Finished statements -/

namespace Stmt

/-- **A statement as a procedure can contain it**, with loops that nest to some depth at most. -/
inductive Finished : Nat → List String → Stmt K → Prop
  | assign {d : Nat} {scope : List String} {slot value : Node K} (hslot : slot.Finished scope)
      (hvalue : value.Finished scope) : Finished d scope (.assign slot value)
  | loop {d : Nat} {scope : List String} {x : String} {lo hi : Node K} {body : List (Stmt K)}
      (hlo : lo.Finished scope) (hhi : hi.Finished scope)
      (hbody : ∀ s ∈ body, Finished d (x :: scope) s) : Finished (d + 1) scope (.loop x lo hi body)

variable {d : Nat} {scope : List String} {s : Stmt K} {ss : List (Stmt K)}

theorem depthAll_le (h : ∀ s ∈ ss, s.depth ≤ d) : depthAll ss ≤ d := by
  induction ss with
  | nil => exact Nat.zero_le d
  | cons s ss ih =>
    obtain ⟨hs, hss⟩ := List.forall_mem_cons.mp h
    exact Nat.max_le.mpr ⟨hs, ih hss⟩

theorem checkAll_of_forall (h : ∀ s ∈ ss, s.check scope = .ok ()) : checkAll scope ss = .ok () := by
  induction ss with
  | nil => rfl
  | cons s ss ih =>
    obtain ⟨hs, hss⟩ := List.forall_mem_cons.mp h
    exact (bind_of_ok hs).trans (ih hss)

theorem Finished.respell (h : s.Finished d scope) :
    (s.transform Node.respell).Finished d scope := by
  induction h with
  | assign hslot hvalue => exact .assign hslot.respell hvalue.respell
  | loop hlo hhi _ ih =>
    refine .loop hlo.respell hhi.respell ?_
    rw [transformAll_eq]
    exact List.forall_mem_map.mpr ih

theorem Finished.depth_le (h : s.Finished d scope) : s.depth ≤ d := by
  induction h with
  | assign => exact Nat.zero_le _
  | loop _ _ _ ih => exact Nat.succ_le_succ (depthAll_le ih)

theorem Finished.check (h : s.Finished d scope) : s.check scope = .ok () := by
  induction h with
  | assign hslot hvalue => exact (bind_of_ok hslot.check).trans hvalue.check
  | loop hlo hhi _ ih =>
    exact (bind_of_ok hlo.check).trans ((bind_of_ok hhi.check).trans (checkAll_of_forall ih))

end Stmt

/-- **Finished statements make a procedure**, if their loops are not nested. -/
theorem finishProcedure_of_finished [Literal K] {options : Options} {states : StateLayout K}
    {layout : ParamLayout} {body : List (Stmt K)} (h : ∀ s ∈ body, s.Finished 1 []) :
    ∃ p, finishProcedure options states layout body = .ok p := by
  have hbody : ∀ s ∈ Stmt.canonical body, s.Finished 1 [] := by
    rw [Stmt.canonical, Stmt.transformAll_eq]
    exact List.forall_mem_map.mpr fun s hs => (h s hs).respell
  refine ⟨⟨options.naming, states.entries, layout.entries, Stmt.canonical body,
    options.checkBounds⟩, ?_⟩
  have hchecked := Procedure.checkStructure_eq_ok
    (p := ⟨options.naming, states.entries, layout.entries, Stmt.canonical body,
      options.checkBounds⟩).mpr
    ⟨Stmt.depthAll_le fun s hs => (hbody s hs).depth_le,
      Stmt.checkAll_of_forall fun s hs => (hbody s hs).check⟩
  rw [finishProcedure, hchecked]

end Fluxion
