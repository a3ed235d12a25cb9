import Fluxion.Proofs.Generation.CheckedProcedures

/-!
# Proofs/Nodes/Irreducible — normal forms are the nodes that no pass changes

A node is *irreducible* if no pass has anything to do at the node itself: it is no bounded sum and
no guard, it excludes nothing and does not read the zero array, and no zero in it folds away.

    the normal form of every node is irreducible everywhere        (`irreducible_normalize`)
    what is irreducible everywhere is its own normal form          (`normalize_of_irreducible`)

The last pass goes from the leaves to the root, so a zero that it makes is there when the parent is
looked at, and nothing that it makes of a node has to be looked at again.  Hence a second run
changes nothing (`normalize_stable`).
-/

namespace Fluxion

variable {K : Type} [Literal K]

namespace Node

variable {n a b : Node K}

/-- **No pass has anything to do** at the node itself. -/
def Irreducible : Node K → Prop
  | .boundedSum .. | .guarded .. | .access .zero _ => False
  | .sum _ _ _ es body => es = [] ∧ body.isZero = false
  | .neg a => a.isZero = false
  | .binary .add a b | .binary .sub a b | .binary .mul a b => a.isZero = false ∧ b.isZero = false
  | .binary .div a _ => a.isZero = false
  | .binary .pow a b => (a.isZero && b.const?.any Literal.isPositive) = false
  | .call func [a] => (callPreservesZero func && a.isZero) = false
  | _ => True

/-! ## Normal forms -/

theorem irreducible_zero : Everywhere Irreducible (.const (Literal.zero : K)) :=
  ⟨trivial, by simp [children]⟩

theorem irreducible_neg (ha : Everywhere Irreducible a) (hzero : a.isZero = false) :
    Everywhere Irreducible (.neg a) :=
  ⟨hzero, by simp [children, ha]⟩

/-- An operation on irreducible operands. -/
theorem irreducible_binary {op : BinaryOp} (ha : Everywhere Irreducible a)
    (hb : Everywhere Irreducible b) (h : (Node.binary op a b).Irreducible) :
    Everywhere Irreducible (.binary op a b) :=
  ⟨h, by simp [children, ha, hb]⟩

/-- **What folding makes of an operation**: zero, one of its operands, the negation of an operand
that is not zero, or the operation itself, if there is nothing to fold. -/
theorem irreducible_foldBinary (op : BinaryOp) (ha : Everywhere Irreducible a)
    (hb : Everywhere Irreducible b) : Everywhere Irreducible (foldBinary op a b) := by
  unfold foldBinary
  cases op with
  | mul =>
    dsimp only
    split
    · exact irreducible_zero
    · next h => exact irreducible_binary ha hb (by simpa [Irreducible] using h)
  | div =>
    dsimp only
    split
    · exact irreducible_zero
    · next h => exact irreducible_binary ha hb (Bool.eq_false_iff.mpr h)
  | add =>
    dsimp only
    split
    · exact hb
    · split
      · exact ha
      · next hleft hright =>
        exact irreducible_binary ha hb ⟨Bool.eq_false_iff.mpr hleft, Bool.eq_false_iff.mpr hright⟩
  | sub =>
    -- the right operand is looked at first, so what is negated is not zero
    dsimp only
    split
    · exact ha
    · next hright =>
      split
      · exact irreducible_neg hb (Bool.eq_false_iff.mpr hright)
      · next hleft =>
        exact irreducible_binary ha hb ⟨Bool.eq_false_iff.mpr hleft, Bool.eq_false_iff.mpr hright⟩
  | pow =>
    dsimp only
    split
    · next e he =>
      split
      · exact irreducible_zero
      · next h => exact irreducible_binary ha hb (by simpa [Irreducible, he] using h)
    · next he => exact irreducible_binary ha hb (by simp [Irreducible, he])

/-- The last pass at a node whose children it has gone through. -/
theorem irreducible_collapseZero (hn : n.Native) (h : ∀ m ∈ n.children, Everywhere Irreducible m) :
    Everywhere Irreducible (collapseZero n) := by
  cases n with
  | boundedSum | guarded => cases hn
  | access b i =>
    cases b with
    | zero => exact irreducible_zero
    | state | param => exact ⟨trivial, h⟩
  | binary op a b =>
    exact irreducible_foldBinary op (h a (by simp [children])) (h b (by simp [children]))
  | neg a =>
    rw [collapseZero]
    split
    · exact irreducible_zero
    · next hzero => exact ⟨Bool.eq_false_iff.mpr hzero, h⟩
  | call func args =>
    rcases args with _ | ⟨a, _ | ⟨b, rest⟩⟩
    · exact ⟨trivial, h⟩
    · rw [collapseZero]
      split
      · exact irreducible_zero
      · next hzero => exact ⟨Bool.eq_false_iff.mpr hzero, h⟩
    · exact ⟨trivial, h⟩
  | sum x lo hi es body =>
    rw [collapseZero]
    split
    · exact irreducible_zero
    · next hzero => exact ⟨⟨hn, Bool.eq_false_iff.mpr hzero⟩, h⟩
  | _ => exact ⟨trivial, h⟩

/-- **Normal forms are irreducible everywhere.** -/
theorem irreducible_normalize (n : Node K) : Everywhere Irreducible n.normalize :=
  (native_stripAbsorbed n).transform (fun _ φ hn => hn.mapChildren φ) fun _ =>
    irreducible_collapseZero

/-! ## Nodes that no pass changes -/

/-- The first three passes at an irreducible node. -/
theorem Irreducible.strip_eq (h : n.Irreducible) :
    (stripExclusions ∘ absorbGuard ∘ nativeSum) n = n := by
  cases n with
  | boundedSum | guarded => cases h
  | sum x lo hi es body =>
    obtain ⟨rfl, -⟩ := h
    rfl
  | _ => rfl

/-- The last pass at an irreducible node. -/
theorem Irreducible.collapseZero_eq (h : n.Irreducible) : collapseZero n = n := by
  cases n with
  | boundedSum | guarded => cases h
  | access b i =>
    cases b with
    | zero => cases h
    | state | param => rfl
  | binary op a b =>
    cases op with
    | pow =>
      rw [collapseZero, foldBinary]
      split
      · next e he => exact if_neg (by simpa [Irreducible, he] using h)
      · rfl
    | _ => simp_all [collapseZero, foldBinary, Irreducible]
  | neg a => exact if_neg (Bool.eq_false_iff.mp h)
  | call func args =>
    rcases args with _ | ⟨a, _ | ⟨b, rest⟩⟩
    · rfl
    · exact if_neg (Bool.eq_false_iff.mp h)
    · rfl
  | sum x lo hi es body => exact if_neg (Bool.eq_false_iff.mp h.2)
  | _ => rfl

/-- **What is irreducible everywhere is its own normal form.** -/
theorem normalize_of_irreducible (h : Everywhere Irreducible n) : n.normalize = n := by
  have hstripped : n.nativeSums.absorbGuards.stripAbsorbed = n := by
    rw [stripAbsorbed_absorbGuards_nativeSums]
    exact h.transform_eq fun _ => Irreducible.strip_eq
  rw [normalize, hstripped]
  exact h.transform_eq fun _ => Irreducible.collapseZero_eq

/-- **Normal forms are stable.**  Nothing in a normal form, at any depth, gives a pass anything to
do; a second run changes nothing; and the nodes that a run does not change are exactly those with
nothing to do in them. -/
theorem normalize_stable (n : Node K) :
    (∀ m ∈ n.normalize.subnodes, m.Irreducible) ∧ n.normalize.normalize = n.normalize ∧
      (n.normalize = n ↔ ∀ m ∈ n.subnodes, m.Irreducible) := by
  have hnormal := irreducible_normalize n
  refine ⟨everywhere_iff.mp hnormal, normalize_of_irreducible hnormal, fun h => ?_, fun h => ?_⟩
  · rw [h] at hnormal
    exact everywhere_iff.mp hnormal
  · exact normalize_of_irreducible (everywhere_iff.mpr h)

end Node

end Fluxion
