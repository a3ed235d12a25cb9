import Fluxion.Proofs.Expressions.Elimination
import Fluxion.Proofs.Layout.Resolution
import Fluxion.Proofs.Lowering.Lowered

/-!
# Proofs/Lowering/ScalarNodes — values without indices

An expression in which no index occurs is lowered to arithmetic on literals, the time and entries of
the arrays at literal places (`Expr.scalar_of_lowered`): no sum, no condition, no variable, and no
read of the zero array.
-/

namespace Fluxion

variable {K : Type}

/-- **A value in which no index occurs.** -/
inductive Node.Scalar : Node K → Prop
  | const (v : K) : Scalar (.const v)
  | named (x : String) : Scalar (.named x)
  | time : Scalar .time
  | access {b : Buffer} (hb : b ≠ .zero) (v : K) : Scalar (.access b (.const v))
  | neg {n : Node K} (h : Scalar n) : Scalar (.neg n)
  | binary (op : BinaryOp) {a b : Node K} (ha : Scalar a) (hb : Scalar b) : Scalar (.binary op a b)
  | call (func : String) {ns : List (Node K)} (h : ∀ n ∈ ns, Scalar n) : Scalar (.call func ns)

variable [Literal K]

/-- What scalar symbols stand for is the time or an entry of an array. -/
theorem scalar_of_scalarNodes {states : StateLayout K} {layout : ParamLayout} {time : Option String}
    {names : List (String × Node K)} (h : scalarNodes states layout time = .ok names) :
    ∀ q ∈ names, q.2.Scalar := by
  obtain ⟨-, rfl⟩ := scalarNodes_eq_ok h
  simp only [List.mem_append, List.mem_map]
  rintro _ ((⟨x, -, rfl⟩ | ⟨q, -, rfl⟩) | ⟨q, -, rfl⟩)
  · exact .time
  · exact .access (b := .param) (by decide) _
  · exact .access (b := .state) (by decide) _

namespace Expr

variable {c : LoweringContext K} {scope : IndexScope} {e t : Expr K} {n : Node K}

omit [Literal K] in
theorem hasIndexStructure_child (h : e.hasIndexStructure = false) (ht : t ∈ e.children) :
    t.hasIndexStructure = false := by
  rw [Bool.eq_false_iff] at h ⊢
  exact fun htrue => h ((inherited_hasIndexStructure.iff [] e).mpr (.inr ⟨t, ht, htrue⟩))

theorem ruleClosed_scalar (hc : ∀ q ∈ c.names, q.2.Scalar) :
    RuleClosed c fun _ e n => e.hasIndexStructure = false → n.Scalar where
  join _ _ := ⟨fun v _ => .const v, fun h he => .neg (h he), fun op _ _ ha hb he =>
    .binary op (ha he) (hb he)⟩
  part ht h he := h (hasIndexStructure_child he (mem_children_of_mem_parts ht))
  imaginaryUnit _ _ := .named _
  symbol _ x _ := by
    cases hx : c.names.lookup x with
    | none => exact .named x
    | some n => exact hc _ (mem_of_lookup hx)
  indexed _ _ he := Bool.noConfusion he
  unknown _ _ he := Bool.noConfusion he
  index _ he := Bool.noConfusion he
  call h he := .call _ fun n hn => h n hn he
  sum _ _ _ he := Bool.noConfusion he
  distinct _ _ _ he := Bool.noConfusion he

/-- **An expression without indices is lowered to a value without indices.** -/
theorem scalar_of_lowered (hc : ∀ q ∈ c.names, q.2.Scalar) (h : e.Lowered c scope n)
    (he : e.hasIndexStructure = false) : n.Scalar := (ruleClosed_scalar hc).of_lowered h he

end Expr

end Fluxion
