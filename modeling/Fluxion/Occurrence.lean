/-!
# Occurrence — lists by first occurrence

Symbols and indices are reported in the order in which they first occur.  `firsts` is that list: the
entries of a list, each kept where it stands for the first time.
-/

namespace Fluxion

variable {α : Type} [DecidableEq α]

/-- Each entry of a list at its first occurrence. -/
def firsts : List α → List α
  | [] => []
  | a :: rest => a :: (firsts rest).filter (· ≠ a)

@[simp]
theorem mem_firsts {a : α} {l : List α} : a ∈ firsts l ↔ a ∈ l := by
  induction l with
  | nil => simp [firsts]
  | cons b rest ih => by_cases h : a = b <;> simp [firsts, ih, h]

theorem nodup_firsts (l : List α) : (firsts l).Nodup := by
  induction l with
  | nil => simp [firsts]
  | cons b rest ih =>
    rw [firsts, List.nodup_cons]
    exact ⟨by simp, List.Pairwise.filter _ ih⟩

end Fluxion
