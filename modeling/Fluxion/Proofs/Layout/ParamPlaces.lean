import Fluxion.Proofs.Lowering.Fallible
import Mathlib.Data.List.Sort

/-!
# Proofs/Layout/ParamPlaces — the places of parameters

`ParamLayout.Places` is what a layout says about the parameters it was made from: each is a symbol
or an indexed symbol, has a place of its own inside the array, and no two have the same name.
-/

namespace Fluxion

variable {K : Type}

/-- **The parameters of a list have their places in a layout.** -/
structure ParamLayout.Places (l : ParamLayout) (params : List (Expr K)) : Prop where
  /-- Every parameter is there. -/
  placed : ∀ e ∈ params, (∃ name n, e = .symbol name ∧ (name, n) ∈ l.scalars) ∨
    ∃ f ∈ l.families, e = .indexed ⟨f.base, f.indices⟩
  scalar : ∀ q ∈ l.scalars, .symbol q.1 ∈ params ∧ q.2 < l.size
  family : ∀ f ∈ l.families, .indexed ⟨f.base, f.indices⟩ ∈ params ∧
    List.Forall₂ (fun i d => ParamLayout.dim? i = some d) f.indices f.dims ∧
      f.start + f.size ≤ l.size
  nodup : (l.scalars.map (·.1) ++ l.families.map (·.base)).Nodup

namespace ParamLayout

variable {l l' : ParamLayout} {params : List (Expr K)} {name : String} {s : Indexed}

theorem declares_eq_false : l.declares name = false ↔
    name ∉ l.scalars.map (·.1) ∧ name ∉ l.families.map (·.base) := by
  rw [declares, Bool.or_eq_false_iff, List.any_eq_false, List.any_eq_false, List.mem_map,
    List.mem_map]
  simp only [beq_iff_eq, not_exists, not_and]

theorem forall₂_dims {dims : List (Int × Nat)} (h : ParamLayout.dims (K := K) s = .ok dims) :
    List.Forall₂ (fun i d => dim? i = some d) s.indices dims := by
  refine (forall₂_of_mapM h).imp fun i d hd => ?_
  split at hd
  · next hdim => rw [hdim, Except.ok.inj hd]
  · cases hd

theorem places_scalar (h : l.Places params) (hname : l.declares name = false) :
    Places { l with scalars := l.scalars ++ [(name, l.size)], size := l.size + 1 }
      (params ++ [.symbol name]) where
  placed e he := by
    rcases List.mem_append.mp he with he | he
    · rcases h.placed e he with ⟨x, n, hx, hn⟩ | hf
      · exact .inl ⟨x, n, hx, List.mem_append_left _ hn⟩
      · exact .inr hf
    · exact .inl ⟨name, l.size, List.mem_singleton.mp he, by simp⟩
  scalar q hq := by
    rcases List.mem_append.mp hq with hq | hq
    · obtain ⟨hparam, hlt⟩ := h.scalar q hq
      exact ⟨List.mem_append_left _ hparam, Nat.lt_succ_of_lt hlt⟩
    · rw [List.mem_singleton.mp hq]
      exact ⟨by simp, Nat.lt_succ_self _⟩
  family f hf := by
    obtain ⟨hparam, hdims, hle⟩ := h.family f hf
    exact ⟨List.mem_append_left _ hparam, hdims, Nat.le_succ_of_le hle⟩
  nodup := by
    obtain ⟨hs, hf⟩ := declares_eq_false.mp hname
    rw [List.map_append, List.append_assoc]
    refine (List.perm_middle.nodup_iff).mpr (List.nodup_cons.mpr ⟨?_, h.nodup⟩)
    rw [List.mem_append]
    exact not_or.mpr ⟨hs, hf⟩

theorem places_family {f : ParamFamily} (h : l.Places params) (hname : l.declares f.base = false)
    (hstart : f.start = l.size)
    (hdims : List.Forall₂ (fun i d => dim? i = some d) f.indices f.dims) :
    Places { l with families := l.families ++ [f], size := l.size + f.size }
      (params ++ [.indexed ⟨f.base, f.indices⟩]) where
  placed e he := by
    rcases List.mem_append.mp he with he | he
    · rcases h.placed e he with hx | ⟨f', hf', hx⟩
      · exact .inl hx
      · exact .inr ⟨f', List.mem_append_left _ hf', hx⟩
    · exact .inr ⟨f, by simp, List.mem_singleton.mp he⟩
  scalar q hq := by
    obtain ⟨hparam, hlt⟩ := h.scalar q hq
    exact ⟨List.mem_append_left _ hparam, Nat.lt_add_right _ hlt⟩
  family f' hf' := by
    rcases List.mem_append.mp hf' with hf' | hf'
    · obtain ⟨hparam, hdims, hle⟩ := h.family f' hf'
      exact ⟨List.mem_append_left _ hparam, hdims, Nat.le_add_right_of_le hle⟩
    · obtain rfl := List.mem_singleton.mp hf'
      exact ⟨by simp, hdims, Nat.le_of_eq (by rw [hstart])⟩
  nodup := by
    obtain ⟨hs, hf⟩ := declares_eq_false.mp hname
    rw [List.map_append, ← List.append_assoc]
    refine ((List.perm_append_singleton _ _).nodup_iff).mpr (List.nodup_cons.mpr ⟨?_, h.nodup⟩)
    rw [List.mem_append]
    exact not_or.mpr ⟨hs, hf⟩

/-- **One more parameter**: a scalar takes a slot behind the others, a family as many as it has
members.  Its name is new. -/
theorem declare_eq_ok {param : Expr K} (h : l.declare param = .ok l') :
    (∃ name, param = .symbol name ∧ l.declares name = false ∧
      l' = { l with scalars := l.scalars ++ [(name, l.size)], size := l.size + 1 }) ∨
    ∃ f : ParamFamily, param = .indexed ⟨f.base, f.indices⟩ ∧ l.declares f.base = false ∧
      f.start = l.size ∧ List.Forall₂ (fun i d => dim? i = some d) f.indices f.dims ∧
        l' = { l with families := l.families ++ [f], size := l.size + f.size } := by
  cases param with
  | symbol name =>
    rw [declare] at h
    split at h
    · cases h
    · next hname => exact .inl ⟨name, rfl, Bool.eq_false_iff.mpr hname, (Except.ok.inj h).symm⟩
  | indexed s =>
    rw [declare] at h
    split at h
    · cases h
    · next hname =>
      obtain ⟨dims, hdims, h⟩ := ok_of_bind h
      exact .inr ⟨⟨s.base, s.indices, l.size, dims⟩, rfl, Bool.eq_false_iff.mpr hname, rfl,
        forall₂_dims hdims, (Except.ok.inj h).symm⟩
  | _ => cases h

/-- One more parameter is placed behind the others. -/
theorem places_declare {param : Expr K} (h : l.Places params) (hl : l.declare param = .ok l') :
    l'.Places (params ++ [param]) := by
  rcases declare_eq_ok hl with ⟨name, rfl, hname, rfl⟩ | ⟨f, rfl, hname, hstart, hdims, rfl⟩
  · exact places_scalar h hname
  · exact places_family h hname hstart hdims

/-- **The layout of a list of parameters places each of them.** -/
theorem places_ofParams (h : ofParams params = .ok l) : l.Places params :=
  foldlM_induction (fun done l => l.Places done) h ⟨nofun, nofun, nofun, List.nodup_nil⟩
    fun _ _ _ _ => places_declare

/-! ## Entries by their places -/

/-- Entries are sorted by insertion. -/
theorem sortByPlace_eq {α : Type} (xs : List (ℕ × α)) :
    sortByPlace xs = xs.insertionSort (·.1 ≤ ·.1) := by
  have hinsert : ∀ (x : ℕ × α) (ys : List (ℕ × α)), insertByPlace x ys =
      ys.orderedInsert (·.1 ≤ ·.1) x := by
    intro x ys
    induction ys with
    | nil => rfl
    | cons y ys ih => rw [insertByPlace, ih, List.orderedInsert_cons]
  induction xs with
  | nil => rfl
  | cons x xs ih => rw [List.insertionSort_cons, ← ih, ← hinsert]; rfl

/-- Sorting entries loses none and adds none. -/
theorem mem_sortByPlace {α : Type} {x : ℕ × α} {xs : List (ℕ × α)} :
    x ∈ sortByPlace xs ↔ x ∈ xs := by
  rw [sortByPlace_eq, List.mem_insertionSort]

end ParamLayout

end Fluxion
