import Fluxion.Lowering
import Mathlib.Algebra.Group.Nat.Defs
import Mathlib.Data.List.Nodup
import Mathlib.Data.List.Perm.Subperm
import Mathlib.Data.Set.Function

/-!
# Proofs/Lowering/FreshNames — new variables differ from all others

A label that is taken gets a number behind it.  The search for the number has no bound: it counts up
until the name that it has come to is not taken (`Searches`).

    label_(n+1) taken ──▸ label_(n+2) taken ──▸ … ──▸ label_m not taken

Names with different numbers differ (`numberedName_injective`), so the taken ones cannot be all that
the search comes to: it ends after as many attempts as there are taken names, and one more
(`exists_searches`).  `freshNumbered` makes that many attempts, and finds what the search finds.

The count of lowering is a natural number.  A word of a machine counts the same way until it
overflows, and then it stops (`Counter.checked`) or begins again (`Counter.wrapping`).  The search
is defined for every counter, and those of words are compared with that of the natural numbers.
-/

namespace Fluxion

/-! ## Counters -/

/-- **A counter**: the count after another, where there is one, and the number that a count
shows. -/
structure Counter (α : Type) where
  next : α → Option α
  number : α → Nat

namespace Counter

/-- Natural numbers, which never overflow. -/
def natural : Counter Nat := ⟨fun n => some (n + 1), id⟩

/-- Words of some bits that stop where they overflow. -/
def checked (w : Nat) : Counter (BitVec w) :=
  ⟨fun n => if n = BitVec.allOnes w then none else some (n + 1#w), BitVec.toNat⟩

/-- Words of some bits that begin again where they overflow. -/
def wrapping (w : Nat) : Counter (BitVec w) := ⟨fun n => some (n + 1#w), BitVec.toNat⟩

/-- Below a limit, a counter goes on as the natural numbers do. -/
def CountsTo {α : Type} (C : Counter α) (limit : Nat) : Prop :=
  ∀ n, C.number n + 1 < limit → ∃ m, C.next n = some m ∧ C.number m = C.number n + 1

theorem toNat_add_one {w : Nat} {n : BitVec w} (h : n.toNat + 1 < 2 ^ w) :
    (n + 1#w).toNat = n.toNat + 1 := by
  rw [BitVec.toNat_add, BitVec.toNat_ofNat, Nat.add_mod_mod, Nat.mod_eq_of_lt h]

theorem eq_allOnes_iff {w : Nat} {n : BitVec w} : n = BitVec.allOnes w ↔ 2 ^ w ≤ n.toNat + 1 := by
  have hlt := n.isLt
  rw [← BitVec.toNat_inj, BitVec.toNat_allOnes]
  omega

theorem checked_countsTo (w : Nat) : (checked w).CountsTo (2 ^ w) := by
  intro n h
  exact ⟨n + 1#w, if_neg (mt eq_allOnes_iff.mp (Nat.not_le.mpr h)), toNat_add_one h⟩

theorem wrapping_countsTo (w : Nat) : (wrapping w).CountsTo (2 ^ w) :=
  fun n h => ⟨n + 1#w, rfl, toNat_add_one h⟩

end Counter

variable {α : Type} {C : Counter α} {taken : List String} {label : String} {attempts k m : Nat}

/-! ## The search -/

/-- **The search for a number** behind a label, from a count on: it goes to the next count, and ends
if the name with that number is not taken.  It also ends where there is no next count. -/
inductive Searches (C : Counter α) (taken : List String) (label : String) : α → Option α → Prop
  | overflow {n : α} (hn : C.next n = none) : Searches C taken label n none
  | found {n m : α} (hn : C.next n = some m) (hm : numberedName label (C.number m) ∉ taken) :
      Searches C taken label n (some m)
  | next {n m : α} {r : Option α} (hn : C.next n = some m)
      (hm : numberedName label (C.number m) ∈ taken) (hr : Searches C taken label m r) :
      Searches C taken label n r

namespace Searches

variable {n : α} {r r' : Option α}

/-- The search has one end at most. -/
theorem unique (h : Searches C taken label n r) (h' : Searches C taken label n r') : r = r' := by
  induction h with
  | overflow hn =>
    cases h' with
    | overflow => rfl
    | found hn' | next hn' => cases hn.symm.trans hn'
  | found hn hfree =>
    cases h' with
    | overflow hn' => cases hn.symm.trans hn'
    | found hn' => exact hn.symm.trans hn'
    | next hn' hmem =>
      obtain rfl := Option.some.inj (hn.symm.trans hn')
      exact absurd hmem hfree
  | next hn hmem _ ih =>
    cases h' with
    | overflow hn' => cases hn.symm.trans hn'
    | found hn' hfree =>
      obtain rfl := Option.some.inj (hn.symm.trans hn')
      exact absurd hmem hfree
    | next hn' _ hr' =>
      obtain rfl := Option.some.inj (hn.symm.trans hn')
      exact ih hr'

/-- The name that is found is not taken. -/
theorem not_mem {m : α} (h : Searches C taken label n (some m)) :
    numberedName label (C.number m) ∉ taken := by
  generalize hr : some m = r at h
  induction h with
  | overflow => cases hr
  | found _ hfree => exact Option.some.inj hr ▸ hfree
  | next _ _ _ ih => exact ih hr

/-- It ends at a free name or before. -/
theorem exists_le {f : Nat → α} (hf : ∀ d, C.next (f d) = some (f (d + 1))) {d : Nat}
    (hfree : numberedName label (C.number (f (d + 1))) ∉ taken) :
    ∃ e ≤ d, Searches C taken label (f 0) (some (f (e + 1))) := by
  induction d generalizing f with
  | zero => exact ⟨0, Nat.le_refl 0, .found (hf 0) hfree⟩
  | succ d ih =>
    by_cases hmem : numberedName label (C.number (f 1)) ∈ taken
    · obtain ⟨e, he, hsearch⟩ := ih (f := fun d => f (d + 1)) (fun d => hf (d + 1)) hfree
      exact ⟨e + 1, Nat.succ_le_succ he, .next (hf 0) hmem hsearch⟩
    · exact ⟨0, Nat.zero_le _, .found (hf 0) hmem⟩

end Searches

/-! ## It ends -/

/-- Different numbers make different names. -/
theorem numberedName_injective (label : String) : Function.Injective (numberedName label) := by
  intro m n h
  rw [numberedName, numberedName, String.append_right_inj] at h
  have hdigits : Nat.toDigits 10 m = Nat.toDigits 10 n := by
    have hlist := congrArg String.toList h
    rwa [Nat.toString_eq_repr, Nat.toString_eq_repr, Nat.toList_repr, Nat.toList_repr] at hlist
  rw [← Nat.ofDigitChars_ten_toDigits (n := m), hdigits, Nat.ofDigitChars_ten_toDigits]

/-- **Of one number more than there are taken names, one is free.** -/
theorem exists_numberedName_not_mem (label : String) {f : Nat → Nat}
    (hf : Set.InjOn f {d | d ≤ taken.length}) :
    ∃ d ≤ taken.length, numberedName label (f d) ∉ taken := by
  by_contra hnone
  have hsubset : (List.range (taken.length + 1)).map (fun d => numberedName label (f d)) ⊆
      taken := by
    intro name hname
    obtain ⟨d, hd, rfl⟩ := List.mem_map.mp hname
    by_contra hfree
    exact hnone ⟨d, Nat.le_of_lt_succ (List.mem_range.mp hd), hfree⟩
  have hnodup : ((List.range (taken.length + 1)).map fun d => numberedName label (f d)).Nodup := by
    refine List.nodup_range.map_on fun d hd e he heq => hf ?_ ?_ (numberedName_injective label heq)
    · exact Nat.le_of_lt_succ (List.mem_range.mp hd)
    · exact Nat.le_of_lt_succ (List.mem_range.mp he)
  have hlength := (hnodup.subperm hsubset).length_le
  rw [List.length_map, List.length_range] at hlength
  omega

/-- **The search ends**, within as many attempts as there are taken names and one more, if these
show different numbers. -/
theorem exists_searches (label : String) {f : Nat → α} (hf : ∀ d, C.next (f d) = some (f (d + 1)))
    (hinj : Set.InjOn (fun d => C.number (f (d + 1))) {d | d ≤ taken.length}) :
    ∃ d ≤ taken.length, Searches C taken label (f 0) (some (f (d + 1))) := by
  obtain ⟨d, hd, hfree⟩ := exists_numberedName_not_mem label hinj
  obtain ⟨e, he, hsearch⟩ := Searches.exists_le hf hfree
  exact ⟨e, Nat.le_trans he hd, hsearch⟩

theorem exists_searches_natural (taken : List String) (label : String) (n : Nat) :
    ∃ m, n < m ∧ m ≤ n + 1 + taken.length ∧ Searches .natural taken label n (some m) := by
  have hinj : Set.InjOn (fun d => Counter.natural.number (n + (d + 1))) {d | d ≤ taken.length} :=
    fun d _ e _ heq => Nat.add_right_cancel (Nat.add_left_cancel heq)
  obtain ⟨d, hd, hsearch⟩ :=
    exists_searches label (C := .natural) (f := (n + ·)) (fun _ => rfl) hinj
  exact ⟨n + (d + 1), by omega, by omega, hsearch⟩

theorem exists_searches_wrapping {w : Nat} (htaken : taken.length < 2 ^ w) (label : String)
    (n : BitVec w) : ∃ m, Searches (.wrapping w) taken label n (some m) := by
  have hnext (d : Nat) : (Counter.wrapping w).next (n + BitVec.ofNat w d) =
      some (n + BitVec.ofNat w (d + 1)) := by
    rw [← BitVec.ofNat_add_ofNat, ← BitVec.add_assoc]
    rfl
  have hinj : Set.InjOn (fun d => (Counter.wrapping w).number (n + BitVec.ofNat w (d + 1)))
      {d | d ≤ taken.length} := by
    intro d hd e he heq
    have hword := BitVec.add_right_inj n |>.mp (BitVec.eq_of_toNat_eq heq)
    rw [← BitVec.ofNat_add_ofNat, ← BitVec.ofNat_add_ofNat, BitVec.add_left_inj] at hword
    have hmod := congrArg BitVec.toNat hword
    rwa [BitVec.toNat_ofNat, BitVec.toNat_ofNat, Nat.mod_eq_of_lt (Nat.lt_of_le_of_lt hd htaken),
      Nat.mod_eq_of_lt (Nat.lt_of_le_of_lt he htaken)] at hmod
  obtain ⟨d, -, hsearch⟩ := exists_searches label hnext hinj
  rw [BitVec.add_zero] at hsearch
  exact ⟨_, hsearch⟩

/-! ## Words and natural numbers -/

namespace Searches

/-- **Induction on a search of natural numbers**, from its end back to its start. -/
theorem natural_induction {P : Nat → Prop} (h : Searches .natural taken label k (some m))
    (found : ∀ n, m = n + 1 → numberedName label m ∉ taken → P n)
    (next : ∀ n, numberedName label (n + 1) ∈ taken →
      Searches .natural taken label (n + 1) (some m) → P (n + 1) → P n) : P k := by
  generalize hr : some m = r at h
  induction h with
  | overflow hk => cases hk
  | found hk hfree =>
    obtain rfl := Option.some.inj hr
    exact found _ (Option.some.inj hk).symm hfree
  | next hk hmem hsearch ih =>
    subst hr
    obtain rfl := Option.some.inj hk
    exact next _ hmem hsearch (ih rfl)

theorem lt_of_natural (h : Searches .natural taken label k (some m)) : k < m := by
  refine h.natural_induction (P := (· < m)) ?_ ?_
  · rintro n rfl -
    exact Nat.lt_succ_self n
  · intro n _ _ hlt
    exact Nat.lt_of_succ_lt hlt

/-- What is found below the limit of a counter, the counter finds. -/
theorem of_natural {limit : Nat} (hC : C.CountsTo limit)
    (h : Searches .natural taken label k (some m)) (hm : m < limit) {n : α} (hn : C.number n = k) :
    ∃ j, C.number j = m ∧ Searches C taken label n (some j) := by
  revert n
  refine h.natural_induction (P := fun k => ∀ {n : α}, C.number n = k →
    ∃ j, C.number j = m ∧ Searches C taken label n (some j)) ?_ ?_
  · rintro _ rfl hfree n rfl
    obtain ⟨j, hj, hnumber⟩ := hC n hm
    exact ⟨j, hnumber, .found hj (hnumber ▸ hfree)⟩
  · rintro _ hmem hsearch ih n rfl
    obtain ⟨j, hj, hnumber⟩ := hC n (Nat.lt_trans hsearch.lt_of_natural hm)
    obtain ⟨l, hl, hlater⟩ := ih hnumber
    exact ⟨l, hl, .next hj (hnumber ▸ hmem) hlater⟩

/-- Words that stop do so before what is found beyond them. -/
theorem overflow_of_natural {w : Nat} (h : Searches .natural taken label k (some m))
    (hm : 2 ^ w ≤ m) {n : BitVec w} (hn : n.toNat = k) :
    Searches (.checked w) taken label n none := by
  revert n
  refine h.natural_induction (P := fun k => ∀ {n : BitVec w}, n.toNat = k →
    Searches (.checked w) taken label n none) ?_ ?_
  · rintro _ rfl - n rfl
    exact .overflow (if_pos (Counter.eq_allOnes_iff.mpr hm))
  · rintro _ hmem - ih n rfl
    by_cases hlast : n = BitVec.allOnes w
    · exact .overflow (if_pos hlast)
    · have hnumber : (Counter.checked w).number (n + 1#w) = n.toNat + 1 :=
        Counter.toNat_add_one (Nat.not_le.mp (mt Counter.eq_allOnes_iff.mpr hlast))
      exact .next (if_neg hlast) (hnumber ▸ hmem) (ih hnumber)

/-- Enough attempts find what the search finds. -/
theorem freshNumbered_eq (h : Searches .natural taken label k (some m))
    (hm : m ≤ k + 1 + attempts) :
    freshNumbered taken label attempts k = (numberedName label m, m) := by
  revert attempts
  refine h.natural_induction (P := fun k => ∀ {attempts}, m ≤ k + 1 + attempts →
    freshNumbered taken label attempts k = (numberedName label m, m)) ?_ ?_
  · rintro n rfl hfree attempts -
    cases attempts with
    | zero => rfl
    | succ attempts => exact if_neg hfree
  · intro n hmem hsearch ih attempts hm
    have hlt := hsearch.lt_of_natural
    cases attempts with
    | zero => omega
    | succ attempts => exact (if_pos hmem).trans (ih (by omega))

end Searches

/-! ## Fresh names -/

/-- **A label is its own name unless it is taken**; then it gets the number that the search
finds. -/
inductive FindsName (C : Counter α) (taken : List String) (label : String) (n : α) :
    Option (String × α) → Prop
  | label (h : label ∉ taken) : FindsName C taken label n (some (label, n))
  | numbered (h : label ∈ taken) {r : Option α} (hr : Searches C taken label n r) :
      FindsName C taken label n (r.map fun m => (numberedName label (C.number m), m))

namespace FindsName

variable {n : α} {r r' : Option (String × α)}

/-- There is one name at most. -/
theorem unique (h : FindsName C taken label n r) (h' : FindsName C taken label n r') : r = r' := by
  cases h with
  | label hfree =>
    cases h' with
    | label => rfl
    | numbered hmem => exact absurd hmem hfree
  | numbered hmem hr =>
    cases h' with
    | label hfree => exact absurd hmem hfree
    | numbered _ hr' => rw [hr.unique hr']

/-- A name that is found is the label, or the label with the number that the search finds. -/
theorem cases_some {x : String} {m : α} (h : FindsName C taken label n (some (x, m))) :
    label ∉ taken ∧ x = label ∧ m = n ∨
      label ∈ taken ∧ x = numberedName label (C.number m) ∧
        Searches C taken label n (some m) := by
  generalize hr : some (x, m) = r at h
  cases h with
  | label hfree =>
    obtain ⟨rfl, rfl⟩ := Prod.mk.inj (Option.some.inj hr)
    exact .inl ⟨hfree, rfl, rfl⟩
  | numbered hmem hsearch =>
    obtain ⟨j, rfl, hj⟩ := Option.map_eq_some_iff.mp hr.symm
    obtain ⟨rfl, rfl⟩ := Prod.mk.inj hj
    exact .inr ⟨hmem, rfl, hsearch⟩

/-- The name is not taken. -/
theorem not_mem {x : String} {m : α} (h : FindsName C taken label n (some (x, m))) : x ∉ taken := by
  rcases h.cases_some with ⟨hfree, rfl, -⟩ | ⟨-, rfl, hsearch⟩
  · exact hfree
  · exact hsearch.not_mem

end FindsName

/-- **`freshName` finds a name**, and the count goes on by the number of taken names and one at
most. -/
theorem findsName_freshName (taken : List String) (label : String) (n : Nat) :
    FindsName .natural taken label n (some (freshName taken label n)) ∧
      n ≤ (freshName taken label n).2 ∧ (freshName taken label n).2 ≤ n + 1 + taken.length := by
  rw [freshName]
  split
  · next hmem =>
    obtain ⟨m, hlt, hle, hsearch⟩ := exists_searches_natural taken label n
    rw [hsearch.freshNumbered_eq hle]
    exact ⟨.numbered hmem hsearch, Nat.le_of_lt hlt, hle⟩
  · next hfree => exact ⟨.label hfree, Nat.le_refl n, by omega⟩

namespace FindsName

variable {x : String} {w : Nat} {n : BitVec w}

/-- Below its limit, a counter finds the name that the natural numbers find. -/
theorem of_natural {limit : Nat} (hC : C.CountsTo limit) {n : α}
    (h : FindsName .natural taken label (C.number n) (some (x, m))) (hm : m < limit) :
    ∃ j, C.number j = m ∧ FindsName C taken label n (some (x, j)) := by
  rcases h.cases_some with ⟨hfree, rfl, rfl⟩ | ⟨hmem, rfl, hsearch⟩
  · exact ⟨n, rfl, .label hfree⟩
  · obtain ⟨j, rfl, hword⟩ := hsearch.of_natural hC hm rfl
    exact ⟨j, rfl, .numbered hmem hword⟩

/-- Words that stop find the same name or overflow. -/
theorem checked (h : FindsName .natural taken label n.toNat (some (x, m))) :
    FindsName (.checked w) taken label n
      (if m < 2 ^ w then some (x, BitVec.ofNat w m) else none) := by
  split
  · next hm =>
    obtain ⟨j, rfl, hj⟩ := of_natural (Counter.checked_countsTo w) h hm
    have hword : BitVec.ofNat w ((Counter.checked w).number j) = j :=
      (BitVec.ofNat_toNat w j).trans (BitVec.setWidth_eq j)
    rwa [hword]
  · next hm =>
    rcases h.cases_some with ⟨-, -, rfl⟩ | ⟨hmem, -, hsearch⟩
    · exact absurd n.isLt hm
    · exact .numbered hmem (hsearch.overflow_of_natural (Nat.not_lt.mp hm) rfl)

/-- Words that begin again find a name if there are more of them than taken names, and the same name
if it is not beyond them. -/
theorem wrapping (h : FindsName .natural taken label n.toNat (some (x, m)))
    (htaken : taken.length < 2 ^ w) :
    ∃ y j, FindsName (.wrapping w) taken label n (some (y, j)) ∧
      (m < 2 ^ w → y = x ∧ j.toNat = m) := by
  by_cases hm : m < 2 ^ w
  · obtain ⟨j, hj, hword⟩ := of_natural (Counter.wrapping_countsTo w) h hm
    exact ⟨x, j, hword, fun _ => ⟨rfl, hj⟩⟩
  · by_cases hmem : label ∈ taken
    · obtain ⟨j, hsearch⟩ := exists_searches_wrapping htaken label n
      exact ⟨_, j, .numbered hmem hsearch, fun hlt => absurd hlt hm⟩
    · exact ⟨label, n, .label hmem, fun hlt => absurd hlt hm⟩

end FindsName

namespace LoweringContext

variable {K : Type} {c : LoweringContext K} {scope : IndexScope} {i : Index} {x : String}

/-- The variable of an index is not taken. -/
theorem not_mem_taken {k k' : Nat} (h : c.fresh scope i k = .ok (x, k')) : x ∉ c.taken scope := by
  have hname := (findsName_freshName (c.taken scope) i.label k).1
  rw [Except.ok.inj h] at hname
  exact hname.not_mem

/-- A variable takes one step of the count, and at most one more for each name that is taken. -/
theorem count_of_fresh {k j : Nat} (h : c.fresh scope i k = .ok (x, j)) :
    k ≤ j ∧ j ≤ k + 1 + (c.reserved.length + scope.length) := by
  have hname := findsName_freshName (c.taken scope) i.label k
  rw [Except.ok.inj h, taken, List.length_append, List.length_map] at hname
  exact hname.2

end LoweringContext

/-- A label whose first numbers are taken by labels that look like it. -/
example : freshName ["p", "p_1", "p_3"] "p" 0 = ("p_2", 2) ∧
    freshName ["p", "p_1", "p_3"] "p" 2 = ("p_4", 4) := by
  decide +kernel

end Fluxion
