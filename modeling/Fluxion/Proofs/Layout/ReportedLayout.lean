import Fluxion.Proofs.Numbers.FloatingIntegers
import Fluxion.Proofs.Generation.Stages
import Fluxion.Proofs.Layout.ParamBijection

/-!
# Proofs/Layout/ReportedLayout — layouts as they are reported

A procedure reports where its states and its parameters live.  Declared symbols should be reported
one behind the other, a scalar with one slot and a family with as many as it has members
(`Extent.entriesFrom`):

    x, J with four members, y    ──▸    x at 0, J from 1 on, y at 5

A layout of parameters keeps scalars and families apart, and brings them together again by their
places.  Where a scalar is declared behind a family without members, both have the same place and
the scalar is reported first; in all other cases the order of the report is that of the declarations
(`ParamLayout.reported_iff`).

The size of a family of states is computed as `upper - lower + 1`.  This is the number of its sites
unless the upper bound is further below the lower one than by one; then a negative number is
reported, and what is behind the family starts too early (`EquationSystem.counted_iff`).
-/

namespace Fluxion

variable {K : Type}

/-! ## Entries one behind the other -/

/-- Whether an entry is that of a scalar. -/
def LayoutEntry.isScalar : LayoutEntry K → Bool
  | .scalar _ _ => true
  | .family _ _ _ => false

/-- **What is declared under a name**: a scalar, or a family with so many members. -/
inductive Extent where
  | scalar (name : String)
  | family (name : String) (members : ℕ)
  deriving Repr, DecidableEq

namespace Extent

def name : Extent → String
  | .scalar name => name
  | .family name _ => name

/-- The number of slots that it takes. -/
def slots : Extent → ℕ
  | .scalar _ => 1
  | .family _ members => members

def isScalar : Extent → Bool
  | .scalar _ => true
  | .family _ _ => false

/-- Whether a scalar stands right behind a family without members. -/
def scalarBehindEmpty : List Extent → Bool
  | [] => false
  | d :: ds => (d.slots == 0 && ds.head?.any isScalar) || scalarBehindEmpty ds

variable [Literal K]

/-- Its entry, if it lives from a place on. -/
def entry (n : ℕ) : Extent → LayoutEntry K
  | .scalar name => .scalar name n
  | .family name members => .family name (.ofInt n) (.ofInt members)

/-- **Entries one behind the other**, from a place on. -/
def entriesFrom : ℕ → List Extent → List (LayoutEntry K)
  | _, [] => []
  | n, d :: ds => d.entry n :: entriesFrom (n + d.slots) ds

/-- The entries with their places. -/
def placedFrom : ℕ → List Extent → List (ℕ × LayoutEntry K)
  | _, [] => []
  | n, d :: ds => (n, d.entry n) :: placedFrom (n + d.slots) ds

variable {n : ℕ} {d : Extent} {ds ds' : List Extent} {q : ℕ × LayoutEntry K}

theorem map_snd_placedFrom (n : ℕ) (ds : List Extent) :
    (placedFrom n ds).map (·.2) = (entriesFrom n ds : List (LayoutEntry K)) := by
  induction ds generalizing n with
  | nil => rfl
  | cons d ds ih => exact congrArg (_ :: ·) (ih _)

theorem placedFrom_append (n : ℕ) (ds ds' : List Extent) :
    (placedFrom n (ds ++ ds') : List (ℕ × LayoutEntry K))
      = placedFrom n ds ++ placedFrom (n + (ds.map slots).sum) ds' := by
  induction ds generalizing n with
  | nil => rfl
  | cons d ds ih =>
    rw [List.cons_append, placedFrom, ih, placedFrom, List.cons_append, List.map_cons,
      List.sum_cons, Nat.add_assoc]

theorem entriesFrom_append (n : ℕ) (ds ds' : List Extent) :
    (entriesFrom n (ds ++ ds') : List (LayoutEntry K))
      = entriesFrom n ds ++ entriesFrom (n + (ds.map slots).sum) ds' := by
  simp only [← map_snd_placedFrom, placedFrom_append, List.map_append]

theorem isScalar_entry (n : ℕ) (d : Extent) :
    (d.entry n : LayoutEntry K).isScalar = d.isScalar := by
  cases d <;> rfl

theorem name_entry (n : ℕ) (d : Extent) : (d.entry n : LayoutEntry K).name = d.name := by
  cases d <;> rfl

theorem map_name_entriesFrom (n : ℕ) (ds : List Extent) :
    (entriesFrom n ds : List (LayoutEntry K)).map LayoutEntry.name = ds.map name := by
  induction ds generalizing n with
  | nil => rfl
  | cons d ds ih => rw [entriesFrom, List.map_cons, ih, name_entry, List.map_cons]

theorem le_of_mem_placedFrom (h : q ∈ placedFrom n ds) : n ≤ q.1 := by
  induction ds generalizing n with
  | nil => cases h
  | cons d ds ih =>
    rcases List.mem_cons.mp h with rfl | h
    · exact Nat.le_refl n
    · exact Nat.le_trans (Nat.le_add_right n d.slots) (ih h)

/-- No scalar has the place of a declaration before it, unless it stands right behind an empty
family. -/
theorem lt_of_mem_placedFrom (h : scalarBehindEmpty (d :: ds) = false)
    (hq : q ∈ placedFrom (n + d.slots) ds) (hscalar : q.2.isScalar = true) : n < q.1 := by
  induction ds generalizing d with
  | nil => cases hq
  | cons d' ds ih =>
    obtain ⟨hfirst, hrest⟩ := Bool.or_eq_false_iff.mp h
    cases hslots : d.slots with
    | succ k =>
      have hle := le_of_mem_placedFrom hq
      omega
    | zero =>
      rw [hslots, Nat.add_zero] at hq
      rcases List.mem_cons.mp hq with rfl | hq
      · rw [hslots] at hfirst
        rw [isScalar_entry] at hscalar
        simp [hscalar] at hfirst
      · exact ih hrest hq

end Extent

/-! ## Bringing scalars and families together -/

namespace ParamLayout

open Extent

/-- What comes before everything on the right, and strictly before everything on the left, comes
first. -/
theorem insertionSort_append_cons {α : Type} {r : α → α → Prop} [DecidableRel r] {x : α}
    {xs ys : List α} (hxs : ∀ y ∈ xs, ¬r y x) (hys : ∀ y ∈ ys, r x y) :
    (xs ++ x :: ys).insertionSort r = x :: (xs ++ ys).insertionSort r := by
  induction xs with
  | nil => exact List.insertionSort_cons_of_forall_rel r hys
  | cons y xs ih =>
    obtain ⟨hy, hxs⟩ := List.forall_mem_cons.mp hxs
    rw [List.cons_append, List.insertionSort_cons, ih hxs, List.orderedInsert_of_not_le r _ hy,
      List.cons_append, List.insertionSort_cons]

end ParamLayout

namespace Extent

variable [Literal K] {n : ℕ} {ds : List Extent}

/-- The entries with their places, scalars and then families. -/
def apart (n : ℕ) (ds : List Extent) : List (ℕ × LayoutEntry K) :=
  (placedFrom n ds).filter (·.2.isScalar) ++ (placedFrom n ds).filter (!·.2.isScalar)

theorem apart_perm (n : ℕ) (ds : List Extent) :
    (apart n ds : List (ℕ × LayoutEntry K)).Perm (placedFrom n ds) :=
  List.filter_append_perm _ _

/-- **Sorting by place restores the order**, if no scalar stands right behind an empty family. -/
theorem insertionSort_apart (h : scalarBehindEmpty ds = false) :
    (apart n ds : List (ℕ × LayoutEntry K)).insertionSort (·.1 ≤ ·.1) = placedFrom n ds := by
  induction ds generalizing n with
  | nil => rfl
  | cons d ds ih =>
    have hrest := (Bool.or_eq_false_iff.mp h).2
    have hle : ∀ q ∈ (placedFrom (n + d.slots) ds : List (ℕ × LayoutEntry K)), n ≤ q.1 :=
      fun q hq =>
      Nat.le_trans (Nat.le_add_right n d.slots) (le_of_mem_placedFrom hq)
    cases hd : d.isScalar with
    | true =>
      have hapart : (apart n (d :: ds) : List (ℕ × LayoutEntry K))
          = (n, d.entry n) :: apart (n + d.slots) ds := by
        simp [apart, placedFrom, isScalar_entry, hd]
      rw [hapart, List.insertionSort_cons_of_forall_rel _ fun q hq =>
        hle q ((apart_perm _ _).mem_iff.mp hq), ih hrest, placedFrom]
    | false =>
      have hapart : (apart n (d :: ds) : List (ℕ × LayoutEntry K))
          = (placedFrom (n + d.slots) ds).filter (·.2.isScalar) ++
            (n, d.entry n) :: (placedFrom (n + d.slots) ds).filter (!·.2.isScalar) := by
        simp [apart, placedFrom, isScalar_entry, hd]
      rw [hapart, ParamLayout.insertionSort_append_cons, ← apart, ih hrest, placedFrom]
      · intro q hq
        obtain ⟨hq, hscalar⟩ := List.mem_filter.mp hq
        exact Nat.not_le.mpr (lt_of_mem_placedFrom h hq hscalar)
      · exact fun q hq => hle q (List.mem_filter.mp hq).1

theorem exists_of_scalarBehindEmpty (h : scalarBehindEmpty ds = true) :
    ∃ before x y behind, ds = before ++ .family x 0 :: .scalar y :: behind := by
  induction ds with
  | nil => cases h
  | cons d ds ih =>
    rcases Bool.or_eq_true_iff.mp h with hfirst | hrest
    · match d, ds with
      | .family x 0, .scalar y :: behind => exact ⟨[], x, y, behind, rfl⟩
    · obtain ⟨before, x, y, behind, rfl⟩ := ih hrest
      exact ⟨d :: before, x, y, behind, rfl⟩

/-- Of two entries of a list without repetitions, one stands before the other. -/
theorem not_pair_sublist {α : Type} {a b : α} {l : List α} (h : l.Nodup) (hab : [a, b].Sublist l) :
    ¬[b, a].Sublist l := by
  induction l with
  | nil => cases hab
  | cons c l ih =>
    obtain ⟨hc, hl⟩ := List.nodup_cons.mp h
    intro hba
    cases hab with
    | cons _ hab =>
      cases hba with
      | cons _ hba => exact ih hl hab hba
      | cons_cons _ hba => exact hc (hab.subset (by simp))
    | cons_cons _ hab =>
      cases hba with
      | cons _ hba => exact hc (hba.subset (by simp))
      | cons_cons _ hba => exact hc (hab.subset (by simp))

/-- **A scalar behind an empty family is sorted before it**, and the order is lost. -/
theorem scalarBehindEmpty_of_sorted (hnodup : (ds.map name).Nodup)
    (h : ((apart n ds : List (ℕ × LayoutEntry K)).insertionSort (·.1 ≤ ·.1)).map (·.2) =
      entriesFrom n ds) :
    scalarBehindEmpty ds = false := by
  by_contra hbehind
  obtain ⟨before, x, y, behind, rfl⟩ :=
    exists_of_scalarBehindEmpty (Bool.eq_true_of_not_eq_false hbehind)
  have hplaced :
      (placedFrom n (before ++ .family x 0 :: .scalar y :: behind) : List (ℕ × LayoutEntry K))
      = placedFrom n before ++
          placedFrom (n + (before.map slots).sum) (.family x 0 :: .scalar y :: behind) :=
    placedFrom_append ..
  generalize n + (before.map slots).sum = k at hplaced
  -- both have the same place, and scalars are kept before families
  have hpair : [(k, (Extent.scalar y).entry k), (k, (Extent.family x 0).entry k)].Sublist
      (apart n (before ++ .family x 0 :: .scalar y :: behind) : List (ℕ × LayoutEntry K)) := by
    rw [apart, hplaced]
    refine (List.singleton_sublist.mpr ?_).append (List.singleton_sublist.mpr ?_)
    · simp [placedFrom, isScalar_entry, isScalar, slots]
    · simp [placedFrom, isScalar_entry, isScalar]
  have hsorted := List.pair_sublist_insertionSort (r := fun a b => a.1 ≤ b.1) (Nat.le_refl k) hpair
  have hreversed := (hsorted.map (·.2)).map LayoutEntry.name
  rw [h, map_name_entriesFrom] at hreversed
  have hdeclared : [x, y].Sublist ((before ++ .family x 0 :: .scalar y :: behind).map name) :=
    List.IsInfix.sublist ⟨before.map name, behind.map name, by simp [name]⟩
  exact not_pair_sublist hnodup hdeclared hreversed

end Extent

/-! ## Parameters -/

/-- **What a parameter declares.** -/
def Expr.extent? : Expr K → Option Extent
  | .symbol x => some (.scalar x)
  | .indexed s => some (.family s.base (slots (.indexed s : Expr K)))
  | _ => none

namespace ParamLayout

open Extent

variable {l l' : ParamLayout} {params : List (Expr K)} {e : Expr K} {ds : List Extent}

/-- **What a layout keeps of declarations**: their places, scalars and families apart. -/
structure Keeps [Literal K] (l : ParamLayout) (params : List (Expr K)) (ds : List Extent) :
    Prop where
  declared : params.map Expr.extent? = ds.map some
  size : l.size = (ds.map slots).sum
  scalars : l.scalars.map (fun q => (q.2, .scalar q.1 q.2))
    = (placedFrom 0 ds : List (ℕ × LayoutEntry K)).filter (·.2.isScalar)
  families : l.families.map (fun f => (f.start, .family f.base (.ofInt f.start) (.ofInt f.size)))
    = (placedFrom 0 ds : List (ℕ × LayoutEntry K)).filter (!·.2.isScalar)

variable [Literal K]

theorem Keeps.entries (h : l.Keeps params ds) :
    (l.entries : List (LayoutEntry K)) = ((apart 0 ds).insertionSort (·.1 ≤ ·.1)).map (·.2) := by
  rw [← sortByPlace_eq, apart, ← h.scalars, ← h.families]
  rfl

/-- Different names are declared. -/
theorem Keeps.nodup (h : l.Keeps params ds) (hplaces : l.Places params) : (ds.map name).Nodup := by
  have hnames : (apart 0 ds : List (ℕ × LayoutEntry K)).map (·.2.name)
      = l.scalars.map (·.1) ++ l.families.map (·.base) := by
    rw [apart, ← h.scalars, ← h.families, List.map_append, List.map_map, List.map_map]
    rfl
  rw [← map_name_entriesFrom (K := K) 0 ds, ← map_snd_placedFrom, List.map_map]
  refine ((apart_perm 0 ds).map _).nodup_iff.mp ?_
  rw [Function.comp_def, hnames]
  exact hplaces.nodup

/-- One more declaration is kept behind the others. -/
theorem Keeps.declare (h : l.Keeps params ds) (hl : l.declare e = .ok l') :
    ∃ d, l'.Keeps (params ++ [e]) (ds ++ [d]) := by
  rcases declare_eq_ok hl with ⟨x, rfl, -, rfl⟩ | ⟨f, rfl, -, hstart, hdims, rfl⟩
  · refine ⟨.scalar x, ?_, ?_, ?_, ?_⟩
    · simp [h.declared, Expr.extent?]
    · simp [h.size, slots]
    · simp [h.scalars, h.size, placedFrom_append, placedFrom, entry, LayoutEntry.isScalar]
    · simp [h.families, placedFrom_append, placedFrom, entry, LayoutEntry.isScalar]
  · have hslots : (Expr.indexed ⟨f.base, f.indices⟩ : Expr K).slots = f.size := prod_sizes hdims
    refine ⟨.family f.base f.size, ?_, ?_, ?_, ?_⟩
    · simp [h.declared, Expr.extent?, hslots]
    · simp [h.size, slots]
    · simp [h.scalars, placedFrom_append, placedFrom, entry, LayoutEntry.isScalar]
    · simp [h.families, hstart, h.size, placedFrom_append, placedFrom, entry, LayoutEntry.isScalar]

/-- **A layout keeps what was declared.** -/
theorem exists_keeps (h : ofParams params = .ok l) : ∃ ds, l.Keeps params ds := by
  refine foldlM_induction (fun done l => ∃ ds, l.Keeps done ds) h ⟨[], rfl, rfl, rfl, rfl⟩ ?_
  rintro done l e l' ⟨ds, hkeeps⟩ hl
  obtain ⟨d, hkeeps⟩ := hkeeps.declare hl
  exact ⟨ds ++ [d], hkeeps⟩

theorem params_generateIndexed {system : EquationSystem K} {options : Options} {p : Procedure K}
    (h : ofParams params = .ok l) (hp : generateIndexed system params options = .ok p) :
    p.params = l.entries := by
  obtain ⟨g, hlead, -⟩ := generateIndexed_stages hp
  obtain rfl := Except.ok.inj (h.symm.trans hlead.layout)
  rw [hlead.procedure]

theorem params_generateFlat {rhs lhs : List (Expr K)} {time : Option String} {options : Options}
    {p : Procedure K} (h : ofParams params = .ok l)
    (hp : generateFlat rhs lhs params time options = .ok p) :
    p.params = l.entries := by
  rw [generateFlat] at hp
  split at hp
  · cases hp
  · obtain ⟨states, -, hp⟩ := ok_of_bind hp
    obtain ⟨⟨⟩, -, hp⟩ := ok_of_bind hp
    obtain ⟨layout, hlayout, hp⟩ := ok_of_bind hp
    obtain ⟨names, -, hp⟩ := ok_of_bind hp
    obtain ⟨⟨body, n⟩, -, hp⟩ := ok_of_bind hp
    obtain rfl := Except.ok.inj (h.symm.trans hlayout)
    rw [(finishProcedure_eq_ok hp).1]

/-- **Parameters are reported as they are declared, unless a scalar stands right behind an empty
family.**  There is one entry for each parameter in any case, with its name, its place and its size,
and the places fill the array; but only without such a scalar is the order that of the declarations.
Both generators report the layout as it is.  Sizes and slots are natural numbers, and do not
overflow. -/
theorem reported_iff (h : ofParams params = .ok l) :
    ∃ ds, params.map Expr.extent? = ds.map some ∧ l.size = (ds.map slots).sum ∧
      (l.entries : List (LayoutEntry K)).Perm (entriesFrom 0 ds) ∧
      ((l.entries : List (LayoutEntry K)) = entriesFrom 0 ds ↔ scalarBehindEmpty ds = false) ∧
      (∀ system options p, generateIndexed system params options = .ok p → p.params = l.entries) ∧
      ∀ rhs lhs time options p, generateFlat rhs lhs params time options = .ok p →
        p.params = l.entries := by
  obtain ⟨ds, hkeeps⟩ := exists_keeps h
  refine ⟨ds, hkeeps.declared, hkeeps.size, ?_, ?_, fun _ _ _ => params_generateIndexed h,
    fun _ _ _ _ _ => params_generateFlat h⟩
  · rw [hkeeps.entries, ← map_snd_placedFrom]
    exact ((List.perm_insertionSort _ _).trans (apart_perm 0 ds)).map _
  · rw [hkeeps.entries]
    refine ⟨scalarBehindEmpty_of_sorted (hkeeps.nodup (places_ofParams h)), fun hbehind => ?_⟩
    rw [insertionSort_apart hbehind, map_snd_placedFrom]

/-- Scalars and families in turns, the family without members before another family. -/
def orderedParams : List (Expr ℚ) := [
  .symbol "x",
  .indexed ⟨"J", [⟨"i", .literal (-1), .literal 0⟩, ⟨"j", .literal 1, .literal 2⟩]⟩,
  .indexed ⟨"w", [⟨"k", .literal 3, .literal 2⟩]⟩,
  .indexed ⟨"c", []⟩,
  .symbol "y"]

theorem reported_orderedParams :
    ∃ l, ofParams orderedParams = .ok l ∧ (l.entries : List (LayoutEntry ℚ)) =
    [.scalar "x" 0, .family "J" (.ofInt 1) (.ofInt 4), .family "w" (.ofInt 5) (.ofInt 0),
      .family "c" (.ofInt 5) (.ofInt 1), .scalar "y" 6] := by
  obtain ⟨l, hl⟩ : ∃ l, ofParams orderedParams = .ok l := ⟨_, rfl⟩
  obtain ⟨ds, hdeclared, -, -, hreported, -, -⟩ := reported_iff hl
  obtain rfl : [.scalar "x", .family "J" 4, .family "w" 0, .family "c" 1, .scalar "y"] = ds :=
    List.map_injective_iff.mpr (Option.some_injective _) hdeclared
  exact ⟨l, hl, hreported.mpr rfl⟩

/-- A family without members, and a scalar behind it. -/
def emptyFirst : List (Expr ℚ) := [.indexed ⟨"J", [⟨"i", .literal 1, .literal 0⟩]⟩, .symbol "g"]

/-- **A scalar is reported before the empty family that is declared before it.**  The family seems
to start inside of the scalar. -/
theorem scalar_reported_first : ∃ p, EquationSystem.generate
      ⟨[.of (.scalar "x") (.mul [.symbol "g", .symbol "x"])], none⟩ emptyFirst {} = .ok p ∧
    p.params = [.scalar "g" 0, .family "J" (.ofInt 0) (.ofInt 0)] ∧
    emptyFirst.map Expr.extent? = [.family "J" 0, .scalar "g"].map some ∧
    p.params ≠ entriesFrom 0 [.family "J" 0, .scalar "g"] := by
  refine ⟨_, rfl, rfl, rfl, fun h => ?_⟩
  cases h

end ParamLayout

/-! ## States -/

namespace Index

variable {i : Index} {lo hi : ℤ}

/-- Literal bounds, both of them together below a limit. -/
def BoundedBy (limit : ℕ) (i : Index) : Prop :=
  ∃ lo hi, i.lower = .literal lo ∧ i.upper = .literal hi ∧ lo.natAbs + hi.natAbs < limit

/-- An upper bound that is at most one below the lower one, if both are literal. -/
def Proper (i : Index) : Prop :=
  ∀ lo hi, i.lower = .literal lo → i.upper = .literal hi → lo ≤ hi + 1

theorem size?_literal (hlower : i.lower = .literal lo) (hupper : i.upper = .literal hi) :
    i.size? = some (hi - lo + 1).toNat := by
  rw [size?, hlower, hupper]
  rfl

theorem proper_iff (hlower : i.lower = .literal lo) (hupper : i.upper = .literal hi) :
    i.Proper ↔ lo ≤ hi + 1 := by
  simp [Proper, hlower, hupper]

end Index

section States

open Extent

variable [Literal K] {limit : ℕ}

theorem ParamLayout.rangeSize_literal (hK : ExactIntegersTo K limit) (l : ParamLayout) {i : Index}
    {lo hi : ℤ} (hlower : i.lower = .literal lo) (hupper : i.upper = .literal hi)
    (hlimit : lo.natAbs + hi.natAbs < limit) : (l.rangeSize i : Node K) = .ofInt (hi - lo + 1) := by
  have hfold : (l.rangeSize i : Node K)
      = .const (Literal.add (Literal.ofInt hi)
          (Literal.sub (Literal.ofInt 1) (Literal.ofInt lo))) := by
    rw [rangeSize, hlower, hupper]
    rfl
  have hsum : hi - lo + 1 = hi + (1 - lo) := by omega
  rw [hfold, hK.sub (by omega) (by omega) (by omega), hK.add (by omega) (by omega) (by omega), hsum,
    Node.ofInt]

/-- The entries of families. -/
def familyEntries (fs : List (StateFamily K)) : List (LayoutEntry K) :=
  fs.map fun f => .family f.base f.start f.size

/-- What families declare. -/
def familyExtents (fs : List (Equation K × Index)) : List Extent :=
  fs.map fun q => .family q.1.lhs.state (q.2.size?.getD 0)

/-- Families are reported by their names and in their order, whatever their ranges. -/
theorem map_name_familyEntries (l : ParamLayout) (start : Node K) (fs : List (Equation K × Index)) :
    (familyEntries (StateLayout.placeFamilies l start fs)).map LayoutEntry.name
      = (familyExtents fs).map Extent.name := by
  induction fs generalizing start with
  | nil => rfl
  | cons q fs ih => exact congrArg (q.1.lhs.state :: ·) (ih _)

/-- **Families are reported with their sites** exactly if none of their ranges is improper. -/
theorem familyEntries_iff (hK : ExactIntegersTo K limit) (l : ParamLayout) {n : ℕ}
    {fs : List (Equation K × Index)} (hbounds : ∀ q ∈ fs, q.2.BoundedBy limit)
    (hlimit : n + ((familyExtents fs).map slots).sum ≤ limit) :
    familyEntries (StateLayout.placeFamilies l (.ofInt n) fs) = entriesFrom n (familyExtents fs) ↔
      ∀ q ∈ fs, q.2.Proper := by
  induction fs generalizing n with
  | nil => exact iff_of_true rfl (List.forall_mem_nil _)
  | cons q fs ih =>
    obtain ⟨e, i⟩ := q
    obtain ⟨⟨lo, hi, hlower, hupper, hlt⟩, hrest⟩ := List.forall_mem_cons.mp hbounds
    have hplaced : familyEntries (StateLayout.placeFamilies l (.ofInt n) ((e, i) :: fs))
        = .family e.lhs.state (.ofInt n) (.ofInt (hi - lo + 1)) ::
          familyEntries
            (StateLayout.placeFamilies l ((Node.ofInt n).plus (.ofInt (hi - lo + 1))) fs) := by
      rw [StateLayout.placeFamilies, l.rangeSize_literal hK hlower hupper hlt]
      rfl
    have hdeclared : familyExtents ((e, i) :: fs)
        = .family e.lhs.state (hi - lo + 1).toNat :: familyExtents fs := by
      simp [familyExtents, Index.size?_literal hlower hupper]
    rw [hdeclared, List.map_cons, List.sum_cons, slots] at hlimit
    rw [hplaced, hdeclared, entriesFrom, entry, slots, List.forall_mem_cons,
      Index.proper_iff hlower hupper, List.cons_eq_cons]
    by_cases hproper : lo ≤ hi + 1
    · obtain ⟨size, hsize⟩ := Int.eq_ofNat_of_zero_le (show 0 ≤ hi - lo + 1 by omega)
      rw [hsize, Int.toNat_natCast] at hlimit ⊢
      have hnext : (Node.ofInt n).plus (.ofInt size) = (.ofInt (n + size : ℕ) : Node K) :=
        congrArg Node.const (hK.add (by omega) (by omega) (by omega))
      rw [hnext, ih hrest (by omega)]
      exact and_congr_left fun _ => iff_of_true rfl hproper
    · refine iff_of_false (fun h => ?_) fun h => hproper h.1
      obtain ⟨-, -, hsize⟩ := LayoutEntry.family.inj h.1
      have := hK.inj (by omega) (by omega) (Node.const.inj hsize)
      omega

end States

/-- What targets declare: scalars in their order, and then families in theirs. -/
def Target.extents (targets : List Target) : List Extent :=
  (targets.filter (·.indices.isEmpty)).map (fun t => .scalar t.state) ++
    targets.filterMap fun t => t.indices.head?.map fun i => .family t.state (i.size?.getD 0)

namespace Split.Divides

variable {split : Split K} {equations : List (Equation K)}

theorem extents_eq (h : split.Divides equations) : Target.extents (equations.map (·.lhs))
    = split.scalars.map (fun e => .scalar e.lhs.state) ++ familyExtents split.families := by
  rw [h.scalars, h.families, familyExtents, List.map_filterMap, Target.extents, List.filter_map,
    List.filterMap_map, List.map_map]
  simp [Function.comp_def]

theorem scalarExtents_eq (h : split.Divides equations) :
    (Target.extents (equations.map (·.lhs))).filter Extent.isScalar
      = split.scalars.map fun e => .scalar e.lhs.state := by
  have hfamilies : (familyExtents split.families).filter Extent.isScalar = [] := by
    rw [familyExtents, List.filter_map, List.map_eq_nil_iff, List.filter_eq_nil_iff]
    exact fun _ _ => Bool.false_ne_true
  rw [h.extents_eq, List.filter_append, hfamilies, List.append_nil, List.filter_eq_self,
    List.forall_mem_map]
  exact fun _ _ => rfl

/-- The indices of families are those of targets. -/
theorem forall_index_iff (h : split.Divides equations) {P : Index → Prop} :
    (∀ q ∈ split.families, P q.2) ↔ ∀ t ∈ equations.map (·.lhs), ∀ i ∈ t.indices, P i := by
  have hmem : ∀ q, q ∈ split.families ↔ q.1 ∈ equations ∧ q.1.lhs.indices.head? = some q.2 := by
    rintro ⟨e, i⟩
    rw [h.families, List.mem_filterMap]
    simp
  rw [List.forall_mem_map]
  constructor
  · intro hall e he i hi
    have hq := (hmem (e, _)).mpr ⟨he, List.head?_eq_some_head (List.ne_nil_of_mem hi)⟩
    rw [h.own _ hq, List.mem_singleton] at hi
    rw [hi]
    exact hall _ hq
  · intro hall q hq
    refine hall q.1 ((hmem q).mp hq).1 q.2 ?_
    rw [h.own q hq]
    exact List.mem_singleton_self q.2

end Split.Divides

namespace EquationSystem

open Extent

/-- **What a system declares.** -/
def extents (system : EquationSystem K) : List Extent :=
  Target.extents (system.equations.map (·.lhs))

variable [Literal K] {limit : ℕ} {system : EquationSystem K} {params : List (Expr K)}
  {options : Options}
  {p : Procedure K}

theorem scalarEntries_eq (n : ℕ) (names : List String) :
    (names.zipIdx n).map (fun q => .scalar q.1 q.2)
      = (entriesFrom n (names.map .scalar) : List (LayoutEntry K)) := by
  induction names generalizing n with
  | nil => rfl
  | cons name names ih => rw [List.zipIdx_cons, List.map_cons, ih, List.map_cons, entriesFrom]; rfl

/-- **States are reported with the number of their sites, unless the range of a family is
improper**, that is, its upper bound is below the lower one by two or more.  Names, order and the
slots of scalars are right in any case. -/
theorem counted_iff (hK : ExactIntegersTo K limit)
    (hbounds : ∀ e ∈ system.equations, ∀ i ∈ e.lhs.indices, i.BoundedBy limit)
    (hlimit : (system.extents.map Extent.slots).sum ≤ limit)
    (h : generateIndexed system params options = .ok p) :
    p.states.map LayoutEntry.name = system.extents.map Extent.name ∧
      entriesFrom 0 (system.extents.filter Extent.isScalar) <+: p.states ∧
      (p.states = entriesFrom 0 system.extents ↔
        ∀ e ∈ system.equations, ∀ i ∈ e.lhs.indices, i.Proper) := by
  obtain ⟨g, hlead, -⟩ := generateIndexed_stages h
  have hlhs : g.equations.map (·.lhs) = system.equations.map (·.lhs) := by
    have hpairs := congrArg (List.map Prod.fst) hlead.equations
    rwa [List.map_map, List.map_map] at hpairs
  have hextents : system.extents
      = g.split.scalars.map (fun e => .scalar e.lhs.state) ++ familyExtents g.split.families := by
    rw [extents, ← hlhs]
    exact hlead.divides.extents_eq
  have hslots : ((g.split.scalars.map fun e => Extent.scalar e.lhs.state).map Extent.slots).sum
      = g.split.scalars.length := by
    simp [Extent.slots, Function.comp_def]
  have hstates : p.states = entriesFrom 0 (g.split.scalars.map fun e => .scalar e.lhs.state) ++
      familyEntries (StateLayout.placeFamilies g.layout (.ofInt g.split.scalars.length)
          g.split.families) := by
    have hscalars := scalarEntries_eq (K := K) 0 (g.split.scalars.map (·.lhs.state))
    rw [List.map_map] at hscalars
    rw [hlead.procedure]
    exact congrArg (· ++ _) hscalars
  rw [← List.forall_mem_map (f := Equation.lhs) (P := fun t => ∀ i ∈ t.indices, i.BoundedBy limit),
    ← hlhs, ← hlead.divides.forall_index_iff] at hbounds
  rw [hextents, List.map_append, List.sum_append, hslots] at hlimit
  rw [hstates, hextents]
  refine ⟨?_, ?_, ?_⟩
  · rw [List.map_append, List.map_append, map_name_entriesFrom, map_name_familyEntries]
  · rw [← hextents, extents, ← hlhs, hlead.divides.scalarExtents_eq]
    exact List.prefix_append ..
  · rw [entriesFrom_append, List.append_cancel_left_eq, hslots, Nat.zero_add,
      familyEntries_iff hK g.layout hbounds hlimit, hlead.divides.forall_index_iff, hlhs,
      List.forall_mem_map]

/-- Two families over a range with literal bounds, and a scalar state between them. -/
def spread (lo hi : ℤ) : EquationSystem Floating where
  equations := [.of (.indexed ⟨"n", [⟨"i", .literal lo, .literal hi⟩]⟩) (.symbol "x"),
    .of (.scalar "x") (.symbol "x"),
    .of (.indexed ⟨"m", [⟨"k", .literal lo, .literal hi⟩]⟩)
    (.indexed ⟨"n", [⟨"k", .literal lo, .literal hi⟩]⟩)]
  time := none

theorem counted_spread : ∃ p q, generateIndexed (spread 2 4) [] {} = .ok p ∧
    p.states = [.scalar "x" 0, .family "n" (.ofInt 1) (.ofInt 3),
        .family "m" (.ofInt 4) (.ofInt 3)] ∧
    generateIndexed (spread 2 1) [] {} = .ok q ∧
    q.states = [.scalar "x" 0, .family "n" (.ofInt 1) (.ofInt 0),
        .family "m" (.ofInt 1) (.ofInt 0)] := by
  have hspread (lo hi : ℤ) (hbounds : lo.natAbs + hi.natAbs < 2 ^ 53 - 1)
      (hlimit : ((spread lo hi).extents.map Extent.slots).sum ≤ 2 ^ 53 - 1) (hproper : lo ≤ hi + 1)
      (hok : (generateIndexed (spread lo hi) [] {}).isOk = true) :
      ∃ p, generateIndexed (spread lo hi) [] {} = .ok p ∧
          p.states = entriesFrom 0 (spread lo hi).extents := by
    cases hp : generateIndexed (spread lo hi) [] {} with
    | error =>
      rw [hp] at hok
      cases hok
    | ok p =>
      refine ⟨p, rfl, (counted_iff Floating.exactSitesTo.toExactIntegersTo ?_ hlimit hp).2.2.mpr ?_⟩
      · simpa [spread, Equation.of, Target.indices, Index.BoundedBy] using hbounds
      · simp [spread, Equation.of, Target.indices, Index.Proper, hproper]
  obtain ⟨p, hp, hstates⟩ := hspread 2 4 (by decide) (by decide) (by decide) (by decide +kernel)
  obtain ⟨q, hq, hstates'⟩ := hspread 2 1 (by decide) (by decide) (by decide) (by decide +kernel)
  exact ⟨p, q, hp, hstates, hq, hstates'⟩

/-- A scalar state, and a family from five to one. -/
def backwards : EquationSystem Floating where
  equations := [.of (.scalar "x") (.symbol "x"),
    .of (.indexed ⟨"n", [⟨"i", .literal 5, .literal 1⟩]⟩)
    (.indexed ⟨"n", [⟨"i", .literal 5, .literal 1⟩]⟩)]
  time := none

/-- **From five to one there are minus three sites**, as it is reported. -/
theorem negative_size_reported : ∃ p, generateIndexed backwards [] {} = .ok p ∧
    p.states = [.scalar "x" 0, .family "n" (.ofInt 1) (.ofInt (-3))] ∧
    backwards.extents = [.scalar "x", .family "n" 0] ∧
      p.states ≠ entriesFrom 0 backwards.extents := by
  have hsize : (ParamLayout.empty.rangeSize ⟨"i", .literal 5, .literal 1⟩ : Node Floating) =
      .ofInt (-3) :=
    ParamLayout.rangeSize_literal Floating.exactSitesTo.toExactIntegersTo _ rfl rfl
      (show (5 : ℤ).natAbs + (1 : ℤ).natAbs < 2 ^ 53 - 1 by decide)
  obtain ⟨p, hp, hstates⟩ : ∃ p, generateIndexed backwards [] {} = .ok p ∧ p.states
      = [.scalar "x" 0,
          .family "n" (.ofInt 1) (ParamLayout.empty.rangeSize ⟨"i", .literal 5, .literal 1⟩)] :=
    ⟨_, rfl, rfl⟩
  rw [hsize] at hstates
  refine ⟨p, hp, hstates, by decide, fun h => ?_⟩
  rw [hstates] at h
  obtain ⟨-, -, hsizes⟩ := LayoutEntry.family.inj (List.cons.inj (List.cons.inj h).2).1
  exact absurd (Floating.exactSitesTo.inj (by decide) (by decide) (Node.const.inj hsizes))
    (by decide)

end EquationSystem

end Fluxion
