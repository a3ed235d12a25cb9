import Fluxion.Proofs.Layout.ParamPlaces
import Fluxion.Proofs.Layout.Relabelling
import Fluxion.Proofs.Layout.Subscripts
import Fluxion.Proofs.Numbers.FloatingIntegers
import Mathlib.Data.Int.ConditionallyCompleteOrder
import Mathlib.Data.List.Lex
import Mathlib.Data.List.Nodup
import Mathlib.Data.Set.Function

/-!
# Proofs/Layout/ParamBijection — every slot of the parameter array is that of one parameter

A *cell* is what takes one slot of the parameter array: a scalar parameter or a member of a family.
With all cells in order, parameter by parameter and inside a family by the lexicographic order of
the sites,

    cells.map place? = 0, 1, …, size - 1                     (`ParamLayout.map_place?_cells`)

which has everything in it: cells have different slots, no slot is left over, and both orders are
that of the slots.  For a family this is the enumeration of numbers with mixed radices
(`map_rowMajor_members`); dimensions may be empty, and there may be none of them.

Sizes and slots are natural numbers here, whatever their size.  The access to a member, on the other
hand, computes its slot with literals, and is the access to the slot as long as literals count that
far.
-/

namespace Fluxion

variable {K : Type}

/-! ## Cells -/

/-- A scalar parameter, or a member of a family of parameters. -/
inductive ParamCell where
  | scalar (name : String)
  | member (base : String) (sites : List ℤ)
  deriving DecidableEq

/-- **A site between literal bounds.** -/
def Index.Contains (i : Index) (m : ℤ) : Prop :=
  ∃ lo hi, i.lower = .literal lo ∧ i.upper = .literal hi ∧ lo ≤ m ∧ m ≤ hi

/-- The sites of a dimension with a lower bound and a size, in order. -/
def dimSites (d : ℤ × ℕ) : List ℤ := (List.range d.2).map fun k : ℕ => d.1 + k

/-- The sites of an index with literal bounds. -/
def Index.sites (i : Index) : List ℤ := ((ParamLayout.dim? i).map dimSites).getD []

theorem mem_dimSites {d : ℤ × ℕ} {m : ℤ} : m ∈ dimSites d ↔ d.1 ≤ m ∧ m < d.1 + d.2 := by
  rw [dimSites, List.mem_map]
  constructor
  · rintro ⟨k, hk, rfl⟩
    have := List.mem_range.mp hk
    omega
  · intro hm
    exact ⟨(m - d.1).toNat, List.mem_range.mpr (by omega), by omega⟩

theorem Index.mem_sites {i : Index} {m : ℤ} : m ∈ i.sites ↔ i.Contains m := by
  obtain ⟨label, lower, upper⟩ := i
  cases lower with
  | symbol x => simp [sites, Contains, ParamLayout.dim?, Bound.literal?]
  | literal lo =>
    cases upper with
    | symbol x => simp [sites, Contains, ParamLayout.dim?, Index.size?, Bound.literal?]
    | literal hi =>
      have hsites : sites ⟨label, .literal lo, .literal hi⟩ = dimSites (lo, (hi - lo + 1).toNat) :=
        rfl
      rw [hsites, mem_dimSites]
      constructor
      · rintro ⟨hlow, hhigh⟩
        exact ⟨lo, hi, rfl, rfl, hlow, by dsimp only at hlow hhigh; omega⟩
      · rintro ⟨_, _, ⟨rfl⟩, ⟨rfl⟩, hlow, hhigh⟩
        exact ⟨hlow, by dsimp only; omega⟩

/-- The members over some indices, in lexicographic order. -/
theorem mem_tuples_sites {indices : List Index} {ms : List ℤ} :
    ms ∈ tuples (indices.map Index.sites) ↔ List.Forall₂ Index.Contains indices ms := by
  rw [mem_tuples, List.forall₂_map_right_iff]
  simp only [Index.mem_sites]
  exact ⟨List.Forall₂.flip, List.Forall₂.flip⟩

namespace Expr

/-- **The cells that a parameter declares.** -/
def Declares : Expr K → ParamCell → Prop
  | .symbol x, .scalar y => x = y
  | .indexed s, .member base sites => s.base = base ∧ List.Forall₂ Index.Contains s.indices sites
  | _, _ => False

/-- How many slots a parameter takes: one, or the product of the sizes of its dimensions. -/
def slots : Expr K → ℕ
  | .indexed s => (s.indices.map fun i => i.size?.getD 0).prod
  | _ => 1

/-- The cells of a parameter in their order. -/
def cells : Expr K → List ParamCell
  | .symbol x => [.scalar x]
  | .indexed s => (tuples (s.indices.map Index.sites)).map (.member s.base)
  | _ => []

theorem mem_cells {e : Expr K} {c : ParamCell} : c ∈ e.cells ↔ e.Declares c := by
  cases e with
  | symbol x => cases c <;> simp [cells, Declares, eq_comm]
  | indexed s => cases c <;> simp [cells, Declares, mem_tuples_sites, and_comm]
  | _ => simp [cells, Declares]

end Expr

/-! ## Numbers with mixed radices -/

/-- The members of a family in lexicographic order. -/
def members (dims : List (ℤ × ℕ)) : List (List ℤ) := tuples (dims.map dimSites)

theorem mem_members {dims : List (ℤ × ℕ)} {ms : List ℤ} : ms ∈ members dims ↔
    List.Forall₂ (fun (d : ℤ × ℕ) m => d.1 ≤ m ∧ m < d.1 + d.2) dims ms := by
  rw [members, mem_tuples, List.forall₂_map_right_iff]
  simp only [mem_dimSites]
  exact ⟨List.Forall₂.flip, List.Forall₂.flip⟩

theorem range_mul (n s : ℕ) :
    ((List.range n).flatMap fun k => (List.range s).map (k * s + ·)) = List.range (n * s) := by
  induction n with
  | zero => simp
  | succ n ih => rw [List.range_succ, List.flatMap_append, ih, Nat.succ_mul, List.range_add]; simp

/-- **The offsets of all members are all the numbers below the size of the family**, in order. -/
theorem map_rowMajor_members (dims : List (ℤ × ℕ)) :
    (members dims).map (rowMajor dims)
      = (List.range ((dims.map (·.2)).foldr (· * ·) 1)).map fun k : ℕ => (k : ℤ) := by
  induction dims with
  | nil => rfl
  | cons d dims ih =>
    have hrow (k : ℕ) : ((members dims).map ((d.1 + k) :: ·)).map (rowMajor (d :: dims))
        = ((List.range ((dims.map (·.2)).foldr (· * ·) 1)).map
          (k * (dims.map (·.2)).foldr (· * ·) 1 + ·)).map fun k : ℕ => (k : ℤ) := by
      have hentry : rowMajor (d :: dims) ∘ ((d.1 + k) :: ·)
          = (fun r => (k : ℤ) * ((dims.map (·.2)).foldr (· * ·) 1 : ℕ) + r) ∘ rowMajor dims := by
        funext ms
        simp [rowMajor]
      rw [List.map_map, hentry, ← List.map_map, ih, List.map_map, List.map_map]
      exact List.map_congr_left fun r _ => by simp
    change List.map _ ((dimSites d).flatMap fun a => (members dims).map (a :: ·)) = _
    rw [dimSites, List.flatMap_map, List.map_flatMap]
    simp only [hrow]
    rw [← List.map_flatMap, range_mul]
    rfl

/-- Members whose sites are in lexicographic order have offsets in this order. -/
theorem rowMajor_lt {dims : List (ℤ × ℕ)} {ms ms' : List ℤ}
    (h : List.Forall₂ (fun (d : ℤ × ℕ) m => d.1 ≤ m ∧ m < d.1 + d.2) dims ms)
    (h' : List.Forall₂ (fun (d : ℤ × ℕ) m => d.1 ≤ m ∧ m < d.1 + d.2) dims ms') (hlt : ms < ms') :
    rowMajor dims ms < rowMajor dims ms' := by
  induction h generalizing ms' with
  | nil =>
    cases h'
    exact absurd hlt (lt_irrefl _)
  | @cons d m dims ms hm hms ih =>
    obtain ⟨m', ms', hm', hms', rfl⟩ := List.forall₂_cons_left_iff.mp h'
    obtain ⟨-, hhigh⟩ := rowMajor_bounds hms
    obtain ⟨hlow, -⟩ := rowMajor_bounds hms'
    rw [rowMajor, rowMajor]
    generalize (dims.map (·.2)).foldr (· * ·) 1 = size at hhigh ⊢
    rcases List.cons_lt_cons_iff.mp hlt with hfirst | ⟨rfl, hrest⟩
    · calc (m - d.1) * (size : ℤ) + rowMajor dims ms
          < (m - d.1) * size + size := by omega
        _ = (m - d.1 + 1) * size := by ring
        _ ≤ (m' - d.1) * size := by gcongr; omega
        _ ≤ (m' - d.1) * size + rowMajor dims ms' := by omega
    · have := ih hms' hrest
      omega

/-! ## Layouts -/

/-- **The place of a member**: behind the start, each site counts its distance from the lower bound
as often as the stride says. -/
def ParamFamily.place (f : ParamFamily) (ms : List ℤ) : ℤ :=
  f.start + (List.zipWith (fun (d : (ℤ × ℕ) × ℕ) m => (m - d.1.1) * d.2)
    (f.dims.zip f.strides) ms).sum

theorem ParamFamily.place_eq (f : ParamFamily) (ms : List ℤ) :
    f.place ms = f.start + rowMajor f.dims ms := by
  have hsum (dims : List (ℤ × ℕ)) (ms : List ℤ) :
      (List.zipWith (fun (d : (ℤ × ℕ) × ℕ) m => (m - d.1.1) * d.2)
        (dims.zip (stridesOf (dims.map (·.2)))) ms).sum = rowMajor dims ms := by
    induction dims generalizing ms with
    | nil => rfl
    | cons d dims ih =>
      cases ms with
      | nil => rfl
      | cons m ms => simp [rowMajor, stridesOf, ih]
  rw [place, strides, hsum]

namespace ParamLayout

variable {l l' : ParamLayout} {params : List (Expr K)} {e : Expr K} {c : ParamCell} {k : ℤ}

/-- **The place of a cell** in the parameter array. -/
def place? (l : ParamLayout) : ParamCell → Option ℤ
  | .scalar name => (l.slot? name).map fun k : ℕ => (k : ℤ)
  | .member base ms => (l.families.find? (·.base == base)).map (·.place ms)

/-- One more parameter leaves the cells of the others where they are. -/
theorem place?_declare (hl : l.declare e = .ok l') (hc : l.place? c = some k) :
    l'.place? c = some k := by
  rcases declare_eq_ok hl with ⟨name, rfl, hname, rfl⟩ | ⟨f, rfl, hname, hstart, hdims, rfl⟩
  · cases c with
    | scalar x =>
      obtain ⟨n, hn, rfl⟩ := Option.map_eq_some_iff.mp hc
      rw [slot?] at hn
      rw [place?, slot?, List.lookup_append, hn]
      rfl
    | member base ms => exact hc
  · cases c with
    | scalar x => exact hc
    | member base ms =>
      obtain ⟨f', hf', rfl⟩ := Option.map_eq_some_iff.mp hc
      rw [place?, List.find?_append, hf']
      rfl

/-- The sites of indices are those of the dimensions they have. -/
theorem tuples_sites {indices : List Index} {dims : List (ℤ × ℕ)}
    (h : List.Forall₂ (fun i d => dim? i = some d) indices dims) :
    tuples (indices.map Index.sites) = members dims := by
  have hsites : indices.map Index.sites = dims.map dimSites := by
    induction h with
    | nil => rfl
    | cons hd _ ih =>
      rw [List.map_cons, List.map_cons, ih, Index.sites, hd]
      rfl
  rw [hsites, members]

theorem prod_sizes {indices : List Index} {dims : List (ℤ × ℕ)}
    (h : List.Forall₂ (fun i d => dim? i = some d) indices dims) :
    (indices.map fun i => i.size?.getD 0).prod = (dims.map (·.2)).foldr (· * ·) 1 := by
  induction h with
  | nil => rfl
  | @cons i d _ _ hd _ ih =>
    have hsize : i.size? = some d.2 := by
      obtain ⟨lower, -, hd⟩ := Option.bind_eq_some_iff.mp hd
      obtain ⟨size, hsize, hd⟩ := Option.bind_eq_some_iff.mp hd
      rw [hsize, ← Option.some.inj hd]
    rw [List.map_cons, List.prod_cons, ih, hsize]
    rfl

/-- **The cells of one more parameter take the next slots**, in their order. -/
theorem map_place?_declare (hl : l.declare e = .ok l') :
    l'.size = l.size + e.slots ∧
      e.cells.map l'.place? = (List.range e.slots).map fun i : ℕ =>
        some ((l.size + i : ℕ) : ℤ) := by
  rcases declare_eq_ok hl with ⟨name, rfl, hname, rfl⟩ | ⟨f, rfl, hname, hstart, hdims, rfl⟩
  · have hnew : l.scalars.lookup name = none := by
      refine List.lookup_eq_none_iff.mpr fun q hq => ?_
      have hne : q.1 ≠ name :=
        fun heq => (declares_eq_false.mp hname).1 (List.mem_map.mpr ⟨q, hq, heq⟩)
      simpa using hne.symm
    refine ⟨rfl, ?_⟩
    simp [Expr.cells, Expr.slots, place?, slot?, List.lookup_append, hnew]
  · have hnew : l.families.find? (·.base == f.base) = none := by
      have hname := (declares_eq_false.mp hname).2
      simpa [List.find?_eq_none] using hname
    have hslots : (Expr.indexed ⟨f.base, f.indices⟩ : Expr K).slots = f.size := prod_sizes hdims
    refine ⟨by rw [hslots], ?_⟩
    have hplace : (place? { l with families := l.families ++ [f], size := l.size + f.size })
        ∘ .member f.base = (fun r : ℤ => some (l.size + r)) ∘ rowMajor f.dims := by
      funext ms
      simp [place?, List.find?_append, hnew, ParamFamily.place_eq, hstart]
    rw [hslots, Expr.cells, tuples_sites hdims, List.map_map, hplace, ← List.map_map,
      map_rowMajor_members, List.map_map]
    exact List.map_congr_left fun i _ => by simp

/-- **All cells, in order, take the slots from zero on.** -/
theorem map_place?_cells (h : ofParams params = .ok l) :
    l.size = (params.map Expr.slots).sum ∧
      (params.flatMap Expr.cells).map l.place? = (List.range l.size).map fun i : ℕ =>
        some (i : ℤ) := by
  refine foldlM_induction (fun done l => l.size = (done.map Expr.slots).sum ∧
    (done.flatMap Expr.cells).map l.place? = (List.range l.size).map fun i : ℕ => some (i : ℤ)) h
    ⟨rfl, rfl⟩ ?_
  intro done l e l' hdone hl
  obtain ⟨hsize, hcells⟩ := hdone
  obtain ⟨hsize', hcells'⟩ := map_place?_declare hl
  have hkept : (done.flatMap Expr.cells).map l'.place? =
      (done.flatMap Expr.cells).map l.place? := by
    refine List.map_congr_left fun c hc => ?_
    have hplace := List.mem_map_of_mem (f := l.place?) hc
    rw [hcells] at hplace
    obtain ⟨i, -, hi⟩ := List.mem_map.mp hplace
    rw [← hi]
    exact place?_declare hl hi.symm
  constructor
  · simp [hsize', hsize]
  · rw [List.flatMap_append, List.map_append, hkept, hcells, hsize', List.range_add,
      List.map_append]
    simp [hcells']

/-- Cells have different places, and every slot is the place of one. -/
theorem bijOn_place? (h : ofParams params = .ok l) :
    Set.BijOn l.place? {c | ∃ e ∈ params, e.Declares c} {k | ∃ n < l.size, k = some (n : ℤ)} := by
  have hcells := (map_place?_cells h).2
  have hmem (c : ParamCell) : c ∈ params.flatMap Expr.cells ↔ ∃ e ∈ params, e.Declares c := by
    simp [Expr.mem_cells]
  refine ⟨fun c hc => ?_, fun c hc c' hc' heq => ?_, ?_⟩
  · have hplace := List.mem_map_of_mem (f := l.place?) ((hmem c).mpr hc)
    rw [hcells] at hplace
    obtain ⟨n, hn, heq⟩ := List.mem_map.mp hplace
    exact ⟨n, List.mem_range.mp hn, heq.symm⟩
  · have hnodup : ((params.flatMap Expr.cells).map l.place?).Nodup := by
      rw [hcells]
      refine List.Nodup.map (fun m n hmn => ?_) List.nodup_range
      simpa using hmn
    exact List.inj_on_of_nodup_map hnodup ((hmem c).mpr hc) ((hmem c').mpr hc') heq
  · rintro _ ⟨n, hn, rfl⟩
    have hslot : some (n : ℤ) ∈ (params.flatMap Expr.cells).map l.place? := by
      rw [hcells]
      exact List.mem_map.mpr ⟨n, List.mem_range.mpr hn, rfl⟩
    obtain ⟨c, hc, heq⟩ := List.mem_map.mp hslot
    exact ⟨c, (hmem c).mp hc, heq⟩

/-- Cells of a parameter come before those of a later one. -/
theorem pairwise_place? (h : ofParams params = .ok l) :
    params.Pairwise fun e e' => ∀ c c', e.Declares c → e'.Declares c' →
      ∀ k ∈ l.place? c, ∀ k' ∈ l.place? c', k < k' := by
  have hsorted : ((params.flatMap Expr.cells).map l.place?).Pairwise
      fun x y => ∀ k ∈ x, ∀ k' ∈ y, k < k' := by
    rw [(map_place?_cells h).2, List.pairwise_map]
    refine List.pairwise_lt_range.imp fun hlt => ?_
    simpa using hlt
  rw [List.pairwise_map, List.pairwise_flatMap] at hsorted
  refine hsorted.2.imp fun hlt c c' hc hc' => ?_
  exact hlt c (Expr.mem_cells.mpr hc) c' (Expr.mem_cells.mpr hc')

/-- Members of a family are placed in the lexicographic order of their sites. -/
theorem strictMonoOn_place {f : ParamFamily}
    (hdims : List.Forall₂ (fun i d => dim? i = some d) f.indices f.dims) :
    StrictMonoOn f.place {ms | List.Forall₂ Index.Contains f.indices ms} := by
  intro ms hms ms' hms' hlt
  rw [Set.mem_ofPred_eq, ← mem_tuples_sites, tuples_sites hdims, mem_members] at hms hms'
  rw [f.place_eq, f.place_eq]
  exact Int.add_lt_add_left (rowMajor_lt hms hms' hlt) _

end ParamLayout

/-! ## Constant sites -/

/-- **The subscript of a member at constant sites is a constant**, as long as literals count that
far.  No offset is negative, so all places on the way are below the last one. -/
theorem ParamFamily.subscript_ofInt [Literal K] {limit : ℕ} (hK : ExactIntegersTo K limit)
    {dims : List (ℤ × ℕ)} {ms : List ℤ}
    (h : List.Forall₂ (fun (d : ℤ × ℕ) m => d.1 ≤ m ∧ m < d.1 + d.2) dims ms)
    (hlowers : ∀ d ∈ dims, d.1.natAbs ≤ limit) (hsites : ∀ m ∈ ms, m.natAbs ≤ limit)
    (hsize : (dims.map (·.2)).foldr (· * ·) 1 ≤ limit) {a : ℕ}
    (hplace : a + rowMajor dims ms ≤ limit) :
    (subscript dims (.ofInt a) (ms.map .ofInt) : Node K) = .ofInt (a + rowMajor dims ms) := by
  induction h generalizing a with
  | nil => exact congrArg Node.ofInt (Int.add_zero a).symm
  | @cons d m dims ms hm hms ih =>
    obtain ⟨hlower, hlowers⟩ := List.forall_mem_cons.mp hlowers
    obtain ⟨hsite, hsites⟩ := List.forall_mem_cons.mp hsites
    obtain ⟨hlow, hhigh⟩ := rowMajor_bounds hms
    obtain ⟨k, hk⟩ := Int.eq_ofNat_of_zero_le (show 0 ≤ m - d.1 by omega)
    rw [rowMajor, hk] at hplace ⊢
    rw [List.map_cons, List.foldr_cons] at hsize
    have hunfold : (subscript (d :: dims) (.ofInt a) ((m :: ms).map .ofInt) : Node K)
        = subscript dims ((Node.ofInt a).plus (((Node.ofInt m).minus (.ofInt d.1)).times
          (.ofInt ((dims.map (·.2)).foldr (· * ·) 1 : ℕ)))) (ms.map .ofInt) := rfl
    rw [hunfold]
    generalize (dims.map (·.2)).foldr (· * ·) 1 = stride at hhigh hsize hplace ih ⊢
    have hoffset : k * stride ≤ limit := by
      rw [← Nat.cast_mul] at hplace
      omega
    have hdim : k < d.2 := by omega
    have hminus : (Node.ofInt m).minus (.ofInt d.1) = (.ofInt k : Node K) := by
      have hdim' : d.2 ≤ limit := (Nat.le_mul_of_pos_right d.2 (by omega)).trans hsize
      rw [← hk]
      exact congrArg Node.const (hK.sub hsite hlower (by omega))
    have hstride : stride ≤ limit := (Nat.le_mul_of_pos_left stride (by omega)).trans hsize
    have htimes : (Node.ofInt k).times (.ofInt stride) = (.ofInt (k * stride : ℕ) : Node K) :=
      congrArg Node.const (hK.mul ((Nat.le_mul_of_pos_right k (by omega)).trans hoffset)
        hstride hoffset)
    have hplus : (Node.ofInt a).plus (.ofInt (k * stride : ℕ)) =
        (.ofInt (a + k * stride : ℕ) : Node K) := by
      rw [← Nat.cast_mul] at hplace
      rw [Nat.cast_add]
      exact congrArg Node.const (hK.add (by omega) (by omega) (by omega))
    rw [hminus, htimes, hplus, ih hlowers hsites hstride]
    · congr 1
      push_cast
      ring
    · push_cast
      omega

namespace ParamLayout

variable {l : ParamLayout} {params : List (Expr K)}

/-- A family is found by its name. -/
theorem place?_member (h : l.Places params) {f : ParamFamily} (hf : f ∈ l.families) (ms : List ℤ) :
    l.place? (.member f.base ms) = some (f.place ms) := by
  have hfound : (l.families.find? (·.base == f.base)).isSome = true :=
    List.find?_isSome.mpr ⟨f, hf, beq_self_eq_true f.base⟩
  obtain ⟨f', hf'⟩ := Option.isSome_iff_exists.mp hfound
  have hbase : f'.base = f.base := by simpa using List.find?_some hf'
  obtain rfl : f' = f := List.inj_on_of_nodup_map (List.nodup_append.mp h.nodup).2.1
    (List.mem_of_find?_eq_some hf') hf hbase
  rw [place?, hf']
  rfl

/-- **The layout of parameters is a bijection** between the cells that they declare and the slots
below its size, which is one for each scalar and the product of the dimensions for each family.
Parameters follow each other as they are declared, and members of a family in the lexicographic
order of their sites.  With constant sites, the access to a member is the access to its slot, as
long as literals count without rounding up to the size of the layout, the sites and the lower
bounds. -/
theorem layout_bijective [Literal K] (h : ofParams params = .ok l) :
    l.size = (params.map Expr.slots).sum ∧
    Set.BijOn l.place? {c | ∃ e ∈ params, e.Declares c} {k | ∃ n < l.size, k = some (n : ℤ)} ∧
    (params.Pairwise fun e e' => ∀ c c', e.Declares c → e'.Declares c' →
      ∀ k ∈ l.place? c, ∀ k' ∈ l.place? c', k < k') ∧
    (∀ f ∈ l.families, StrictMonoOn f.place {ms | List.Forall₂ Index.Contains f.indices ms}) ∧
    ∀ limit, ExactIntegersTo K limit → l.size ≤ limit →
      ∀ f ∈ l.families, (∀ d ∈ f.dims, d.1.natAbs ≤ limit) →
        ∀ ms, List.Forall₂ Index.Contains f.indices ms → (∀ m ∈ ms, m.natAbs ≤ limit) →
          ∃ k : ℕ, l.place? (.member f.base ms) = some (k : ℤ) ∧ k < l.size ∧
            (FamilyDecl.ofParam f).rule.location (ms.map .ofInt)
              = (.access .param (.ofInt k) : Node K) := by
  have hplaces := places_ofParams h
  refine ⟨(map_place?_cells h).1, bijOn_place? h, pairwise_place? h,
    fun f hf => strictMonoOn_place (hplaces.family f hf).2.1,
    fun limit hK hlimit f hf hlowers ms hms hsites => ?_⟩
  obtain ⟨-, hdims, hend⟩ := hplaces.family f hf
  rw [← mem_tuples_sites, tuples_sites hdims, mem_members] at hms
  obtain ⟨hlow, hhigh⟩ := rowMajor_bounds hms
  obtain ⟨offset, hoffset⟩ := Int.eq_ofNat_of_zero_le hlow
  rw [ParamFamily.size] at hend
  refine ⟨f.start + offset, ?_, by omega, ?_⟩
  · rw [place?_member hplaces hf, f.place_eq, hoffset, Nat.cast_add]
  · rw [FamilyDecl.location_ofParam, ParamFamily.subscript_ofInt hK hms hlowers hsites (by omega)
      (by omega), hoffset, Nat.cast_add]

/-- Scalars and families in turns: a family of two dimensions, one with no index and one with no
member. -/
def mixedParams : List (Expr Floating) := [
  .symbol "x",
  .indexed ⟨"J", [⟨"i", .literal (-1), .literal 0⟩, ⟨"j", .literal 1, .literal 2⟩]⟩,
  .indexed ⟨"c", []⟩,
  .indexed ⟨"w", [⟨"k", .literal 3, .literal 2⟩]⟩,
  .symbol "y"]

theorem layout_bijective_mixedParams : ∃ l, ofParams mixedParams = .ok l ∧ l.size = 7 ∧
    Set.BijOn l.place? {c | ∃ e ∈ mixedParams, e.Declares c} {k | ∃ n < l.size, k = some (n : ℤ)} ∧
    ∃ f ∈ l.families, f.base = "J" ∧ l.place? (.member "J" [0, 1]) = some 3 ∧
      (FamilyDecl.ofParam f).rule.location ([0, 1].map .ofInt)
        = (.access .param (.ofInt 3) : Node Floating) := by
  obtain ⟨l, hl, f, hf, hbase, hindices, hdims, hplace⟩ : ∃ l, ofParams mixedParams = .ok l ∧
      ∃ f ∈ l.families, f.base = "J" ∧
        f.indices = [⟨"i", .literal (-1), .literal 0⟩, ⟨"j", .literal 1, .literal 2⟩] ∧
        f.dims = [(-1, 2), (1, 2)] ∧ l.place? (.member "J" [0, 1]) = some 3 :=
    ⟨_, rfl, _, List.mem_cons_self, rfl, rfl, rfl, by decide⟩
  obtain ⟨hsize, hbij, -, -, hlocation⟩ := layout_bijective hl
  have hcontains : List.Forall₂ Index.Contains f.indices [0, 1] := by
    rw [hindices]
    exact .cons ⟨-1, 0, rfl, rfl, by decide, by decide⟩
      (.cons ⟨1, 2, rfl, rfl, by decide, by decide⟩ .nil)
  obtain ⟨k, hk, -, haccess⟩ := hlocation _ Floating.exactSitesTo.toExactIntegersTo
    (hsize ▸ (by decide)) f hf (hdims ▸ by decide) [0, 1] hcontains (by decide)
  obtain rfl : k = 3 := by
    rw [hbase, hplace] at hk
    exact_mod_cast (Option.some.inj hk).symm
  exact ⟨l, hl, hsize, hbij, f, hf, hbase, hplace, haccess⟩

/-- A family of two members whose lower bound is no floating point number. -/
def remoteParams : List (Expr Floating) := [
  .indexed ⟨"J", [⟨"i", .literal (-9007199254740993), .literal (-9007199254740992)⟩]⟩]

/-- **The second member is read where the first one is**: its lower bound is rounded to its site. -/
theorem second_member_misplaced : ∃ l, ofParams remoteParams = .ok l ∧
    l.place? (.member "J" [-9007199254740992]) = some 1 ∧
    ∃ f ∈ l.families, f.base = "J" ∧
      (FamilyDecl.ofParam f).rule.location ([-9007199254740992].map .ofInt)
        = (.access .param (.ofInt 0) : Node Floating) ∧
      (FamilyDecl.ofParam f).rule.location ([-9007199254740992].map .ofInt)
        ≠ (.access .param (.ofInt 1) : Node Floating) := by
  obtain ⟨l, hl, f, hf, hbase, hstart, hdims, hplace⟩ : ∃ l, ofParams remoteParams = .ok l ∧
      ∃ f ∈ l.families, f.base = "J" ∧ f.start = 0 ∧ f.dims = [(-9007199254740993, 2)] ∧
        l.place? (.member "J" [-9007199254740992]) = some 1 :=
    ⟨_, rfl, _, List.mem_cons_self, rfl, rfl, rfl, by decide⟩
  have hslot : Literal.add (Literal.ofInt 0) (Literal.mul (Literal.sub
      (Literal.ofInt (-9007199254740992)) (Literal.ofInt (-9007199254740993))) (Literal.ofInt 1))
        = (Literal.ofInt 0 : Floating) := by
    decide +kernel
  have hlocation : (FamilyDecl.ofParam f).rule.location ([-9007199254740992].map .ofInt)
      = (.access .param (.ofInt 0) : Node Floating) := by
    rw [FamilyDecl.location_ofParam, hstart, hdims]
    exact congrArg (fun a => Node.access .param (.const a)) hslot
  refine ⟨l, hl, hplace, f, hf, hbase, hlocation, fun h => ?_⟩
  rw [hlocation] at h
  have hzero : (Literal.ofInt 0 : Floating) = Literal.ofInt 1 :=
    Node.const.inj (Node.access.inj h).2
  exact absurd hzero (by decide +kernel)

end ParamLayout

end Fluxion
