import Fluxion.Procedure.Codec
import Fluxion.Proofs.Storage.JsonText
import Fluxion.Proofs.Nodes.Traversal
import Fluxion.Scalar.Floating

/-!
# Proofs/Storage/Decoding — what has been encoded is decoded again

A value that is read from outside is clipped: arrays and objects below a number of levels are
unreadable.  Every node of a tree costs two levels, an object with its tag and one with its fields:

    { "binary":                                             1
        { "op": "add", "lhs": …, "rhs":                     2
            { "access":                                     3
                { "array": "state", "index": … } } } }      4

Clipping cuts a form off at a level, and a reader either does not meet the cut or fails there: no
reader skips a field that was written.  `Json.Seen` says so, and it is handed up from the fields of
a record or a variant to the whole (`Seen.bind`, `seen_obj`, `seen_variant`, `seen_list`).  So a
procedure is decoded from its clipped form if nothing was cut off, and not at all otherwise
(`Procedure.seen_encode`).

Readers of trees carry fuel, which the nesting of what they read always suffices for.
-/

namespace Fluxion

namespace Json

/-! ## Clipping -/

theorem clipItems_eq (levels : Nat) (items : List Json) :
    clipItems levels items = items.map (clip levels) := by
  induction items with
  | nil => rw [clipItems, List.map_nil]
  | cons j items ih => rw [clipItems, ih, List.map_cons]

theorem nesting_le_nestingItems {items : List Json} {j : Json} (h : j ∈ items) :
    j.nesting ≤ nestingItems items := by
  induction items with
  | nil => cases h
  | cons i items ih =>
    rw [nestingItems]
    rcases List.mem_cons.mp h with rfl | h
    · exact Nat.le_max_left _ _
    · exact (ih h).trans (Nat.le_max_right _ _)

mutual

/-- A clipped value nests as deep as it is clipped. -/
theorem nesting_clip (levels : Nat) : (j : Json) → (j.clip levels).nesting = min levels j.nesting
  | .null | .bool _ | .num _ | .str _ | .unreadable => by simp [clip, nesting]
  | .arr items => by
    cases levels with
    | zero => simp [clip, nesting]
    | succ levels => simp [clip, nesting, nestingItems_clip levels items, Nat.add_min_add_right]
  | .obj entries => by
    cases levels with
    | zero => simp [clip, nesting]
    | succ levels => simp [clip, nesting, nestingEntries_clip levels entries, Nat.add_min_add_right]

theorem nestingItems_clip (levels : Nat) :
    (items : List Json) → nestingItems (clipItems levels items) = min levels (nestingItems items)
  | [] => by simp [clipItems, nestingItems]
  | j :: items => by
    rw [clipItems, nestingItems, nesting_clip levels j, nestingItems_clip levels items,
      nestingItems]
    omega

theorem nestingEntries_clip (levels : Nat) : (entries : List (String × Json)) →
    nestingEntries (clipEntries levels entries) = min levels (nestingEntries entries)
  | [] => by simp [clipEntries, nestingEntries]
  | e :: entries => by
    rw [clipEntries, nestingEntries, nestingEntry_clip levels e, nestingEntries_clip levels entries,
      nestingEntries]
    omega

theorem nestingEntry_clip (levels : Nat) :
    (e : String × Json) → nestingEntry (clipEntry levels e) = min levels (nestingEntry e)
  | (_, j) => nesting_clip levels j

end

/-! ## Readers -/

section Readers

variable {α β : Type} {read : Json → Option α} {levels n : Nat} {j : Json} {a : α}

/-- What ends at a level is had as soon as that many levels are. -/
def upTo (levels n : Nat) (a : α) : Option α := if n ≤ levels then some a else none

/-- **A reader sees a form down to a level**: it gives the value of a form that ends there, and
nothing for one that goes on. -/
def Seen (read : Json → Option α) (levels : Nat) (j : Json) (a : α) : Prop :=
  read (j.clip levels) = upTo levels j.nesting a

@[simp] theorem upTo_zero (levels : Nat) (a : α) : upTo levels 0 a = some a :=
  if_pos (Nat.zero_le _)

theorem upTo_map (f : α → β) : (upTo levels n a >>= fun x => some (f x)) = upTo levels n (f a) := by
  unfold upTo
  split <;> rfl

theorem Seen.map (f : α → β) (h : Seen read levels j a) :
    Seen (fun j => read j >>= fun x => some (f x)) levels j (f a) := by
  rw [Seen, h]
  exact upTo_map f

/-- **One field after the other**: all of them are had down to the deepest. -/
theorem Seen.bind {f : α → Option β} {b : β} (h : Seen read levels j a)
    (hf : f a = upTo levels n b) :
    (read (j.clip levels) >>= f) = upTo levels (max j.nesting n) b := by
  rw [h]
  unfold upTo at *
  by_cases hj : j.nesting ≤ levels
  · rw [if_pos hj, Option.bind_eq_bind, Option.bind_some, hf]
    simp [hj]
  · rw [if_neg hj, if_neg (by omega)]
    rfl

/-- A field that nests nothing is always had. -/
theorem upTo_atom {x : Option β} {b : β} (h : x = upTo levels n b) :
    x = upTo levels (max 0 n) b := by
  rwa [Nat.zero_max]

theorem seen_str {s : String} (h : read (.str s) = some a) : Seen read levels (.str s) a := by
  simpa [Seen, clip, nesting] using h

theorem seen_bool {b : Bool} (h : read (.bool b) = some a) : Seen read levels (.bool b) a := by
  simpa [Seen, clip, nesting] using h

theorem seen_num {x : Number} (h : read (.num x) = some a) : Seen read levels (.num x) a := by
  simpa [Seen, clip, nesting] using h

theorem seen_obj {entries : List (String × Json)} (hnone : read .unreadable = none)
    (h : ∀ k, levels = k + 1 → read (.obj (clipEntries k entries)) =
      upTo k (nestingEntries entries) a) :
    Seen read levels (.obj entries) a := by
  cases levels with
  | zero => simpa [Seen, clip, nesting, upTo] using hnone
  | succ k => simpa [Seen, clip, nesting, upTo] using h k rfl

theorem seen_tagged {tag : String} (hnone : read .unreadable = none)
    (h : ∀ k, levels = k + 1 → Seen (fun j => read (.tagged tag j)) k j a) :
    Seen read levels (.tagged tag j) a :=
  seen_obj hnone fun k hk => by
    have hj := h k hk
    simpa [Seen, tagged, nestingEntries, nestingEntry, clipEntries, clipEntry] using hj

/-- **A variant with fields** has them two levels down. -/
theorem seen_variant {tag : String} {entries : List (String × Json)}
    (hnone : read .unreadable = none) (hcut : read (.tagged tag .unreadable) = none)
    (h : ∀ k, levels = k + 2 →
      read (.tagged tag (.obj (clipEntries k entries))) = upTo k (nestingEntries entries) a) :
    Seen read levels (.tagged tag (.obj entries)) a :=
  seen_tagged hnone fun k hk => seen_obj hcut fun l hl => h l (by omega)

theorem mapM_clip {xs : List α} {form : α → Json} (h : ∀ x ∈ xs, Seen read levels (form x) x) :
    ((xs.map form).map (clip levels)).mapM read = upTo levels (nestingItems (xs.map form)) xs := by
  induction xs with
  | nil => simp [nestingItems]
  | cons x xs ih =>
    obtain ⟨hx, hxs⟩ := List.forall_mem_cons.mp h
    rw [List.map_cons, List.map_cons, List.mapM_cons, nestingItems]
    refine hx.bind ?_
    rw [ih hxs]
    exact upTo_map (x :: ·)

/-- Reads an array item by item. -/
def listOf? (read : Json → Option α) (j : Json) : Option (List α) := do (← j.list?).mapM read

/-- **A list of forms is seen as far as each of them.** -/
theorem seen_list {xs : List α} {form : α → Json}
    (h : ∀ k, levels = k + 1 → ∀ x ∈ xs, Seen read k (form x) x) :
    Seen (listOf? read) levels (.arr (xs.map form)) xs := by
  cases levels with
  | zero => simp [Seen, clip, nesting, upTo, listOf?, list?]
  | succ k =>
    have hitems := mapM_clip (h k rfl)
    simpa [Seen, clip, nesting, upTo, listOf?, list?, clipItems_eq] using hitems

theorem Seen.bindList {xs : List α} {f : List α → Option β} {b : β}
    (h : Seen (listOf? read) levels j xs) (hf : f xs = upTo levels n b) :
    ((j.clip levels).list? >>= fun items => items.mapM read >>= f) = upTo levels
    (max j.nesting n) b := by
  rw [← bind_assoc]
  exact h.bind hf

end Readers

end Json

/-! ## Nodes -/

/-- A constant that is written as a number and decoded from it again. -/
structure Rereadable {K : Type} [Codec K] (v : K) : Prop where
  number : ∃ x : Number, encode v = .num x
  decoded : ∀ m, decode? m (encode v) = some v

/-- A finite number.  Only a NaN carries a sign of its own. -/
def Floating.Finite (v : Floating) : Prop :=
  (v.value.isNaN || v.value.isInf) = false ∧ v.nanNegative = false

theorem Floating.Finite.encode_eq {v : Floating} (h : v.Finite) :
    (encode v : Json) = .num (.float v.value) := by
  change Json.float v.value = _
  rw [Json.float, h.1]
  rfl

theorem Floating.Finite.rereadable {v : Floating} (h : v.Finite) : Rereadable v := by
  refine ⟨⟨_, h.encode_eq⟩, fun m => ?_⟩
  rw [h.encode_eq]
  obtain ⟨x, negative⟩ := v
  obtain rfl : negative = false := h.2
  rfl

/-- **A constant that a number stands for**, and that is decoded from it again. -/
structure Lossless {K : Type} [Codec K] (v : K) : Prop where
  number : ∃ x : Number, encode v = .num x ∧ x.Legible
  decoded : ∀ m, decode? m (encode v) = some v

theorem Rereadable.seen_encode {K : Type} [Codec K] {v : K} (h : Rereadable v) {m : Medium}
    {levels : Nat} :
    Json.Seen (decode? m) levels (encode v) v := by
  obtain ⟨x, hx⟩ := h.number
  have hdecoded := h.decoded m
  rw [hx] at hdecoded ⊢
  exact Json.seen_num hdecoded

theorem Lossless.rereadable {K : Type} [Codec K] {v : K} (h : Lossless v) : Rereadable v :=
  ⟨h.number.imp fun _ hx => hx.1, h.decoded⟩

/-- Every constant among some nodes has a property. -/
def AllConsts {K : Type} (P : K → Prop) (ns : List (Node K)) : Prop := ∀ v, .const v ∈ ns → P v

/-- Every constant among some nodes is decoded again. -/
def AllLossless {K : Type} [Codec K] (ns : List (Node K)) : Prop := ∀ v, .const v ∈ ns → Lossless v

section Constants

variable {K : Type} {P Q : K → Prop} {n c : Node K} {ns ns' : List (Node K)}

theorem allConsts_append : AllConsts P (ns ++ ns') ↔ AllConsts P ns ∧ AllConsts P ns' := by
  simp only [AllConsts, List.mem_append, or_imp, forall_and]

theorem AllConsts.mono (h : AllConsts P ns) (hPQ : ∀ v, P v → Q v) : AllConsts Q ns :=
  fun v hv => hPQ v (h v hv)

theorem AllConsts.child (h : AllConsts P n.subnodes) (hc : c ∈ n.children) :
    AllConsts P c.subnodes :=
  fun v hv => h v (Node.mem_subnodes_of_mem_children hc hv)

theorem AllLossless.rereadable [Codec K] (h : AllLossless ns) : AllConsts Rereadable ns :=
  fun v hv => (h v hv).rereadable

end Constants

namespace Node

variable {K : Type} [Codec K] {m : Medium} {n : Node K} {levels : Nat}

theorem toJsonAll_eq (ns : List (Node K)) : toJsonAll ns = ns.map toJson := by
  induction ns with
  | nil => rw [toJsonAll, List.map_nil]
  | cons n ns ih => rw [toJsonAll, ih, List.map_cons]

theorem toJsonExclusions_eq (es : List (Exclusion K)) :
    toJsonExclusions es = es.map toJsonExclusion := by
  induction es with
  | nil => rw [toJsonExclusions, List.map_nil]
  | cons e es ih => rw [toJsonExclusions, ih, List.map_cons]

theorem seen_buffer (b : Buffer) : Json.Seen (decode? m) levels (encode b) b := by
  cases b <;> exact Json.seen_str rfl

theorem seen_binaryOp (op : BinaryOp) : Json.Seen (decode? m) levels (encode op) op := by
  cases op <;> exact Json.seen_str rfl

/-- A child stands two levels below its node, or deeper. -/
theorem nesting_child {c : Node K} (h : c ∈ n.children) :
    c.toJson.nesting + 2 ≤ n.toJson.nesting := by
  have hitems : ∀ ns : List (Node K), c ∈ ns →
      c.toJson.nesting ≤ Json.nestingItems (ns.map toJson) :=
    fun ns hc => Json.nesting_le_nestingItems (List.mem_map_of_mem hc)
  have hexclusions : ∀ es : List (Exclusion K), c ∈ es.map (·.value) →
      c.toJson.nesting + 1 ≤ Json.nestingItems (es.map toJsonExclusion) := by
    intro es hc
    obtain ⟨⟨v, absorbed⟩, he, rfl⟩ := List.mem_map.mp hc
    have hes := Json.nesting_le_nestingItems (List.mem_map_of_mem (f := toJsonExclusion) he)
    simp only [toJsonExclusion, Json.nesting, Json.nestingEntries, Json.nestingEntry] at hes
    simp only [Exclusion.value]
    omega
  cases n <;> simp only [children, List.mem_cons, List.not_mem_nil, or_false] at h <;>
    simp only [toJson, Json.tagged, Json.nesting, Json.nestingEntries, Json.nestingEntry,
      toJsonAll_eq, toJsonExclusions_eq]
  case call func args =>
    have hargs := hitems args h
    omega
  case boundedSum x lo hi es body =>
    rcases h with rfl | rfl | rfl | he
    on_goal 4 => have hes := hitems es he
    all_goals omega
  case sum x lo hi es body =>
    rcases h with rfl | rfl | rfl | he
    on_goal 4 => have hes := hexclusions es he
    all_goals omega
  case access | neg =>
    subst h
    omega
  case binary | indicator =>
    rcases h with rfl | rfl <;> omega
  case guarded =>
    rcases h with rfl | rfl | rfl <;> omega

/-- Reads an exclusion whose value is read by `read`. -/
def exclusion? (read : Json → Option (Node K)) (j : Json) : Option (Exclusion K) := do
  match ← j.record? ["value", "absorbed"] with
  | [v, absorbed] => return .mk (← read v) (← absorbed.bool?)
  | _ => none

open Json in
theorem seen_toJsonExclusion {read : Json → Option (Node K)} (e : Exclusion K)
    (h : ∀ k, levels = k + 1 → Seen read k e.value.toJson e.value) :
    Seen (exclusion? read) levels (toJsonExclusion e) e := by
  obtain ⟨v, absorbed⟩ := e
  rw [toJsonExclusion]
  refine seen_obj rfl fun k hk => ?_
  exact (h k hk).bind (Seen.bind (seen_bool rfl) (upTo_zero _ _).symm)

open Json in
/-- **The form of a node is seen down to any level** by a reader with enough fuel. -/
theorem seen_toJson {fuel : Nat} (hn : AllConsts Rereadable n.subnodes)
    (hfuel : min levels n.toJson.nesting < fuel) :
    Seen (ofJsonUpTo m fuel) levels n.toJson n := by
  induction n using childInduction generalizing levels fuel with
  | step n ih =>
    obtain ⟨fuel, rfl⟩ := Nat.exists_eq_succ_of_ne_zero (Nat.ne_zero_of_lt hfuel)
    have hchild : ∀ k, k + 2 ≤ levels →
        ∀ c ∈ n.children, Seen (ofJsonUpTo m fuel) k c.toJson c := by
      intro k hk c hc
      have hdeeper := nesting_child hc
      exact ih c hc (hn.child hc) (by omega)
    cases n with
    | imaginaryUnit => rw [toJson]; exact seen_str rfl
    | time => rw [toJson]; exact seen_str rfl
    | named x => rw [toJson]; exact seen_tagged rfl fun k _ => seen_str rfl
    | var x => rw [toJson]; exact seen_tagged rfl fun k _ => seen_str rfl
    | unresolved x => rw [toJson]; exact seen_tagged rfl fun k _ => seen_str rfl
    | const v =>
      rw [toJson]
      exact seen_tagged rfl fun k _ => (hn v (self_mem_subnodes _)).seen_encode.map Node.const
    | access b i =>
      rw [toJson]
      refine seen_variant rfl rfl fun l hl => ?_
      have hi := hchild l (by omega) i (by simp [children])
      exact (seen_buffer b).bind (hi.bind (upTo_zero _ _).symm)
    | neg a =>
      rw [toJson]
      refine seen_variant rfl rfl fun l hl => ?_
      have ha := hchild l (by omega) a (by simp [children])
      exact upTo_atom (ha.bind (upTo_zero _ _).symm)
    | binary op a b =>
      rw [toJson]
      refine seen_variant rfl rfl fun l hl => ?_
      have ha := hchild l (by omega) a (by simp [children])
      have hb := hchild l (by omega) b (by simp [children])
      exact (seen_binaryOp op).bind (ha.bind (hb.bind (upTo_zero _ _).symm))
    | call func args =>
      rw [toJson, toJsonAll_eq]
      refine seen_variant rfl rfl fun l hl => ?_
      have hargs : Seen (listOf? (ofJsonUpTo m fuel)) l (.arr (args.map toJson)) args :=
        seen_list fun i hi => hchild i (by omega)
      exact upTo_atom (hargs.bindList (upTo_zero _ _).symm)
    | boundedSum x lo hi es body =>
      rw [toJson, toJsonAll_eq]
      refine seen_variant rfl rfl fun l hl => ?_
      have hlo := hchild l (by omega) lo (by simp [children])
      have hhi := hchild l (by omega) hi (by simp [children])
      have hbody := hchild l (by omega) body (by simp [children])
      have hes : Seen (listOf? (ofJsonUpTo m fuel)) l (.arr (es.map toJson)) es :=
        seen_list fun i hi c hc => hchild i (by omega) c (by simp [children, hc])
      exact upTo_atom (hlo.bind (hhi.bind (hes.bindList (hbody.bind (upTo_zero _ _).symm))))
    | sum x lo hi es body =>
      rw [toJson, toJsonExclusions_eq]
      refine seen_variant rfl rfl fun l hl => ?_
      have hlo := hchild l (by omega) lo (by simp [children])
      have hhi := hchild l (by omega) hi (by simp [children])
      have hbody := hchild l (by omega) body (by simp [children])
      have hes : Seen (listOf? (exclusion? (ofJsonUpTo m fuel))) l
          (.arr (es.map toJsonExclusion)) es := by
        refine seen_list fun i hi e he => seen_toJsonExclusion e fun j hj => ?_
        exact hchild j (by omega) e.value (by simp [children, List.mem_map_of_mem he])
      -- exclusions are read first, but stand behind the bounds
      refine Eq.trans (hes.bindList (hlo.bind (hhi.bind (hbody.bind (upTo_zero _ _).symm))))
        (congrArg (upTo l · _) ?_)
      simp only [nestingEntries, nestingEntry, nesting]
      omega
    | guarded l r body =>
      rw [toJson]
      refine seen_variant rfl rfl fun i hi => ?_
      have hl := hchild i (by omega) l (by simp [children])
      have hr := hchild i (by omega) r (by simp [children])
      have hbody := hchild i (by omega) body (by simp [children])
      exact hl.bind (hr.bind (hbody.bind (upTo_zero _ _).symm))
    | indicator l r =>
      rw [toJson]
      refine seen_variant rfl rfl fun i hi => ?_
      have hl := hchild i (by omega) l (by simp [children])
      have hr := hchild i (by omega) r (by simp [children])
      exact hl.bind (hr.bind (upTo_zero _ _).symm)

/-- **A node is seen down to any level.** -/
theorem seen_encode (hn : AllConsts Rereadable n.subnodes) :
    Json.Seen (decode? m) levels (encode n) n :=
  seen_toJson hn (Nat.lt_succ_of_le (Json.nesting_clip levels n.toJson).ge)

end Node

/-! ## Procedures -/

theorem Json.nat?_natCast {n : Nat} (h : n ≤ Decimal.coeffLimit) : (Json.int n).nat? = some n := by
  unfold Decimal.coeffLimit at h
  have hrange : (0 : Int) ≤ n ∧ (n : Int) ≤ 0xFFFFFFFFFFFFFFFF := by omega
  simp [nat?, int, intBetween?, Number.toInt?, hrange]

variable {K : Type} [Codec K] {m : Medium} {levels : Nat}

/-- An entry of a layout with a form: a slot that is a machine word, or places with constants that
have a property. -/
def LayoutEntry.Representable (P : K → Prop) : LayoutEntry K → Prop
  | .scalar _ slot => slot ≤ Decimal.coeffLimit
  | .family _ start size => AllConsts P start.subnodes ∧ AllConsts P size.subnodes

/-- **A procedure with a form**: its slots are machine words, and its constants have a property. -/
structure Procedure.Representable (P : K → Prop) (p : Procedure K) : Prop where
  states : ∀ e ∈ p.states, e.Representable P
  params : ∀ e ∈ p.params, e.Representable P
  body : AllConsts P p.nodes

section Properties

variable {P Q : K → Prop}

omit [Codec K] in
theorem LayoutEntry.Representable.mono {e : LayoutEntry K} (h : e.Representable P)
    (hPQ : ∀ v, P v → Q v) :
    e.Representable Q := by
  cases e with
  | scalar name slot => exact h
  | family name start size => exact ⟨h.1.mono hPQ, h.2.mono hPQ⟩

omit [Codec K] in
theorem Procedure.Representable.mono {p : Procedure K} (h : p.Representable P)
    (hPQ : ∀ v, P v → Q v) :
    p.Representable Q where
  states e he := (h.states e he).mono hPQ
  params e he := (h.params e he).mono hPQ
  body := h.body.mono hPQ

end Properties

/-- An entry of a layout that is decoded again: a slot that is a machine word, or places that
are. -/
def LayoutEntry.Storable : LayoutEntry K → Prop
  | .scalar _ slot => slot ≤ Decimal.coeffLimit
  | .family _ start size => AllLossless start.subnodes ∧ AllLossless size.subnodes

/-- **A procedure whose slots and constants are decoded again.** -/
structure Procedure.Storable (p : Procedure K) : Prop where
  states : ∀ e ∈ p.states, e.Storable
  params : ∀ e ∈ p.params, e.Storable
  body : AllLossless p.nodes

theorem LayoutEntry.Storable.representable {e : LayoutEntry K} (h : e.Storable) :
    e.Representable Rereadable := by
  cases e with
  | scalar name slot => exact h
  | family name start size => exact ⟨h.1.rereadable, h.2.rereadable⟩

theorem Procedure.Storable.representable {p : Procedure K} (h : p.Storable) :
    p.Representable Rereadable where
  states e he := (h.states e he).representable
  params e he := (h.params e he).representable
  body := h.body.rereadable

open Json in
theorem LayoutEntry.seen_encode {e : LayoutEntry K} (he : e.Representable Rereadable) :
    Seen (decode? m) levels (encode e) e := by
  cases e with
  | scalar name slot =>
    have hslot : (Json.int slot).nat? = some slot := nat?_natCast he
    refine seen_variant rfl rfl fun l hl => upTo_atom (upTo_atom ?_)
    exact (congrArg (· >>= fun slot => some (scalar name slot)) hslot).trans (upTo_zero _ _).symm
  | family name start size =>
    refine seen_variant rfl rfl fun l hl => ?_
    have hstart : Seen (decode? m) l (encode start) start := Node.seen_encode he.1
    have hsize : Seen (decode? m) l (encode size) size := Node.seen_encode he.2
    exact upTo_atom (hstart.bind (hsize.bind (upTo_zero _ _).symm))

open Json in
theorem Naming.seen_encode (naming : Naming) : Seen (decode? m) levels (encode naming) naming :=
  seen_obj rfl fun _ _ => upTo_atom (upTo_atom (upTo_atom (upTo_atom (upTo_zero _ _).symm)))

namespace Stmt

theorem toJsonAll_eq (ss : List (Stmt K)) : toJsonAll ss = ss.map toJson := by
  induction ss with
  | nil => rw [toJsonAll, List.map_nil]
  | cons s ss ih => rw [toJsonAll, ih, List.map_cons]

mutual

/-- **The form of a statement is seen down to any level** by a reader with enough fuel. -/
theorem seen_toJson {levels fuel : Nat} : (s : Stmt K) → AllConsts Rereadable s.subnodes →
    min levels s.toJson.nesting < fuel → Json.Seen (ofJsonUpTo m fuel) levels s.toJson s
  | .assign slot value, hs, hfuel => by
    obtain ⟨fuel, rfl⟩ := Nat.exists_eq_succ_of_ne_zero (Nat.ne_zero_of_lt hfuel)
    rw [subnodes] at hs
    obtain ⟨hslot, hvalue⟩ := allConsts_append.mp hs
    rw [toJson]
    refine Json.seen_variant rfl rfl fun l hl => ?_
    exact (Node.seen_encode hslot).bind ((Node.seen_encode hvalue).bind (Json.upTo_zero _ _).symm)
  | .loop x lo hi body, hs, hfuel => by
    obtain ⟨fuel, rfl⟩ := Nat.exists_eq_succ_of_ne_zero (Nat.ne_zero_of_lt hfuel)
    rw [subnodes] at hs
    obtain ⟨hbounds, hbody⟩ := allConsts_append.mp hs
    obtain ⟨hlo, hhi⟩ := allConsts_append.mp hbounds
    rw [toJson] at hfuel ⊢
    refine Json.seen_variant rfl rfl fun l hl => ?_
    have hstatements : Json.Seen (Json.listOf? (ofJsonUpTo m fuel)) l (.arr (toJsonAll body))
        body := by
      rw [toJsonAll_eq]
      refine Json.seen_list fun i hi => seen_toJsonAll body hbody ?_
      simp only [Json.tagged, Json.nesting, Json.nestingEntries, Json.nestingEntry] at hfuel
      omega
    exact Json.upTo_atom ((Node.seen_encode hlo).bind ((Node.seen_encode hhi).bind
      (hstatements.bindList (Json.upTo_zero _ _).symm)))

theorem seen_toJsonAll {levels fuel : Nat} :
    (ss : List (Stmt K)) → AllConsts Rereadable (subnodesAll ss) →
    min levels (Json.nestingItems (toJsonAll ss)) < fuel →
      ∀ s ∈ ss, Json.Seen (ofJsonUpTo m fuel) levels s.toJson s
  | [], _, _ => List.forall_mem_nil _
  | s :: ss, hs, hfuel => by
    rw [subnodesAll] at hs
    obtain ⟨hfirst, hrest⟩ := allConsts_append.mp hs
    rw [toJsonAll, Json.nestingItems] at hfuel
    exact List.forall_mem_cons.mpr
      ⟨seen_toJson s hfirst (by omega), seen_toJsonAll ss hrest (by omega)⟩

end

theorem seen_encode {s : Stmt K} (hs : AllConsts Rereadable s.subnodes) :
    Json.Seen (decode? m) levels (encode s) s :=
  seen_toJson s hs (Nat.lt_succ_of_le (Json.nesting_clip levels s.toJson).ge)

end Stmt

/-- **A procedure is seen down to any level.** -/
theorem Procedure.seen_encode {p : Procedure K} (hp : p.Representable Rereadable) :
    Json.Seen (decode? m) levels (encode p) p := by
  refine Json.seen_obj rfl fun k hk => ?_
  have hnaming : Json.Seen (decode? m) k (encode p.naming) p.naming := p.naming.seen_encode
  have hstates : Json.Seen (Json.listOf? (decode? m)) k (.arr (p.states.map encode)) p.states :=
    Json.seen_list fun i hi e he => LayoutEntry.seen_encode (hp.states e he)
  have hparams : Json.Seen (Json.listOf? (decode? m)) k (.arr (p.params.map encode)) p.params :=
    Json.seen_list fun i hi e he => LayoutEntry.seen_encode (hp.params e he)
  have hbody : Json.Seen (Json.listOf? (decode? m)) k (.arr (p.body.map encode)) p.body :=
    Json.seen_list fun i hi s hs => Stmt.seen_encode fun v hv =>
      hp.body v (Stmt.subnodes_of_mem hs hv)
  exact hnaming.bind (hstates.bindList (hparams.bindList (hbody.bindList
    (Json.upTo_atom (Json.upTo_zero _ _).symm))))

end Fluxion
