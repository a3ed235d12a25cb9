import Fluxion.Bytecode.Basic
import Fluxion.Expr.Codec
import Fluxion.Expr.Free
import Fluxion.Options
import Fluxion.Procedure.Store
import Fluxion.Proofs.Storage.Decoding
import Fluxion.Proofs.Expressions.Subexpressions
import Fluxion.Scalar.Floating

/-!
# Proofs/Storage/RoundTrip — decoding undoes encoding

    value ──encode──▸ form ──decode──▸ value

Forms in memory are read to the bottom, so every value that has a form at all is read from it again:
its numbers are finite, and its integers are machine words (`Representable`).  Then no two values
have the same form (`Codec.Faithful`).

Expressions, instructions and options are read directly.  What procedures are made of is seen down
to any level (`Proofs/Storage/Decoding`), in particular down to its own.
-/

namespace Fluxion

/-! ## Reading to the bottom -/

namespace Json

mutual

/-- Nothing is cut off below a form. -/
theorem clip_of_nesting_le {levels : Nat} : (j : Json) → j.nesting ≤ levels → j.clip levels = j
  | .null, _ | .bool _, _ | .num _, _ | .str _, _ | .unreadable, _ => by simp [clip]
  | .arr items, h => by
    cases levels with
    | zero => simp [nesting] at h
    | succ levels =>
      rw [nesting, Nat.add_le_add_iff_right] at h
      simp [clip, clipItems_of_nesting_le items h]
  | .obj entries, h => by
    cases levels with
    | zero => simp [nesting] at h
    | succ levels =>
      rw [nesting, Nat.add_le_add_iff_right] at h
      simp [clip, clipEntries_of_nesting_le entries h]

theorem clipItems_of_nesting_le {levels : Nat} :
    (items : List Json) → nestingItems items ≤ levels → clipItems levels items = items
  | [], _ => by rw [clipItems]
  | j :: items, h => by
    rw [nestingItems, Nat.max_le] at h
    rw [clipItems, clip_of_nesting_le j h.1, clipItems_of_nesting_le items h.2]

theorem clipEntries_of_nesting_le {levels : Nat} :
    (entries : List (String × Json)) → nestingEntries entries ≤ levels →
    clipEntries levels entries = entries
  | [], _ => by rw [clipEntries]
  | e :: entries, h => by
    rw [nestingEntries, Nat.max_le] at h
    rw [clipEntries, clipEntry_of_nesting_le e h.1, clipEntries_of_nesting_le entries h.2]

theorem clipEntry_of_nesting_le {levels : Nat} :
    (e : String × Json) → nestingEntry e ≤ levels → clipEntry levels e = e
  | (k, j), h => congrArg (k, ·) (clip_of_nesting_le j h)

end

section Readers

variable {α β : Type} {read : Json → Option α} {levels : Nat} {j : Json} {a : α}

/-- What is seen down to its own level is read. -/
theorem Seen.read_eq (h : Seen read j.nesting j a) : read j = some a := by
  rw [Seen, clip_of_nesting_le j (Nat.le_refl _)] at h
  exact h.trans (if_pos (Nat.le_refl _))

theorem Seen.mapList {xs : List α} (f : List α → β) (h : Seen (listOf? read) levels j xs) :
    Seen (fun j => j.list? >>= fun items => items.mapM read >>= fun xs => some (f xs)) levels j
      (f xs) := by
  rw [Seen, h.bindList (upTo_zero levels (f xs)).symm, Nat.max_zero]

theorem seen_arr {items : List Json} (hnone : read .unreadable = none)
    (h : ∀ k, levels = k + 1 → read (.arr (clipItems k items)) = upTo k (nestingItems items) a) :
    Seen read levels (.arr items) a := by
  cases levels with
  | zero => simpa [Seen, clip, nesting, upTo] using hnone
  | succ k => simpa [Seen, clip, nesting, upTo] using h k rfl

end Readers

/-- A machine word with sign is read again. -/
theorem int?_int {n : Int} (h : -0x8000000000000000 ≤ n ∧ n ≤ 0x7FFFFFFFFFFFFFFF) :
    (Json.int n).int? = some n := by
  simp [int?, int, intBetween?, Number.toInt?, h]

end Json

open Json

/-! ## Indices and symbols -/

variable {K : Type} {P : K → Prop} {m : Medium} {levels : Nat}

/-- A bound with a form: a literal is a machine word. -/
def Bound.Representable : Bound → Prop
  | .literal n => -0x8000000000000000 ≤ n ∧ n ≤ 0x7FFFFFFFFFFFFFFF
  | .symbol _ => True

/-- An index with a form. -/
def Index.Representable (i : Index) : Prop := i.lower.Representable ∧ i.upper.Representable

/-- An indexed symbol with a form. -/
def Indexed.Representable (s : Indexed) : Prop := ∀ i ∈ s.indices, i.Representable

/-- A free symbol with a form. -/
def FreeSymbol.Representable : FreeSymbol → Prop
  | .scalar _ => True
  | .index i => i.Representable
  | .indexed s => s.Representable

theorem Bound.seen_encode {b : Bound} (h : b.Representable) :
    Seen (decode? m) levels (encode b) b := by
  cases b with
  | literal n =>
    refine seen_tagged rfl fun k _ => seen_num ?_
    exact (congrArg (· >>= fun n => some (literal n)) (int?_int h) :)
  | symbol name => exact seen_tagged rfl fun k _ => seen_str rfl

theorem Index.seen_encode {i : Index} (h : i.Representable) :
    Seen (decode? m) levels (encode i) i := by
  refine seen_obj rfl fun k _ => ?_
  have hlower : Seen (decode? m) k (encode i.lower) i.lower := Bound.seen_encode h.1
  have hupper : Seen (decode? m) k (encode i.upper) i.upper := Bound.seen_encode h.2
  exact upTo_atom (hlower.bind (hupper.bind (upTo_zero _ _).symm))

theorem Index.seen_encodeAll {is : List Index} (h : ∀ i ∈ is, i.Representable) :
    Seen (listOf? (decode? m)) levels (.arr (is.map encode)) is :=
  seen_list fun _ _ i hi => seen_encode (h i hi)

theorem Indexed.seen_encode {s : Indexed} (h : s.Representable) :
    Seen (decode? m) levels (encode s) s := by
  refine seen_obj rfl fun k _ => upTo_atom ?_
  exact (Index.seen_encodeAll h).bindList (upTo_zero _ _).symm

theorem FreeSymbol.seen_encode {s : FreeSymbol} (h : s.Representable) :
    Seen (decode? m) levels (encode s) s := by
  cases s with
  | scalar name => exact seen_tagged rfl fun k _ => seen_str rfl
  | index i => exact seen_tagged rfl fun k _ => (Index.seen_encode h).map FreeSymbol.index
  | indexed s => exact seen_tagged rfl fun k _ => (Indexed.seen_encode h).map FreeSymbol.indexed

/-! ## Expressions -/

theorem Func.seen_encode (f : Func) : Seen (decode? m) levels (encode f) f := by
  cases f with
  | builtin b => cases b <;> exact seen_str rfl
  | adjoint => exact seen_str rfl
  | named name => exact seen_tagged rfl fun k _ => seen_str rfl

namespace Expr

mutual

/-- **An expression with a form**: its numbers have a property, and the bounds of its indices are
machine words. -/
def Representable (P : K → Prop) : Expr K → Prop
  | .number v => P v
  | .imaginaryUnit | .symbol _ => True
  | .indexed s => s.Representable
  | .index i => i.Representable
  | .add terms => RepresentableAll P terms
  | .mul factors => RepresentableAll P factors
  | .pow base exponent => Representable P base ∧ Representable P exponent
  | .neg inner => Representable P inner
  | .call _ args => RepresentableAll P args
  | .sum i away body => i.Representable ∧ (∀ j ∈ away, j.Representable) ∧ Representable P body
  | .distinct a b body => a.Representable ∧ b.Representable ∧ Representable P body

/-- Expressions with forms. -/
def RepresentableAll (P : K → Prop) : List (Expr K) → Prop
  | [] => True
  | e :: rest => Representable P e ∧ RepresentableAll P rest

end

theorem representableAll_iff {es : List (Expr K)} :
    RepresentableAll P es ↔ ∀ e ∈ es, e.Representable P := by
  induction es with
  | nil => simp [RepresentableAll]
  | cons e es ih => rw [RepresentableAll, ih, List.forall_mem_cons]

theorem Representable.child {c e : Expr K} (h : e.Representable P) (hc : c ∈ e.children) :
    c.Representable P := by
  cases e with
  | add | mul | call => exact representableAll_iff.mp h c hc
  | pow base exponent =>
    rcases List.mem_pair.mp hc with rfl | rfl
    exacts [h.1, h.2]
  | neg inner => exact List.mem_singleton.mp hc ▸ h
  | sum | distinct => exact List.mem_singleton.mp hc ▸ h.2.2
  | _ => cases hc

variable [Codec K]

theorem toJsonAll_eq (es : List (Expr K)) : toJsonAll es = es.map toJson := by
  induction es with
  | nil => rw [toJsonAll, List.map_nil]
  | cons e es ih => rw [toJsonAll, ih, List.map_cons]

/-- An expression right inside another one stands below it. -/
theorem nesting_child {c e : Expr K} (hc : c ∈ e.children) :
    c.toJson.nesting < e.toJson.nesting := by
  have hitems : ∀ es : List (Expr K), c ∈ es → c.toJson.nesting ≤ nestingItems (es.map toJson) :=
    fun es hc => nesting_le_nestingItems (List.mem_map_of_mem hc)
  cases e <;> simp only [children, List.mem_cons, List.not_mem_nil, or_false] at hc <;>
    simp only [toJson, tagged, nesting, nestingEntries, nestingEntry, nestingItems, toJsonAll_eq]
  case add es | mul es | call _ es =>
    have hes := hitems es hc
    omega
  case pow => rcases hc with rfl | rfl <;> omega
  case neg | sum | distinct =>
    subst hc
    omega

/-- **The form of an expression is seen down to any level** by a reader with enough fuel. -/
theorem seen_toJson {e : Expr K} (hP : ∀ v, P v → Rereadable v) {fuel : Nat}
    (he : e.Representable P) (hfuel : min levels e.toJson.nesting < fuel) :
    Seen (ofJsonUpTo m fuel) levels e.toJson e := by
  induction e using childInduction generalizing levels fuel with
  | step e ih =>
    obtain ⟨fuel, rfl⟩ := Nat.exists_eq_succ_of_ne_zero (Nat.ne_zero_of_lt hfuel)
    have hchild : ∀ k < levels, ∀ c ∈ e.children, Seen (ofJsonUpTo m fuel) k c.toJson c := by
      intro k hk c hc
      have hdeeper := nesting_child hc
      exact ih c hc (he.child hc) (by omega)
    -- operands stand in an array
    have hlist : ∀ es : List (Expr K), (∀ c ∈ es, c ∈ e.children) → ∀ k < levels,
        Seen (listOf? (ofJsonUpTo m fuel)) k (.arr (es.map toJson)) es := fun es hes k hk =>
      seen_list fun l hl c hc => hchild l (by omega) c (hes c hc)
    cases e with
    | number v =>
      rw [toJson]
      exact seen_tagged rfl fun k _ => (hP v he).seen_encode.map Expr.number
    | imaginaryUnit => rw [toJson]; exact seen_str rfl
    | symbol name => rw [toJson]; exact seen_tagged rfl fun k _ => seen_str rfl
    | indexed s =>
      rw [toJson]
      exact seen_tagged rfl fun k _ => (Indexed.seen_encode he).map Expr.indexed
    | index i =>
      rw [toJson]
      exact seen_tagged rfl fun k _ => (Index.seen_encode he).map Expr.index
    | add terms =>
      rw [toJson, toJsonAll_eq]
      exact seen_tagged rfl fun k hk => (hlist terms (fun _ hc => hc) k (by omega)).mapList Expr.add
    | mul factors =>
      rw [toJson, toJsonAll_eq]
      exact seen_tagged rfl fun k hk =>
        (hlist factors (fun _ hc => hc) k (by omega)).mapList Expr.mul
    | pow base exponent =>
      rw [toJson]
      refine seen_tagged rfl fun k hk => seen_arr rfl fun l hl => ?_
      have hbase := hchild l (by omega) base (by simp [children])
      have hexponent := hchild l (by omega) exponent (by simp [children])
      exact hbase.bind (hexponent.bind (upTo_zero _ _).symm)
    | neg inner =>
      rw [toJson]
      exact seen_tagged rfl fun k hk =>
        (hchild k (by omega) inner (by simp [children])).map Expr.neg
    | call func args =>
      rw [toJson, toJsonAll_eq]
      refine seen_tagged rfl fun k hk => seen_arr rfl fun l hl => ?_
      exact func.seen_encode.bind ((hlist args (fun _ hc => hc) l (by omega)).bindList
        (upTo_zero _ _).symm)
    | sum i away body =>
      rw [toJson]
      refine seen_variant rfl rfl fun l hl => ?_
      have hbody := hchild l (by omega) body (by simp [children])
      exact (Index.seen_encode he.1).bind ((Index.seen_encodeAll he.2.1).bindList
        (hbody.bind (upTo_zero _ _).symm))
    | distinct a b body =>
      rw [toJson]
      refine seen_variant rfl rfl fun l hl => ?_
      have hbody := hchild l (by omega) body (by simp [children])
      exact (Index.seen_encode he.1).bind
        ((Index.seen_encode he.2.1).bind (hbody.bind (upTo_zero _ _).symm))

theorem seen_encode {e : Expr K} (hP : ∀ v, P v → Rereadable v) (he : e.Representable P) :
    Seen (decode? m) levels (encode e) e :=
  seen_toJson hP he (Nat.lt_succ_of_le (nesting_clip levels e.toJson).ge)

end Expr

/-! ## Instructions and options -/

/-- An instruction with a form: its constant has a property, or its number is a machine word. -/
def Opcode.Representable (P : K → Prop) : Opcode K → Prop
  | .pushConst v => P v
  | .loadLocal n | .storeLocal n | .jump n | .jumpIfFalse n | .fail n => n ≤ Decimal.coeffLimit
  | _ => True

theorem Json.seen_nat {α : Type} {read : Json → Option α} {n : Nat} {f : Nat → α}
    (h : n ≤ Decimal.coeffLimit) (hread : ∀ j, read j = j.nat? >>= fun n => some (f n)) :
    Seen read levels (.int n) (f n) :=
  seen_num ((hread _).trans (congrArg (· >>= fun n => some (f n)) (nat?_natCast h)))

theorem Opcode.seen_encode [Codec K] {op : Opcode K} (hP : ∀ v, P v → Rereadable v)
    (h : op.Representable P) : Seen (decode? m) levels (encode op) op := by
  cases op with
  | pushConst v => exact seen_tagged rfl fun k _ => (hP v h).seen_encode.map Opcode.pushConst
  | loadLocal n => exact seen_tagged rfl fun k _ => seen_nat h fun _ => rfl
  | storeLocal n => exact seen_tagged rfl fun k _ => seen_nat h fun _ => rfl
  | jump n => exact seen_tagged rfl fun k _ => seen_nat h fun _ => rfl
  | jumpIfFalse n => exact seen_tagged rfl fun k _ => seen_nat h fun _ => rfl
  | fail n => exact seen_tagged rfl fun k _ => seen_nat h fun _ => rfl
  | load b => cases b <;> exact seen_tagged rfl fun k _ => seen_str rfl
  | call b => cases b <;> exact seen_tagged rfl fun k _ => seen_str rfl
  | _ => exact seen_str rfl

/-- Options with a form: the bound is a machine word. -/
def Options.Representable (o : Options) : Prop := o.maxRelabelRules ≤ Decimal.coeffLimit

theorem Options.decode_encode {o : Options} (h : o.Representable) :
    decode? m (encode o) = some o := by
  obtain ⟨state, param, time, derivative, unknownsZero, checkBounds, rules⟩ := o
  -- all others are read as they are written
  have hlast (o : Options) : setAll? o [("max_relabel_rules", .int rules)]
      = some { o with maxRelabelRules := rules } := by
    change ((Json.int rules).nat? >>= fun n => some { o with maxRelabelRules := n }).bind _ = _
    rw [nat?_natCast h]
    rfl
  cases derivative with
  | none => exact hlast _
  | some name => exact hlast _

/-! ## The theorem -/

/-- **Values with a property are read from their forms**, whatever these are read from; so no two of
them have the same form. -/
structure Codec.Faithful {α : Type} [Codec α] (P : α → Prop) : Prop where
  decode_encode : ∀ m a, P a → decode? m (encode a) = some a
  injective : ∀ a b, P a → P b → (encode a : Json) = encode b → a = b

theorem Codec.faithful_of_decode {α : Type} [Codec α] {P : α → Prop}
    (h : ∀ m a, P a → decode? m (encode a) = some a) : Faithful P where
  decode_encode := h
  injective a b ha hb heq := by
    have hread := congrArg (decode? (α := α) .memory) heq
    rw [h _ a ha, h _ b hb] at hread
    exact Option.some.inj hread

/-- **Decoding undoes encoding.**  Every value with finite numbers and machine words is read from
its form, so no two of them have the same form; a procedure that passes the check is restored as it
was. -/
theorem Codec.faithful_representable :
    Faithful Index.Representable ∧ Faithful FreeSymbol.Representable ∧
    Faithful (Expr.Representable Floating.Finite) ∧
    Faithful (fun n : Node Floating => AllConsts Floating.Finite n.subnodes) ∧
    Faithful (fun s : Stmt Floating => AllConsts Floating.Finite s.subnodes) ∧
    Faithful (LayoutEntry.Representable Floating.Finite) ∧
    Faithful (Procedure.Representable Floating.Finite) ∧
    Faithful (Opcode.Representable Floating.Finite) ∧ Faithful Options.Representable ∧
    ∀ (m : Medium) (p : Procedure Floating), p.Representable Floating.Finite →
      p.checkStructure = .ok () → Procedure.restore (decode? m (encode p)) = .ok p := by
  have hP : ∀ v : Floating, v.Finite → Rereadable v := fun _ => Floating.Finite.rereadable
  have hprocedure (m : Medium) (p : Procedure Floating) (h : p.Representable Floating.Finite) :
      decode? m (encode p) = some p := (Procedure.seen_encode (h.mono hP)).read_eq
  refine ⟨faithful_of_decode fun m i h => (Index.seen_encode h).read_eq,
    faithful_of_decode fun m s h => (FreeSymbol.seen_encode h).read_eq,
    faithful_of_decode fun m e h => (Expr.seen_encode hP h).read_eq,
    faithful_of_decode fun m n h => (Node.seen_encode (h.mono hP)).read_eq,
    faithful_of_decode fun m s h => (Stmt.seen_encode (h.mono hP)).read_eq,
    faithful_of_decode fun m e h => (LayoutEntry.seen_encode (h.mono hP)).read_eq,
    faithful_of_decode hprocedure,
    faithful_of_decode fun m op h => (Opcode.seen_encode hP h).read_eq,
    faithful_of_decode fun m o h => Options.decode_encode h, fun m p h hchecked => ?_⟩
  rw [hprocedure m p h, Procedure.restore]
  simp only [hchecked]

/-- A procedure with a family of states, which doubles them one after the other. -/
def Procedure.doubling : Procedure Floating where
  naming := ⟨"du", "u", "p", "t"⟩
  states := [.scalar "x" 0, .family "n" (.ofInt 1) (.ofInt 3)]
  params := []
  body := [.loop "i" (.ofInt 1) (.ofInt 3)
    [.assign (.var "i") (.binary .mul (.ofInt (-2)) (.access .state (.var "i")))]]
  checkBounds := true

theorem Codec.faithful_representable_doubling : Procedure.doubling.Representable Floating.Finite ∧
    Procedure.doubling.checkStructure = .ok () ∧
    ∀ m, Procedure.restore (decode? m (encode Procedure.doubling)) = .ok Procedure.doubling := by
  have hfactor : (Literal.ofInt (-2) : Floating).Finite := ⟨by decide +kernel, rfl⟩
  have hone : (Literal.ofInt 1 : Floating).Finite := ⟨by decide +kernel, rfl⟩
  have hthree : (Literal.ofInt 3 : Floating).Finite := ⟨by decide +kernel, rfl⟩
  have hfinite : Procedure.doubling.Representable Floating.Finite := by
    refine ⟨?_, ?_, ?_⟩
    · simp [Procedure.doubling, LayoutEntry.Representable, AllConsts, Node.ofInt, Node.subnodes,
        hone, hthree]
    · simp [Procedure.doubling]
    · simp [Procedure.doubling, Procedure.nodes, AllConsts, Stmt.subnodesAll, Stmt.subnodes,
        Node.ofInt, Node.subnodes, hfactor, hone, hthree]
  have hchecked : Procedure.doubling.checkStructure = .ok () := rfl
  obtain ⟨-, -, -, -, -, -, -, -, -, hrestored⟩ := faithful_representable
  exact ⟨hfinite, hchecked, fun m => hrestored m _ hfinite hchecked⟩

end Fluxion
