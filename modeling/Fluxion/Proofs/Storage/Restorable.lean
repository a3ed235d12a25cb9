import Fluxion.Procedure.Store
import Fluxion.Proofs.Storage.Decoding
import Fluxion.Proofs.Expressions.Elimination
import Fluxion.Proofs.Generation.Stages

/-!
# Proofs/Storage/Restorable — which procedures can be restored

    procedure ──encode──▸ form ──pretty──▸ text ──parse, clip──▸ form ──decode, check──▸ procedure

The text of a form is read as the form (`Json.Legible.parse?_pretty`), but only down to 127 levels.
What a generated procedure has below them is lost, and the procedure with it: it is restored if and
only if its form ends in time (`EquationSystem.restored_iff_shallow`).

A sum is lowered to a chain of additions, each a node above the one before, so its terms add up to
depth: `x' = x + ⋯ + x` is restored with 61 terms and not with 62 (`Procedure.ofText_multiple`).
-/

namespace Fluxion

variable {K : Type}

section Forms

variable [Codec K]

/-! ## Legible forms -/

@[simp] theorem Json.legible_tagged {tag : String} {j : Json} :
    (Json.tagged tag j).Legible ↔ j.Legible := by
  rw [tagged, legible_obj, List.forall_mem_singleton]

@[simp] theorem Buffer.legible_encode (b : Buffer) : (encode b : Json).Legible := .str _

@[simp] theorem BinaryOp.legible_encode (op : BinaryOp) : (encode op : Json).Legible := .str _

theorem Lossless.legible {v : K} (h : Lossless v) : (encode v : Json).Legible := by
  obtain ⟨x, hx, hlegible⟩ := h.number
  rw [hx]
  exact .num hlegible

namespace Node

theorem legible_toJsonExclusion {e : Exclusion K} (h : e.value.toJson.Legible) :
    (toJsonExclusion e).Legible := by
  cases e
  simpa [toJsonExclusion, Exclusion.value] using h

/-- The form of a node is legible, if its constants are. -/
theorem legible_toJson {n : Node K} (hn : AllLossless n.subnodes) : n.toJson.Legible := by
  induction n using childInduction with
  | step n ih =>
    have hchild : ∀ c ∈ n.children, c.toJson.Legible := fun c hc => ih c hc (AllConsts.child hn hc)
    cases n with
    | const v => simpa [toJson] using (hn v (self_mem_subnodes _)).legible
    | sum x lo hi es body =>
      have hes : ∀ e ∈ es, (toJsonExclusion e).Legible := fun e he =>
        legible_toJsonExclusion (hchild e.value (by simp [children, List.mem_map_of_mem he]))
      simp_all [toJson, children, toJsonExclusions_eq]
    | _ => simp_all [toJson, children, toJsonAll_eq]

theorem legible_encode {n : Node K} (hn : AllLossless n.subnodes) : (encode n : Json).Legible :=
  legible_toJson hn

end Node

theorem LayoutEntry.legible_encode {e : LayoutEntry K} (he : e.Storable) :
    (encode e : Json).Legible := by
  cases e with
  | scalar name slot =>
    have hslot : (Json.int slot).Legible := .num (Number.legible_natCast he)
    simpa [encode, toJson] using hslot
  | family name start size =>
    change (toJson _).Legible
    simp [toJson, Node.legible_encode he.1, Node.legible_encode he.2]

namespace Stmt

mutual

theorem legible_toJson : (s : Stmt K) → AllLossless s.subnodes → s.toJson.Legible
  | .assign slot value, hs => by
    rw [subnodes] at hs
    obtain ⟨hslot, hvalue⟩ := allConsts_append.mp hs
    simp [toJson, Node.legible_encode hslot, Node.legible_encode hvalue]
  | .loop x lo hi body, hs => by
    rw [subnodes] at hs
    obtain ⟨hbounds, hbody⟩ := allConsts_append.mp hs
    obtain ⟨hlo, hhi⟩ := allConsts_append.mp hbounds
    simpa [toJson, Node.legible_encode hlo, Node.legible_encode hhi]
      using legible_toJsonAll body hbody

theorem legible_toJsonAll : (ss : List (Stmt K)) → AllLossless (subnodesAll ss) →
    ∀ j ∈ toJsonAll ss, j.Legible
  | [], _ => by simp [toJsonAll]
  | s :: ss, hs => by
    rw [subnodesAll] at hs
    obtain ⟨hfirst, hrest⟩ := allConsts_append.mp hs
    rw [toJsonAll, List.forall_mem_cons]
    exact ⟨legible_toJson s hfirst, legible_toJsonAll ss hrest⟩

end

end Stmt

namespace Procedure

variable {p : Procedure K}

/-- **The form of a procedure is legible**, if its slots and constants are. -/
theorem Storable.legible (h : p.Storable) : (encode p : Json).Legible := by
  have hnaming : (encode p.naming : Json).Legible := by
    change p.naming.toJson.Legible
    simp [Naming.toJson]
  have hstates : ∀ e ∈ p.states, (encode e : Json).Legible := fun e he =>
    LayoutEntry.legible_encode (h.states e he)
  have hparams : ∀ e ∈ p.params, (encode e : Json).Legible := fun e he =>
    LayoutEntry.legible_encode (h.params e he)
  have hbody : ∀ s ∈ p.body, (encode s : Json).Legible := fun s hs =>
    Stmt.legible_toJson s fun v hv => h.body v (Stmt.subnodes_of_mem hs hv)
  change p.toJson.Legible
  simpa [toJson, hnaming] using ⟨hstates, hparams, hbody⟩

/-! ## Restoring -/

/-- **What is read of a stored procedure** is the procedure, or nothing if it nests too deep. -/
theorem Storable.decodeText?_toText (h : p.Storable) :
    decodeText? p.toText = Json.upTo Json.levelLimit (encode p : Json).nesting p := by
  rw [decodeText?, Json.parseShallow?, toText, h.legible.parse?_pretty]
  exact seen_encode h.representable

/-- **A stored procedure is restored** if it passes the check and nests no deeper than a text is
read. -/
theorem Storable.ofText_toText (h : p.Storable) (hchecked : p.checkStructure = .ok ()) :
    ofText p.toText
      = if (encode p : Json).nesting ≤ Json.levelLimit then .ok p else .error .unreadable := by
  rw [ofText, h.decodeText?_toText, Json.upTo]
  split
  · rw [restore]
    simp only [hchecked]
  · rfl

end Procedure

end Forms

/-! ## Sums of many terms -/

/-- The sum of a node with itself: each term stands beside the sum of the terms before it. -/
def Node.multiple (n : Node K) : Nat → Node K
  | 0 => n
  | k + 1 => .binary .add (multiple n k) n

/-- **Two levels for each term.** -/
theorem Node.nesting_multiple [Codec K] (n : Node K) (k : Nat) :
    (n.multiple k).toJson.nesting = n.toJson.nesting + 2 * k := by
  induction k with
  | zero => rfl
  | succ k ih =>
    have hop : (encode BinaryOp.add : Json).nesting = 0 := rfl
    simp only [multiple, toJson, Json.tagged, Json.nesting, Json.nestingEntries,
      Json.nestingEntry, ih, hop]
    omega

/-- `x' = x + ⋯ + x`, with one term more than `k`. -/
def EquationSystem.multiple (k : Nat) : EquationSystem K :=
  ⟨[.of (.scalar "x") (.add (List.replicate (k + 1) (.symbol "x")))], none⟩

theorem Expr.hasIndexStructure_replicate {x : String} (k : Nat) :
    (add (List.replicate k (symbol x)) : Expr K).hasIndexStructure = false := by
  rw [hasIndexStructure, ← Bool.not_eq_true, hasIndexStructureAny_iff]
  rintro ⟨e, he, h⟩
  rw [List.eq_of_mem_replicate he] at h
  cases h

theorem Expr.eq_of_mem_freeSymbols_replicate {x : String} {k : Nat}
    {s : FreeSymbol} (h : s ∈ (add (List.replicate k (symbol x)) : Expr K).freeSymbols) :
    s = .scalar x := by
  rw [mem_freeSymbols, occurrences] at h
  induction k with
  | zero => cases h
  | succ k ih =>
    rw [List.replicate_succ, occurrencesAll, List.mem_append] at h
    exact h.elim List.mem_singleton.mp ih

theorem EquationSystem.isIndexed_multiple (k : Nat) :
    (multiple k : EquationSystem K).isIndexed = false := by
  have hfree : Equation.freeIndices (.scalar "x")
      (.add (List.replicate (k + 1) (.symbol "x")) : Expr K) = [] := by
    have hnone : (Expr.add (List.replicate (k + 1) (.symbol "x")) : Expr K).freeSymbols.filterMap
        FreeSymbol.index? = [] := by
      refine List.filterMap_eq_nil_iff.mpr fun s hs => ?_
      rw [Expr.eq_of_mem_freeSymbols_replicate hs]
      rfl
    rw [Equation.freeIndices, hnone]
    rfl
  simp [isIndexed, multiple, Equation.isIndexed, Equation.isScalar, Equation.of, hfree,
    Expr.hasIndexStructure_replicate]

theorem EquationSystem.missing_multiple (k : Nat) :
    missingFlat (multiple k : EquationSystem K).rhss (multiple k).targets
      ([] ++ timeExpr none) = [] := by
  refine List.eq_nil_iff_forall_not_mem.mpr fun s hs => ?_
  obtain ⟨⟨e, he, hs⟩, hunknown⟩ := mem_missingFlat.mp hs
  obtain rfl := List.mem_singleton.mp he
  rw [Expr.eq_of_mem_freeSymbols_replicate hs] at hunknown
  exact hunknown (List.mem_singleton.mpr rfl)

theorem Node.respell_multiple (n : Node K) (k : Nat) :
    (n.multiple k).transform respell = (n.transform respell).multiple k := by
  induction k with
  | zero => rfl
  | succ k ih => rw [multiple, transform, ih]; rfl

theorem Node.check_multiple {n : Node K} {scope : List String} (h : n.check scope = .ok ())
    (k : Nat) :
    (n.multiple k).check scope = .ok () := by
  induction k with
  | zero => exact h
  | succ k ih =>
    rw [multiple, check, ih, h]
    rfl

section Multiples

variable [Literal K] {c : LoweringContext K} {x : String} {n : Node K}

theorem Expr.lowerTerms_replicate (hx : c.names.lookup x = some n) (k j i : Nat) :
    lowerTerms c [] (some (n.multiple k)) (List.replicate j (.symbol x)) i = .ok
      (n.multiple (k + j), i) := by
  have hterm : lower c [] (.symbol x) i = .ok (n, i) := by rw [lower, hx]; rfl
  induction j generalizing k with
  | zero => rfl
  | succ j ih =>
    have hstep : lowerTerms c [] (some (n.multiple k)) (.symbol x :: List.replicate j (.symbol x))
        = lower c [] (.symbol x) >>= fun n' =>
          lowerTerms c [] (some (.binary .add (n.multiple k) n'))
          (List.replicate j (.symbol x)) := rfl
    rw [List.replicate_succ, hstep, Lowering.bind_of_ok hterm, Nat.add_comm j, ← Nat.add_assoc]
    exact ih (k + 1)

theorem Expr.lower_replicate (hx : c.names.lookup x = some n) (k i : Nat) :
    lower c [] (.add (List.replicate (k + 1) (.symbol x))) i = .ok (n.multiple k, i) := by
  have hterm : lower c [] (.symbol x) i = .ok (n, i) := by rw [lower, hx]; rfl
  have hstep : lowerTerms c [] none (.symbol x :: List.replicate k (.symbol x))
      = lower c [] (.symbol x) >>= fun n' =>
        lowerTerms c [] (some n') (List.replicate k (.symbol x)) := rfl
  rw [lower, List.replicate_succ, hstep, Lowering.bind_of_ok hterm]
  exact (lowerTerms_replicate hx 0 k i).trans (by rw [Nat.zero_add])

/-- The procedure of `x' = x + ⋯ + x`. -/
def Procedure.multiple (k : Nat) : Procedure K :=
  ⟨⟨"du", "u", "p", "t"⟩, [.scalar "x" 0], [],
    [.assign (.ofInt 0) ((Node.access .state (.ofInt 0)).multiple k)], true⟩

theorem Procedure.checkStructure_multiple (k : Nat) :
    (multiple k : Procedure K).checkStructure = .ok () := by
  have hslot : (Node.ofInt 0 : Node K).check [] = .ok () := rfl
  have hvalue : ((Node.access .state (.ofInt 0) : Node K).multiple k).check [] = .ok () :=
    Node.check_multiple rfl k
  refine checkStructure_eq_ok.mpr ⟨Nat.zero_le 1, ?_⟩
  rw [multiple, Stmt.checkAll, Stmt.check, hslot, hvalue]
  rfl

theorem finishProcedure_multiple (k : Nat) :
    finishProcedure {} (.ofScalars ["x"]) .empty
      [.assign (.ofInt 0) ((Node.access .state (.ofInt 0) : Node K).multiple k)] =
        .ok (.multiple k) := by
  have hcanonical :
      Stmt.canonical [.assign (.ofInt 0) ((Node.access .state (.ofInt 0) : Node K).multiple k)]
      = [.assign (.ofInt 0) ((Node.access .state (.ofInt 0)).multiple k)] := by
    rw [Stmt.canonical, Stmt.transformAll, Stmt.transform, Node.respell_multiple]
    rfl
  refine finishProcedure_of_checked ?_ (Procedure.checkStructure_multiple k)
  rw [hcanonical]
  rfl

theorem flatBody_multiple (hx : c.names.lookup "x" = some n) (k : Nat) :
    (flatBody c 0 [("x", .add (List.replicate (k + 1) (.symbol "x")))]).run 0
      = .ok ([.assign (.ofInt 0) (n.multiple k)], 0) :=
  Lowering.bind_of_ok (Expr.lower_replicate (c := { c with equation := .scalar "x" }) hx k 0)

/-- **The procedure of `x' = x + ⋯ + x`.** -/
theorem EquationSystem.generate_multiple (k : Nat) :
    (multiple k : EquationSystem K).generate [] {} = .ok (.multiple k) := by
  have hstates : flatStates [] (multiple k : EquationSystem K).targets = .ok ["x"] := rfl
  have hmissing : missingFlat (multiple k : EquationSystem K).rhss (multiple k).targets
    ([] ++ timeExpr (multiple k : EquationSystem K).time) = [] := missing_multiple k
  have hlayout : ParamLayout.ofParams ([] : List (Expr K)) = .ok .empty := rfl
  have hnames : scalarNodes (K := K) (.ofScalars ["x"]) .empty (multiple k : EquationSystem K).time
      = .ok [("x", .access .state (.ofInt 0))] := rfl
  rw [generate, isIndexed_multiple, if_pos (by rfl), generateFlat, if_neg (by simp [rhss, targets]),
    bind_of_ok hstates, hmissing]
  dsimp only
  rw [bind_of_ok (by rfl), bind_of_ok hlayout, bind_of_ok hnames]
  exact (bind_of_ok (flatBody_multiple rfl k)).trans (finishProcedure_multiple k)

variable [Codec K]

omit [Literal K] in
theorem Node.lossless_multiple {n : Node K} (h : AllLossless n.subnodes) (k : Nat) :
    AllLossless (n.multiple k).subnodes := by
  induction k with
  | zero => exact h
  | succ k ih =>
    intro v hv
    rcases List.mem_append.mp ((List.mem_cons.mp hv).resolve_left (by simp)) with hv | hv
    · exact ih v hv
    · exact h v hv

/-- The only constant of `x' = x + ⋯ + x` is the slot of `x`. -/
theorem Procedure.storable_multiple (hzero : Lossless (Literal.ofInt 0 : K)) (k : Nat) :
    (multiple k : Procedure K).Storable where
  states := List.forall_mem_singleton.mpr (Nat.zero_le _)
  params := List.forall_mem_nil _
  body := by
    have hslot : AllLossless (Node.ofInt 0 : Node K).subnodes := by
      intro v hv
      obtain rfl := Node.const.inj (List.mem_singleton.mp hv)
      exact hzero
    have hterm : AllLossless (Node.access .state (.ofInt 0) : Node K).subnodes :=
      fun v hv => hslot v ((List.mem_cons.mp hv).resolve_left (by simp))
    intro v hv
    rw [nodes, multiple, Stmt.subnodesAll, Stmt.subnodes, Stmt.subnodesAll, List.append_nil,
      List.mem_append] at hv
    exact hv.elim (hslot v) (Node.lossless_multiple hterm k v)

/-- **Seven levels for a single term, and two for each further one.** -/
theorem Procedure.nesting_multiple (hzero : Lossless (Literal.ofInt 0 : K)) (k : Nat) :
    (encode (multiple k : Procedure K) : Json).nesting = 2 * k + 7 := by
  obtain ⟨x, hx, -⟩ := hzero.number
  have hslot : (Node.ofInt 0 : Node K).toJson.nesting = 1 := by
    rw [Node.ofInt, Node.toJson, hx]
    rfl
  have hterm : (Node.access .state (.ofInt 0) : Node K).toJson.nesting = 3 := by
    have hbuffer : (encode Buffer.state : Json).nesting = 0 := rfl
    simp [Node.toJson, Json.tagged, Json.nesting, Json.nestingEntries, Json.nestingEntry,
      hslot, hbuffer]
  have hvalue := Node.nesting_multiple (.access .state (.ofInt 0) : Node K) k
  have hnaming : (encode (multiple k : Procedure K).naming : Json).nesting = 1 := rfl
  have hstates : Json.nestingItems ((multiple k : Procedure K).states.map encode) = 2 := rfl
  have hparams : Json.nestingItems ((multiple k : Procedure K).params.map encode) = 0 := rfl
  have hbody : Json.nestingItems ((multiple k : Procedure K).body.map encode) = 2 * k + 5 := by
    change max (max (Node.ofInt 0 : Node K).toJson.nesting
      (max ((Node.access .state (.ofInt 0) : Node K).multiple k).toJson.nesting 0) + 2) 0 = _
    omega
  change (toJson (multiple k)).nesting = _
  simp only [toJson, Json.nesting, Json.nestingEntries, Json.nestingEntry, hnaming, hstates,
    hparams, hbody]
  omega

/-- **A sum is restored up to its 61st term.** -/
theorem Procedure.ofText_multiple (hzero : Lossless (Literal.ofInt 0 : K)) (k : Nat) :
    ofText (multiple k : Procedure K).toText
      = if k ≤ 60 then .ok (multiple k : Procedure K) else .error .unreadable := by
  rw [(storable_multiple hzero k).ofText_toText (checkStructure_multiple k), nesting_multiple hzero]
  refine if_congr ?_ rfl rfl
  rw [Json.levelLimit]
  omega

end Multiples

/-! ## Which procedures are restored -/

variable [Literal K] [Codec K] {system : EquationSystem K} {params : List (Expr K)}
  {options : Options}
  {p : Procedure K}

/-- **A generated procedure is restored from its text if and only if it nests at most 127 levels
deep**; otherwise nothing can be read. -/
theorem EquationSystem.restored_iff_shallow (hp : system.generate params options = .ok p)
    (h : p.Storable) :
    Procedure.ofText p.toText
      = if (encode p : Json).nesting ≤ Json.levelLimit then .ok p else .error .unreadable := by
  obtain ⟨g, hlead⟩ := generate_stages hp
  exact h.ofText_toText hlead.checked

/-- A finite number whose text is scanned as the number is decoded again. -/
theorem Floating.lossless_of_legible {v : Floating}
    (hfinite : (v.value.isNaN || v.value.isInf) = false) (hsign : v.nanNegative = false)
    (hlegible : (Number.float v.value).Legible) : Lossless v := by
  have h : v.Finite := ⟨hfinite, hsign⟩
  exact ⟨⟨_, h.encode_eq, hlegible⟩, h.rereadable.decoded⟩

theorem Floating.lossless_zero : Lossless (Literal.ofInt 0 : Floating) := by
  have htext : Number.text (.float (Float.ofInt 0)) = "0.0" := by decide +kernel
  refine Floating.lossless_of_legible (by decide +kernel) rfl ?_
  change Token.scan (Number.text (.float (Float.ofInt 0))) = _
  rw [htext]
  rfl

/-- A sum of 61 terms is restored. -/
theorem EquationSystem.restored_sixtyOneTerms :
    (multiple 60 : EquationSystem Floating).generate [] {} = .ok (.multiple 60) ∧
      (Procedure.multiple 60 : Procedure Floating).Storable ∧
      Procedure.ofText (Procedure.multiple 60 : Procedure Floating).toText
        = .ok (.multiple 60 : Procedure Floating) := by
  have hstorable := Procedure.storable_multiple Floating.lossless_zero 60
  have hshallow : (encode (Procedure.multiple 60 : Procedure Floating) : Json).nesting ≤
      Json.levelLimit := by
    rw [Procedure.nesting_multiple Floating.lossless_zero]
    decide
  refine ⟨generate_multiple 60, hstorable, ?_⟩
  rw [restored_iff_shallow (generate_multiple 60) hstorable, if_pos hshallow]

/-- A sum of 62 terms is generated and stored, but cannot be read again. -/
theorem EquationSystem.unreadable_sixtyTwoTerms :
    (multiple 61 : EquationSystem Floating).generate [] {} = .ok (.multiple 61) ∧
      (Procedure.multiple 61 : Procedure Floating).Storable ∧
      Procedure.ofText (K := Floating) (Procedure.multiple 61 : Procedure Floating).toText
        = .error .unreadable := by
  refine ⟨generate_multiple 61, Procedure.storable_multiple Floating.lossless_zero 61, ?_⟩
  exact Procedure.ofText_multiple Floating.lossless_zero 61

end Fluxion
