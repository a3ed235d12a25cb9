import Fluxion.Json.Parser
import Fluxion.Json.Printer
import Mathlib.Data.List.Basic
import Mathlib.Data.List.TakeWhile
import Mathlib.Tactic.IntervalCases

/-!
# Proofs/Storage/JsonText — what has been printed is read again

    Json ──pretty──▸ characters ──scan──▸ tokens ──parse──▸ Json

The lexer goes through a text in modes.  `Token.Reads` says how it gets from one mode to another and
which tokens it completes on the way, so readings are put one behind the other like the texts.  A
number or a word is complete only with the character that follows it: `Token.Spells` leaves it
pending, and a separator or the end of the text brings it out.

The parser goes through the tokens of a value from the frames it has open to the same frames with
the value behind it (`Json.Parsed`).  Together: the text of a value is read as this value, if the
texts of its numbers are read as these numbers (`Json.Legible.parse?_pretty`).
-/

namespace Fluxion

namespace Token

variable {m m' m'' : Mode} {c : Char} {cs cs' : List Char} {ts ts' : List Token}

/-! ## Readings -/

/-- **The lexer gets from one mode to another** over some characters, completing some tokens. -/
def Reads (m : Mode) (cs : List Char) (ts : List Token) (m' : Mode) : Prop :=
  ∀ out rest, scanFrom m out (cs ++ rest) = scanFrom m' (ts.reverse ++ out) rest

theorem Reads.refl (m : Mode) : Reads m [] [] m := fun _ _ => rfl

theorem Reads.of_step (h : step m c = some (m', ts)) : Reads m [c] ts m' := by
  intro out rest
  rw [List.singleton_append, scanFrom, h]

theorem Reads.append (h : Reads m cs ts m') (h' : Reads m' cs' ts' m'') :
    Reads m (cs ++ cs') (ts ++ ts') m'' := by
  intro out rest
  rw [List.append_assoc, h, h', List.reverse_append, List.append_assoc]

theorem Reads.cons (h : step m c = some (m', ts)) (h' : Reads m' cs ts' m'') :
    Reads m (c :: cs) (ts ++ ts') m'' :=
  (Reads.of_step h).append h'

/-- What can stand behind a value. -/
def separators : List Char := [',', '\n', ']', '\x7d']

/-- **Tokens that are still to come out of a mode**, at a separator or at the end of the text. -/
structure Pending (m : Mode) (ts : List Token) : Prop where
  finish : Token.finish m = some ts
  step : ∀ c ∈ separators, Token.step m c = (stepBlank c).map fun q => (q.1, ts ++ q.2)

theorem pending_blank : Pending .blank [] where
  finish := rfl
  step c _ := by simp [Token.step]

theorem pending_number {read : List Char} {n : Option Number} (h : number? read.reverse = some n) :
    Pending (.number read) [.num n] where
  finish := by rw [Token.finish, h, Option.map_some]
  step := by simp [separators, Token.step, inNumber, h, stepBlank]

theorem pending_word {read : List Char} {t : Token} (h : word? read.reverse = some t) :
    Pending (.word read) [t] where
  finish := by rw [Token.finish, h, Option.map_some]
  step := by simp [separators, Token.step, h, stepBlank]

/-- **Some characters spell some tokens**, the last of which may be pending. -/
def Spells (cs : List Char) (ts : List Token) : Prop :=
  ∃ m done pending, Reads .blank cs done m ∧ Pending m pending ∧ ts = done ++ pending

theorem Reads.spells (h : Reads .blank cs ts .blank) : Spells cs ts :=
  ⟨.blank, ts, [], h, pending_blank, (List.append_nil ts).symm⟩

/-- A separator completes what is pending. -/
theorem Spells.before (h : Spells cs ts) (hc : c ∈ separators)
    (hstep : stepBlank c = some (.blank, ts')) : Reads .blank (cs ++ [c]) (ts ++ ts') .blank := by
  obtain ⟨m, done, pending, hreads, hpending, rfl⟩ := h
  rw [List.append_assoc]
  refine hreads.append (.of_step ?_)
  rw [hpending.step c hc, hstep, Option.map_some]

/-- The end of the text completes what is pending. -/
theorem Spells.scan {text : String} (h : Spells text.toList ts) : scan text = some ts := by
  obtain ⟨m, done, pending, hreads, hpending, rfl⟩ := h
  have hend := hreads [] []
  rw [List.append_nil] at hend
  rw [Token.scan, hend, scanFrom, hpending.finish, Option.map_some, List.append_nil,
    ← List.reverse_append, List.reverse_reverse]

theorem pending_of_finish (h : finish m = some ts) : Pending m ts := by
  cases m with
  | blank =>
    obtain rfl := Option.some.inj h
    exact pending_blank
  | number read =>
    obtain ⟨n, hn, rfl⟩ := Option.map_eq_some_iff.mp h
    exact pending_number hn
  | word read =>
    obtain ⟨t, ht, rfl⟩ := Option.map_eq_some_iff.mp h
    exact pending_word ht
  | text _ | escape _ | unicode _ _ _ => cases h

/-- A scan that succeeds is a reading, up to what is pending at its end. -/
theorem exists_reads_of_scanFrom {out : List Token} (h : scanFrom m out cs = some ts) :
    ∃ m' done pending, Reads m cs done m' ∧ Pending m' pending ∧ ts = out.reverse ++
      (done ++ pending) := by
  induction cs generalizing m out with
  | nil =>
    obtain ⟨last, hlast, rfl⟩ := Option.map_eq_some_iff.mp h
    exact ⟨m, [], last, .refl m, pending_of_finish hlast, by simp⟩
  | cons c cs ih =>
    rw [scanFrom] at h
    split at h
    · next m₁ new hstep =>
      obtain ⟨m', done, pending, hreads, hpending, rfl⟩ := ih h
      exact ⟨m', new ++ done, pending, .cons hstep hreads, hpending, by simp⟩
    · cases h

/-- **To spell some tokens is to be scanned as them.** -/
theorem spells_iff_scan {text : String} : Spells text.toList ts ↔ scan text = some ts := by
  refine ⟨Spells.scan, fun h => ?_⟩
  obtain ⟨m, done, pending, hreads, hpending, rfl⟩ := exists_reads_of_scanFrom h
  exact ⟨m, done, pending, hreads, hpending, rfl⟩

/-! ## Strings -/

theorem hexValue?_hexDigit {d : Nat} (h : d < 16) : hexValue? (Json.hexDigit d) = some d := by
  interval_cases d <;> rfl

/-- A control character is spelled by its code unit. -/
theorem reads_unicode {n : Nat} (h : n < 0x20) (read : List Nat) :
    Reads (.text read) ['\\', 'u', '0', '0', Json.hexDigit (n / 16), Json.hexDigit (n % 16)] []
      (.text (n :: read)) := by
  have hhigh : step (.unicode read 2 0) (Json.hexDigit (n / 16)) =
      some (.unicode read 1 (n / 16), []) := by
    simp [step, hexValue?_hexDigit (d := n / 16) (by omega)]
  have hlow : step (.unicode read 1 (n / 16)) (Json.hexDigit (n % 16)) =
      some (.text (n :: read), []) := by
    simp [step, hexValue?_hexDigit (d := n % 16) (by omega), Nat.div_add_mod' n 16]
  have hprefix : Reads (.text read) ['\\', 'u', '0', '0'] [] (.unicode read 2 0) := fun _ _ => rfl
  exact hprefix.append (.cons hhigh (.of_step hlow))

/-- An escaped character is read as its code unit. -/
theorem reads_escapeChar (c : Char) (read : List Nat) :
    Reads (.text read) (Json.escapeChar c) [] (.text (c.toNat :: read)) := by
  unfold Json.escapeChar
  split
  case h_8 hquote hbackslash _ _ _ _ _ =>
    split
    · next hcontrol => exact reads_unicode hcontrol read
    · next hplain =>
      refine .of_step ?_
      rw [step, if_neg hquote, if_neg hbackslash, if_neg hplain]
  all_goals exact fun _ _ => rfl

theorem reads_chars (cs : List Char) (read : List Nat) :
    Reads (.text read) (cs.flatMap Json.escapeChar) []
      (.text ((cs.map Char.toNat).reverse ++ read)) := by
  induction cs generalizing read with
  | nil => exact .refl _
  | cons c cs ih =>
    rw [List.flatMap_cons, List.map_cons, List.reverse_cons, List.append_assoc]
    exact (reads_escapeChar c read).append (ih (c.toNat :: read))

/-- A character is no half of a surrogate pair. -/
theorem not_surrogate (c : Char) : isHigh c.toNat = false ∧ isLow c.toNat = false := by
  have hvalid : c.toNat < 0xD800 ∨ 0xDFFF < c.toNat ∧ c.toNat < 0x110000 := c.valid
  simp only [isHigh, isLow, Bool.and_eq_false_iff, decide_eq_false_iff_not]
  omega

theorem charsOnto_toNat (cs out : List Char) :
    charsOnto out (cs.map Char.toNat) = some (cs.reverse ++ out) := by
  induction cs generalizing out with
  | nil => rfl
  | cons c cs ih =>
    obtain ⟨hhigh, hlow⟩ := not_surrogate c
    rw [List.reverse_cons, List.append_assoc, List.singleton_append, ← ih (c :: out)]
    cases cs with
    | nil => simp [charsOnto, hhigh, hlow]
    | cons d cs => simp [charsOnto, hhigh, hlow]

/-- **A quoted string is read as that string.** -/
theorem reads_quote (s : String) : Reads .blank (Json.quote s).toList [.str (some s)] .blank := by
  have hstring : string? ((s.toList.map Char.toNat).reverse ++ []) = some s := by
    rw [List.append_nil, ← List.map_reverse, string?, charsOnto_toNat, List.reverse_reverse,
      List.append_nil, Option.map_some, String.ofList_toList]
  have hend : step (.text ((s.toList.map Char.toNat).reverse ++ [])) '"'
      = some (.blank, [.str (some s)]) := by
    rw [step, if_pos rfl, hstring]
  have hopen : step .blank '"' = some (.text [], []) := rfl
  have hmark : "\"".toList = ['"'] := by simp
  rw [Json.quote, String.toList_append, String.toList_append, hmark, String.toList_ofList]
  exact ((Reads.of_step hopen).append (reads_chars s.toList [])).append (.of_step hend)

/-! ## Words and numbers -/

theorem spells_null : Spells "null".toList [.null] :=
  ⟨.word ['l', 'l', 'u', 'n'], [], [.null], fun _ _ => rfl, pending_word rfl, rfl⟩

theorem spells_bool (b : Bool) : Spells (if b then "true" else "false").toList [.bool b] := by
  cases b with
  | true =>
    exact ⟨.word ['e', 'u', 'r', 't'], [], [.bool true], fun _ _ => rfl, pending_word rfl, rfl⟩
  | false =>
    exact ⟨.word ['e', 's', 'l', 'a', 'f'], [], [.bool false], fun _ _ => rfl,
      pending_word rfl, rfl⟩

theorem stepBlank_number (h : (c.isDigit || c == '-') = true) :
    stepBlank c = some (.number [c], []) := by
  unfold stepBlank
  split
  case h_12 => rw [if_pos h]
  all_goals exact absurd h (by decide)

theorem reads_number (h : ∀ c ∈ cs, inNumber c = true) (read : List Char) :
    Reads (.number read) cs [] (.number (cs.reverse ++ read)) := by
  induction cs generalizing read with
  | nil => exact .refl _
  | cons c cs ih =>
    obtain ⟨hc, hcs⟩ := List.forall_mem_cons.mp h
    have hstep : step (.number read) c = some (.number (c :: read), []) := by rw [step, if_pos hc]
    rw [List.reverse_cons, List.append_assoc]
    exact .cons hstep (ih hcs (c :: read))

end Token

/-- **A number whose text is scanned as the number.** -/
def Number.Legible (n : Number) : Prop := Token.scan n.text = some [.num (some n)]

/-! ### Machine words -/

namespace Decimal

theorem isDigit_of_mem_digitsOf {n : Nat} {c : Char} (h : c ∈ digitsOf n) : c.isDigit = true :=
  Nat.isDigit_of_mem_toDigits (by decide) (by decide) h

theorem digitsOf_eq (n : Nat) :
    digitsOf n = if n < 10 then [n.digitChar] else digitsOf (n / 10) ++ [(n % 10).digitChar] :=
  Nat.toDigits_eq_if (by decide)

theorem digitValue_digitChar {d : Nat} (h : d < 10) : digitValue d.digitChar = d := by
  interval_cases d <;> rfl

theorem digitsOf_ne_nil (n : Nat) : digitsOf n ≠ [] := by
  rw [digitsOf_eq]
  split <;> simp

/-- Only zero is written with a leading zero. -/
theorem head?_digitsOf {n : Nat} (h : 0 < n) : (digitsOf n).head? ≠ some '0' := by
  induction n using Nat.strong_induction_on with
  | _ n ih =>
    rw [digitsOf_eq]
    split
    · next hlt => interval_cases n <;> decide
    · rw [List.head?_append_of_ne_nil _ (digitsOf_ne_nil _)]
      exact ih (n / 10) (by omega) (by omega)

theorem collect_append {coeff v : Nat} {ds : List Char} {d : Char}
    (h : collect coeff ds = (v, ds.length)) (hfits : 10 * v + digitValue d ≤ coeffLimit) :
    collect coeff (ds ++ [d]) = (10 * v + digitValue d, ds.length + 1) := by
  induction ds generalizing coeff with
  | nil =>
    obtain ⟨rfl, -⟩ := Prod.mk.inj h
    simp [collect, hfits]
  | cons e ds ih =>
    rw [collect] at h
    split at h
    · next he =>
      obtain ⟨hv, hlength⟩ := Prod.mk.inj h
      have htaken : collect (10 * coeff + digitValue e) ds = (v, ds.length) :=
        Prod.ext hv (Nat.succ.inj hlength)
      rw [List.cons_append, collect, if_pos he, ih htaken]
      rfl
    · cases (Prod.mk.inj h).2

/-- **The digits of a machine word spell it.** -/
theorem collect_digitsOf {n : Nat} (h : n ≤ coeffLimit) :
    collect 0 (digitsOf n) = (n, (digitsOf n).length) := by
  induction n using Nat.strong_induction_on with
  | _ n ih =>
    rw [digitsOf_eq]
    split
    · next hlt => simp [collect, digitValue_digitChar hlt, h]
    · have hlast : digitValue (n % 10).digitChar = n % 10 := digitValue_digitChar (by omega)
      rw [collect_append (ih (n / 10) (by omega) (by omega)) (by rw [hlast]; omega), hlast,
        Nat.div_add_mod, List.length_append, List.length_singleton]

theorem ofDigits_digitsOf {n : Nat} (h : n ≤ coeffLimit) : ofDigits (digitsOf n) [] 0 = ⟨n, 0⟩ := by
  simp [ofDigits, collect_digitsOf h, collect]

end Decimal

namespace Number

theorem text_natCast (n : Nat) : (Number.int n).text.toList = Decimal.digitsOf n := by
  rw [text, String.toList_ofList, if_neg (by omega), List.nil_append, Int.natAbs_natCast]

/-- Digits without a leading zero are read as the integer they spell. -/
theorem number?_digitsOf {n : Nat} (h : n ≤ Decimal.coeffLimit) :
    Token.number? (Decimal.digitsOf n) = some (some (.int n)) := by
  have hdigit : ∀ c ∈ Decimal.digitsOf n, c.isDigit = true :=
    fun c => Decimal.isDigit_of_mem_digitsOf
  have hzero : (Decimal.digitsOf n).head? = some '0' → (Decimal.digitsOf n).length ≤ 1 := by
    intro hhead
    cases Nat.eq_zero_or_pos n with
    | inl hn => rw [hn]; decide
    | inr hn => exact absurd hhead (Decimal.head?_digitsOf hn)
  have hunsigned : Token.number? (Decimal.digitsOf n) =
      Token.unsigned? false (Decimal.digitsOf n) := by
    unfold Token.number?
    split
    · next cs heq => exact absurd (hdigit '-' (heq ▸ List.mem_cons_self)) (by decide)
    · rfl
  rw [hunsigned, Token.unsigned?, List.takeWhile_eq_self_iff.mpr hdigit,
    List.dropWhile_eq_nil_iff.mpr hdigit, if_neg (by simpa [Decimal.digitsOf_ne_nil] using hzero)]
  dsimp only
  rw [Decimal.ofDigits_digitsOf h]
  rfl

/-- **Machine words are legible.** -/
theorem legible_natCast {n : Nat} (h : n ≤ Decimal.coeffLimit) : (Number.int n).Legible := by
  obtain ⟨c, cs, hcs⟩ := List.exists_cons_of_ne_nil (Decimal.digitsOf_ne_nil n)
  have hdigit : ∀ d ∈ c :: cs, d.isDigit = true :=
    fun d hd => Decimal.isDigit_of_mem_digitsOf (hcs ▸ hd)
  obtain ⟨hc, hrest⟩ := List.forall_mem_cons.mp hdigit
  have hfirst : Token.step .blank c = some (.number [c], []) :=
    Token.stepBlank_number (by rw [hc, Bool.true_or])
  have hreads : Token.Reads .blank (c :: cs) [] (.number (cs.reverse ++ [c])) :=
    .cons hfirst (Token.reads_number (fun d hd => by simp [Token.inNumber, hrest d hd]) [c])
  have hnumber : Token.number? (cs.reverse ++ [c]).reverse = some (some (.int n)) := by
    rw [List.reverse_append, List.reverse_reverse, List.reverse_singleton,
      List.singleton_append, ← hcs, number?_digitsOf h]
  refine Token.spells_iff_scan.mp ?_
  rw [text_natCast, hcs]
  exact ⟨_, _, _, hreads, Token.pending_number hnumber, rfl⟩

end Number

/-! ## Lines between brackets -/

namespace Token

variable {α : Type} {f : α → String} {g : α → List Token} {xs : List α}

theorem Reads.then_spells {cs cs' : List Char} {ts ts' : List Token} (h : Reads .blank cs ts .blank)
    (h' : Spells cs' ts') : Spells (cs ++ cs') (ts ++ ts') := by
  obtain ⟨m, done, pending, hreads, hpending, rfl⟩ := h'
  exact ⟨m, ts ++ done, pending, h.append hreads, hpending, (List.append_assoc _ _ _).symm⟩

theorem reads_blanks (n : Nat) : Reads .blank (List.replicate n ' ') [] .blank := by
  have hblank : step .blank ' ' = some (.blank, []) := rfl
  induction n with
  | zero => exact .refl _
  | succ n ih => exact .cons hblank ih

theorem toList_newline (level : Nat) :
    (Json.newline level).toList = '\n' :: List.replicate (2 * level) ' ' := by
  have hbreak : "\n".toList = ['\n'] := by simp
  rw [Json.newline, String.toList_append, hbreak, String.toList_ofList, List.singleton_append]

theorem reads_newline (level : Nat) : Reads .blank (Json.newline level).toList [] .blank := by
  have hbreak : step .blank '\n' = some (.blank, []) := rfl
  rw [toList_newline]
  exact .cons hbreak (reads_blanks _)

/-- What stands on lines of their own spells its tokens with commas in between. -/
theorem spells_lines (level : Nat) (h : ∀ x ∈ xs, Spells (f x).toList (g x)) :
    Spells (("," ++ Json.newline level).intercalate (xs.map f)).toList
      ([.comma].intercalate (xs.map g)) := by
  have hcomma : ",".toList = [','] := by simp
  rw [String.toList_intercalate, String.toList_append, hcomma, List.map_map]
  induction xs with
  | nil => exact (Reads.refl .blank).spells
  | cons x xs ih =>
    obtain ⟨hx, hxs⟩ := List.forall_mem_cons.mp h
    cases xs with
    | nil => simpa using hx
    | cons y ys =>
      have hfirst := (hx.before (c := ',') (by decide) rfl).append (reads_newline level)
      have hall := hfirst.then_spells (ih hxs)
      simpa using hall

/-- **A block spells its lines between its brackets.** -/
theorem reads_block {left right : String} {opening closing : Token}
    (hleft : Reads .blank left.toList [opening] .blank)
    (hright : Reads .blank right.toList [closing] .blank) (level : Nat)
    (h : ∀ x ∈ xs, Spells (f x).toList (g x)) :
    Reads .blank (Json.block level left right (xs.map f)).toList
      (opening :: ([.comma].intercalate (xs.map g) ++ [closing])) .blank := by
  rw [Json.block, List.isEmpty_map]
  split
  · next hempty =>
    rw [List.isEmpty_iff.mp hempty, String.toList_append]
    exact hleft.append hright
  · have hbreak := (spells_lines (level + 1) h).before (c := '\n') (by decide) rfl
    have hlast := (hbreak.append (reads_blanks (2 * level))).append hright
    have hall := (hleft.append (reads_newline (level + 1))).append hlast
    simpa [toList_newline] using hall

end Token

/-! ## Values -/

namespace Json

mutual

/-- The tokens of a value. -/
def tokens : Json → List Token
  | .null | .unreadable => [.null]
  | .bool b => [.bool b]
  | .num n => [.num (some n)]
  | .str s => [.str (some s)]
  | .arr items => .openArray :: ([.comma].intercalate (tokensItems items) ++ [.closeArray])
  | .obj entries => .openObject :: ([.comma].intercalate (tokensEntries entries) ++ [.closeObject])

/-- The tokens of the items of an array, each by itself. -/
def tokensItems : List Json → List (List Token)
  | [] => []
  | j :: rest => tokens j :: tokensItems rest

/-- The tokens of the entries of an object, each by itself. -/
def tokensEntries : List (String × Json) → List (List Token)
  | [] => []
  | e :: rest => tokensEntry e :: tokensEntries rest

/-- The tokens of a key and its value. -/
def tokensEntry : String × Json → List Token
  | (k, j) => .str (some k) :: .colon :: tokens j

end

theorem tokensItems_eq (items : List Json) : tokensItems items = items.map tokens := by
  induction items with
  | nil => rw [tokensItems, List.map_nil]
  | cons j items ih => rw [tokensItems, ih, List.map_cons]

theorem tokensEntries_eq (entries : List (String × Json)) :
    tokensEntries entries = entries.map tokensEntry := by
  induction entries with
  | nil => rw [tokensEntries, List.map_nil]
  | cons e entries ih => rw [tokensEntries, ih, List.map_cons]

theorem prettyItems_eq (level : Nat) (items : List Json) :
    prettyItems level items = items.map (prettyAt level) := by
  induction items with
  | nil => rw [prettyItems, List.map_nil]
  | cons j items ih => rw [prettyItems, ih, List.map_cons]

theorem prettyEntries_eq (level : Nat) (entries : List (String × Json)) :
    prettyEntries level entries = entries.map (prettyEntry level) := by
  induction entries with
  | nil => rw [prettyEntries, List.map_nil]
  | cons e entries ih => rw [prettyEntries, ih, List.map_cons]

/-- **A value whose every part has a text of its own**: nothing unreadable, and legible numbers
only. -/
inductive Legible : Json → Prop where
  | null : Legible .null
  | bool (b : Bool) : Legible (.bool b)
  | num {n : Number} (h : n.Legible) : Legible (.num n)
  | str (s : String) : Legible (.str s)
  | arr {items : List Json} (h : ∀ j ∈ items, Legible j) : Legible (.arr items)
  | obj {entries : List (String × Json)} (h : ∀ e ∈ entries, Legible e.2) : Legible (.obj entries)

@[simp] theorem legible_str (s : String) : Legible (.str s) := .str s

@[simp] theorem legible_bool (b : Bool) : Legible (.bool b) := .bool b

@[simp] theorem legible_arr {items : List Json} : Legible (.arr items) ↔ ∀ j ∈ items, j.Legible :=
  ⟨fun h => by cases h; assumption, .arr⟩

@[simp] theorem legible_obj {entries : List (String × Json)} :
    Legible (.obj entries) ↔ ∀ e ∈ entries, e.2.Legible :=
  ⟨fun h => by cases h; assumption, .obj⟩

/-- **The text of a value spells its tokens.** -/
theorem Legible.spells_prettyAt {j : Json} (h : j.Legible) (level : Nat) :
    Token.Spells (prettyAt level j).toList j.tokens := by
  induction h generalizing level with
  | null => rw [prettyAt, tokens]; exact Token.spells_null
  | bool b => rw [prettyAt, tokens]; exact Token.spells_bool b
  | num h => rw [prettyAt, tokens]; exact Token.spells_iff_scan.mpr h
  | str s => rw [prettyAt, tokens]; exact (Token.reads_quote s).spells
  | @arr items _ ih =>
    have hleft : Token.Reads .blank "[".toList [.openArray] .blank := fun _ _ => rfl
    have hright : Token.Reads .blank "]".toList [.closeArray] .blank := fun _ _ => rfl
    rw [prettyAt, tokens, prettyItems_eq, tokensItems_eq]
    exact (Token.reads_block hleft hright level fun j hj => ih j hj (level + 1)).spells
  | @obj entries _ ih =>
    have hleft : Token.Reads .blank "\x7b".toList [.openObject] .blank := fun _ _ => rfl
    have hright : Token.Reads .blank "\x7d".toList [.closeObject] .blank := fun _ _ => rfl
    have hcolon : Token.Reads .blank ": ".toList [.colon] .blank := fun _ _ => rfl
    have hentry : ∀ e ∈ entries, Token.Spells (prettyEntry (level + 1) e).toList
        (tokensEntry e) := by
      intro e he
      rw [prettyEntry, tokensEntry, String.toList_append, String.toList_append]
      exact ((Token.reads_quote e.1).append hcolon).then_spells (ih e he (level + 1))
    rw [prettyAt, tokens, prettyEntries_eq, tokensEntries_eq]
    exact (Token.reads_block hleft hright level hentry).spells

/-! ## Reading the tokens of a value -/

variable {frames : List Frame} {rest : List Token}

theorem parseFrom_cons {frames' : List Frame} {e e' : Expect} {t : Token}
    (h : step? frames e t = some (frames', e')) (ts : List Token) :
    parseFrom frames e (t :: ts) = parseFrom frames' e' ts := by
  rw [parseFrom, h]

/-- **The parser reads the tokens of a value as the value**, inside whatever frames are open. -/
def Parsed (j : Json) : Prop :=
  ∀ frames rest, parseFrom frames .value (j.tokens ++ rest) = parseFrom frames (.after j) rest

/-- Where an array may end, a value is read like any other. -/
theorem parseFrom_firstItem (j : Json) :
    parseFrom frames .firstItem (j.tokens ++ rest) = parseFrom frames .value
      (j.tokens ++ rest) := by
  cases j <;> rw [tokens, List.cons_append, parseFrom, parseFrom] <;> rfl

/-- **Items between commas are put behind those already read.** -/
theorem parseFrom_items {j : Json} {items : List Json} (h : ∀ i ∈ j :: items, Parsed i)
    (done : List Json) :
    parseFrom (.array done :: frames) .value
        ([.comma].intercalate ((j :: items).map tokens) ++ .closeArray :: rest) =
      parseFrom frames (.after (.arr (done.reverse ++ j :: items))) rest := by
  obtain ⟨hj, hitems⟩ := List.forall_mem_cons.mp h
  induction items generalizing j done with
  | nil =>
    rw [List.map_singleton, List.intercalate_singleton, hj, parseFrom_cons (by rfl),
      List.reverse_cons]
  | cons k items ih =>
    obtain ⟨hk, hrest⟩ := List.forall_mem_cons.mp hitems
    have hlater := ih hitems (j :: done) hk hrest
    rw [List.map_cons, List.reverse_cons, List.append_assoc, List.singleton_append] at hlater
    rw [List.map_cons, List.map_cons, List.intercalate_cons_cons, List.append_assoc,
      List.append_assoc, hj, List.singleton_append, parseFrom_cons (by rfl), hlater]

/-- An entry as the parser keeps it. -/
def keyed (e : String × Json) : Option String × Json := (some e.1, e.2)

theorem ofEntries_keyed (entries : List (String × Json)) :
    ofEntries (entries.map keyed) = .obj entries.reverse := by
  have hkeys : ∀ es : List (String × Json),
      ((es.map keyed).mapM fun q => q.1.map (·, q.2)) = some es := by
    intro es
    induction es with
    | nil => rfl
    | cons e es ih => simp [keyed, ih]
  rw [ofEntries, ← List.map_reverse]
  split
  · next es hes => exact congrArg Json.obj (Option.some.inj (hes.symm.trans (hkeys _)))
  · next hes => cases hes.symm.trans (hkeys _)

/-- A key opens the frame of its entry. -/
theorem parseFrom_entry {e : String × Json} (h : Parsed e.2) (done : List (Option String × Json)) :
    parseFrom frames (.key done) (tokensEntry e ++ rest) =
      parseFrom (.object done (some e.1) :: frames) (.after e.2) rest := by
  rw [tokensEntry, List.cons_append, List.cons_append, parseFrom_cons (by rfl),
    parseFrom_cons (by rfl), h]

/-- Where an object may end, a key is read like any other. -/
theorem parseFrom_firstKey (e : String × Json) :
    parseFrom frames .firstKey (tokensEntry e ++ rest)
      = parseFrom frames (.key []) (tokensEntry e ++ rest) := by
  rw [tokensEntry, List.cons_append, parseFrom_cons (by rfl), parseFrom_cons (by rfl)]

/-- **Entries between commas are put behind those already read.** -/
theorem parseFrom_entries {e : String × Json} {entries : List (String × Json)}
    (h : ∀ d ∈ e :: entries, Parsed d.2) (done : List (String × Json)) :
    parseFrom frames (.key (done.map keyed))
        ([.comma].intercalate ((e :: entries).map tokensEntry) ++ .closeObject :: rest) =
      parseFrom frames (.after (.obj (done.reverse ++ e :: entries))) rest := by
  obtain ⟨he, hentries⟩ := List.forall_mem_cons.mp h
  induction entries generalizing e done with
  | nil =>
    have hclosed : ofEntries ((some e.1, e.2) :: done.map keyed) = .obj (e :: done).reverse :=
      ofEntries_keyed (e :: done)
    rw [List.map_singleton, List.intercalate_singleton, parseFrom_entry he,
      parseFrom_cons (by rfl), hclosed, List.reverse_cons]
  | cons d entries ih =>
    obtain ⟨hd, hrest⟩ := List.forall_mem_cons.mp hentries
    have hlater := ih hentries (e :: done) hd hrest
    rw [List.map_cons, List.map_cons, keyed, List.reverse_cons, List.append_assoc,
      List.singleton_append] at hlater
    rw [List.map_cons, List.map_cons, List.intercalate_cons_cons, List.append_assoc,
      List.append_assoc, parseFrom_entry he, List.singleton_append, parseFrom_cons (by rfl), hlater]

theorem intercalate_cons (ts : List Token) (tss : List (List Token)) :
    ∃ later, [Token.comma].intercalate (ts :: tss) = ts ++ later := by
  cases tss with
  | nil => exact ⟨[], by rw [List.intercalate_singleton, List.append_nil]⟩
  | cons us tss => exact ⟨_, by rw [List.intercalate_cons_cons, List.append_assoc]⟩

theorem parsed_arr {items : List Json} (h : ∀ j ∈ items, Parsed j) : Parsed (.arr items) := by
  intro frames rest
  rw [tokens, tokensItems_eq, List.cons_append, List.append_assoc, List.singleton_append,
    parseFrom_cons (by rfl)]
  cases items with
  | nil => exact parseFrom_cons (by rfl) rest
  | cons j items =>
    have hitems := @parseFrom_items frames rest _ _ h []
    obtain ⟨later, hlater⟩ := intercalate_cons j.tokens (items.map tokens)
    rw [List.map_cons, hlater, List.append_assoc] at hitems ⊢
    exact (parseFrom_firstItem j).trans hitems

theorem parsed_obj {entries : List (String × Json)} (h : ∀ e ∈ entries, Parsed e.2) :
    Parsed (.obj entries) := by
  intro frames rest
  rw [tokens, tokensEntries_eq, List.cons_append, List.append_assoc, List.singleton_append,
    parseFrom_cons (by rfl)]
  cases entries with
  | nil => exact parseFrom_cons (by rfl) rest
  | cons e entries =>
    have hentries := @parseFrom_entries frames rest _ _ h []
    obtain ⟨later, hlater⟩ := intercalate_cons (tokensEntry e) (entries.map tokensEntry)
    rw [List.map_cons, hlater, List.append_assoc] at hentries ⊢
    exact (parseFrom_firstKey e).trans hentries

theorem Legible.parsed {j : Json} (h : j.Legible) : Parsed j := by
  induction h with
  | null | bool _ | num _ | str _ =>
    intro frames rest
    rw [tokens]
    exact parseFrom_cons (by rfl) rest
  | arr _ ih => exact parsed_arr ih
  | obj _ ih => exact parsed_obj ih

/-- **What has been printed is read again.** -/
theorem Legible.parse?_pretty {j : Json} (h : j.Legible) : parse? j.pretty = some j := by
  have hread := h.parsed [] []
  rw [List.append_nil] at hread
  rw [parse?, pretty, (h.spells_prettyAt 0).scan]
  exact hread

end Json

end Fluxion
