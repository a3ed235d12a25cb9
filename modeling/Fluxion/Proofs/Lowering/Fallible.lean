import Fluxion.Lowering
import Mathlib.Data.List.Forall2

/-!
# Proofs/Lowering/Fallible — computations that have succeeded

What is known of the parts of a computation once the whole of it has succeeded: of a sequence
(`ok_of_bind`, and `Lowering.ok_of_bind` where a count is carried along), of a list that is checked
or mapped entry by entry, and of a fold (`foldlM_induction`).
-/

namespace Fluxion

variable {ε α β σ : Type}

/-- A computation that succeeds does so step by step. -/
theorem ok_of_bind {x : Except ε α} {f : α → Except ε β} {b : β} (h : x >>= f = .ok b) :
    ∃ a, x = .ok a ∧ f a = .ok b := by
  cases x with
  | error e => cases h
  | ok a => exact ⟨a, rfl, h⟩

theorem bind_of_ok {x : Except ε α} {f : α → Except ε β} {a : α} (h : x = .ok a) :
    x >>= f = f a := by
  rw [h]
  rfl

/-- A check of a list that succeeds has succeeded for every entry. -/
theorem forall_of_forM {f : α → Except ε Unit} {l : List α} (h : l.forM f = .ok ()) :
    ∀ a ∈ l, f a = .ok () := by
  induction l with
  | nil => simp
  | cons b l ih =>
    obtain ⟨⟨⟩, hb, hl⟩ := ok_of_bind h
    exact List.forall_mem_cons.mpr ⟨hb, ih hl⟩

theorem forM_of_forall {f : α → Except ε Unit} {l : List α} (h : ∀ a ∈ l, f a = .ok ()) :
    l.forM f = .ok () := by
  induction l with
  | nil => rfl
  | cons b l ih =>
    obtain ⟨hb, hl⟩ := List.forall_mem_cons.mp h
    exact (bind_of_ok hb).trans (ih hl)

/-- An entry of one list has its partner in the other. -/
theorem exists_of_forall₂ {R : α → β → Prop} {l : List α} {r : List β} {a : α}
    (h : List.Forall₂ R l r) (ha : a ∈ l) : ∃ b ∈ r, R a b := by
  induction h with
  | nil => cases ha
  | cons hab _ ih =>
    rcases List.mem_cons.mp ha with rfl | ha
    · exact ⟨_, List.mem_cons_self, hab⟩
    · obtain ⟨b, hb, hab⟩ := ih ha
      exact ⟨b, List.mem_cons_of_mem _ hb, hab⟩

theorem getElem?_of_forall₂ {R : α → β → Prop} {l : List α} {r : List β} (h : List.Forall₂ R l r)
    {i : Nat} {a : α} (ha : l[i]? = some a) : ∃ b, r[i]? = some b ∧ R a b := by
  obtain ⟨hi, rfl⟩ := List.getElem?_eq_some_iff.mp ha
  exact ⟨_, List.getElem?_eq_getElem (h.length_eq ▸ hi), h.get hi (h.length_eq ▸ hi)⟩

/-- A list that is mapped with success is mapped entry by entry. -/
theorem forall₂_of_mapM {f : α → Except ε β} {l : List α} {r : List β} (h : l.mapM f = .ok r) :
    List.Forall₂ (fun a b => f a = .ok b) l r := by
  induction l generalizing r with
  | nil =>
    obtain rfl : [] = r := Except.ok.inj h
    exact .nil
  | cons a l ih =>
    rw [List.mapM_cons] at h
    obtain ⟨b, hb, h⟩ := ok_of_bind h
    obtain ⟨r', hr, h⟩ := ok_of_bind h
    obtain rfl := Except.ok.inj h
    exact .cons hb (ih hr)

theorem mapM_of_forall₂ {f : α → Except ε β} {l : List α} {r : List β}
    (h : List.Forall₂ (fun a b => f a = .ok b) l r) : l.mapM f = .ok r := by
  induction h with
  | nil => rfl
  | cons hb _ ih =>
    rw [List.mapM_cons]
    exact (bind_of_ok hb).trans (bind_of_ok ih)

/-- **A fold that succeeds has kept an invariant** of what it has read and where that has led. -/
theorem foldlM_induction {f : σ → α → Except ε σ} {s s' : σ} {l : List α} (P : List α → σ → Prop)
    (h : l.foldlM f s = .ok s') (hnil : P [] s)
    (hstep : ∀ l s a s', P l s → f s a = .ok s' → P (l ++ [a]) s') : P l s' := by
  -- the invariant of a fold that has read a part of the list already
  suffices hfrom : ∀ done s, P done s → l.foldlM f s = .ok s' →
      P (done ++ l) s' from hfrom [] s hnil h
  clear h hnil
  induction l with
  | nil =>
    intro done s hs h
    obtain rfl : s = s' := Except.ok.inj h
    rwa [List.append_nil]
  | cons a l ih =>
    intro done s hs h
    obtain ⟨s₁, hs₁, h⟩ := ok_of_bind h
    rw [List.append_cons]
    exact ih _ _ (hstep _ _ _ _ hs hs₁) h

/-! ## Outcomes -/

/-- **A computation that gives what is promised, or fails as foreseen.** -/
def Yields (F : ε → Prop) (Q : α → Prop) : Except ε α → Prop
  | .ok a => Q a
  | .error e => F e

namespace Yields

variable {F G : ε → Prop} {P Q : α → Prop} {R : β → Prop} {x : Except ε α} {f : α → Except ε β}

theorem error (h : Yields F Q x) {e : ε} (hx : x = .error e) : F e := by
  subst hx
  exact h

theorem ok (h : Yields F Q x) {a : α} (hx : x = .ok a) : Q a := by
  subst hx
  exact h

theorem of_ok {a : α} (ha : Q a) (hx : x = .ok a) : Yields F Q x := by
  subst hx
  exact ha

/-- What a computation gives is what it gives. -/
theorem of_error (h : ∀ e, x = .error e → F e) : Yields F (fun a => x = .ok a) x := by
  cases x with
  | ok a => exact rfl
  | error e => exact h e rfl

theorem mono (h : Yields F P x) (hF : ∀ e, F e → G e) (hP : ∀ a, P a → Q a) : Yields G Q x := by
  cases x with
  | ok a => exact hP a h
  | error e => exact hF e h

theorem bind (h : Yields F P x) (hf : ∀ a, P a → Yields F R (f a)) : Yields F R (x >>= f) := by
  cases x with
  | ok a => exact hf a h
  | error e => exact h

/-- A list is mapped entry by entry. -/
theorem mapM {l : List α} {g : α → Except ε β} (h : ∀ a ∈ l, Yields F R (g a)) :
    Yields F (fun r => ∀ b ∈ r, R b) (l.mapM g) := by
  induction l with
  | nil => exact List.forall_mem_nil R
  | cons a l ih =>
    obtain ⟨ha, hl⟩ := List.forall_mem_cons.mp h
    rw [List.mapM_cons]
    refine ha.bind fun b hb => (ih hl).bind fun r hr => ?_
    exact List.forall_mem_cons.mpr ⟨hb, hr⟩

/-- A fold keeps what every step keeps. -/
theorem foldlM {σ : Type} {I : σ → Prop} {g : σ → α → Except ε σ} {l : List α} {s : σ} (hs : I s)
    (h : ∀ a ∈ l, ∀ s, I s → Yields F I (g s a)) : Yields F I (l.foldlM g s) := by
  induction l generalizing s with
  | nil => exact hs
  | cons a l ih =>
    obtain ⟨ha, hl⟩ := List.forall_mem_cons.mp h
    exact (ha s hs).bind fun s' hs' => ih hs' hl

end Yields

/-! ## Two computations side by side -/

/-- **Computations that fail alike, or give related results.** -/
def Agrees (R : α → β → Prop) : Except ε α → Except ε β → Prop
  | .ok a, .ok b => R a b
  | .error e, .error e' => e = e'
  | _, _ => False

namespace Agrees

variable {γ δ : Type} {R : α → β → Prop} {S : γ → δ → Prop} {x : Except ε α} {y : Except ε β}

/-- Both succeed, or both fail. -/
theorem both (h : Agrees R x y) :
    (∃ a b, x = .ok a ∧ y = .ok b ∧ R a b) ∨ ∃ e, x = .error e ∧ y = .error e := by
  cases x with
  | ok a =>
    cases y with
    | ok b => exact .inl ⟨a, b, rfl, rfl, h⟩
    | error e => exact False.elim h
  | error e =>
    cases y with
    | ok b => exact False.elim h
    | error e' => exact .inr ⟨e, rfl, congrArg _ (Eq.symm h)⟩

theorem mono {R' : α → β → Prop} (h : Agrees R x y) (hR : ∀ a b, R a b → R' a b) :
    Agrees R' x y := by
  obtain ⟨a, b, rfl, rfl, hab⟩ | ⟨e, rfl, rfl⟩ := h.both
  exacts [hR a b hab, rfl]

theorem bind {f : α → Except ε γ} {g : β → Except ε δ} (h : Agrees R x y)
    (hfg : ∀ a b, R a b → Agrees S (f a) (g b)) : Agrees S (x >>= f) (y >>= g) := by
  obtain ⟨a, b, rfl, rfl, hab⟩ | ⟨e, rfl, rfl⟩ := h.both
  exacts [hfg a b hab, rfl]

/-- The same computation, and what comes behind it. -/
theorem bindSame {f : α → Except ε γ} {g : α → Except ε δ}
    (hfg : ∀ a, x = .ok a → Agrees S (f a) (g a)) : Agrees S (x >>= f) (x >>= g) := by
  cases x with
  | error e => exact rfl
  | ok a => exact hfg a rfl

/-- What is known of each result is known of both. -/
theorem and {P : α → Prop} {Q : β → Prop} (h : Agrees R x y) (hx : ∀ a, x = .ok a → P a)
    (hy : ∀ b, y = .ok b → Q b) : Agrees (fun a b => R a b ∧ P a ∧ Q b) x y := by
  obtain ⟨a, b, rfl, rfl, hab⟩ | ⟨e, rfl, rfl⟩ := h.both
  exacts [⟨hab, hx a rfl, hy b rfl⟩, rfl]

theorem mapM {σ : Type} {l : List σ} {f : σ → Except ε α} {g : σ → Except ε β}
    (h : ∀ s ∈ l, Agrees R (f s) (g s)) : Agrees (List.Forall₂ R) (l.mapM f) (l.mapM g) := by
  induction l with
  | nil => exact List.Forall₂.nil
  | cons s l ih =>
    obtain ⟨hs, hl⟩ := List.forall_mem_cons.mp h
    rw [List.mapM_cons, List.mapM_cons]
    exact hs.bind fun a b hab => (ih hl).bind fun as bs habs => List.Forall₂.cons hab habs

end Agrees

namespace Lowering

variable {K : Type}

/-- Lowering that succeeds does so step by step, with the count handed on. -/
theorem ok_of_bind {x : Lowering K α} {f : α → Lowering K β} {n : Nat} {r : β × Nat}
    (h : (x >>= f) n = .ok r) : ∃ a n', x n = .ok (a, n') ∧ f a n' = .ok r := by
  obtain ⟨⟨a, n'⟩, hx, h⟩ := Fluxion.ok_of_bind h
  exact ⟨a, n', hx, h⟩

theorem bind_of_ok {x : Lowering K α} {f : α → Lowering K β} {n n' : Nat} {a : α}
    (h : x n = .ok (a, n')) : (x >>= f) n = f a n' := by
  change (x n >>= fun q => f q.1 q.2) = f a n'
  rw [h]
  rfl

/-- A computation that does not count leaves the count alone. -/
theorem ok_of_lift {x : Except (Error K) α} {n : Nat} {r : α × Nat}
    (h : (liftM x : Lowering K α) n = .ok r) : x = .ok r.1 ∧ n = r.2 := by
  obtain ⟨a, hx, h⟩ := Fluxion.ok_of_bind h
  obtain rfl := Except.ok.inj h
  exact ⟨hx, rfl⟩

/-- Lowering that gives what is promised or fails as foreseen, whatever the count. -/
def Yields (F : Error K → Prop) (Q : α → Prop) (x : Lowering K α) : Prop :=
  ∀ n, Fluxion.Yields F (fun r => Q r.1) (x n)

namespace Yields

variable {F : Error K → Prop} {P : α → Prop} {Q : β → Prop} {x : Lowering K α}
  {f : α → Lowering K β}

theorem pure {a : α} (ha : P a) : Yields F P (Pure.pure a) := fun _ => ha

theorem mono {R : α → Prop} (h : Yields F P x) (hP : ∀ a, P a → R a) : Yields F R x :=
  fun n => (h n).mono (fun _ => id) fun r => hP r.1

theorem bind (h : Yields F P x) (hf : ∀ a, P a → Yields F Q (f a)) : Yields F Q (x >>= f) :=
  fun n => (h n).bind fun r hr => hf r.1 hr r.2

theorem lift {y : Except (Error K) α} (h : Fluxion.Yields F P y) : Yields F P (liftM y) :=
  fun _ => h.bind fun _ ha => ha

end Yields

/-- Lowerings that fail alike or give related results, whatever the counts. -/
def Agrees {α β : Type} (R : α → β → Prop) (x : Lowering K α) (y : Lowering K β) : Prop :=
  ∀ m n, Fluxion.Agrees (fun r s => R r.1 s.1) (x m) (y n)

namespace Agrees

variable {α β γ δ : Type} {R : α → β → Prop} {S : γ → δ → Prop} {x : Lowering K α}
  {y : Lowering K β}
  {f : α → Lowering K γ} {g : β → Lowering K δ}

theorem pure {a : α} {b : β} (h : R a b) : Agrees R (Pure.pure a : Lowering K α) (Pure.pure b) :=
  fun _ _ => h

theorem bind (h : Agrees R x y) (hfg : ∀ a b, R a b → Agrees S (f a) (g b)) :
    Agrees S (x >>= f) (y >>= g) :=
  fun m n => (h m n).bind fun r s hrs => hfg r.1 s.1 hrs r.2 s.2

theorem lift {v : Except (Error K) α} {w : Except (Error K) β} (h : Fluxion.Agrees R v w) :
    Agrees R (liftM v : Lowering K α) (liftM w) :=
  fun _ _ => h.bind fun _ _ hab => hab

theorem and {P : α → Prop} {Q : β → Prop} (h : Agrees R x y) (hx : ∀ m r, x m = .ok r → P r.1)
    (hy : ∀ n s, y n = .ok s → Q s.1) : Agrees (fun a b => R a b ∧ P a ∧ Q b) x y :=
  fun m n => (h m n).and (hx m) (hy n)

end Agrees

end Lowering

end Fluxion
