import Fluxion.Proofs.Machine.Meaning
import Fluxion.Proofs.Machine.Steps

/-!
# Proofs/Machine/Implements — when a run of the machine carries out a computation

`Implements stop after x m` ties a machine to a computation in both directions at once:

* every result of `x` is reached: the machine gets where `after` (a value) or `stop` (what stops
  the run) says;
* if the run from `m` ends at all, `x` has a result.

The second half is what makes the tie an equivalence, and it needs no argument of its own:
`Implements` is closed under sequencing (`Implements.andThen`), under instructions before and after,
and under the rounds of a loop (`Implements.rounds`), so both halves are built up together.
-/

namespace Fluxion

variable {K V : Type} [Literal K] [Arithmetic K V]

open Arithmetic

namespace Program

variable {σ τ α β : Type} {prog : Program K} {inputs : Inputs K V}
  {stop : σ → Machine V → Prop} {after mid : α → Machine V → Prop} {next : β → Machine V → Prop}
  {x : Computation σ α} {f : α → Computation σ β} {m m' : Machine V} {k : Nat}

/-- Where a result leaves the machine. -/
def Lands (stop : σ → Machine V → Prop) (after : α → Machine V → Prop) :
    Except σ α → Machine V → Prop
  | .ok a => after a
  | .error s => stop s

/-- **A machine carries out a computation**: it gets to every result, and it ends only with one. -/
structure Implements (prog : Program K) (inputs : Inputs K V) (stop : σ → Machine V → Prop)
    (after : α → Machine V → Prop) (x : Computation σ α) (m : Machine V) : Prop where
  lands : ∀ r, x r → ∃ k m', Steps prog inputs k m m' ∧ Lands stop after r m'
  ends : ∀ n, Terminates prog inputs n m → ∃ r, x r

namespace Implements

/-- A result that is there already. -/
theorem of_lands {r : Except σ α} (h : Lands stop after r m) :
    Implements prog inputs stop after (.of r) m where
  lands := by
    rintro _ rfl
    exact ⟨0, m, .refl m, h⟩
  ends _ _ := ⟨r, rfl⟩

theorem congr {y : Computation σ α} (h : ∀ r, x r ↔ y r)
    (hx : Implements prog inputs stop after x m) : Implements prog inputs stop after y m where
  lands r hr := hx.lands r ((h r).mpr hr)
  ends n ht := by
    obtain ⟨r, hr⟩ := hx.ends n ht
    exact ⟨r, (h r).mp hr⟩

/-- Instructions before a computation. -/
theorem before (h : Steps prog inputs k m m') (hx : Implements prog inputs stop after x m') :
    Implements prog inputs stop after x m where
  lands r hr := by
    obtain ⟨k', m₂, hsteps, hland⟩ := hx.lands r hr
    exact ⟨k + k', m₂, h.trans hsteps, hland⟩
  ends n ht := hx.ends (n - k) (ht.of_steps h).2

/-- Instructions behind a computation that has a value. -/
theorem behind (hx : Implements prog inputs stop mid x m)
    (h : ∀ a m', mid a m' → ∃ k m₂, Steps prog inputs k m' m₂ ∧ after a m₂) :
    Implements prog inputs stop after x m where
  lands r hr := by
    obtain ⟨k, m₁, hsteps, hland⟩ := hx.lands r hr
    cases r with
    | error s => exact ⟨k, m₁, hsteps, hland⟩
    | ok a =>
      obtain ⟨k', m₂, hmore, hafter⟩ := h a m₁ hland
      exact ⟨k + k', m₂, hsteps.trans hmore, hafter⟩
  ends := hx.ends

/-- What stops a computation, said in other words. -/
theorem stopping {g : σ → τ} {stop' : τ → Machine V → Prop}
    (hx : Implements prog inputs stop after x m) (h : ∀ s m', stop s m' → stop' (g s) m') :
    Implements prog inputs stop' after (x.stopping g) m where
  lands := by
    rintro _ ⟨r, hr, rfl⟩
    obtain ⟨k, m₁, hsteps, hland⟩ := hx.lands r hr
    refine ⟨k, m₁, hsteps, ?_⟩
    cases r with
    | error s => exact h s m₁ hland
    | ok a => exact hland
  ends n ht := by
    obtain ⟨r, hr⟩ := hx.ends n ht
    exact ⟨r.mapError g, r, hr, rfl⟩

/-- **One computation after the other.** -/
theorem andThen (hx : Implements prog inputs stop mid x m)
    (hf : ∀ a m', mid a m' → Implements prog inputs stop next (f a) m') :
    Implements prog inputs stop next (x.andThen f) m where
  lands := by
    rintro r (⟨a, ha, hr⟩ | ⟨s, hs, rfl⟩)
    · obtain ⟨k, m₁, hsteps, hland⟩ := hx.lands _ ha
      obtain ⟨k', m₂, hmore, hland'⟩ := (hf a m₁ hland).lands r hr
      exact ⟨k + k', m₂, hsteps.trans hmore, hland'⟩
    · exact hx.lands _ hs
  ends n ht := by
    obtain ⟨r, hr⟩ := hx.ends n ht
    cases r with
    | error s => exact ⟨.error s, .inr ⟨s, hr, rfl⟩⟩
    | ok a =>
      obtain ⟨k, m₁, hsteps, hland⟩ := hx.lands _ hr
      obtain ⟨r', hr'⟩ := (hf a m₁ hland).ends (n - k) (ht.of_steps hsteps).2
      exact ⟨r', .inl ⟨a, hr, hr'⟩⟩

/-- **The rounds of a loop.**  `Top v b` is the machine before a round: it leaves the loop when the
variable has passed the upper bound, and otherwise gets, after at least one instruction, through the
body to the next round. -/
theorem rounds {upper : V} {body : V → β → Computation σ β} (Top : V → β → Machine V → Prop)
    (hexit : ∀ v b m, Top v b m → atMost v upper = false →
      ∃ k m', Steps prog inputs k m m' ∧ next b m')
    (hround : ∀ v b m, Top v b m → atMost v upper = true →
      ∃ k m', 0 < k ∧ Steps prog inputs k m m' ∧
        Implements prog inputs stop (Top (add v one)) (body v b) m')
    {v : V} {b : β} (htop : Top v b m) :
    Implements prog inputs stop next (Rounds upper body v b) m where
  lands r hr := by
    induction hr generalizing m with
    | done hv => exact hexit _ _ _ htop hv
    | step hv hb _ ih =>
      obtain ⟨k, m₁, -, hsteps, hbody⟩ := hround _ _ _ htop hv
      obtain ⟨k', m₂, hmore, hnext⟩ := hbody.lands _ hb
      obtain ⟨k'', m₃, hrest, hland⟩ := ih hnext
      exact ⟨k + k' + k'', m₃, (hsteps.trans hmore).trans hrest, hland⟩
    | stop hv hb =>
      obtain ⟨k, m₁, -, hsteps, hbody⟩ := hround _ _ _ htop hv
      obtain ⟨k', m₂, hmore, hland⟩ := hbody.lands _ hb
      exact ⟨k + k', m₂, hsteps.trans hmore, hland⟩
  ends n ht := by
    -- each round takes at least one instruction, so the fuel bounds the rounds
    induction n using Nat.strongRecOn generalizing v b m with
    | ind n ih =>
      cases hv : atMost v upper with
      | false => exact ⟨.ok b, .done hv⟩
      | true =>
        obtain ⟨k, m₁, hk, hsteps, hbody⟩ := hround _ _ _ htop hv
        obtain ⟨hle, ht₁⟩ := ht.of_steps hsteps
        obtain ⟨r, hr⟩ := hbody.ends _ ht₁
        cases r with
        | error s => exact ⟨.error s, .stop hv hr⟩
        | ok b' =>
          obtain ⟨k', m₂, hmore, hnext⟩ := hbody.lands _ hr
          obtain ⟨r', hr'⟩ := ih (n - k - k') (by omega) hnext (ht₁.of_steps hmore).2
          exact ⟨r', .step hv hr hr'⟩

end Implements

end Program

end Fluxion
