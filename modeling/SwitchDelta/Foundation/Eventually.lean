import Mathlib

/-!
# What every run comes to

A state comes to a condition if every run from it, whichever steps it takes, reaches a state that
meets the condition after finitely many steps, and none is stuck before. `Eventually.bind` puts such
runs after each other, and `Eventually.map` carries them over to a system that does the same steps.

Where no step leads out of the states that meet the condition, one run into another state that is
stuck is enough against it (`not_eventually_of_run`).
-/

set_option autoImplicit false
set_option relaxedAutoImplicit false

namespace SwitchDelta.Foundation

variable {S S' : Type*} {step : S → S → Prop} {step' : S' → S' → Prop} {Q R : S → Prop}
  {Q' : S' → Prop} {s s' : S}

/-- Every run from a state reaches a state that meets the condition, and none is stuck before. -/
inductive Eventually (step : S → S → Prop) (Q : S → Prop) : S → Prop
  | done {s : S} : Q s → Eventually step Q s
  | next {s : S} : (∃ s', step s s') → (∀ s', step s s' → Eventually step Q s') →
      Eventually step Q s

/-- Runs after each other. -/
theorem Eventually.bind (h : Eventually step Q s) (hnext : ∀ s, Q s → Eventually step R s) :
    Eventually step R s := by
  induction h with
  | done hQ => exact hnext _ hQ
  | next hexists _ ih => exact .next hexists ih

theorem Eventually.mono (h : Eventually step Q s) (hQ : ∀ s, Q s → R s) : Eventually step R s :=
  h.bind fun s hs ↦ .done (hQ s hs)

/-- Another system takes the same steps wherever there is one. -/
theorem Eventually.map (h : Eventually step Q s) (f : S → S')
    (hforth : ∀ s s', step s s' → step' (f s) (f s'))
    (hback : ∀ s s₁ r, step s s₁ → step' (f s) r → ∃ s', step s s' ∧ f s' = r)
    (hQ : ∀ s, Q s → Q' (f s)) : Eventually step' Q' (f s) := by
  induction h with
  | done hs => exact .done (hQ _ hs)
  | next hexists _ ih =>
    obtain ⟨s₁, hstep⟩ := hexists
    refine .next ⟨f s₁, hforth _ _ hstep⟩ fun r hr ↦ ?_
    obtain ⟨s', hstep', rfl⟩ := hback _ _ _ hstep hr
    exact ih s' hstep'

/-- Some run reaches the condition. -/
theorem Eventually.exists_run (h : Eventually step Q s) :
    ∃ s', Relation.ReflTransGen step s s' ∧ Q s' := by
  induction h with
  | @done s hQ => exact ⟨s, .refl, hQ⟩
  | next hexists _ ih =>
    obtain ⟨s₁, hstep⟩ := hexists
    obtain ⟨s', hrun, hQ⟩ := ih s₁ hstep
    exact ⟨s', hrun.head hstep, hQ⟩

/-- A state on the way comes to the condition as well. -/
theorem Eventually.of_run (h : Eventually step Q s) (hfinal : ∀ s s', Q s → ¬step s s')
    (hrun : Relation.ReflTransGen step s s') : Eventually step Q s' := by
  induction hrun using Relation.ReflTransGen.head_induction_on with
  | refl => exact h
  | head hstep _ ih =>
    cases h with
    | done hQ => exact absurd hstep (hfinal _ _ hQ)
    | next _ hall => exact ih (hall _ hstep)

/-- One run into a state that is stuck. -/
theorem not_eventually_of_run (hfinal : ∀ s s', Q s → ¬step s s')
    (hrun : Relation.ReflTransGen step s s') (hnot : ¬Q s') (hstuck : ∀ r, ¬step s' r) :
    ¬Eventually step Q s := by
  intro h
  cases h.of_run hfinal hrun with
  | done hQ => exact hnot hQ
  | next hexists _ => exact hexists.elim hstuck

end SwitchDelta.Foundation
