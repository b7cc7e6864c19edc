import Mathlib

/-!
# Runs of a labelled transition system

A state is reachable under a condition `ok` when a run of the system leads to it in which every step
is taken from a state, and with a label, that meet the condition. Invariants and simulations are
proved once for one step.
-/

set_option autoImplicit false
set_option relaxedAutoImplicit false

namespace SwitchDelta.Foundation

variable {S A L : Type*}

/-- Reachability by steps that all meet the condition `ok`. -/
inductive Reachable (init : S) (step : S → L → S → Prop) (ok : S → L → Prop) : S → Prop
  | init : Reachable init step ok init
  | step {s s' : S} {l : L} :
      Reachable init step ok s → ok s l → step s l s' → Reachable init step ok s'

variable {init : S} {step : S → L → S → Prop} {ok : S → L → Prop}

/-- The invariant rule. -/
theorem Reachable.invariant {s : S} (h : Reachable init step ok s) (Inv : S → Prop)
    (hinit : Inv init)
    (hstep : ∀ s l s', Reachable init step ok s → Inv s → ok s l → step s l s' → Inv s') :
    Inv s := by
  induction h with
  | init => exact hinit
  | step hs hok hst ih => exact hstep _ _ _ hs ih hok hst

/-- A weaker condition on the steps reaches at least as much. -/
theorem Reachable.mono {ok' : S → L → Prop} {s : S} (h : Reachable init step ok s)
    (hok : ∀ s l, ok s l → ok' s l) : Reachable init step ok' s := by
  induction h with
  | init => exact Reachable.init
  | step _ hl hst ih => exact ih.step (hok _ _ hl) hst

/-- A condition that holds of every step from a reachable state can be added to the others. -/
theorem Reachable.strengthen {ok' : S → L → Prop} {s : S} (h : Reachable init step ok s)
    (hok : ∀ s l, Reachable init step ok s → ok s l → ok' s l) : Reachable init step ok' s := by
  induction h with
  | init => exact Reachable.init
  | step hs hl hst ih => exact ih.step (hok _ _ hs hl) hst

/-- A run may go on from where another one ended. -/
theorem Reachable.trans {s s' : S} (h : Reachable init step ok s) (h' : Reachable s step ok s') :
    Reachable init step ok s' := by
  induction h' with
  | init => exact h
  | step _ hl hst ih => exact ih.step hl hst

/-- A run of a function that computes steps. -/
theorem Reachable.foldlM {E : Type*} {exec : S → E → Option S}
    (hexec : ∀ s e s', exec s e = some s' → ∃ l, ok s l ∧ step s l s') {s s' : S}
    (hs : Reachable init step ok s) {events : List E} (h : events.foldlM exec s = some s') :
    Reachable init step ok s' := by
  induction events generalizing s with
  | nil =>
    obtain rfl := Option.some.inj h
    exact hs
  | cons e events ih =>
    obtain ⟨next, hnext, hrest⟩ := Option.bind_eq_some_iff.mp h
    obtain ⟨l, hok, hstep⟩ := hexec _ _ _ hnext
    exact ih (hs.step hok hstep) hrest

/-- The simulation rule: each concrete step is matched by at most one step of the abstract system,
which has no labels of its own. -/
theorem Reachable.simulates {init' : A} {step' : A → A → Prop} {R : S → A → Prop} {s : S}
    (h : Reachable init step ok s) (hinit : R init init')
    (hstep : ∀ s l s' a, Reachable init step ok s → Relation.ReflTransGen step' init' a → R s a →
      ok s l → step s l s' → ∃ a', (a' = a ∨ step' a a') ∧ R s' a') :
    ∃ a, Relation.ReflTransGen step' init' a ∧ R s a := by
  induction h with
  | init => exact ⟨init', Relation.ReflTransGen.refl, hinit⟩
  | step hs hl hst ih =>
    obtain ⟨a, ha, hR⟩ := ih
    obtain ⟨a', rfl | hstep', hR'⟩ := hstep _ _ _ a hs ha hR hl hst
    · exact ⟨a', ha, hR'⟩
    · exact ⟨a', ha.tail hstep', hR'⟩

/-- A run, with the labels of its steps. -/
inductive Run (init : S) (step : S → L → S → Prop) : List L → S → Prop
  | nil : Run init step [] init
  | snoc {labels : List L} {s s' : S} {l : L} :
      Run init step labels s → step s l s' → Run init step (labels ++ [l]) s'

/-- The cycle rule: a finite set each of whose members leads to another one contains a cycle. -/
theorem exists_transGen_self {r : S → S → Prop} {W : Set S} (hfinite : W.Finite) (hne : W.Nonempty)
    (hnext : ∀ a ∈ W, ∃ b ∈ W, r a b) : ∃ a, Relation.TransGen r a a := by
  by_contra hacyclic
  push Not at hacyclic
  have hfin : Finite W := hfinite
  let before : W → W → Prop := fun b a ↦ Relation.TransGen r a b
  have htrans : IsTrans W before := ⟨fun _ _ _ h h' ↦ h'.trans h⟩
  have hirrefl : Std.Irrefl before := ⟨fun a ↦ hacyclic a⟩
  obtain ⟨a, ha⟩ := hne
  obtain ⟨m, -, hmin⟩ :=
    (Finite.wellFounded_of_trans_of_irrefl before).has_min Set.univ ⟨⟨a, ha⟩, trivial⟩
  obtain ⟨b, hb, hr⟩ := hnext m m.2
  exact hmin ⟨b, hb⟩ trivial (Relation.TransGen.single hr)

end SwitchDelta.Foundation
