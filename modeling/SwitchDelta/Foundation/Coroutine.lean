import Mathlib

/-!
# Coroutines that call atomic operations

A task runs on one thread with others and gives up control only while it waits for a call of some
operation. The operation is linearizable: it may suspend its caller any number of times, and at one
point between the call and the return it acts on the shared state at once. So a call is described by
the number of suspensions before that point and after it.

`Phase` is where a task stands, `issue` starts a call and `resume` continues it. `remaining` counts
the resumptions that a task still needs, and `resume_cases` says what one resumption does.
-/

set_option autoImplicit false
set_option relaxedAutoImplicit false

namespace SwitchDelta.Foundation

variable {γ σ : Type*}

/-- Where a task stands: between two calls, or suspended in a call, before or after its action. The
numbers are the suspensions still to come. -/
inductive Phase (γ : Type*)
  | idle
  | calling (call : γ) (before after : ℕ)
  | returning (after : ℕ)

/-- The task has no call under way. -/
def Phase.free : Phase γ → Bool
  | .idle => true
  | _ => false

/-- The number of resumptions until the call returns. -/
def Phase.remaining : Phase γ → ℕ
  | .idle => 0
  | .calling _ before after => before + after + 1
  | .returning after => after + 1

theorem Phase.remaining_eq_zero_iff {phase : Phase γ} : phase.remaining = 0 ↔ phase.free = true := by
  cases phase <;> simp [Phase.free, Phase.remaining]

/-- The tasks and the state they share. -/
structure Tasks (γ σ : Type*) where
  phase : ℕ → Phase γ
  shared : σ

namespace Tasks

variable (perform : γ → σ → σ)

/-- Run task `i` in its call up to the next suspension or the return. -/
def proceed (w : Tasks γ σ) (i : ℕ) (call : γ) (before after : ℕ) : Tasks γ σ :=
  match before, after with
  | before + 1, after => { w with phase := Function.update w.phase i (.calling call before after) }
  | 0, after + 1 => ⟨Function.update w.phase i (.returning after), perform call w.shared⟩
  | 0, 0 => ⟨Function.update w.phase i .idle, perform call w.shared⟩

/-- Resume task `i`, if it is in a call. -/
def resume (w : Tasks γ σ) (i : ℕ) : Tasks γ σ :=
  match w.phase i with
  | .idle => w
  | .calling call before after => w.proceed perform i call before after
  | .returning (after + 1) => { w with phase := Function.update w.phase i (.returning after) }
  | .returning 0 => { w with phase := Function.update w.phase i .idle }

theorem proceed_of_ne (w : Tasks γ σ) {i j : ℕ} (call : γ) (before after : ℕ) (hne : j ≠ i) :
    (w.proceed perform i call before after).phase j = w.phase j := by
  unfold proceed
  split <;> exact Function.update_of_ne hne _ _

theorem resume_of_ne (w : Tasks γ σ) {i j : ℕ} (hne : j ≠ i) :
    (w.resume perform i).phase j = w.phase j := by
  unfold resume
  split
  · rfl
  · exact proceed_of_ne perform w _ _ _ hne
  · exact Function.update_of_ne hne _ _
  · exact Function.update_of_ne hne _ _

/-- What a run in a call does: it stays before the action and leaves the shared state, or it acts. -/
theorem proceed_cases (w : Tasks γ σ) (i : ℕ) (call : γ) (before after : ℕ) :
    ((∃ b, (w.proceed perform i call before after).phase i = .calling call b after) ∧
        (w.proceed perform i call before after).shared = w.shared) ∨
      ((∀ c b a, (w.proceed perform i call before after).phase i ≠ .calling c b a) ∧
        (w.proceed perform i call before after).shared = perform call w.shared) := by
  unfold proceed
  split
  · exact Or.inl ⟨⟨_, Function.update_self _ _ _⟩, rfl⟩
  · exact Or.inr ⟨by simp, rfl⟩
  · exact Or.inr ⟨by simp, rfl⟩

theorem proceed_remaining (w : Tasks γ σ) (i : ℕ) (call : γ) (before after : ℕ) :
    ((w.proceed perform i call before after).phase i).remaining = before + after := by
  unfold proceed
  split
  · simp only [Function.update_self, Phase.remaining]
    omega
  · simp [Phase.remaining]
  · simp [Phase.remaining]

/-- To start a call is to resume a task that is suspended right at its beginning. -/
theorem proceed_eq_resume (w : Tasks γ σ) (i : ℕ) (call : γ) (before after : ℕ) :
    w.proceed perform i call before after =
      resume perform { w with phase := Function.update w.phase i (.calling call before after) }
        i := by
  unfold resume
  simp only [Function.update_self]
  unfold proceed
  split <;> simp only [Function.update_idem]

/-- A resumption brings a task one step closer to its return. -/
theorem resume_remaining (w : Tasks γ σ) (i : ℕ) :
    ((w.resume perform i).phase i).remaining = (w.phase i).remaining - 1 := by
  unfold resume
  split
  next h => rw [h]; rfl
  next h => rw [proceed_remaining, h]; rfl
  next h => simp [h, Phase.remaining]
  next h => simp [h, Phase.remaining]

/-- What a resumption does: nothing to the shared state, or the action of the call that the task is
in. Afterwards the task is in that call and has not acted, or it is past its action. -/
theorem resume_cases (w : Tasks γ σ) (i : ℕ) :
    ((w.resume perform i).shared = w.shared ∧
        ((∃ c b b' a, w.phase i = .calling c b a ∧
            (w.resume perform i).phase i = .calling c b' a) ∨
          ((∀ c b a, w.phase i ≠ .calling c b a) ∧
            ∀ c b a, (w.resume perform i).phase i ≠ .calling c b a))) ∨
      ∃ c b a, w.phase i = .calling c b a ∧
        (w.resume perform i).shared = perform c w.shared ∧
        ∀ c' b' a', (w.resume perform i).phase i ≠ .calling c' b' a' := by
  unfold resume
  split
  next h => exact Or.inl ⟨rfl, Or.inr ⟨by simp [h], by simp [h]⟩⟩
  next c b a h =>
    rcases proceed_cases perform w i c b a with ⟨⟨b', hphase⟩, hshared⟩ | ⟨hphase, hshared⟩
    · exact Or.inl ⟨hshared, Or.inl ⟨c, b, b', a, h, hphase⟩⟩
    · exact Or.inr ⟨c, b, a, h, hshared, hphase⟩
  next h => exact Or.inl ⟨rfl, Or.inr ⟨by simp [h], by simp⟩⟩
  next h => exact Or.inl ⟨rfl, Or.inr ⟨by simp [h], by simp⟩⟩

end Tasks

end SwitchDelta.Foundation
