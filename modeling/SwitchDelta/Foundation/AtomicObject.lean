import SwitchDelta.Foundation.Transition

/-!
# Atomic objects

An object is given by what each of its operations does at once. Processes call the operations, and a
call takes effect at one moment between its invocation and its response. A system implements the object
if what its processes see is always a history of the object.

`Observed.simulates` is the rule for that: each step of the system is matched by steps of the object
that look the same. `History.once` and `History.effect_of_respond` are about properties of the object
that are never lost again.
-/

set_option autoImplicit false
set_option relaxedAutoImplicit false

namespace SwitchDelta.Foundation

/-! ### Runs as they are seen -/

section Runs

variable {S A L K O : Type*}

/-- A run by steps that meet the condition `ok`, with what is seen of them. -/
inductive Observed (init : S) (step : S → L → S → Prop) (ok : S → L → Prop)
    (observe : S → L → S → List O) : List O → S → Prop
  | init : Observed init step ok observe [] init
  | step {h : List O} {s s' : S} {l : L} : Observed init step ok observe h s → ok s l →
      step s l s' → Observed init step ok observe (h ++ observe s l s') s'

variable {init s s' : S} {step : S → L → S → Prop} {ok : S → L → Prop}
  {observe : S → L → S → List O} {h h' : List O}

theorem Observed.reachable (hrun : Observed init step ok observe h s) : Reachable init step ok s := by
  induction hrun with
  | init => exact .init
  | step _ hok hstep ih => exact ih.step hok hstep

/-- A single step, as it is seen. -/
theorem Observed.single {l : L} (hok : ok s l) (hstep : step s l s') :
    Observed s step ok observe (observe s l s') s' := by
  have hseen : Observed s step ok observe ([] ++ observe s l s') s' := Observed.init.step hok hstep
  rwa [List.nil_append] at hseen

/-- A run may go on from where another one ended. -/
theorem Observed.trans (hrun : Observed init step ok observe h s)
    (hrest : Observed s step ok observe h' s') : Observed init step ok observe (h ++ h') s' := by
  induction hrest with
  | init =>
    rw [List.append_nil]
    exact hrun
  | step _ hok hstep ih =>
    rw [← List.append_assoc]
    exact ih.step hok hstep

/-- The simulation rule: each step is matched by a run of the other system that looks the same. -/
theorem Observed.simulates {init' : A} {step' : A → K → A → Prop} {ok' : A → K → Prop}
    {observe' : A → K → A → List O} {R : S → A → Prop} (hrun : Observed init step ok observe h s)
    (hinit : R init init')
    (hstep : ∀ s l s' a, Reachable init step ok s → R s a → ok s l → step s l s' →
      ∃ a', Observed a step' ok' observe' (observe s l s') a' ∧ R s' a') :
    ∃ a, Observed init' step' ok' observe' h a ∧ R s a := by
  induction hrun with
  | init => exact ⟨init', .init, hinit⟩
  | step hrun hok hst ih =>
    obtain ⟨a, hseen, hR⟩ := ih
    obtain ⟨a', hseen', hR'⟩ := hstep _ _ _ a hrun.reachable hR hok hst
    exact ⟨a', hseen.trans hseen', hR'⟩

end Runs

/-! ### Objects -/

variable {T σ Op Res : Type*}

/-- An object: what an operation may answer in a state, and the state after it. -/
structure AtomicObject (σ Op Res : Type*) where
  effect : σ → Op → Res → σ → Prop

/-- What is seen of a process. -/
inductive Observation (T Op Res : Type*)
  | invoke (t : T) (op : Op)
  | respond (t : T) (op : Op) (res : Res)
  deriving DecidableEq

/-- A response of a kind. -/
def Observation.answers (E : Op → Res → Bool) : Observation T Op Res → Bool
  | .invoke _ _ => false
  | .respond _ op res => E op res

/-- The number of responses of a kind. -/
def answerCount (E : Op → Res → Bool) (h : List (Observation T Op Res)) : ℕ :=
  h.countP (Observation.answers E)

theorem answerCount_invoke (E : Op → Res → Bool) (h : List (Observation T Op Res)) (t : T) (op : Op) :
    answerCount E (h ++ [.invoke t op]) = answerCount E h := by
  rw [answerCount, List.countP_append, List.countP_singleton]
  rfl

theorem answerCount_respond (E : Op → Res → Bool) (h : List (Observation T Op Res)) (t : T) (op : Op)
    (res : Res) : answerCount E (h ++ [.respond t op res]) =
      answerCount E h + if E op res then 1 else 0 := by
  rw [answerCount, List.countP_append, List.countP_singleton]
  rfl

/-- Where a process is: it has called nothing, its call has had no effect yet, or it has. -/
inductive Progress (Op Res : Type*)
  | idle
  | called (op : Op)
  | done (op : Op) (res : Res)

/-- An object and the processes that call it. -/
structure AtomicState (T σ Op Res : Type*) where
  object : σ
  progress : T → Progress Op Res

namespace AtomicObject

variable [DecidableEq T] (obj : AtomicObject σ Op Res)

/-- The steps of a process, with what is seen of them. -/
inductive Step :
    AtomicState T σ Op Res → List (Observation T Op Res) → AtomicState T σ Op Res → Prop
  | invoke {a : AtomicState T σ Op Res} {t : T} (op : Op) : a.progress t = .idle →
      Step a [.invoke t op] { a with progress := Function.update a.progress t (.called op) }
  | effect {a : AtomicState T σ Op Res} {t : T} {op : Op} {res : Res} {object : σ} :
      a.progress t = .called op → obj.effect a.object op res object →
      Step a [] ⟨object, Function.update a.progress t (.done op res)⟩
  | respond {a : AtomicState T σ Op Res} {t : T} {op : Op} {res : Res} :
      a.progress t = .done op res →
      Step a [.respond t op res] { a with progress := Function.update a.progress t .idle }

/-- What the processes may see of the object from one state to another. -/
def History (a : AtomicState T σ Op Res) (h : List (Observation T Op Res))
    (a' : AtomicState T σ Op Res) : Prop :=
  Observed a obj.Step (fun _ _ ↦ True) (fun _ l _ ↦ l) h a'

variable {obj} {a a' : AtomicState T σ Op Res} {h : List (Observation T Op Res)}

theorem Step.history {l : List (Observation T Op Res)} (hstep : obj.Step a l a') :
    obj.History a l a' := by
  have hok : (fun (_ : AtomicState T σ Op Res) (_ : List (Observation T Op Res)) ↦ True) a l :=
    trivial
  exact Observed.single hok hstep

/-- After a step of one process, a call has had its effect if it had before or is that of the step. -/
theorem done_of_update {progress : T → Progress Op Res} {p : Progress Op Res} {t t' : T} {op : Op}
    {res : Res} (hdone : Function.update progress t p t' = .done op res) :
    t' = t ∧ p = .done op res ∨ t' ≠ t ∧ progress t' = .done op res := by
  by_cases ht : t' = t
  · rw [ht, Function.update_self] at hdone
    exact Or.inl ⟨ht, hdone⟩
  · rw [Function.update_of_ne ht] at hdone
    exact Or.inr ⟨ht, hdone⟩

/-! ### What is never lost -/

section Stable

variable {Q : σ → Prop} {E : Op → Res → Bool}

/-- The calls of a kind, where one of them makes a property of the object true that was not before: at
most one of them has had its effect. -/
structure Once (Q : σ → Prop) (E : Op → Res → Bool) (h : List (Observation T Op Res))
    (a : AtomicState T σ Op Res) : Prop where
  answered : answerCount E h ≤ 1
  holds : answerCount E h ≠ 0 → Q a.object
  done : ∀ t op res, a.progress t = .done op res → E op res = true →
    Q a.object ∧ answerCount E h = 0
  unique : ∀ t t' op op' res res', a.progress t = .done op res → a.progress t' = .done op' res' →
    E op res = true → E op' res' = true → t = t'

/-- A step of a process keeps this. -/
theorem Once.step (honce : Once Q E h a)
    (hstable : ∀ o op res o', obj.effect o op res o' → Q o → Q o')
    (hmakes : ∀ o op res o', obj.effect o op res o' → E op res = true → ¬Q o ∧ Q o')
    {l : List (Observation T Op Res)} (hstep : obj.Step a l a') : Once Q E (h ++ l) a' := by
  cases hstep with
  | @invoke t op hidle =>
    have hback (t' : T) (op' : Op) (res : Res)
        (hdone : Function.update a.progress t (.called op) t' = .done op' res) :
        a.progress t' = .done op' res := by
      rcases done_of_update hdone with ⟨-, hnow⟩ | ⟨-, hold⟩
      · cases hnow
      · exact hold
    have hcount := answerCount_invoke E h t op
    refine ⟨hcount ▸ honce.answered, hcount ▸ honce.holds, fun t' op' res hdone hE ↦ ?_,
      fun t₁ t₂ op₁ op₂ res₁ res₂ h₁ h₂ ↦ ?_⟩
    · rw [hcount]
      exact honce.done t' op' res (hback t' op' res hdone) hE
    · exact honce.unique t₁ t₂ op₁ op₂ res₁ res₂ (hback _ _ _ h₁) (hback _ _ _ h₂)
  | @effect t op res object hcalled heffect =>
    rw [List.append_nil]
    -- where the effect is of the kind, no other call of the kind has had one
    have hfirst (hE : E op res = true) : answerCount E h = 0 ∧
        ∀ t' op' res', a.progress t' = .done op' res' → E op' res' ≠ true := by
      have hnot := (hmakes _ _ _ _ heffect hE).1
      exact ⟨by_contra fun hne ↦ hnot (honce.holds hne),
        fun t' op' res' hdone hE' ↦ hnot (honce.done t' op' res' hdone hE').1⟩
    refine ⟨honce.answered, fun hne ↦ hstable _ _ _ _ heffect (honce.holds hne),
      fun t' op' res' hdone hE ↦ ?_, fun t₁ t₂ op₁ op₂ res₁ res₂ h₁ h₂ hE₁ hE₂ ↦ ?_⟩
    · rcases done_of_update hdone with ⟨-, hnow⟩ | ⟨-, hold⟩
      · obtain ⟨rfl, rfl⟩ := Progress.done.inj hnow
        exact ⟨(hmakes _ _ _ _ heffect hE).2, (hfirst hE).1⟩
      · obtain ⟨hQ, hzero⟩ := honce.done t' op' res' hold hE
        exact ⟨hstable _ _ _ _ heffect hQ, hzero⟩
    · rcases done_of_update h₁ with ⟨rfl, hnow⟩ | ⟨-, hold₁⟩
      · obtain ⟨rfl, rfl⟩ := Progress.done.inj hnow
        rcases done_of_update h₂ with ⟨rfl, -⟩ | ⟨-, hold₂⟩
        · rfl
        · exact absurd hE₂ ((hfirst hE₁).2 t₂ op₂ res₂ hold₂)
      · rcases done_of_update h₂ with ⟨-, hnow⟩ | ⟨-, hold₂⟩
        · obtain ⟨rfl, rfl⟩ := Progress.done.inj hnow
          exact absurd hE₁ ((hfirst hE₂).2 t₁ op₁ res₁ hold₁)
        · exact honce.unique t₁ t₂ op₁ op₂ res₁ res₂ hold₁ hold₂ hE₁ hE₂
  | @respond t op res hdone =>
    have hback (t' : T) (op' : Op) (res' : Res)
        (hdone' : Function.update a.progress t .idle t' = .done op' res') :
        t' ≠ t ∧ a.progress t' = .done op' res' := by
      rcases done_of_update hdone' with ⟨-, hnow⟩ | hold
      · cases hnow
      · exact hold
    have hcount := answerCount_respond E h t op res
    by_cases hE : E op res = true
    · obtain ⟨hQ, hzero⟩ := honce.done t op res hdone hE
      rw [hzero, if_pos hE] at hcount
      refine ⟨hcount.le, fun _ ↦ hQ, fun t' op' res' hdone' hE' ↦ ?_,
        fun t₁ t₂ op₁ op₂ res₁ res₂ h₁ h₂ ↦ ?_⟩
      · obtain ⟨hne, hold⟩ := hback t' op' res' hdone'
        exact absurd (honce.unique t' t op' op res' res hold hdone hE' hE) hne
      · exact honce.unique t₁ t₂ op₁ op₂ res₁ res₂ (hback _ _ _ h₁).2 (hback _ _ _ h₂).2
    · rw [if_neg hE, Nat.add_zero] at hcount
      refine ⟨hcount ▸ honce.answered, hcount ▸ honce.holds, fun t' op' res' hdone' hE' ↦ ?_,
        fun t₁ t₂ op₁ op₂ res₁ res₂ h₁ h₂ ↦ ?_⟩
      · rw [hcount]
        exact honce.done t' op' res' (hback t' op' res' hdone').2 hE'
      · exact honce.unique t₁ t₂ op₁ op₂ res₁ res₂ (hback _ _ _ h₁).2 (hback _ _ _ h₂).2

/-- If the calls of a kind make a property true that was not, and it is never lost again, then at most
one of them has its effect. -/
theorem History.once (hrun : obj.History a h a') (hidle : ∀ t, a.progress t = .idle)
    (hstable : ∀ o op res o', obj.effect o op res o' → Q o → Q o')
    (hmakes : ∀ o op res o', obj.effect o op res o' → E op res = true → ¬Q o ∧ Q o') :
    Once Q E h a' := by
  induction hrun with
  | init =>
    have hnone (t : T) (op : Op) (res : Res) : a.progress t ≠ .done op res := by
      rw [hidle]
      exact nofun
    exact ⟨Nat.zero_le 1, fun hne ↦ absurd rfl hne,
      fun t op res hdone ↦ absurd hdone (hnone t op res),
      fun t t' op op' res res' hdone ↦ absurd hdone (hnone t op res)⟩
  | step _ _ hstep ih => exact ih.step hstable hmakes hstep

/-- A property that is never lost is still there. -/
theorem History.stable (hrun : obj.History a h a')
    (hstable : ∀ o op res o', obj.effect o op res o' → Q o → Q o') (hQ : Q a.object) :
    Q a'.object := by
  induction hrun with
  | init => exact hQ
  | step _ _ hstep ih =>
    cases hstep with
    | invoke => exact ih
    | effect _ heffect => exact hstable _ _ _ _ heffect ih
    | respond => exact ih

/-- A call that comes after a property that is never lost has its effect where it holds. -/
theorem History.effect_of_respond (hrun : obj.History a h a')
    (hstable : ∀ o op res o', obj.effect o op res o' → Q o → Q o') (hQ : Q a.object) {t : T}
    (hidle : a.progress t = .idle) {op : Op} {res : Res} (hmem : .respond t op res ∈ h) :
    ∃ o o', Q o ∧ obj.effect o op res o' := by
  have hlater : (∀ op res, a'.progress t = .done op res → ∃ o o', Q o ∧ obj.effect o op res o') ∧
      ∀ op res, .respond t op res ∈ h → ∃ o o', Q o ∧ obj.effect o op res o' := by
    clear hmem
    induction hrun with
    | init =>
      refine ⟨fun op res hdone ↦ ?_, fun op res hmem ↦ absurd hmem List.not_mem_nil⟩
      rw [hidle] at hdone
      cases hdone
    | @step h b b' l hrun _ hstep ih =>
      obtain ⟨hbefore, hmem⟩ := ih
      cases hstep with
      | @invoke t' op' hidle' =>
        refine ⟨fun op res hdone ↦ ?_, fun op res hrespond ↦ hmem op res ?_⟩
        · rcases done_of_update hdone with ⟨-, hnow⟩ | ⟨-, hold⟩
          · cases hnow
          · exact hbefore op res hold
        · refine (List.mem_append.mp hrespond).resolve_right fun hlast ↦ ?_
          cases List.mem_singleton.mp hlast
      | @effect t' op' res' object hcalled heffect =>
        rw [List.append_nil]
        refine ⟨fun op res hdone ↦ ?_, hmem⟩
        rcases done_of_update hdone with ⟨-, hnow⟩ | ⟨-, hold⟩
        · obtain ⟨rfl, rfl⟩ := Progress.done.inj hnow
          exact ⟨_, _, History.stable hrun hstable hQ, heffect⟩
        · exact hbefore op res hold
      | @respond t' op' res' hdone' =>
        refine ⟨fun op res hdone ↦ ?_, fun op res hrespond ↦ ?_⟩
        · rcases done_of_update hdone with ⟨-, hnow⟩ | ⟨-, hold⟩
          · cases hnow
          · exact hbefore op res hold
        · rcases List.mem_append.mp hrespond with hold | hlast
          · exact hmem op res hold
          · obtain ⟨rfl, rfl, rfl⟩ := Observation.respond.inj (List.mem_singleton.mp hlast)
            exact hbefore _ _ hdone'
  exact hlater.2 op res hmem

end Stable

end AtomicObject

end SwitchDelta.Foundation
