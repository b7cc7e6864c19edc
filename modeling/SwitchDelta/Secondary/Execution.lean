import SwitchDelta.Secondary.System

/-!
# Running the system of the secondary index

A `Move` names the next step, a packet by its position, and `exec` performs it if it is allowed, with
receive buffers that hold zeros. `accept` is the choice of the switch where it has one.
-/

set_option autoImplicit false
set_option relaxedAutoImplicit false

namespace SwitchDelta.Secondary

open Foundation Kv

/-- What happens next. -/
inductive Move
  | write (op : Op)
  | read (op : Op)
  /-- The packet at this position is processed where it is, at this time. -/
  | deliver (position : ℕ) (accept : Bool) (time_ns : UInt64)
  | send (t : UInt8)
  /-- The batch of deletions at this position is processed. -/
  | del (position : ℕ)

/-- The switch processes a packet. -/
def execSwitch (f : Flags) (σ : State) (p : Packet) (rest : List (Loc × Packet)) (accept : Bool) :
    Option (Label × State) :=
  if p.kind = .replySwitch then
    some (.clear p,
      { σ with
        net := rest
        slot := if accept then Function.update σ.slot (p.msg f).switch_key none else σ.slot })
  else if p.kind = .readReq ∧ f.visibility = true ∧ σ.Holds (p.msg f) then
    some (.hit p, { σ with net := rest ++ [(.client, { p with kind := .readHit })] })
  else
    match p.kind.installed, p.kind.dest with
    | some (toIndex, toClient), some dest =>
      if accept = true ∧ f.visibility = true ∧
          (σ.slot (p.msg f).switch_key = none ∨ σ.Holds (p.msg f)) then
        some (.install p,
          { σ with
            net := rest ++
              [(.index, { p with kind := toIndex }), (.client, { p with kind := toClient })]
            slot := Function.update σ.slot (p.msg f).switch_key (some (p.msg f).key) })
      else some (.pass p, { σ with net := rest ++ [(dest, p)] })
    | _, some dest => some (.pass p, { σ with net := rest ++ [(dest, p)] })
    | _, none => none

/-- A node processes a packet. -/
def execDeliver (f : Flags) (secondary_test : Bool) (key_size : ℕ) (σ : State) (ℓ : Loc)
    (p : Packet) (rest : List (Loc × Packet)) (accept : Bool) (time_ns : UInt64) :
    Option (Label × State) :=
  match ℓ with
  | .switch => execSwitch f σ p rest accept
  | .data =>
    if p.kind = .appendReq then
      some (.append p time_ns, σ.appendStep f p rest time_ns fun _ ↦ 0)
    else none
  | .index =>
    if p.kind.IsInsert then
      some (.insert p fun _ ↦ 0, σ.insertStep f key_size p rest fun _ ↦ 0)
    else if p.kind = .readReq then
      some (.scan p fun _ ↦ 0,
        { σ with
          net := rest ++ [(.switch,
            { p with kind := .readReply, keys := secondary_scan f σ.sindex p fun _ ↦ 0 })] })
    else none
  | .client =>
    match σ.coro p.op.coro with
    | some (pc, op) => some (.client p, σ.resume f secondary_test pc op p rest)
    | none => none

/-- One move of the system, with its label. -/
def exec (f : Flags) (secondary_test : Bool) (key_size : ℕ) (σ : State) :
    Move → Option (Label × State)
  | .write op =>
    if σ.coro op.coro = none then some (.write op, σ.begin .put_primary .appendReq op) else none
  | .read op =>
    if σ.coro op.coro = none then some (.read op, σ.begin .get_secondary .readReq op) else none
  | .deliver position accept time_ns =>
    match σ.net[position]? with
    | some (ℓ, p) =>
      execDeliver f secondary_test key_size σ ℓ p (σ.net.eraseIdx position) accept time_ns
    | none => none
  | .send t =>
    if kMaxDelQueue ≤ (σ.del_queue t).length ∨ σ.net = [] then
      some (.send t, σ.send_sindex_del f t)
    else none
  | .del position =>
    match σ.dels[position]? with
    | some (t, batch) => some (.del t batch, σ.delStep t batch (σ.dels.eraseIdx position))
    | none => none

variable {f : Flags} {secondary_test : Bool} {key_size : ℕ} {σ σ' : State} {label : Label}

theorem execSwitch_step {p : Packet} {rest : List (Loc × Packet)} {accept : Bool}
    (htake : Take σ.net .switch p rest) (h : execSwitch f σ p rest accept = some (label, σ')) :
    Step f secondary_test key_size σ label σ' := by
  unfold execSwitch at h
  by_cases hclear : p.kind = .replySwitch
  · rw [if_pos hclear] at h
    obtain ⟨rfl, rfl⟩ := Prod.mk.inj (Option.some.inj h)
    refine Step.clear htake hclear ?_
    cases accept
    · exact Or.inl rfl
    · exact Or.inr rfl
  rw [if_neg hclear] at h
  by_cases hhit : p.kind = .readReq ∧ f.visibility = true ∧ σ.Holds (p.msg f)
  · rw [if_pos hhit] at h
    obtain ⟨rfl, rfl⟩ := Prod.mk.inj (Option.some.inj h)
    exact Step.hit htake hhit.1 hhit.2.1 hhit.2.2
  rw [if_neg hhit] at h
  have hread : p.kind = .readReq → ¬ (f.visibility = true ∧ σ.Holds (p.msg f)) :=
    fun hkind hboth ↦ hhit ⟨hkind, hboth⟩
  split at h
  · rename_i toIndex toClient dest hinstalled hdest
    split_ifs at h with haccept
    · obtain ⟨rfl, rfl⟩ := Prod.mk.inj (Option.some.inj h)
      exact Step.install htake hinstalled haccept.2.1 haccept.2.2
    · obtain ⟨rfl, rfl⟩ := Prod.mk.inj (Option.some.inj h)
      exact Step.pass htake hdest hread
  · rename_i dest hdest _
    obtain ⟨rfl, rfl⟩ := Prod.mk.inj (Option.some.inj h)
    exact Step.pass htake hdest hread
  · cases h

/-- A move that is allowed is a step. -/
theorem exec_step {m : Move} (h : exec f secondary_test key_size σ m = some (label, σ')) :
    Step f secondary_test key_size σ label σ' := by
  cases m with
  | write op =>
    simp only [exec, Option.ite_none_right_eq_some, Option.some.injEq, Prod.mk.injEq] at h
    obtain ⟨hidle, rfl, rfl⟩ := h
    exact Step.write hidle
  | read op =>
    simp only [exec, Option.ite_none_right_eq_some, Option.some.injEq, Prod.mk.injEq] at h
    obtain ⟨hidle, rfl, rfl⟩ := h
    exact Step.read hidle
  | deliver position accept time_ns =>
    simp only [exec] at h
    cases hat : σ.net[position]? with
    | none => simp [hat] at h
    | some q =>
      obtain ⟨ℓ, p⟩ := q
      have htake := take_eraseIdx hat
      simp only [hat] at h
      cases ℓ with
      | switch => exact execSwitch_step htake h
      | data =>
        simp only [execDeliver, Option.ite_none_right_eq_some, Option.some.injEq,
          Prod.mk.injEq] at h
        obtain ⟨hkind, rfl, rfl⟩ := h
        exact Step.append time_ns _ htake hkind
      | index =>
        simp only [execDeliver] at h
        split_ifs at h with hinsert hread
        · obtain ⟨rfl, rfl⟩ := Prod.mk.inj (Option.some.inj h)
          exact Step.insert _ htake hinsert
        · obtain ⟨rfl, rfl⟩ := Prod.mk.inj (Option.some.inj h)
          exact Step.scan _ htake hread
      | client =>
        simp only [execDeliver] at h
        cases hcoro : σ.coro p.op.coro with
        | none => simp [hcoro] at h
        | some w =>
          simp only [hcoro] at h
          obtain ⟨rfl, rfl⟩ := Prod.mk.inj (Option.some.inj h)
          exact Step.client htake hcoro
  | send t =>
    simp only [exec, Option.ite_none_right_eq_some, Option.some.injEq, Prod.mk.injEq] at h
    obtain ⟨hfull, rfl, rfl⟩ := h
    exact Step.send hfull
  | del position =>
    simp only [exec] at h
    cases hat : σ.dels[position]? with
    | none => simp [hat] at h
    | some q =>
      obtain ⟨t, batch⟩ := q
      simp only [hat] at h
      obtain ⟨rfl, rfl⟩ := Prod.mk.inj (Option.some.inj h)
      exact Step.del (take_eraseIdx hat)

/-- Moves one after the other, each of which meets a condition. -/
def execAll (f : Flags) (secondary_test : Bool) (key_size : ℕ) (ok : State → Label → Bool) :
    State → List Move → Option State
  | σ, [] => some σ
  | σ, m :: moves =>
    match exec f secondary_test key_size σ m with
    | none => none
    | some (label, σ') =>
      if ok σ label then execAll f secondary_test key_size ok σ' moves else none

/-- A run of moves is a run of the system. -/
theorem execAll_reachable {ok : State → Label → Prop} {check : State → Label → Bool}
    (hcheck : ∀ σ label, Reachable State.initial (Step f secondary_test key_size) ok σ →
      check σ label = true → ok σ label) {moves : List Move}
    (hσ : Reachable State.initial (Step f secondary_test key_size) ok σ)
    (h : execAll f secondary_test key_size check σ moves = some σ') :
    Reachable State.initial (Step f secondary_test key_size) ok σ' := by
  induction moves generalizing σ with
  | nil =>
    obtain rfl := Option.some.inj h
    exact hσ
  | cons m moves ih =>
    simp only [execAll] at h
    cases hexec : exec f secondary_test key_size σ m with
    | none => simp [hexec] at h
    | some result =>
      obtain ⟨label, τ⟩ := result
      simp only [hexec, Option.ite_none_right_eq_some] at h
      exact ih (hσ.step (hcheck σ label hσ h.1) (exec_step hexec)) h.2

end SwitchDelta.Secondary
