import SwitchDelta.Kv.System

/-!
# Running the system

`Step` is a relation; here it is run. A `Move` names what happens next, a packet by its position
among the packets on the links, and `exec` performs it if it is allowed, with cleared buffers.
`Execution.reachable` turns a run of `exec` that succeeds into a run of the system, so that concrete
runs are found by evaluation.
-/

set_option autoImplicit false
set_option relaxedAutoImplicit false

namespace SwitchDelta.Kv

open Foundation Switch

/-- A buffer that was never used. -/
def RawKvMsg.cleared : RawKvMsg :=
  ⟨⟨0, 0, 0, 0, .kEnumReadReq⟩, 0, 0, 0, 0, 0, 0, 0, 0, 0, 0, 0, 0, 0, 0, 0, 0, 0, 0, []⟩

/-- What happens next. -/
inductive Move
  | start (c : CoroId) (test_type : TestType) (k : KvKeyType)
  | probe (c : CoroId) (k : KvKeyType)
  /-- The packet at this position is processed where it is. -/
  | deliver (position : ℕ)
  | keep (t : UInt8)
  | flush (t : UInt8)

instance (f : Flags) (c : CoroId) : Decidable (f.HasCoro c) :=
  inferInstanceAs (Decidable (_ ∧ _ ∧ _))

instance (S : Setup) (σ : State) (t : UInt8) : Decidable (σ.KeepsPolling S t) :=
  inferInstanceAs (Decidable (_ ∧ _ ∧ _))

/-- The packet at a position, the packets that stay, and whether it is the first of its link. -/
def State.packetAt (σ : State) (position : ℕ) :
    Option (Loc × Packet × List (Loc × Packet) × Bool) :=
  match σ.net[position]? with
  | none => none
  | some (ℓ, p) =>
    some (ℓ, p, σ.net.eraseIdx position, (σ.net.take position).all fun q ↦ q.1 ≠ ℓ)

/-- One move of the system, with its label. -/
def exec (S : Setup) (σ : State) : Move → Option (Label × State)
  | .start c test_type k =>
    if S.flags.HasCoro c ∧ (σ.coro c).pc = .idle ∧ k ∈ S.key_space then
      some (.start c test_type k, σ.startStep S c test_type k .cleared [])
    else none
  | .probe c k =>
    if S.flags.HasCoro c ∧ (σ.coro c).pc = .idle ∧ k ∈ S.key_space then
      some (.probe c k, σ.probeStep S c k .cleared)
    else none
  | .deliver position =>
    match σ.packetAt position with
    | none => none
    | some (ℓ, p, rest, first) =>
      match ℓ with
      | .up => some (.switch p, σ.switchStep S p rest)
      | .dnOut _ | .ixOut _ => if first then some (.switch p, σ.switchStep S p rest) else none
      | .dnIn t => some (.data t p, σ.dataStep S t p rest .cleared)
      | .ixIn t =>
        if first then
          if S.batching then
            if (σ.poll t).polled < kMaxWcCnt ∧ σ.HasBuffer t then
              some (.collect t p, σ.collectStep t p rest)
            else none
          else some (.index t p, σ.indexStep t p rest .cleared)
        else none
      | .ixBatch _ => none
      | .down server_id thread_id =>
        some (.client p, σ.clientStep S server_id thread_id p rest .cleared)
  | .keep t =>
    if S.batching ∧ σ.KeepsPolling S t then some (.keep t, σ.keepStep t) else none
  | .flush t =>
    let replies := ((queue σ.net (.ixBatch t)).map Packet.msg).filterMap fun req ↦
      batch_reply req .cleared
    let sorted := (batchEntries replies).insertionSort fun x y ↦ ¬ y.lt x
    if S.batching ∧ ¬ σ.KeepsPolling S t ∧ StdSort (batchEntries replies) sorted ∧
        replies.length = (queue σ.net (.ixBatch t)).length then
      some (.flush t, σ.flushStep t replies sorted)
    else none

theorem State.take_of_packetAt {σ : State} {position : ℕ} {ℓ : Loc} {p : Packet}
    {rest : List (Loc × Packet)} {first : Bool}
    (h : σ.packetAt position = some (ℓ, p, rest, first)) :
    Take σ.net ℓ p rest ∧ (first = true → TakeFirst σ.net ℓ p rest) := by
  unfold State.packetAt at h
  cases hget : σ.net[position]? with
  | none => simp [hget] at h
  | some q =>
    obtain ⟨ℓ', p'⟩ := q
    simp only [hget, Option.some.injEq, Prod.mk.injEq] at h
    obtain ⟨rfl, rfl, rfl, rfl⟩ := h
    obtain ⟨hlt, hvalue⟩ := List.getElem?_eq_some_iff.mp hget
    have hsplit : σ.net = σ.net.take position ++ (ℓ', p') :: σ.net.drop (position + 1) := by
      rw [← hvalue, ← List.drop_eq_getElem_cons hlt, List.take_append_drop]
    have hrest := List.eraseIdx_eq_take_drop_succ σ.net position
    refine ⟨⟨_, _, hsplit, hrest⟩, fun hfirst ↦ ⟨_, _, hsplit, hrest, fun q hq ↦ ?_⟩⟩
    simpa using List.all_eq_true.mp hfirst q hq

/-- Requests that all have a reply are prepared. -/
theorem prepared_of_filterMap {requests : List RawKvMsg} {buf : RawKvMsg}
    (h : (requests.filterMap fun req ↦ batch_reply req buf).length = requests.length) :
    Prepared requests (requests.filterMap fun req ↦ batch_reply req buf) := by
  induction requests with
  | nil => exact List.Forall₂.nil
  | cons req requests ih =>
    cases hreply : batch_reply req buf with
    | none =>
      have hle := List.length_filterMap_le (fun req ↦ batch_reply req buf) requests
      simp only [List.filterMap_cons, hreply, List.length_cons] at h
      omega
    | some reply =>
      simp only [List.filterMap_cons, hreply, List.length_cons, Nat.add_right_cancel_iff] at h ⊢
      exact List.Forall₂.cons ⟨buf, hreply⟩ (ih h)

/-- A move that is allowed is a step. -/
theorem exec_step {S : Setup} {σ σ' : State} {m : Move} {label : Label}
    (h : exec S σ m = some (label, σ')) : Step S σ label σ' := by
  cases m with
  | start c test_type k =>
    simp only [exec, Option.ite_none_right_eq_some, Option.some.injEq, Prod.mk.injEq] at h
    obtain ⟨⟨hcoro, hidle, hk⟩, rfl, rfl⟩ := h
    exact Step.start _ _ hcoro hidle hk
  | probe c k =>
    simp only [exec, Option.ite_none_right_eq_some, Option.some.injEq, Prod.mk.injEq] at h
    obtain ⟨⟨hcoro, hidle, hk⟩, rfl, rfl⟩ := h
    exact Step.probe _ hcoro hidle hk
  | deliver position =>
    simp only [exec] at h
    cases hat : σ.packetAt position with
    | none => simp [hat] at h
    | some packet =>
      obtain ⟨ℓ, p, rest, first⟩ := packet
      obtain ⟨htake, hfirst⟩ := State.take_of_packetAt hat
      simp only [hat] at h
      cases ℓ with
      | up =>
        obtain ⟨rfl, rfl⟩ := Prod.mk.inj (Option.some.inj h)
        exact Step.switchUp htake
      | dnIn t =>
        obtain ⟨rfl, rfl⟩ := Prod.mk.inj (Option.some.inj h)
        exact Step.data _ htake
      | dnOut t =>
        simp only [Option.ite_none_right_eq_some, Option.some.injEq, Prod.mk.injEq] at h
        obtain ⟨hf, rfl, rfl⟩ := h
        exact Step.switchData (hfirst hf)
      | ixIn t =>
        simp only [Option.ite_none_right_eq_some] at h
        obtain ⟨hf, h⟩ := h
        split_ifs at h with hbatching hpolled
        · obtain ⟨rfl, rfl⟩ := Prod.mk.inj (Option.some.inj h)
          exact Step.collect hbatching (hfirst hf) hpolled.1 hpolled.2
        · obtain ⟨rfl, rfl⟩ := Prod.mk.inj (Option.some.inj h)
          exact Step.index _ (by simpa using hbatching) (hfirst hf)
      | ixBatch t => exact absurd h (by simp)
      | ixOut t =>
        simp only [Option.ite_none_right_eq_some, Option.some.injEq, Prod.mk.injEq] at h
        obtain ⟨hf, rfl, rfl⟩ := h
        exact Step.switchIndex (hfirst hf)
      | down server_id thread_id =>
        obtain ⟨rfl, rfl⟩ := Prod.mk.inj (Option.some.inj h)
        exact Step.client _ htake
  | keep t =>
    simp only [exec, Option.ite_none_right_eq_some, Option.some.injEq, Prod.mk.injEq] at h
    obtain ⟨⟨hbatching, hkeeps⟩, rfl, rfl⟩ := h
    exact Step.keep hbatching hkeeps
  | flush t =>
    simp only [exec, Option.ite_none_right_eq_some, Option.some.injEq, Prod.mk.injEq] at h
    obtain ⟨⟨hbatching, hkeeps, hsort, hlength⟩, rfl, rfl⟩ := h
    exact Step.flush hbatching hkeeps (prepared_of_filterMap (by simpa using hlength)) hsort

/-- Moves one after the other, each of which meets a condition. -/
def execAll (S : Setup) (ok : State → Label → Bool) : State → List Move → Option State
  | σ, [] => some σ
  | σ, m :: moves =>
    match exec S σ m with
    | none => none
    | some (label, σ') => if ok σ label then execAll S ok σ' moves else none

/-- A run of moves is a run of the system. -/
theorem execAll_reachable {S : Setup} {ok : State → Label → Prop} {check : State → Label → Bool}
    (hcheck : ∀ σ label, check σ label = true → ok σ label) {moves : List Move}
    {init σ σ' : State} (hσ : Foundation.Reachable init (Step S) ok σ)
    (h : execAll S check σ moves = some σ') : Foundation.Reachable init (Step S) ok σ' := by
  induction moves generalizing σ with
  | nil =>
    obtain rfl := Option.some.inj h
    exact hσ
  | cons m moves ih =>
    simp only [execAll] at h
    cases hexec : exec S σ m with
    | none => simp [hexec] at h
    | some result =>
      obtain ⟨label, τ⟩ := result
      simp only [hexec, Option.ite_none_right_eq_some] at h
      exact ih (hσ.step (hcheck σ label h.1) (exec_step hexec)) h.2

/-- Moves one after the other, with their labels. -/
def execLabels (S : Setup) : State → List Move → Option (List Label × State)
  | σ, [] => some ([], σ)
  | σ, m :: moves =>
    match exec S σ m with
    | none => none
    | some (label, σ') => (execLabels S σ' moves).map fun result ↦ (label :: result.1, result.2)

/-- Moves with their labels are a run of the system. -/
theorem execLabels_run {S : Setup} {init : State} {moves : List Move} {labels labels' : List Label}
    {σ σ' : State} (hσ : Run init (Step S) labels σ)
    (h : execLabels S σ moves = some (labels', σ')) :
    Run init (Step S) (labels ++ labels') σ' := by
  induction moves generalizing σ labels labels' with
  | nil =>
    obtain ⟨rfl, rfl⟩ := Prod.mk.inj (Option.some.inj h)
    rwa [List.append_nil]
  | cons m moves ih =>
    simp only [execLabels] at h
    cases hexec : exec S σ m with
    | none => simp [hexec] at h
    | some result =>
      obtain ⟨label, τ⟩ := result
      simp only [hexec, Option.map_eq_some_iff, Prod.exists, Prod.mk.injEq] at h
      obtain ⟨tail, τ', htail, rfl, rfl⟩ := h
      rw [List.append_cons]
      exact ih (hσ.snoc (exec_step hexec)) htail

/-- Checked moves have labels. -/
theorem exists_execLabels {S : Setup} {check : State → Label → Bool} {moves : List Move}
    {σ σ' : State} (h : execAll S check σ moves = some σ') :
    ∃ labels, execLabels S σ moves = some (labels, σ') := by
  induction moves generalizing σ with
  | nil =>
    obtain rfl := Option.some.inj h
    exact ⟨[], rfl⟩
  | cons m moves ih =>
    simp only [execAll, execLabels] at h ⊢
    cases hexec : exec S σ m with
    | none => simp [hexec] at h
    | some result =>
      simp only [hexec] at h ⊢
      split_ifs at h
      obtain ⟨labels, hlabels⟩ := ih h
      exact ⟨result.1 :: labels, by simp [hlabels]⟩

end SwitchDelta.Kv
