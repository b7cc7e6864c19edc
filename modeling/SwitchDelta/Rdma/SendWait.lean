import SwitchDelta.Rdma.SendQueue

/-!
# The wait for a send buffer

When the requests posted and pending fill the ring, the loop of `get_send_msg_sg` polls until one of
them is released. If nothing is on its way it posts the pending requests first, and a whole ring of
requests has signalled ones among them. But requests behind the last signalled one are never reported:
with some of them posted, and enough pending ones to fill the ring together with these, no completion
that the loop asks for makes room, and the pending requests are not posted either.

`get_waits_iff` says that this is the only case. A call asks only for completions that come, and
returns, exactly if no request has been posted since the last signalled one or those that have been
leave room for the pending ones.
-/

set_option autoImplicit false
set_option relaxedAutoImplicit false

namespace SwitchDelta.Rdma

open Foundation
open Kv (kMaxSignal kStaticSendBuf)

namespace SendQueue

/-! ### The polls of the loop -/

/-- The requests posted and pending fill the ring. -/
def Full (s : SendQueue) : Prop := kStaticSendBuf ≤ s.send_counter + s.send_pending_cnt

/-- A round of the loop up to `poll_cq_a_wc`. -/
def Asks (cq_len : ℕ) (s w : SendQueue) : Prop :=
  s.Full ∧ if s.send_counter = 0 then Post cq_len s w else w = s

/-- The loop that starts in the first state asks for a completion in the second. -/
inductive PollsAt (cq_len : ℕ) : SendQueue → SendQueue → Prop
  | first {s w : SendQueue} : Asks cq_len s w → PollsAt cq_len s w
  | next {s w s₁ w' : SendQueue} : Asks cq_len s w → Polled 1 w s₁ → PollsAt cq_len s₁ w' →
      PollsAt cq_len s w'

/-- A signalled request is posted and its completion not yet polled. -/
def Outstanding (s : SendQueue) : Prop :=
  ∃ n, s.covered ≤ n ∧ n < s.issued.length ∧ signaledAt s.issued n = true

/-- No request is posted behind the last signalled one, or those that are leave room for the pending
requests. -/
def Spares (s : SendQueue) : Prop :=
  s.send_cnt_bf_signal = 0 ∨ s.send_cnt_bf_signal + s.send_pending_cnt < kStaticSendBuf

section

variable {s s' s₁ w : SendQueue} {all : List Request} {cq_len n k slot : ℕ} {ids : List ℕ}

/-! ### What is outstanding -/

theorem lastEnd_mono (l : List Request) {m n : ℕ} (hmn : m ≤ n) : lastEnd l m ≤ lastEnd l n := by
  induction n, hmn using Nat.le_induction with
  | base => exact le_rfl
  | succ n _ ih =>
    rw [lastEnd]
    split_ifs
    · exact (lastEnd_le l m).trans (by omega)
    · exact ih

/-- A signalled request is outstanding unless only the requests behind the last signalled one are. -/
theorem Inv.outstanding_iff (h : Inv s) : s.Outstanding ↔ s.send_counter ≠ s.send_cnt_bf_signal := by
  have hbehind := h.tally.behind
  have hcounter := h.accounted.counter
  have hboundary := h.accounted.boundary
  have hle : s.covered ≤ s.issued.length := by omega
  constructor
  · rintro ⟨n, hn, hlt, hsignaled⟩ heq
    have hend : lastEnd s.issued (n + 1) = n + 1 := by rw [lastEnd, if_pos hsignaled]
    have hmono : lastEnd s.issued (n + 1) ≤ lastEnd s.issued s.issued.length :=
      lastEnd_mono s.issued hlt
    omega
  · intro hne
    by_contra hnone
    refine hne ?_
    have hlast : lastEnd s.issued s.issued.length = lastEnd s.issued s.covered := by
      refine lastEnd_eq hle fun i hi hlt ↦ ?_
      by_contra hsignaled
      exact hnone ⟨i, hi, hlt, Bool.not_eq_false _ ▸ hsignaled⟩
    omega

theorem Inv.behind_le (h : Inv s) : s.send_cnt_bf_signal ≤ s.send_counter := by
  have hbehind := h.tally.behind
  have hcounter := h.accounted.counter
  have hmono := lastEnd_mono s.issued (h.accounted.covered_le.trans h.accounted.completed_le)
  rw [h.accounted.boundary] at hmono
  omega

/-! ### The steps that are always possible -/

theorem exists_checkSignal (cq_len : ℕ) (s : SendQueue) : ∃ s', CheckSignal cq_len s s' := by
  by_cases hfull : s.signal_counter = cq_len
  · -- a completion of another queue pair
    have hpoll : Polled 1 s (({ s with cq := none :: s.cq } : SendQueue).skip s.cq) :=
      Polled.other s.signal_counter (none :: s.cq) rfl (Polled.skip rfl Polled.refl)
    exact ⟨_, (if_pos hfull).mpr ⟨1, le_rfl, by decide, hpoll⟩⟩
  · exact ⟨s, checkSignal_of_ne hfull⟩

theorem exists_generate (cq_len : ℕ) (ids : List ℕ) (s : SendQueue) :
    ∃ s', Generate cq_len ids s s' := by
  induction ids generalizing s with
  | nil => exact ⟨s, Generate.nil⟩
  | cons id ids ih =>
    cases hsignals : s.signals id with
    | false =>
      obtain ⟨s', hgen⟩ := ih (s.mark id)
      exact ⟨s', Generate.plain hsignals hgen⟩
    | true =>
      obtain ⟨s₁, hcheck⟩ := exists_checkSignal cq_len (s.mark id)
      obtain ⟨s', hgen⟩ := ih (s₁.set_signal_cnt id)
      exact ⟨s', Generate.signaled hsignals hcheck hgen⟩

theorem exists_post (cq_len : ℕ) (s : SendQueue) : ∃ s', Post cq_len s s' := by
  by_cases hnone : s.send_pending_cnt = 0
  · exact ⟨s, (if_pos hnone).mpr rfl⟩
  · obtain ⟨s₁, hgen⟩ := exists_generate cq_len s.pendingSlots s
    exact ⟨_, (if_neg hnone).mpr ⟨s₁, hgen, rfl⟩⟩

/-- The completion of an outstanding request comes when the NIC has completed everything, and its poll
releases requests. -/
theorem Inv.exists_release (h : Inv s) (hout : s.Outstanding) :
    ∃ s', Polled 1 s s' ∧ s.covered < s'.covered := by
  induction hleft : s.issued.length - s.completed generalizing s with
  | zero =>
    obtain ⟨m, hm, hlt, hsignaled⟩ := hout
    have hmem : m ∈ (List.range' s.covered (s.completed - s.covered)).filter
        (signaledAt s.issued) := by
      refine List.mem_filter.mpr ⟨List.mem_range'_1.mpr ⟨hm, ?_⟩, hsignaled⟩
      omega
    rw [← h.accounted.queue] at hmem
    obtain ⟨n, rest, hqueue⟩ := List.exists_cons_of_ne_nil (List.ne_nil_of_mem hmem)
    let s₁ : SendQueue := { s with cq := some n :: rest.map some }
    have hcq : s₁.cq.filterMap id = s.cq.filterMap id := by
      rw [hqueue]
      change (some n :: rest.map some).filterMap id = n :: rest
      rw [List.filterMap_cons_some (by rfl), List.filterMap_map]
      exact congrArg _ List.filterMap_some
    have hbooks : Accounted s₁ s.issued := { h.accounted with queue := hcq.trans h.accounted.queue }
    have hfirst := (hbooks.first (n := n) rfl).1
    exact ⟨s₁.release n (rest.map some),
      Polled.other s.signal_counter _ hcq (Polled.release rfl Polled.refl), Nat.lt_succ_of_le hfirst⟩
  | succ left ih =>
    have hr : s.issued[s.completed]? = some s.issued[s.completed] :=
      List.getElem?_eq_getElem (by omega)
    have hnext : Inv (s.complete s.issued[s.completed]) :=
      h.polled (Polled.complete hr Polled.refl)
    obtain ⟨s', hpoll, hcovered⟩ := ih hnext hout (by
      change s.issued.length - (s.completed + 1) = left
      omega)
    exact ⟨s', Polled.complete hr hpoll, hcovered⟩

/-! ### The loop -/

/-- A poll leaves what the loop depends on, apart from the requests it releases. -/
theorem Inv.polled_eq (h : Inv s) (hpoll : Polled k s s') :
    s'.send_pending_cnt = s.send_pending_cnt ∧ s'.send_cnt_bf_signal = s.send_cnt_bf_signal ∧
      s'.send_counter + s'.covered = s.send_counter + s.covered := by
  have hsame := (h.accounted.polled hpoll).2
  have hbefore := h.accounted.counter
  have hafter := (h.polled hpoll).accounted.counter
  rw [hsame.issued] at hafter
  exact ⟨hsame.pending, hsame.behind, hafter.trans hbefore.symm⟩

theorem Inv.spares_polled (h : Inv s) (hpoll : Polled k s s') : s'.Spares ↔ s.Spares := by
  obtain ⟨hpending, hbehind, -⟩ := h.polled_eq hpoll
  rw [Spares, Spares, hpending, hbehind]

/-- A post leaves no request pending, and issues as many as there were. -/
theorem Inv.posted (h : Inv s) (hpost : Post cq_len s s') :
    s'.send_pending_cnt = 0 ∧ s.send_pending_cnt ≤ s'.send_counter := by
  have hpost' := hpost
  rw [Post] at hpost'
  split_ifs at hpost' with hnone
  · rw [hpost', hnone]
    exact ⟨rfl, Nat.zero_le _⟩
  obtain ⟨s₁, hgen, heq⟩ := hpost'
  have hids := h.pendingSlots
  have hlength : s.pendingSlots.length = s.send_pending_cnt := by rw [hids, length_nextSlots]
  have hdone := h.accounted.generate hgen h.tally (by rw [hlength]; exact hids)
    (by rw [hlength]; exact h.window)
  have hcovered := hdone.accounted.covered_le.trans hdone.accounted.completed_le
  have hissued : s'.issued.length = s₁.issued.length + s.send_pending_cnt := by
    rw [heq]
    change (s₁.issued ++ _).length = _
    rw [List.length_append, List.length_map, hlength]
  have hsame : s'.covered = s₁.covered := by rw [heq]; rfl
  have hcounter := (h.post hpost).accounted.counter
  exact ⟨by rw [heq]; rfl, by omega⟩

/-- While there is room behind the last signalled request, each round asks for a completion that
comes. -/
theorem Inv.asks (h : Inv s) (hspares : s.Spares) (hasks : Asks cq_len s w) :
    Inv w ∧ w.Spares ∧ w.Outstanding := by
  obtain ⟨hfull, hround⟩ := hasks
  have hring : kStaticSendBuf = 128 := rfl
  unfold Full at hfull
  split_ifs at hround with hzero
  · obtain ⟨hpending, hcounter⟩ := h.posted hround
    have hinv := h.post hround
    have hfew : w.send_cnt_bf_signal < 32 := hinv.tally.few
    exact ⟨hinv, Or.inr (by omega), hinv.outstanding_iff.mpr (by omega)⟩
  · rw [hround]
    refine ⟨h, hspares, h.outstanding_iff.mpr fun heq ↦ ?_⟩
    rcases hspares with hnone | hroom <;> omega

theorem Inv.outstanding_of_pollsAt (hpolls : PollsAt cq_len s w) (h : Inv s) (hspares : s.Spares) :
    Inv w ∧ w.Spares ∧ w.Outstanding := by
  induction hpolls with
  | first hasks => exact h.asks hspares hasks
  | next hasks hpoll _ ih =>
    obtain ⟨hinv, hspares, -⟩ := h.asks hspares hasks
    exact ih (hinv.polled hpoll) ((hinv.spares_polled hpoll).mpr hspares)

/-- While there is room behind the last signalled request, the loop ends when the completions come. -/
theorem Inv.exists_waitForBuffer (cq_len : ℕ) (h : Inv s) (hspares : s.Spares) :
    ∃ s', WaitForBuffer cq_len s s' := by
  induction hcounter : s.send_counter using Nat.strong_induction_on generalizing s with
  | _ counter ih =>
    by_cases hfull : s.send_counter + s.send_pending_cnt < kStaticSendBuf
    · exact ⟨s, WaitForBuffer.done hfull⟩
    have hfull : s.Full := Nat.le_of_not_lt hfull
    by_cases hzero : s.send_counter = 0
    · obtain ⟨w, hpost⟩ := exists_post cq_len s
      obtain ⟨hinv, -, hout⟩ := h.asks hspares ⟨hfull, (if_pos hzero).mpr hpost⟩
      obtain ⟨s₁, hpoll, hcovered⟩ := hinv.exists_release hout
      -- the whole ring has been posted, and some of it is released
      have hroom : s₁.send_counter + s₁.send_pending_cnt < kStaticSendBuf := by
        obtain ⟨hpending, -, hsum⟩ := hinv.polled_eq hpoll
        have hposted := (h.posted hpost).1
        have hle := hinv.room
        omega
      exact ⟨s₁, WaitForBuffer.post hfull hzero hpost hpoll (WaitForBuffer.done hroom)⟩
    · have hasks : Asks cq_len s s := ⟨hfull, (if_neg hzero).mpr rfl⟩
      obtain ⟨s₁, hpoll, hcovered⟩ := h.exists_release (h.asks hspares hasks).2.2
      have hless : s₁.send_counter < counter := by
        have hsum := (h.polled_eq hpoll).2.2
        omega
      obtain ⟨s', hwait⟩ :=
        ih _ hless (h.polled hpoll) ((h.spares_polled hpoll).mpr hspares) rfl
      exact ⟨s', WaitForBuffer.poll hfull hzero hpoll hwait⟩

/-- Without room behind the last signalled request the ring stays full, and there is something on its
way in it. -/
theorem Inv.full_of_not_spares (h : Inv s) (hnot : ¬ s.Spares) :
    s.Full ∧ s.send_counter ≠ 0 := by
  have hbehind := h.behind_le
  rw [Spares, not_or, not_lt] at hnot
  unfold Full
  omega

/-- Without room behind the last signalled request, the loop comes to ask for a completion that does
not come. -/
theorem Inv.exists_pollsAt (cq_len : ℕ) (h : Inv s) (hnot : ¬ s.Spares) :
    ∃ w, PollsAt cq_len s w ∧ ¬ w.Outstanding := by
  induction hcounter : s.send_counter using Nat.strong_induction_on generalizing s with
  | _ counter ih =>
    obtain ⟨hfull, hne⟩ := h.full_of_not_spares hnot
    have hasks : Asks cq_len s s := ⟨hfull, (if_neg hne).mpr rfl⟩
    by_cases hout : s.Outstanding
    · obtain ⟨s₁, hpoll, hcovered⟩ := h.exists_release hout
      have hless : s₁.send_counter < counter := by
        have hsum := (h.polled_eq hpoll).2.2
        omega
      obtain ⟨w, hpolls, hnone⟩ :=
        ih _ hless (h.polled hpoll) ((h.spares_polled hpoll).not.mpr hnot) rfl
      exact ⟨w, PollsAt.next hasks hpoll hpolls, hnone⟩
    · exact ⟨s, PollsAt.first hasks, hout⟩

/-- Without room behind the last signalled request, the loop does not end. -/
theorem Inv.spares_of_waitForBuffer (hwait : WaitForBuffer cq_len s s') (h : Inv s) : s.Spares := by
  induction hwait with
  | done hroom =>
    by_contra hnot
    exact absurd hroom (Nat.not_lt.mpr (h.full_of_not_spares hnot).1)
  | post _ hzero _ _ _ _ =>
    by_contra hnot
    exact (h.full_of_not_spares hnot).2 hzero
  | poll _ _ hpoll _ ih => exact (h.spares_polled hpoll).mp (ih (h.polled hpoll))

theorem inv_of_reachable {wr : ℕ → SingleWr} {ok : SendQueue → Event → Prop}
    (hrun : Reachable (init wr) (Step cq_len) ok s) : Inv s :=
  hrun.invariant Inv (Inv.init wr) fun _ _ _ _ hinv _ hstep ↦ hinv.step hstep

end

/-! ### The calls of a run -/

/-- The calls of a thread that signals no request itself. -/
def Unsignaled (_ : SendQueue) (e : Event) : Prop := e ≠ .append true

/-- A number of buffers is asked for and appended. -/
theorem reachable_appended {wr : ℕ → SingleWr} {cq_len : ℕ} {s : SendQueue}
    (hrun : Reachable (init wr) (Step cq_len) Unsignaled s) (hcq : s.signal_counter ≠ cq_len) {n : ℕ}
    (hroom : s.send_counter + s.send_pending_cnt + n ≤ kStaticSendBuf) :
    ∃ s', Reachable (init wr) (Step cq_len) Unsignaled s' ∧
      s'.send_pending_cnt = s.send_pending_cnt + n ∧ s'.send_counter = s.send_counter ∧
      s'.send_cnt_bf_signal = s.send_cnt_bf_signal ∧ s'.signal_counter = s.signal_counter := by
  induction n with
  | zero => exact ⟨s, hrun, rfl, rfl, rfl, rfl⟩
  | succ n ih =>
    obtain ⟨s₁, hs₁, hpending, hcounter, hbehind, hsignal⟩ := ih (by omega)
    have hring : kStaticSendBuf = 128 := rfl
    have hfree : s₁.send_counter + s₁.send_pending_cnt < kStaticSendBuf := by omega
    have hget : Step cq_len s₁ .get { s₁ with fresh := true } :=
      Step.get ⟨s₁, s₁, checkSignal_of_ne (hsignal ▸ hcq), WaitForBuffer.done hfree, rfl⟩
    have happend : Step cq_len { s₁ with fresh := true } (.append false)
        (({ s₁ with fresh := true } : SendQueue).append_signal_smsg false) := Step.append false rfl
    refine ⟨_, (hs₁.step (by simp [Unsignaled]) hget).step (by simp [Unsignaled]) happend, ?_,
      hcounter, hbehind, hsignal⟩
    change (s₁.send_pending_cnt + 1) % 2 ^ 16 = _
    rw [Nat.mod_eq_of_lt (by omega), hpending]
    rfl

/-- One request is posted, and the rest of the ring is pending behind it. -/
theorem exists_one_posted : ∃ s : SendQueue,
    Reachable (init fun _ ↦ ⟨false, 0⟩) (Step 128) Unsignaled s ∧ s.send_pending_cnt = 127 ∧
      s.send_counter = 1 ∧ s.send_cnt_bf_signal = 1 ∧ s.signal_counter = 0 := by
  let s₀ := init fun _ ↦ ⟨false, 0⟩
  let s₁ := append_signal_smsg { s₀ with fresh := true } false
  have hget : Step 128 s₀ .get { s₀ with fresh := true } :=
    Step.get ⟨s₀, s₀, checkSignal_of_ne (by decide), WaitForBuffer.done (by decide), rfl⟩
  have happend : Step 128 { s₀ with fresh := true } (.append false) s₁ := Step.append false rfl
  have hgenerate : Generate 128 s₁.pendingSlots s₁ (s₁.mark 0) :=
    Generate.plain (by decide) Generate.nil
  have hpost : Step 128 s₁ .post ((s₁.mark 0).issue s₁.pendingSlots) :=
    Step.post ((if_neg (by decide : s₁.send_pending_cnt ≠ 0)).mpr ⟨_, hgenerate, rfl⟩)
  have hrun : Reachable s₀ (Step 128) Unsignaled ((s₁.mark 0).issue s₁.pendingSlots) :=
    ((Reachable.init.step (by simp [Unsignaled]) hget).step (by simp [Unsignaled]) happend).step
      (by simp [Unsignaled]) hpost
  obtain ⟨s, hs, hpending, hcounter, hbehind, hsignal⟩ :=
    reachable_appended hrun (n := 127) (by decide) (by decide)
  exact ⟨s, hs, hpending, hcounter, hbehind, hsignal⟩

/-- After any sequence of calls, `get_send_msg_sg` asks only for completions that come and that let
it go on, exactly if there is room behind the last signalled request; and otherwise it does not
return. -/
theorem get_waits_iff (wr : ℕ → SingleWr) (cq_len : ℕ) {s : SendQueue}
    (hrun : Reachable (init wr) (Step cq_len) (fun _ _ ↦ True) s) :
    ((∀ s₁ w, CheckSignal cq_len s s₁ → PollsAt cq_len s₁ w →
        w.Outstanding ∧ ∃ s₂ s', Polled 1 w s₂ ∧ WaitForBuffer cq_len s₂ s') ↔ s.Spares) ∧
      ((∃ s', Get cq_len s s') ↔ s.Spares) := by
  have hinv := inv_of_reachable hrun
  have hcheck {s₁ : SendQueue} (hcheck : CheckSignal cq_len s s₁) : s₁.Spares ↔ s.Spares := by
    have hsame := (hinv.accounted.checkSignal hcheck).2
    rw [Spares, Spares, hsame.behind, hsame.pending]
  obtain ⟨s₁, hfirst⟩ := exists_checkSignal cq_len s
  refine ⟨⟨fun hall ↦ ?_, fun hspares s₁ w hs₁ hpolls ↦ ?_⟩, fun ⟨s', hget⟩ ↦ ?_, fun hspares ↦ ?_⟩
  · by_contra hnot
    obtain ⟨w, hpolls, hnone⟩ :=
      (hinv.checkSignal hfirst).exists_pollsAt cq_len ((hcheck hfirst).not.mpr hnot)
    exact hnone (hall s₁ w hfirst hpolls).1
  · obtain ⟨hw, hspares, hout⟩ :=
      Inv.outstanding_of_pollsAt hpolls (hinv.checkSignal hs₁) ((hcheck hs₁).mpr hspares)
    obtain ⟨s₂, hpoll, -⟩ := hw.exists_release hout
    obtain ⟨s', hwait⟩ :=
      (hw.polled hpoll).exists_waitForBuffer cq_len ((hw.spares_polled hpoll).mpr hspares)
    exact ⟨hout, s₂, s', hpoll, hwait⟩
  · obtain ⟨s₁, s₂, hs₁, hwait, -⟩ := hget
    exact (hcheck hs₁).mp (Inv.spares_of_waitForBuffer hwait (hinv.checkSignal hs₁))
  · obtain ⟨s₂, hwait⟩ :=
      (hinv.checkSignal hfirst).exists_waitForBuffer cq_len ((hcheck hfirst).mpr hspares)
    exact ⟨_, s₁, s₂, hfirst, hwait, rfl⟩

/-- With one request posted and 127 pending, the next call does not return. -/
theorem get_waits_iff_one_posted :
    ∃ s : SendQueue, Reachable (init fun _ ↦ ⟨false, 0⟩) (Step 128) (fun _ _ ↦ True) s ∧
      s.send_counter = 1 ∧ s.send_pending_cnt = 127 ∧ ¬ ∃ s', Get 128 s s' := by
  obtain ⟨s, hrun, hpending, hcounter, hbehind, -⟩ := exists_one_posted
  have hany : Reachable (init fun _ ↦ ⟨false, 0⟩) (Step 128) (fun _ _ ↦ True) s :=
    hrun.mono fun _ _ _ ↦ trivial
  refine ⟨s, hany, hcounter, hpending, fun hget ↦ ?_⟩
  have hspares := (get_waits_iff _ 128 hany).2.mp hget
  rw [Spares, hbehind, hpending] at hspares
  exact absurd hspares (by decide)

/-- With one request posted and 127 pending, the thread waits for a completion of the one, which is not
signalled. -/
theorem get_waits_for_nothing :
    ¬ ∀ (wr : ℕ → SingleWr) (cq_len : ℕ) (s : SendQueue),
      Reachable (init wr) (Step cq_len) Unsignaled s →
        ∀ s₁ w, CheckSignal cq_len s s₁ → PollsAt cq_len s₁ w → w.Outstanding := by
  intro h
  obtain ⟨s, hrun, hpending, hcounter, hbehind, hsignal⟩ := exists_one_posted
  have hfull : s.Full := by
    rw [Full, hcounter, hpending]
    decide
  have hcheck : CheckSignal 128 s s := checkSignal_of_ne (by rw [hsignal]; decide)
  have hpolls : PollsAt 128 s s :=
    PollsAt.first ⟨hfull, (if_neg (by rw [hcounter]; decide)).mpr rfl⟩
  have hout := h _ 128 s hrun s s hcheck hpolls
  exact (inv_of_reachable hrun).outstanding_iff.mp hout (hcounter.trans hbehind.symm)

end SendQueue

end SwitchDelta.Rdma
