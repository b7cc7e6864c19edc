import SwitchDelta.Kv.SendRing

/-!
# The send queue

The sending side of a `QPInfo` without one-sided operations: a ring of `kStaticSendBuf` buffers with a
work request each. `append_signal_smsg` makes the request at the position pending,
`post_appended_smsg` hands the pending ones to the NIC, and `get_send_msg_sg` waits until the next
buffer is free. The NIC completes requests in order and reports only the signalled ones, so at least
every `kMaxSignal`-th request is signalled, and each signalled one has the number of requests that its
completion stands for in its slot of the ring.

`send_queue` says what holds after any sequence of calls and polls: the counters agree with the requests
that are on their way, and a buffer that `get_send_msg_sg` returns belongs to none of them.
-/

set_option autoImplicit false
set_option relaxedAutoImplicit false

namespace SwitchDelta.Rdma

open Foundation
open Kv (kMaxSignal kStaticSendBuf)

/-- What is kept of a `SingleWr`: the flag `IBV_SEND_SIGNALED`, and `signal_cnt` of its `WrInfo`. -/
structure SingleWr where
  signaled : Bool
  signal_cnt : ℕ

/-- A request that has been posted: its slot in the ring, and whether it is signalled. -/
structure Request where
  slot : ℕ
  signaled : Bool
  deriving DecidableEq

/-- The sending side of `QPInfo` with its completion queue. The requests posted so far are recorded
and numbered; `completed` of them have been completed by the NIC, and `covered` of them are covered by a
completion that has been polled. A completion is given by the number of its request, and is `none` for
another queue pair with the same completion queue. The flag `fresh` says that a buffer was asked for
since the last one was appended. -/
structure SendQueue where
  wr : ℕ → SingleWr
  send_pending_cnt : ℕ
  send_counter : ℕ
  send_buf_pos : ℕ
  send_begin_id : ℕ
  send_cnt_bf_signal : ℕ
  one_cnt_bf_signal : ℕ
  signal_counter : ℕ
  cq : List (Option ℕ)
  issued : List Request
  completed : ℕ
  covered : ℕ
  fresh : Bool

namespace SendQueue

/-! ### Completions -/

/-- Subtraction of `uint32_t`, which wraps around below zero. -/
def sub32 (a b : ℕ) : ℕ := if b ≤ a then a - b else a + 2 ^ 32 - b

/-- The slot of a request. -/
def slotOf (s : SendQueue) (n : ℕ) : ℕ := (s.issued[n]?.map Request.slot).getD 0

/-- The NIC completes the next request. -/
def complete (s : SendQueue) (r : Request) : SendQueue :=
  { s with
    completed := s.completed + 1
    cq := if r.signaled then s.cq ++ [some s.completed] else s.cq }

/-- `modify_send_qp_info_by_wc` for a completion of this queue pair. -/
def release (s : SendQueue) (n : ℕ) (cq : List (Option ℕ)) : SendQueue :=
  { s with
    cq := cq
    signal_counter := sub32 s.signal_counter 1
    send_counter := sub32 s.send_counter (s.wr (s.slotOf n)).signal_cnt
    covered := n + 1 }

theorem release_send_counter (s : SendQueue) (n : ℕ) (cq : List (Option ℕ)) :
    (s.release n cq).send_counter = sub32 s.send_counter (s.wr (s.slotOf n)).signal_cnt := rfl

theorem release_covered (s : SendQueue) (n : ℕ) (cq : List (Option ℕ)) :
    (s.release n cq).covered = n + 1 := rfl

theorem release_issued (s : SendQueue) (n : ℕ) (cq : List (Option ℕ)) :
    (s.release n cq).issued = s.issued := rfl

/-- `modify_send_qp_info_by_wc` for a completion of another queue pair. -/
def skip (s : SendQueue) (cq : List (Option ℕ)) : SendQueue :=
  { s with cq := cq, signal_counter := sub32 s.signal_counter 1 }

/-- The thread polls a number of completions, while the NIC goes on and other queue pairs post
signalled requests and complete them. -/
inductive Polled : ℕ → SendQueue → SendQueue → Prop
  | refl {s : SendQueue} : Polled 0 s s
  | complete {k : ℕ} {s s' : SendQueue} {r : Request} : s.issued[s.completed]? = some r →
      Polled k (s.complete r) s' → Polled k s s'
  | other {k : ℕ} {s s' : SendQueue} (signal_counter : ℕ) (cq : List (Option ℕ)) :
      cq.filterMap id = s.cq.filterMap id →
      Polled k { s with signal_counter, cq } s' → Polled k s s'
  | release {k n : ℕ} {s s' : SendQueue} {cq : List (Option ℕ)} : s.cq = some n :: cq →
      Polled k (s.release n cq) s' → Polled (k + 1) s s'
  | skip {k : ℕ} {s s' : SendQueue} {cq : List (Option ℕ)} : s.cq = none :: cq →
      Polled k (s.skip cq) s' → Polled (k + 1) s s'

/-! ### The calls -/

/-- `QPInfo::check_signal`: where the completion queue may be full, `poll_cq_try` takes up to sixteen
completions, and `poll_cq_a_wc` waits for one if there is none. -/
def CheckSignal (cq_len : ℕ) (s s' : SendQueue) : Prop :=
  if s.signal_counter = cq_len then ∃ k, 1 ≤ k ∧ k ≤ 16 ∧ Polled k s s' else s' = s

/-- The flag of a request in `generate_and_issue_batch`: it is signalled if the caller says so or if it
is the last one that may go without. -/
def signals (s : SendQueue) (id : ℕ) : Bool :=
  (s.wr id).signaled || s.send_cnt_bf_signal + 1 + s.one_cnt_bf_signal == kMaxSignal

/-- A request is counted and gets its flag. -/
def mark (s : SendQueue) (id : ℕ) : SendQueue :=
  { s with
    send_cnt_bf_signal := s.send_cnt_bf_signal + 1
    signal_counter := if s.signals id then (s.signal_counter + 1) % 2 ^ 32 else s.signal_counter
    wr := Function.update s.wr id { s.wr id with signaled := s.signals id } }

/-- `set_signal_cnt` of a signalled request. -/
def set_signal_cnt (s : SendQueue) (id : ℕ) : SendQueue :=
  { s with
    wr := Function.update s.wr id { s.wr id with signal_cnt := s.send_cnt_bf_signal }
    send_cnt_bf_signal := 0
    one_cnt_bf_signal := 0 }

/-- The loop of `generate_and_issue_batch` over the requests of the batch. -/
inductive Generate (cq_len : ℕ) : List ℕ → SendQueue → SendQueue → Prop
  | nil {s : SendQueue} : Generate cq_len [] s s
  | plain {s s' : SendQueue} {id : ℕ} {ids : List ℕ} : s.signals id = false →
      Generate cq_len ids (s.mark id) s' → Generate cq_len (id :: ids) s s'
  | signaled {s s₁ s' : SendQueue} {id : ℕ} {ids : List ℕ} : s.signals id = true →
      CheckSignal cq_len (s.mark id) s₁ → Generate cq_len ids (s₁.set_signal_cnt id) s' →
      Generate cq_len (id :: ids) s s'

/-- The slots of the pending requests. -/
def pendingSlots (s : SendQueue) : List ℕ :=
  (List.range s.send_pending_cnt).map fun i ↦ (i + s.send_begin_id) % kStaticSendBuf

/-- `ibv_post_send` at the end of `generate_and_issue_batch`, and the end of `post_appended_smsg`. -/
def issue (s : SendQueue) (ids : List ℕ) : SendQueue :=
  { s with
    issued := s.issued ++ ids.map fun id ↦ ⟨id, (s.wr id).signaled⟩
    send_counter := (s.send_counter + ids.length) % 2 ^ 32
    send_begin_id := s.send_buf_pos
    send_pending_cnt := 0 }

/-- `QPInfo::post_appended_smsg`. -/
def Post (cq_len : ℕ) (s s' : SendQueue) : Prop :=
  if s.send_pending_cnt = 0 then s' = s
  else ∃ s₁, Generate cq_len s.pendingSlots s s₁ ∧ s' = s₁.issue s.pendingSlots

/-- The loop of `get_send_msg_sg`. -/
inductive WaitForBuffer (cq_len : ℕ) : SendQueue → SendQueue → Prop
  | done {s : SendQueue} : s.send_counter + s.send_pending_cnt < kStaticSendBuf →
      WaitForBuffer cq_len s s
  | post {s s₁ s₂ s' : SendQueue} : kStaticSendBuf ≤ s.send_counter + s.send_pending_cnt →
      s.send_counter = 0 → Post cq_len s s₁ → Polled 1 s₁ s₂ → WaitForBuffer cq_len s₂ s' →
      WaitForBuffer cq_len s s'
  | poll {s s₁ s' : SendQueue} : kStaticSendBuf ≤ s.send_counter + s.send_pending_cnt →
      s.send_counter ≠ 0 → Polled 1 s s₁ → WaitForBuffer cq_len s₁ s' → WaitForBuffer cq_len s s'

/-- `QPInfo::get_send_msg_sg`, which returns the buffer at `send_buf_pos`. -/
def Get (cq_len : ℕ) (s s' : SendQueue) : Prop :=
  ∃ s₁ s₂, CheckSignal cq_len s s₁ ∧ WaitForBuffer cq_len s₁ s₂ ∧ s' = { s₂ with fresh := true }

/-- `QPInfo::append_signal_smsg`. -/
def append_signal_smsg (s : SendQueue) (signal : Bool) : SendQueue :=
  { s with
    wr := Function.update s.wr s.send_buf_pos { s.wr s.send_buf_pos with signaled := signal }
    send_buf_pos := (s.send_buf_pos + 1) % kStaticSendBuf
    send_pending_cnt := (s.send_pending_cnt + 1) % 2 ^ 16
    fresh := false }

/-- The calls of the thread. -/
inductive Event
  | get
  | append (signal : Bool)
  | post
  | poll

/-- A step: a call, or a poll of any number of completions. A buffer is asked for before it is
appended. -/
inductive Step (cq_len : ℕ) : SendQueue → Event → SendQueue → Prop
  | get {s s' : SendQueue} : Get cq_len s s' → Step cq_len s .get s'
  | append {s : SendQueue} (signal : Bool) : s.fresh = true →
      Step cq_len s (.append signal) (s.append_signal_smsg signal)
  | post {s s' : SendQueue} : Post cq_len s s' → Step cq_len s .post s'
  | poll {k : ℕ} {s s' : SendQueue} : Polled k s s' → Step cq_len s .poll s'

/-- A new queue, with anything in the slots. -/
def init (wr : ℕ → SingleWr) : SendQueue :=
  ⟨wr, 0, 0, 0, 0, 0, 0, 0, [], [], 0, 0, false⟩

theorem sub32_of_le {a b : ℕ} (h : b ≤ a) : sub32 a b = a - b := if_pos h

/-! ### Signalled requests -/

/-- The request of a number is signalled. -/
def signaledAt (l : List Request) (n : ℕ) : Bool := (l[n]?.map Request.signaled).getD false

/-- The requests up to the last signalled one among the first `n`. -/
def lastEnd (l : List Request) : ℕ → ℕ
  | 0 => 0
  | n + 1 => if signaledAt l n then n + 1 else lastEnd l n

theorem lastEnd_le (l : List Request) (n : ℕ) : lastEnd l n ≤ n := by
  induction n with
  | zero => exact le_rfl
  | succ n ih =>
    rw [lastEnd]
    split_ifs
    · exact le_rfl
    · exact Nat.le_succ_of_le ih

theorem signaledAt_append {l l' : List Request} {n : ℕ} (hn : n < l.length) :
    signaledAt (l ++ l') n = signaledAt l n := by
  rw [signaledAt, signaledAt, List.getElem?_append_left hn]

theorem signaledAt_extend {l l' : List Request} (hextend : l <+: l') {n : ℕ}
    (hn : n < l.length) : signaledAt l' n = signaledAt l n := by
  obtain ⟨rest, rfl⟩ := hextend
  exact signaledAt_append hn

theorem signaledAt_concat (l : List Request) (r : Request) :
    signaledAt (l ++ [r]) l.length = r.signaled := by
  rw [signaledAt, List.getElem?_concat_length]
  rfl

theorem lastEnd_append {l l' : List Request} {n : ℕ} (hn : n ≤ l.length) :
    lastEnd (l ++ l') n = lastEnd l n := by
  induction n with
  | zero => rfl
  | succ n ih => rw [lastEnd, lastEnd, signaledAt_append hn, ih (Nat.le_of_succ_le hn)]

/-- No request between two numbers is signalled. -/
theorem lastEnd_eq {l : List Request} {m n : ℕ} (hmn : m ≤ n)
    (hnone : ∀ i, m ≤ i → i < n → signaledAt l i = false) : lastEnd l n = lastEnd l m := by
  induction n, hmn using Nat.le_induction with
  | base => rfl
  | succ n hmn ih =>
    have hlast := hnone n hmn (Nat.lt_succ_self n)
    rw [lastEnd, hlast, if_neg Bool.false_ne_true]
    exact ih fun i hi hin ↦ hnone i hi (Nat.lt_succ_of_lt hin)

/-- The first number of a range that passes a test. -/
theorem filter_range'_eq_cons {p : ℕ → Bool} {a k n : ℕ} {t : List ℕ}
    (h : (List.range' a k).filter p = n :: t) :
    a ≤ n ∧ n < a + k ∧ p n = true ∧ (∀ i, a ≤ i → i < n → p i = false) ∧
      t = (List.range' (n + 1) (a + k - (n + 1))).filter p := by
  induction k generalizing a with
  | zero => exact absurd h (List.cons_ne_nil _ _).symm
  | succ k ih =>
    rw [List.range'_succ, List.filter_cons] at h
    split_ifs at h with hfirst
    · obtain ⟨rfl, rfl⟩ := List.cons.inj h
      have hk : a + (k + 1) - (a + 1) = k := by omega
      exact ⟨le_rfl, by omega, hfirst, fun i hi hlt ↦ absurd hi (by omega), by rw [hk]⟩
    · obtain ⟨hle, hlt, hn, hnone, ht⟩ := ih h
      have hk : a + 1 + k = a + (k + 1) := by omega
      rw [hk] at hlt ht
      refine ⟨by omega, hlt, hn, fun i hi hin ↦ ?_, ht⟩
      rcases Nat.eq_or_lt_of_le hi with rfl | hi
      · exact Bool.not_eq_true _ ▸ hfirst
      · exact hnone i hi hin

/-! ### The invariant -/

/-- The requests of `all` are those issued and those that are about to be. The slots go round the
ring, a signalled request has in its slot what its completion stands for, and the completion queue has
the signalled requests among those completed and not yet covered. -/
structure Accounted (s : SendQueue) (all : List Request) : Prop where
  issued : s.issued <+: all
  slots : ∀ n r, all[n]? = some r → r.slot = n % kStaticSendBuf
  counts : ∀ n, s.covered ≤ n → signaledAt all n = true →
    (s.wr (n % kStaticSendBuf)).signal_cnt = n + 1 - lastEnd all n
  counter : s.send_counter + s.covered = s.issued.length
  covered_le : s.covered ≤ s.completed
  completed_le : s.completed ≤ s.issued.length
  boundary : lastEnd all s.covered = s.covered
  window : all.length ≤ s.covered + kStaticSendBuf
  queue : s.cq.filterMap id =
    (List.range' s.covered (s.completed - s.covered)).filter (signaledAt all)

/-- The flags of the requests agree with the counters of those since the last signalled one. -/
structure Tally (s : SendQueue) (all : List Request) : Prop where
  one : s.one_cnt_bf_signal = 0
  behind : s.send_cnt_bf_signal + lastEnd all all.length = all.length
  few : s.send_cnt_bf_signal < kMaxSignal

/-- What polls and the loop of a post leave alone. -/
structure Kept (s s' : SendQueue) : Prop where
  pending : s'.send_pending_cnt = s.send_pending_cnt
  pos : s'.send_buf_pos = s.send_buf_pos
  begin_id : s'.send_begin_id = s.send_begin_id
  issued : s'.issued = s.issued
  fresh : s'.fresh = s.fresh
  covered : s.covered ≤ s'.covered

/-- What polls leave alone. -/
structure Unpolled (s s' : SendQueue) : Prop extends Kept s s' where
  wr : s'.wr = s.wr
  behind : s'.send_cnt_bf_signal = s.send_cnt_bf_signal
  one : s'.one_cnt_bf_signal = s.one_cnt_bf_signal

section

variable {s s' s₁ : SendQueue} {all : List Request} {cq_len n k slot : ℕ} {ids : List ℕ}

theorem Kept.trans (h : Kept s s₁) (h' : Kept s₁ s') : Kept s s' :=
  ⟨h'.pending.trans h.pending, h'.pos.trans h.pos, h'.begin_id.trans h.begin_id,
    h'.issued.trans h.issued, h'.fresh.trans h.fresh, h.covered.trans h'.covered⟩

theorem Unpolled.refl (s : SendQueue) : Unpolled s s :=
  ⟨⟨rfl, rfl, rfl, rfl, rfl, le_rfl⟩, rfl, rfl, rfl⟩

theorem Unpolled.trans (h : Unpolled s s₁) (h' : Unpolled s₁ s') : Unpolled s s' :=
  ⟨h.toKept.trans h'.toKept, h'.wr.trans h.wr, h'.behind.trans h.behind, h'.one.trans h.one⟩

theorem Unpolled.tally (h : Unpolled s s') (htally : Tally s all) : Tally s' all :=
  ⟨h.one.trans htally.one, h.behind ▸ htally.behind, h.behind ▸ htally.few⟩

theorem Accounted.length (h : Accounted s all) : s.issued.length ≤ all.length := h.issued.length_le

/-- A completed request of the NIC. -/
theorem Accounted.complete (h : Accounted s all) {r : Request}
    (hr : s.issued[s.completed]? = some r) : Accounted (s.complete r) all := by
  obtain ⟨hlt, -⟩ := List.getElem?_eq_some_iff.mp hr
  have hle := h.covered_le
  have hsignaled : signaledAt all s.completed = r.signaled := by
    rw [signaledAt_extend h.issued hlt, signaledAt, hr]
    rfl
  refine ⟨h.issued, h.slots, h.counts, h.counter, Nat.le_succ_of_le h.covered_le, hlt, h.boundary,
    h.window, ?_⟩
  change (if r.signaled then s.cq ++ [some s.completed] else s.cq).filterMap _ =
    (List.range' s.covered (s.completed + 1 - s.covered)).filter _
  have hlast : s.covered + 1 * (s.completed - s.covered) = s.completed := by omega
  rw [Nat.sub_add_comm hle, List.range'_concat, hlast, List.filter_append, ← h.queue,
    List.filter_cons, hsignaled]
  split_ifs
  · rw [List.filterMap_append]
    rfl
  · rw [List.filter_nil, List.append_nil]

/-- The first completion of the queue: it is that of the first signalled request that is not covered,
and stands for the requests up to it. -/
theorem Accounted.first (h : Accounted s all) {cq : List (Option ℕ)} (hcq : s.cq = some n :: cq) :
    s.covered ≤ n ∧ n < s.completed ∧ signaledAt all n = true ∧
      (∀ m, s.covered ≤ m → m < n → signaledAt all m = false) ∧
      (s.wr (s.slotOf n)).signal_cnt = n + 1 - s.covered ∧
      cq.filterMap id = (List.range' (n + 1) (s.completed - (n + 1))).filter (signaledAt all) := by
  have hqueue := h.queue
  have hle := h.covered_le
  rw [hcq, List.filterMap_cons_some (by rfl)] at hqueue
  obtain ⟨hn, hlt, hsignaled, hnone, htail⟩ := filter_range'_eq_cons hqueue.symm
  rw [Nat.add_sub_cancel' hle] at hlt htail
  refine ⟨hn, hlt, hsignaled, hnone, ?_, htail⟩
  have hissued : n < s.issued.length := hlt.trans_le h.completed_le
  have hslot : s.slotOf n = n % kStaticSendBuf := by
    have hvalue := List.getElem?_eq_getElem hissued
    obtain ⟨rest, hrest⟩ := h.issued
    have hall : all[n]? = some s.issued[n] := by
      rw [← hrest, List.getElem?_append_left hissued, hvalue]
    rw [slotOf, hvalue]
    exact h.slots n _ hall
  rw [hslot, h.counts n hn hsignaled, lastEnd_eq hn hnone, h.boundary]

/-- The release of the first completion. -/
theorem Accounted.release (h : Accounted s all) {cq : List (Option ℕ)} (hcq : s.cq = some n :: cq) :
    Accounted (s.release n cq) all := by
  obtain ⟨hn, hlt, hsignaled, -, hcount, htail⟩ := h.first hcq
  have hnext : s.covered ≤ n + 1 := Nat.le_succ_of_le hn
  have hcounter : (s.release n cq).send_counter + (s.release n cq).covered =
      (s.release n cq).issued.length := by
    have hbooks := h.counter
    have hcompleted := h.completed_le
    rw [release_send_counter, release_covered, release_issued, hcount,
      sub32_of_le (by omega)]
    omega
  have hboundary : lastEnd all (n + 1) = n + 1 := by rw [lastEnd, if_pos hsignaled]
  exact {
    issued := h.issued
    slots := h.slots
    counts := fun m hm ↦ h.counts m (hnext.trans hm)
    counter := hcounter
    covered_le := hlt
    completed_le := h.completed_le
    boundary := hboundary
    window := h.window.trans (Nat.add_le_add_right hnext _)
    queue := htail }

theorem unpolled_complete (s : SendQueue) (r : Request) : Unpolled s (s.complete r) :=
  ⟨⟨rfl, rfl, rfl, rfl, rfl, le_rfl⟩, rfl, rfl, rfl⟩

theorem unpolled_other (s : SendQueue) (signal_counter : ℕ) (cq : List (Option ℕ)) :
    Unpolled s { s with signal_counter, cq } :=
  ⟨⟨rfl, rfl, rfl, rfl, rfl, le_rfl⟩, rfl, rfl, rfl⟩

theorem unpolled_release (h : Accounted s all) {cq : List (Option ℕ)} (hcq : s.cq = some n :: cq) :
    Unpolled s (s.release n cq) :=
  ⟨⟨rfl, rfl, rfl, rfl, rfl, Nat.le_succ_of_le (h.first hcq).1⟩, rfl, rfl, rfl⟩

/-- Polls keep the books. -/
theorem Accounted.polled (h : Accounted s all) (hpoll : Polled k s s') :
    Accounted s' all ∧ Unpolled s s' := by
  induction hpoll with
  | refl => exact ⟨h, Unpolled.refl _⟩
  | complete hr _ ih =>
    obtain ⟨haccounted, hsame⟩ := ih (h.complete hr)
    exact ⟨haccounted, (unpolled_complete _ _).trans hsame⟩
  | other counter cq hcq _ ih =>
    obtain ⟨haccounted, hsame⟩ := ih { h with queue := hcq.trans h.queue }
    exact ⟨haccounted, (unpolled_other _ _ _).trans hsame⟩
  | release hcq _ ih =>
    obtain ⟨haccounted, hsame⟩ := ih (h.release hcq)
    exact ⟨haccounted, (unpolled_release h hcq).trans hsame⟩
  | skip hcq _ ih =>
    have hqueue := h.queue
    rw [hcq, List.filterMap_cons_none (by rfl)] at hqueue
    obtain ⟨haccounted, hsame⟩ := ih { h with queue := hqueue }
    exact ⟨haccounted, (unpolled_other _ _ _).trans hsame⟩

theorem checkSignal_of_ne (h : s.signal_counter ≠ cq_len) : CheckSignal cq_len s s := by
  rw [CheckSignal, if_neg h]

theorem Accounted.checkSignal (h : Accounted s all) (hcheck : CheckSignal cq_len s s') :
    Accounted s' all ∧ Unpolled s s' := by
  rw [CheckSignal] at hcheck
  split_ifs at hcheck with hfull
  · obtain ⟨k, -, -, hpoll⟩ := hcheck
    exact h.polled hpoll
  · rw [hcheck]
    exact ⟨h, Unpolled.refl s⟩

/-! ### A post -/

/-- A change of a flag leaves the counts of the completions. -/
theorem update_signal_cnt (wr : ℕ → SingleWr) (slot i : ℕ) (signal : Bool) :
    (Function.update wr slot { wr slot with signaled := signal } i).signal_cnt = (wr i).signal_cnt := by
  by_cases hi : i = slot
  · rw [hi, Function.update_self]
  · rw [Function.update_of_ne hi]

theorem lt_of_signaledAt {l : List Request} (h : signaledAt l n = true) : n < l.length := by
  by_contra hn
  rw [signaledAt, List.getElem?_eq_none (Nat.le_of_not_lt hn)] at h
  exact Bool.false_ne_true h

/-- One more request, with the count of its completion in its slot if it is signalled. -/
theorem Accounted.append (h : Accounted s all) {r : Request}
    (hslot : r.slot = all.length % kStaticSendBuf)
    (hroom : all.length < s.covered + kStaticSendBuf)
    (hcount : r.signaled = true →
      (s.wr (all.length % kStaticSendBuf)).signal_cnt = all.length + 1 - lastEnd all all.length) :
    Accounted s (all ++ [r]) where
  issued := h.issued.trans (List.prefix_append all [r])
  slots := by
    intro n r' hr'
    rcases Nat.lt_trichotomy n all.length with hn | rfl | hn
    · rw [List.getElem?_append_left hn] at hr'
      exact h.slots n r' hr'
    · rw [List.getElem?_concat_length] at hr'
      rw [← Option.some.inj hr', hslot]
    · rw [List.getElem?_eq_none (by rw [List.length_append]; exact hn)] at hr'
      exact absurd hr' (Option.some_ne_none r').symm
  counts := by
    intro n hn hsignaled
    have hlt := lt_of_signaledAt hsignaled
    rw [List.length_append, List.length_singleton] at hlt
    rw [lastEnd_append (Nat.le_of_lt_succ hlt)]
    rcases Nat.lt_succ_iff_lt_or_eq.mp hlt with hlt | rfl
    · rw [signaledAt_append hlt] at hsignaled
      exact h.counts n hn hsignaled
    · rw [signaledAt_concat] at hsignaled
      exact hcount hsignaled
  counter := h.counter
  covered_le := h.covered_le
  completed_le := h.completed_le
  boundary := by
    rw [lastEnd_append (h.covered_le.trans (h.completed_le.trans h.length))]
    exact h.boundary
  window := by
    rw [List.length_append, List.length_singleton]
    exact hroom
  queue := by
    rw [h.queue]
    refine List.filter_congr fun n hn ↦ (signaledAt_append ?_).symm
    have hlt := (List.mem_range'_1.mp hn).2
    have hcovered := h.covered_le
    have hcompleted := h.completed_le.trans h.length
    omega

theorem Tally.append_plain (h : Tally s all) (hsignals : s.signals slot = false) :
    Tally (s.mark slot) (all ++ [⟨slot, false⟩]) := by
  have hbehind := h.behind
  have hfew := h.few
  have hforced : s.send_cnt_bf_signal + 1 ≠ kMaxSignal := by
    rw [signals, h.one, Nat.add_zero, Bool.or_eq_false_iff] at hsignals
    exact beq_eq_false_iff_ne.mp hsignals.2
  refine ⟨h.one, ?_, Nat.lt_of_le_of_ne hfew hforced⟩
  change s.send_cnt_bf_signal + 1 + _ = _
  rw [List.length_append, List.length_singleton, lastEnd, signaledAt_concat,
    if_neg Bool.false_ne_true, lastEnd_append le_rfl]
  omega

theorem tally_set_signal_cnt (s : SendQueue) (all : List Request) (slot : ℕ) :
    Tally (s.set_signal_cnt slot) (all ++ [⟨slot, true⟩]) := by
  refine ⟨rfl, ?_, Nat.zero_lt_succ 31⟩
  change 0 + _ = _
  rw [List.length_append, List.length_singleton, lastEnd, signaledAt_concat, if_pos rfl, Nat.zero_add]

/-- The count of a signalled request goes into its own slot. -/
theorem Accounted.set_signal_cnt (h : Accounted s all) (hslot : slot = all.length % kStaticSendBuf)
    (hroom : all.length < s.covered + kStaticSendBuf) : Accounted (s.set_signal_cnt slot) all := by
  refine { h with counts := fun n hn hsignaled ↦ ?_ }
  have hlt := lt_of_signaledAt hsignaled
  have hne : n % kStaticSendBuf ≠ slot := by
    have hring : kStaticSendBuf = 128 := rfl
    change s.covered ≤ n at hn
    rw [hslot, hring]
    rw [hring] at hroom
    omega
  change (Function.update s.wr slot _ _).signal_cnt = _
  rw [Function.update_of_ne hne]
  exact h.counts n hn hsignaled

theorem Accounted.mark (h : Accounted s all) (slot : ℕ) : Accounted (s.mark slot) all :=
  { h with counts := fun n hn hsignaled ↦
      (update_signal_cnt s.wr slot _ _).trans (h.counts n hn hsignaled) }

theorem kept_mark (s : SendQueue) (slot : ℕ) : Kept s (s.mark slot) := ⟨rfl, rfl, rfl, rfl, rfl, le_rfl⟩

/-- The slots after those of `m` requests. -/
def nextSlots (m cnt : ℕ) : List ℕ := (List.range' m cnt).map (· % kStaticSendBuf)

theorem nextSlots_succ (m cnt : ℕ) :
    nextSlots m (cnt + 1) = m % kStaticSendBuf :: nextSlots (m + 1) cnt := by
  rw [nextSlots, List.range'_succ, List.map_cons, nextSlots]

theorem length_nextSlots (m cnt : ℕ) : (nextSlots m cnt).length = cnt := by
  rw [nextSlots, List.length_map, List.length_range']

/-- Requests that are less than a round apart have different slots. -/
theorem slot_ne {m i c : ℕ} (hc : c ≤ m) (hmi : m < i) (hi : i < c + kStaticSendBuf) :
    i % kStaticSendBuf ≠ m % kStaticSendBuf := by
  have hring : kStaticSendBuf = 128 := rfl
  rw [hring] at hi ⊢
  omega

theorem not_mem_nextSlots {m cnt c : ℕ} (hc : c ≤ m) (hroom : m + 1 + cnt ≤ c + kStaticSendBuf) :
    m % kStaticSendBuf ∉ nextSlots (m + 1) cnt := by
  intro hmem
  obtain ⟨i, hi, heq⟩ := List.mem_map.mp hmem
  have hrange := List.mem_range'_1.mp hi
  exact slot_ne hc hrange.1 (by omega) heq

/-- The requests of a batch. -/
def batchOf (s : SendQueue) (ids : List ℕ) : List Request :=
  ids.map fun id ↦ ⟨id, (s.wr id).signaled⟩

theorem kept_set_signal_cnt (s : SendQueue) (slot : ℕ) : Kept s (s.set_signal_cnt slot) :=
  ⟨rfl, rfl, rfl, rfl, rfl, le_rfl⟩

theorem mark_signaled (s : SendQueue) (slot : ℕ) :
    ((s.mark slot).wr slot).signaled = s.signals slot := by
  change (Function.update s.wr slot _ slot).signaled = _
  rw [Function.update_self]

theorem mark_signaled_of_ne {i : ℕ} (hi : i ≠ slot) :
    ((s.mark slot).wr i).signaled = (s.wr i).signaled := by
  change (Function.update s.wr slot _ i).signaled = _
  rw [Function.update_of_ne hi]

theorem set_signal_cnt_signaled (s : SendQueue) (slot i : ℕ) :
    ((s.set_signal_cnt slot).wr i).signaled = (s.wr i).signaled := by
  change (Function.update s.wr slot _ i).signaled = _
  by_cases hi : i = slot
  · rw [hi, Function.update_self]
  · rw [Function.update_of_ne hi]

/-- What the loop of a post does for a batch. -/
structure Generated (s s' : SendQueue) (all : List Request) (ids : List ℕ) : Prop
    extends Kept s s' where
  accounted : Accounted s' (all ++ batchOf s' ids)
  tally : Tally s' (all ++ batchOf s' ids)
  others : ∀ slot ∉ ids, (s'.wr slot).signaled = (s.wr slot).signaled

/-- The first request of a batch, and the others. -/
theorem Generated.cons {b : Bool} (hkept : Kept s s₁) (hflag : (s₁.wr slot).signaled = b)
    (hothers : ∀ i ≠ slot, (s₁.wr i).signaled = (s.wr i).signaled) (hslot : slot ∉ ids)
    (h : Generated s₁ s' (all ++ [⟨slot, b⟩]) ids) : Generated s s' all (slot :: ids) := by
  have hbatch : all ++ batchOf s' (slot :: ids) = all ++ [⟨slot, b⟩] ++ batchOf s' ids := by
    rw [List.append_assoc, batchOf, List.map_cons, h.others slot hslot, hflag]
    rfl
  refine ⟨hkept.trans h.toKept, hbatch ▸ h.accounted, hbatch ▸ h.tally, fun i hi ↦ ?_⟩
  rw [List.mem_cons, not_or] at hi
  exact (h.others i hi.2).trans (hothers i hi.1)

/-- The loop of a post keeps the books for each request in turn. -/
theorem Accounted.generate (hgen : Generate cq_len ids s s') (h : Accounted s all)
    (htally : Tally s all) (hids : ids = nextSlots all.length ids.length)
    (hroom : all.length + ids.length ≤ s.covered + kStaticSendBuf) : Generated s s' all ids := by
  induction hgen generalizing all with
  | nil =>
    have hbatch (s : SendQueue) : all ++ batchOf s [] = all := List.append_nil all
    exact ⟨⟨rfl, rfl, rfl, rfl, rfl, le_rfl⟩, (hbatch _).symm ▸ h, (hbatch _).symm ▸ htally,
      fun _ _ ↦ rfl⟩
  | @plain s s' slot ids hsignals _ ih =>
    rw [List.length_cons] at hids hroom
    rw [nextSlots_succ] at hids
    obtain ⟨hslot, hrest⟩ := List.cons.inj hids
    have hcovered := h.covered_le.trans (h.completed_le.trans h.length)
    have hnext : (s.mark slot).Accounted (all ++ [⟨slot, false⟩]) :=
      (h.mark slot).append hslot (by change _ < s.covered + _; omega)
        fun htrue ↦ absurd htrue Bool.false_ne_true
    have hlength : (all ++ [(⟨slot, false⟩ : Request)]).length = all.length + 1 := List.length_append
    have hnot : slot ∉ ids := by
      rw [hrest, hslot]
      exact not_mem_nextSlots hcovered (by omega)
    have hafter := ih hnext (htally.append_plain hsignals) (by rwa [hlength])
      (by rw [hlength]; change _ ≤ s.covered + _; omega)
    exact hafter.cons (kept_mark s slot) ((mark_signaled s slot).trans hsignals)
      (fun i hi ↦ mark_signaled_of_ne hi) hnot
  | @signaled s s₁ s' slot ids hsignals hcheck _ ih =>
    rw [List.length_cons] at hids hroom
    rw [nextSlots_succ] at hids
    obtain ⟨hslot, hrest⟩ := List.cons.inj hids
    have hcovered := h.covered_le.trans (h.completed_le.trans h.length)
    obtain ⟨hpolled, hsame⟩ := (h.mark slot).checkSignal hcheck
    have hle : s.covered ≤ s₁.covered := hsame.covered
    have hcount : s₁.send_cnt_bf_signal = all.length + 1 - lastEnd all all.length := by
      have hbehind := htally.behind
      rw [hsame.behind]
      change s.send_cnt_bf_signal + 1 = _
      omega
    have hnext : (s₁.set_signal_cnt slot).Accounted (all ++ [⟨slot, true⟩]) := by
      refine (hpolled.set_signal_cnt hslot (by omega)).append hslot
        (by change _ < s₁.covered + _; omega) fun _ ↦ ?_
      rw [← hslot, ← hcount]
      change (Function.update s₁.wr slot _ slot).signal_cnt = _
      rw [Function.update_self]
    have hlength : (all ++ [(⟨slot, true⟩ : Request)]).length = all.length + 1 := List.length_append
    have hnot : slot ∉ ids := by
      rw [hrest, hslot]
      exact not_mem_nextSlots hcovered (by omega)
    have hafter := ih hnext (tally_set_signal_cnt s₁ all slot) (by rwa [hlength])
      (by rw [hlength]; change _ ≤ s₁.covered + _; omega)
    refine hafter.cons
      ((kept_mark s slot).trans (hsame.toKept.trans (kept_set_signal_cnt s₁ slot))) ?_ ?_ hnot
    · rw [set_signal_cnt_signaled, hsame.wr, mark_signaled, hsignals]
    · intro i hi
      rw [set_signal_cnt_signaled, hsame.wr, mark_signaled_of_ne hi]

/-! ### The calls keep the invariant -/

/-- The invariant between the calls. -/
structure Inv (s : SendQueue) : Prop where
  accounted : Accounted s s.issued
  tally : Tally s s.issued
  begin_id : s.send_begin_id = s.issued.length % kStaticSendBuf
  pos : s.send_buf_pos = (s.issued.length + s.send_pending_cnt) % kStaticSendBuf
  room : s.send_counter + s.send_pending_cnt ≤ kStaticSendBuf
  fresh : s.fresh = true → s.send_counter + s.send_pending_cnt < kStaticSendBuf

theorem Inv.init (wr : ℕ → SingleWr) : Inv (init wr) where
  accounted := by
    refine ⟨List.prefix_rfl, fun n r hr ↦ ?_, fun n _ hn ↦ ?_, rfl, le_rfl, le_rfl, rfl, Nat.zero_le _,
      rfl⟩
    · exact absurd hr (Option.some_ne_none r).symm
    · exact absurd (lt_of_signaledAt hn) (Nat.not_lt_zero n)
  tally := ⟨rfl, rfl, Nat.zero_lt_succ 31⟩
  begin_id := rfl
  pos := rfl
  room := Nat.zero_le _
  fresh := fun h ↦ absurd h Bool.false_ne_true

/-- A poll can only make room. -/
theorem Inv.unpolled (h : Inv s) (hbooks : Accounted s' s.issued) (hsame : Unpolled s s') : Inv s' := by
  have hbefore := h.accounted.counter
  have hafter := hbooks.counter
  have hissued := hsame.issued
  have hcovered := hsame.covered
  rw [hissued] at hafter
  have hcounter : s'.send_counter ≤ s.send_counter := by omega
  have hle := Nat.add_le_add_right hcounter s.send_pending_cnt
  refine ⟨?_, ?_, ?_, ?_, ?_, fun hfresh ↦ ?_⟩
  · rwa [hissued]
  · rw [hissued]
    exact hsame.tally h.tally
  · rw [hsame.begin_id, hissued, h.begin_id]
  · rw [hsame.pos, hissued, hsame.pending, h.pos]
  · rw [hsame.pending]
    exact hle.trans h.room
  · rw [hsame.fresh] at hfresh
    rw [hsame.pending]
    exact hle.trans_lt (h.fresh hfresh)

theorem Inv.polled (h : Inv s) (hpoll : Polled k s s') : Inv s' :=
  h.unpolled (h.accounted.polled hpoll).1 (h.accounted.polled hpoll).2

theorem Inv.checkSignal (h : Inv s) (hcheck : CheckSignal cq_len s s') : Inv s' :=
  h.unpolled (h.accounted.checkSignal hcheck).1 (h.accounted.checkSignal hcheck).2

/-- The pending requests get the slots after those of the issued ones. -/
theorem Inv.pendingSlots (h : Inv s) :
    s.pendingSlots = nextSlots s.issued.length s.send_pending_cnt := by
  rw [SendQueue.pendingSlots, nextSlots, List.range'_eq_map_range, List.map_map]
  refine List.map_congr_left fun i _ ↦ ?_
  rw [h.begin_id, Nat.add_mod_mod, Nat.add_comm i]
  rfl

/-- The requests that are posted or pending fit into the ring. -/
theorem Inv.window (h : Inv s) :
    s.issued.length + s.send_pending_cnt ≤ s.covered + kStaticSendBuf := by
  have hcounter := h.accounted.counter
  have hroom := h.room
  omega

theorem Inv.post (h : Inv s) (hpost : Post cq_len s s') : Inv s' := by
  rw [Post] at hpost
  split_ifs at hpost with hnone
  · rwa [hpost]
  obtain ⟨s₁, hgen, rfl⟩ := hpost
  have hring : kStaticSendBuf = 128 := rfl
  have hids := h.pendingSlots
  have hlength : s.pendingSlots.length = s.send_pending_cnt := by rw [hids, length_nextSlots]
  have hdone := h.accounted.generate hgen h.tally (by rw [hlength]; exact hids)
    (by rw [hlength]; exact h.window)
  have hissued : (s₁.issue s.pendingSlots).issued = s.issued ++ batchOf s₁ s.pendingSlots := by
    change s₁.issued ++ _ = _
    rw [hdone.issued]
    rfl
  have hlonger : (s₁.issue s.pendingSlots).issued.length =
      s.issued.length + s.send_pending_cnt := by
    rw [hissued, List.length_append, batchOf, List.length_map, hlength]
  have hbefore := h.accounted.counter
  have hafter := hdone.accounted.counter
  have hcovered := hdone.covered
  have hwindow := h.window
  rw [hdone.issued] at hafter
  have hcounter : (s₁.issue s.pendingSlots).send_counter =
      s₁.send_counter + s.send_pending_cnt := by
    change (s₁.send_counter + s.pendingSlots.length) % 2 ^ 32 = _
    rw [hlength]
    exact Nat.mod_eq_of_lt (by omega)
  have hpending : (s₁.issue s.pendingSlots).send_pending_cnt = 0 := rfl
  have hbooks : Accounted (s₁.issue s.pendingSlots) (s.issued ++ batchOf s₁ s.pendingSlots) := {
    issued := by rw [hissued]
    slots := hdone.accounted.slots
    counts := hdone.accounted.counts
    counter := by
      rw [hcounter, hlonger, ← hafter]
      exact Nat.add_right_comm _ _ _
    covered_le := hdone.accounted.covered_le
    completed_le := by
      have hcompleted := hdone.accounted.completed_le
      rw [hdone.issued] at hcompleted
      rw [hlonger]
      exact hcompleted.trans (Nat.le_add_right _ _)
    boundary := hdone.accounted.boundary
    window := hdone.accounted.window
    queue := hdone.accounted.queue }
  refine ⟨?_, ?_, ?_, ?_, ?_, fun hfresh ↦ ?_⟩
  · rw [hissued]
    exact hbooks
  · rw [hissued]
    exact ⟨hdone.tally.one, hdone.tally.behind, hdone.tally.few⟩
  · rw [hlonger, ← h.pos]
    exact hdone.pos
  · rw [hlonger, hpending, Nat.add_zero, ← h.pos]
    exact hdone.pos
  · rw [hcounter, hpending]
    omega
  · change s₁.fresh = true at hfresh
    rw [hdone.fresh] at hfresh
    have hlt := h.fresh hfresh
    rw [hcounter, hpending]
    omega

theorem Inv.waitForBuffer (hwait : WaitForBuffer cq_len s s') (h : Inv s) :
    Inv s' ∧ s'.send_counter + s'.send_pending_cnt < kStaticSendBuf := by
  induction hwait with
  | done hroom => exact ⟨h, hroom⟩
  | post _ _ hpost hpoll _ ih => exact ih ((h.post hpost).polled hpoll)
  | poll _ _ hpoll _ ih => exact ih (h.polled hpoll)

theorem Inv.get (h : Inv s) (hget : Get cq_len s s') : Inv s' := by
  obtain ⟨s₁, s₂, hcheck, hwait, rfl⟩ := hget
  obtain ⟨hinv, hroom⟩ := Inv.waitForBuffer hwait (h.checkSignal hcheck)
  exact ⟨{ hinv.accounted with }, { hinv.tally with }, hinv.begin_id, hinv.pos, hinv.room,
    fun _ ↦ hroom⟩

theorem Inv.append (h : Inv s) (signal : Bool) (hfresh : s.fresh = true) :
    Inv (s.append_signal_smsg signal) := by
  have hroom := h.fresh hfresh
  have hring : kStaticSendBuf = 128 := rfl
  have hpending : (s.append_signal_smsg signal).send_pending_cnt = s.send_pending_cnt + 1 := by
    change (s.send_pending_cnt + 1) % 2 ^ 16 = _
    exact Nat.mod_eq_of_lt (by omega)
  refine ⟨{ h.accounted with counts := fun n hn hsignaled ↦ ?_ }, { h.tally with }, h.begin_id, ?_,
    ?_, fun hfresh ↦ absurd hfresh Bool.false_ne_true⟩
  · exact (update_signal_cnt s.wr s.send_buf_pos _ signal).trans (h.accounted.counts n hn hsignaled)
  · rw [hpending]
    change (s.send_buf_pos + 1) % kStaticSendBuf = (s.issued.length + _) % _
    rw [h.pos, Nat.mod_add_mod, Nat.add_assoc]
  · rw [hpending]
    exact hroom

theorem Inv.step {e : Event} (h : Inv s) (hstep : Step cq_len s e s') : Inv s' := by
  cases hstep with
  | get hget => exact h.get hget
  | append signal hfresh => exact h.append signal hfresh
  | post hpost => exact h.post hpost
  | poll hpoll => exact h.polled hpoll

/-! ### The send queue -/

/-- A buffer that was asked for is of no pending request. -/
theorem Inv.not_pending (h : Inv s) (hfresh : s.fresh = true) : s.send_buf_pos ∉ s.pendingSlots := by
  intro hmem
  rw [h.pendingSlots] at hmem
  obtain ⟨i, hi, heq⟩ := List.mem_map.mp hmem
  obtain ⟨hle, hlt⟩ := List.mem_range'_1.mp hi
  have hroom := h.fresh hfresh
  rw [h.pos] at heq
  exact slot_ne hle hlt (by omega) heq.symm

/-- A buffer that was asked for is of no request that is on its way. -/
theorem Inv.not_issued (h : Inv s) (hfresh : s.fresh = true) {r : Request}
    (hr : r ∈ s.issued.drop s.covered) : r.slot ≠ s.send_buf_pos := by
  intro heq
  obtain ⟨i, hi, rfl⟩ := List.mem_iff_getElem.mp hr
  rw [List.length_drop] at hi
  rw [List.getElem_drop, h.accounted.slots (s.covered + i) _ (List.getElem?_eq_getElem _), h.pos]
    at heq
  have hcounter := h.accounted.counter
  have hroom := h.fresh hfresh
  exact slot_ne (Nat.le_add_right _ i) (by omega) (by omega) heq.symm

theorem boundary_signaled {l : List Request} (h : lastEnd l n = n) :
    n = 0 ∨ signaledAt l (n - 1) = true := by
  cases n with
  | zero => exact Or.inl rfl
  | succ n =>
    right
    rw [lastEnd] at h
    split_ifs at h with hsignaled
    · exact hsignaled
    · exact absurd (h.symm.le.trans (lastEnd_le l n)) (Nat.not_succ_le_self n)

end

/-- The pending requests and those that are on their way fit into the ring, and `send_counter` is the
number of the latter. A buffer that was asked for belongs to neither. Fewer than `kMaxSignal` requests
follow the last signalled one, and the first completion in the queue releases the requests after the
previous signalled one up to its own. -/
theorem send_queue (wr : ℕ → SingleWr) (cq_len : ℕ) {s : SendQueue}
    (hrun : Reachable (init wr) (Step cq_len) (fun _ _ ↦ True) s) :
    s.send_counter + s.send_pending_cnt ≤ kStaticSendBuf ∧
      (s.covered ≤ s.issued.length ∧ s.send_counter = s.issued.length - s.covered) ∧
      (s.fresh = true → s.send_buf_pos ∉ s.pendingSlots ∧
        ∀ r ∈ s.issued.drop s.covered, r.slot ≠ s.send_buf_pos) ∧
      s.send_cnt_bf_signal + s.one_cnt_bf_signal < kMaxSignal ∧
      ∀ (n : ℕ) (cq : List (Option ℕ)), s.cq = some n :: cq →
        s.covered ≤ n ∧ n < s.issued.length ∧ signaledAt s.issued n = true ∧
          (∀ m, s.covered ≤ m → m < n → signaledAt s.issued m = false) ∧
          (s.covered = 0 ∨ signaledAt s.issued (s.covered - 1) = true) ∧
          (s.release n cq).send_counter + (n + 1 - s.covered) = s.send_counter := by
  have hinv : Inv s :=
    hrun.invariant Inv (Inv.init wr) fun _ _ _ _ hinv _ hstep ↦ hinv.step hstep
  have hcounter := hinv.accounted.counter
  refine ⟨hinv.room, ⟨by omega, by omega⟩,
    fun hfresh ↦ ⟨hinv.not_pending hfresh, fun r hr ↦ hinv.not_issued hfresh hr⟩, ?_,
    fun n cq hcq ↦ ?_⟩
  · rw [hinv.tally.one]
    exact hinv.tally.few
  · obtain ⟨hn, hlt, hsignaled, hnone, -, -⟩ := hinv.accounted.first hcq
    have hreleased := (hinv.accounted.release hcq).counter
    rw [release_covered, release_issued] at hreleased
    exact ⟨hn, hlt.trans_le hinv.accounted.completed_le, hsignaled, hnone,
      boundary_signaled hinv.accounted.boundary, by omega⟩

/-- What the thread and the NIC do one after the other. -/
inductive Act
  | get
  | append (signal : Bool)
  | post
  | complete
  | release

/-- `Generate` as long as the completion queue is not full. -/
def generate (cq_len : ℕ) : List ℕ → SendQueue → Option SendQueue
  | [], s => some s
  | id :: ids, s =>
    if s.signals id then
      if (s.mark id).signal_counter = cq_len then none
      else generate cq_len ids ((s.mark id).set_signal_cnt id)
    else generate cq_len ids (s.mark id)

/-- The acts that need no wait. -/
def exec (cq_len : ℕ) (s : SendQueue) : Act → Option SendQueue
  | .get =>
    if s.signal_counter ≠ cq_len ∧ s.send_counter + s.send_pending_cnt < kStaticSendBuf then
      some { s with fresh := true }
    else none
  | .append signal => if s.fresh = true then some (s.append_signal_smsg signal) else none
  | .post =>
    if s.send_pending_cnt = 0 then some s
    else (generate cq_len s.pendingSlots s).map fun s₁ ↦ s₁.issue s.pendingSlots
  | .complete => s.issued[s.completed]?.map s.complete
  | .release =>
    match s.cq with
    | some n :: cq => some (s.release n cq)
    | _ => none

section

variable {s s' : SendQueue} {cq_len : ℕ} {ids : List ℕ}

theorem generate_sound (h : generate cq_len ids s = some s') : Generate cq_len ids s s' := by
  induction ids generalizing s with
  | nil =>
    obtain rfl := Option.some.inj h
    exact Generate.nil
  | cons id ids ih =>
    rw [generate] at h
    split_ifs at h with hsignals hfull
    · exact Generate.signaled hsignals (checkSignal_of_ne hfull) (ih h)
    · exact Generate.plain (Bool.not_eq_true _ ▸ hsignals) (ih h)

theorem exec_step {a : Act} (h : exec cq_len s a = some s') : ∃ e, Step cq_len s e s' := by
  cases a with
  | get =>
    obtain ⟨⟨hroom, hfree⟩, hsome⟩ := Option.ite_none_right_eq_some.mp h
    exact ⟨_, Step.get ⟨s, s, checkSignal_of_ne hroom, WaitForBuffer.done hfree,
      (Option.some.inj hsome).symm⟩⟩
  | append signal =>
    obtain ⟨hfresh, hsome⟩ := Option.ite_none_right_eq_some.mp h
    exact ⟨_, Option.some.inj hsome ▸ Step.append signal hfresh⟩
  | post =>
    refine ⟨_, Step.post ?_⟩
    rw [exec] at h
    unfold Post
    split_ifs at h ⊢ with hnone
    · exact (Option.some.inj h).symm
    · obtain ⟨s₁, hgenerate, rfl⟩ := Option.map_eq_some_iff.mp h
      exact ⟨s₁, generate_sound hgenerate, rfl⟩
  | complete =>
    obtain ⟨r, hr, rfl⟩ := Option.map_eq_some_iff.mp h
    exact ⟨_, Step.poll (Polled.complete hr Polled.refl)⟩
  | release =>
    rw [exec] at h
    split at h
    · next n cq hcq =>
      exact ⟨_, Step.poll (Option.some.inj h ▸ Polled.release hcq Polled.refl)⟩
    · cases h

theorem reachable_of_foldlM {acts : List Act} (h : acts.foldlM (exec cq_len) s = some s') :
    Reachable s (Step cq_len) (fun _ _ ↦ True) s' := by
  refine Reachable.init.foldlM (fun _ _ _ hexec ↦ ?_) h
  obtain ⟨e, hstep⟩ := exec_step hexec
  exact ⟨e, trivial, hstep⟩

end

/-- Sixteen posts of two requests each, which the NIC completes. -/
def sixteenPosts : List Act :=
  (List.replicate 16 [.get, .append false, .get, .append false, .post, .complete, .complete]).flatten

/-- Six times as much, with the first five completions polled. -/
def sixRounds : List Act :=
  (List.replicate 5 (sixteenPosts ++ [.release])).flatten ++ sixteenPosts

/-- After 192 requests the ring has wrapped around, five completions have been polled, and the sixth one,
which releases 32 requests, is in the queue. -/
theorem send_queue_192_requests :
    ∃ s : SendQueue, Reachable (init fun _ ↦ ⟨false, 0⟩) (Step 128) (fun _ _ ↦ True) s ∧
      s.issued.length = 192 ∧ s.send_buf_pos = 64 ∧ s.cq = [some 191] ∧ s.send_counter = 32 ∧
      signaledAt s.issued 191 = true ∧ (s.release 191 []).send_counter = 0 := by
  have hsome : (sixRounds.foldlM (exec 128) (init fun _ ↦ ⟨false, 0⟩)).map (fun s ↦
        decide (s.issued.length = 192 ∧ s.send_buf_pos = 64 ∧ s.cq = [some 191] ∧
          s.send_counter = 32 ∧ s.covered = 160)) = some true := by
    decide +kernel
  obtain ⟨s, hexec, hdecide⟩ := Option.map_eq_some_iff.mp hsome
  obtain ⟨hlength, hpos, hcq, hcounter, hcovered⟩ := of_decide_eq_true hdecide
  have hrun := reachable_of_foldlM hexec
  obtain ⟨-, -, -, -, hrelease⟩ := send_queue _ 128 hrun
  obtain ⟨-, -, hsignaled, -, -, hreleased⟩ := hrelease 191 [] hcq
  rw [hcounter, hcovered] at hreleased
  exact ⟨s, hrun, hlength, hpos, hcq, hcounter, hsignaled, by omega⟩

end SendQueue

end SwitchDelta.Rdma
