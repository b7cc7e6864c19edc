import SwitchDelta.Foundation.Transition

/-!
# The receive ring

The receiving side of a `QPInfo` that has no shared receive queue. Its buffers are posted in `POSTPIPE`
batches of `kBatchRecv`, and the NIC fills them in the order in which they were posted. The thread takes
the messages one by one and frees them, and whole batches are posted again when the count of posted
buffers has fallen by more than a batch.

`recv_ring` is the invariant of a run of any length, during which the position in the ring and the
16-bit position among the batches wrap around at different times: the thread reads the buffers in the
order in which the NIC filled them, and no batch is posted again before its messages have been freed.
-/

set_option autoImplicit false
set_option relaxedAutoImplicit false

namespace SwitchDelta.Rdma

open Foundation

/-- `POSTPIPE`. -/
def POSTPIPE : ℕ := 64

/-- `QPInfo::kBatchRecv`, from `FLAGS_qp_len`. -/
def kBatchRecv (qp_len : ℕ) : ℕ := qp_len / POSTPIPE

/-- The buffer of `rpc_recv_wr[batch]->sglist[slot]`. -/
structure RecvBuf where
  batch : ℕ
  slot : ℕ
  deriving DecidableEq

/-- A batch that is posted again, with the number of messages that have been freed by then, the buffers
that have received a message, and those that the NIC still has. -/
structure Repost where
  batch : ℕ
  freed : ℕ
  received : List RecvBuf
  posted : List RecvBuf

/-- The receiving side of `QPInfo`, with the receive queue of the NIC. The buffers that have received a
message, those that `get_recv_msg_sg` has returned, the number of messages freed and the batches posted
again are recorded. -/
structure RecvRing where
  recv_buf_cnt : ℕ
  recv_processing_cnt : ℕ
  recv_buf_pos : ℕ
  recv_postpipe_pos : ℕ
  posted : List RecvBuf
  received : List RecvBuf
  got : List RecvBuf
  freed : ℕ
  reposts : List Repost

namespace RecvRing

variable (B : ℕ)

/-! ### The operations -/

/-- `BatchRecvWr::post_batch`. -/
def post_batch (q : RecvRing) (batch : ℕ) : RecvRing :=
  { q with
    posted := q.posted ++ (List.range B).map fun slot ↦ ⟨batch, slot⟩
    recv_buf_cnt := (q.recv_buf_cnt + B) % 2 ^ 32 }

/-- A queue pair that nothing has been posted to. -/
def empty : RecvRing := ⟨0, 0, 0, 0, [], [], [], 0, []⟩

/-- `QPInfo::init_recv_with_one_mr` of a new queue pair. -/
def init_recv_with_one_mr : RecvRing :=
  (List.range POSTPIPE).foldl (fun q batch ↦ q.post_batch B batch) empty

/-- A round of the loop of `check_recv_buf_cnt`. -/
def repost (q : RecvRing) : RecvRing :=
  { q.post_batch B (q.recv_postpipe_pos % POSTPIPE) with
    recv_postpipe_pos := (q.recv_postpipe_pos + 1) % 2 ^ 16
    reposts := q.reposts ++ [⟨q.recv_postpipe_pos % POSTPIPE, q.freed, q.received, q.posted⟩] }

/-- The loop of `check_recv_buf_cnt`, for a number of rounds. -/
def check : ℕ → RecvRing → RecvRing
  | 0, q => q
  | rounds + 1, q =>
    if q.recv_buf_cnt < (POSTPIPE - 1) * B % 2 ^ 32 then check rounds (q.repost B) else q

/-- `QPInfo::check_recv_buf_cnt`. Each round brings the count a batch nearer to the bound, which takes
fewer than `POSTPIPE` rounds. -/
def check_recv_buf_cnt (q : RecvRing) : RecvRing := check B POSTPIPE q

/-- `QPInfo::get_recv_msg_sg`: the buffer it returns and the ring after it. -/
def get_recv_msg_sg (q : RecvRing) : RecvBuf × RecvRing :=
  (⟨q.recv_buf_pos / B, q.recv_buf_pos % B⟩,
    { q with
      recv_buf_pos := (q.recv_buf_pos + 1) % (POSTPIPE * B % 2 ^ 32)
      recv_processing_cnt := (q.recv_processing_cnt + 1) % 2 ^ 32 })

/-- `QPInfo::free_recv_msg`. -/
def free_recv_msg (q : RecvRing) : RecvRing :=
  check_recv_buf_cnt B
    { q with
      recv_buf_cnt := (q.recv_buf_cnt + 2 ^ 32 - q.recv_processing_cnt) % 2 ^ 32
      recv_processing_cnt := 0 }

/-- What happens at the ring. -/
inductive Event
  | deliver
  | get
  | free

/-- A step: the NIC puts a message into the first buffer of its queue, or the thread takes a message
that has been delivered, or frees those it has taken, which is recorded as soon as it calls
`free_recv_msg`. -/
inductive Step : RecvRing → Event → RecvRing → Prop
  | deliver {q : RecvRing} {b : RecvBuf} {rest : List RecvBuf} : q.posted = b :: rest →
      Step q .deliver { q with posted := rest, received := q.received ++ [b] }
  | get {q : RecvRing} : q.got.length < q.received.length →
      Step q .get { (q.get_recv_msg_sg B).2 with got := q.got ++ [(q.get_recv_msg_sg B).1] }
  | free {q : RecvRing} : Step q .free ({ q with freed := q.got.length }.free_recv_msg B)

/-! ### The invariant -/

variable {B}

/-- The buffer that was posted as the `n`-th one. -/
def nth (B n : ℕ) : RecvBuf := ⟨n / B % POSTPIPE, n % B⟩

/-- A batch may be posted: its messages have been freed, and the NIC has none of its buffers. -/
def Repost.Safe (e : Repost) : Prop :=
  (∀ n b, e.received[n]? = some b → b.batch = e.batch → n < e.freed) ∧
    ∀ b ∈ e.posted, b.batch ≠ e.batch

/-- The invariant between the rounds of `check_recv_buf_cnt`, with the number of batches that have been
posted again. -/
structure Counted (B : ℕ) (q : RecvRing) (again : ℕ) : Prop where
  buffers : q.received ++ q.posted = (List.range (POSTPIPE * B + B * again)).map (nth B)
  got : q.got = q.received.take q.got.length
  taken : q.got.length ≤ q.received.length
  freed : q.freed ≤ q.got.length
  count : q.recv_buf_cnt + q.freed = POSTPIPE * B + B * again
  processing : q.recv_processing_cnt + q.freed = q.got.length
  position : q.recv_buf_pos = q.got.length % (POSTPIPE * B)
  batches : q.recv_postpipe_pos = again % 2 ^ 16
  lower : B * again ≤ q.freed
  recorded : q.reposts.length = again
  reposts : ∀ e ∈ q.reposts, Repost.Safe e

/-- The invariant: no more than a batch has been freed and not posted again. -/
structure Inv (B : ℕ) (q : RecvRing) : Prop where
  counted : ∃ again, Counted B q again ∧ q.freed ≤ B * (again + 1)

theorem nth_batch (hB : 0 < B) {batch slot : ℕ} (hslot : slot < B) :
    nth B (B * batch + slot) = ⟨batch % POSTPIPE, slot⟩ := by
  rw [nth, Nat.mul_add_div hB, Nat.div_eq_of_lt hslot, Nat.add_zero, Nat.mul_add_mod,
    Nat.mod_eq_of_lt hslot]

/-- The buffers of a batch follow those that were posted before it. -/
theorem posted_batch (hB : 0 < B) (batch : ℕ) :
    (List.range (B * batch)).map (nth B) ++
        (List.range B).map (fun slot ↦ (⟨batch % POSTPIPE, slot⟩ : RecvBuf)) =
      (List.range (B * (batch + 1))).map (nth B) := by
  rw [Nat.mul_succ, List.range_add, List.map_append, List.map_map]
  congr 1
  refine List.map_congr_left fun slot hslot ↦ ?_
  exact (nth_batch hB (List.mem_range.mp hslot)).symm

section

variable {q q' : RecvRing} {again : ℕ}

/-- The first batches of `init_recv_with_one_mr`. -/
theorem post_batches (hB : 0 < B) (hlen : POSTPIPE * B < 2 ^ 31) {n : ℕ} (hn : n ≤ POSTPIPE) :
    (List.range n).foldl (fun q batch ↦ post_batch B q batch) empty =
      { empty with recv_buf_cnt := B * n, posted := (List.range (B * n)).map (nth B) } := by
  induction n with
  | zero => rfl
  | succ n ih =>
    have hbatch : n % POSTPIPE = n := Nat.mod_eq_of_lt hn
    have hle : B * (n + 1) ≤ POSTPIPE * B := by
      rw [Nat.mul_comm POSTPIPE]
      exact Nat.mul_le_mul_left B hn
    have hsucc : B * (n + 1) = B * n + B := Nat.mul_succ B n
    have hcount : (B * n + B) % 2 ^ 32 = B * (n + 1) := by
      rw [← hsucc]
      exact Nat.mod_eq_of_lt (by omega)
    have hposted := posted_batch hB n
    rw [hbatch] at hposted
    rw [List.range_succ, List.foldl_append, ih (Nat.le_of_succ_le hn), List.foldl_cons,
      List.foldl_nil, post_batch]
    dsimp only
    rw [hposted, hcount]

theorem Inv.init (hB : 0 < B) (hlen : POSTPIPE * B < 2 ^ 31) : Inv B (init_recv_with_one_mr B) := by
  rw [init_recv_with_one_mr, post_batches hB hlen le_rfl, Nat.mul_comm B]
  exact ⟨0, ⟨rfl, rfl, le_rfl, le_rfl, rfl, rfl, (Nat.zero_mod _).symm, rfl, le_rfl, rfl,
    fun _ he ↦ absurd he List.not_mem_nil⟩, Nat.zero_le _⟩

/-- All buffers that have received a message, in order. -/
theorem Counted.received (h : Counted B q again) :
    q.received = (List.range q.received.length).map (nth B) := by
  have hlength : q.received.length ≤ POSTPIPE * B + B * again := by
    have hle := congrArg List.length h.buffers
    rw [List.length_append, List.length_map, List.length_range] at hle
    omega
  have htake := congrArg (List.take q.received.length) h.buffers
  rwa [List.take_left, ← List.map_take, List.take_range, Nat.min_eq_left hlength] at htake

theorem Counted.posted (h : Counted B q again) {b : RecvBuf} (hb : b ∈ q.posted) :
    ∃ n, q.received.length ≤ n ∧ n < POSTPIPE * B + B * again ∧ b = nth B n := by
  have hdrop := congrArg (List.drop q.received.length) h.buffers
  rw [List.drop_left, ← List.map_drop] at hdrop
  rw [hdrop] at hb
  obtain ⟨n, hn, rfl⟩ := List.mem_map.mp hb
  obtain ⟨i, hi, rfl⟩ := List.mem_iff_getElem.mp hn
  rw [List.length_drop, List.length_range] at hi
  rw [List.getElem_drop, List.getElem_range]
  exact ⟨_, Nat.le_add_right _ _, by omega, rfl⟩

theorem Counted.length (h : Counted B q again) :
    q.received.length + q.posted.length = POSTPIPE * B + B * again := by
  have hlength := congrArg List.length h.buffers
  rwa [List.length_append, List.length_map, List.length_range] at hlength

/-- Two batches that are less than a round apart are different. -/
theorem batch_eq (hB : 0 < B) {n again : ℕ} (hlt : n < POSTPIPE * B + B * again)
    (heq : n / B % POSTPIPE = again % POSTPIPE) : n < B * (again + 1) := by
  have hbound : n / B < POSTPIPE + again := by
    rw [Nat.div_lt_iff_lt_mul hB, Nat.add_mul, Nat.mul_comm again]
    exact hlt
  have hle : n / B < again + 1 := by
    have hpipe : POSTPIPE = 64 := rfl
    rw [hpipe] at hbound heq
    omega
  rwa [Nat.div_lt_iff_lt_mul hB, Nat.mul_comm] at hle

/-- A round of the loop, when more than a batch has been freed. -/
theorem Counted.repost (h : Counted B q again) (hB : 0 < B) (hlen : POSTPIPE * B < 2 ^ 31)
    (hfreed : B * (again + 1) < q.freed) : Counted B (q.repost B) (again + 1) := by
  have hpos : q.recv_postpipe_pos % POSTPIPE = again % POSTPIPE := by
    rw [h.batches]
    exact Nat.mod_mod_of_dvd again (by decide)
  have hsucc : B * (again + 1) = B * again + B := Nat.mul_succ B again
  have hbuffers := h.buffers
  have htaken := h.taken
  have hle := h.freed
  refine ⟨?_, h.got, h.taken, h.freed, ?_, h.processing, h.position, ?_, hfreed.le, ?_,
    fun e he ↦ ?_⟩
  · have hbatch : (List.range B).map (fun slot ↦ (⟨again % POSTPIPE, slot⟩ : RecvBuf)) =
        (List.range B).map (fun slot ↦ (⟨(POSTPIPE + again) % POSTPIPE, slot⟩ : RecvBuf)) := by
      rw [Nat.add_mod_left]
    change q.received ++ (q.posted ++
      (List.range B).map fun slot ↦ ⟨q.recv_postpipe_pos % POSTPIPE, slot⟩) = _
    rw [← List.append_assoc, hbuffers, hpos, hbatch, Nat.mul_comm POSTPIPE, ← Nat.mul_add,
      posted_batch hB, ← Nat.mul_add, Nat.add_assoc]
  · have hcount := h.count
    change (q.recv_buf_cnt + B) % 2 ^ 32 + q.freed = _
    rw [Nat.mod_eq_of_lt (by omega)]
    omega
  · change (q.recv_postpipe_pos + 1) % 2 ^ 16 = _
    rw [h.batches, Nat.mod_add_mod]
  · change (q.reposts ++ [_]).length = _
    rw [List.length_append, h.recorded, List.length_singleton]
  · rcases List.mem_append.mp he with he | he
    · exact h.reposts e he
    · obtain rfl := List.mem_singleton.mp he
      refine ⟨fun n b hn hb ↦ ?_, fun b hb heq ↦ ?_⟩
      · rw [h.received, List.getElem?_map] at hn
        obtain ⟨m, hm, rfl⟩ := Option.map_eq_some_iff.mp hn
        obtain ⟨hlt, rfl⟩ := List.getElem?_eq_some_iff.mp hm
        rw [List.length_range] at hlt
        rw [List.getElem_range] at hb
        have hlength := h.length
        have hbound : n < POSTPIPE * B + B * again := by omega
        exact (batch_eq hB hbound (hb.trans hpos)).trans_le hfreed.le
      · obtain ⟨n, hn, hbound, rfl⟩ := h.posted hb
        have hlt := batch_eq hB hbound (heq.trans hpos)
        omega

/-- The loop of `check_recv_buf_cnt` ends, and leaves less than a batch that has been freed. -/
theorem Counted.check (h : Counted B q again) (hB : 0 < B) (hlen : POSTPIPE * B < 2 ^ 31)
    {rounds : ℕ} (hrounds : q.freed ≤ B * (again + 1) + B * rounds) : Inv B (check B rounds q) := by
  induction rounds generalizing q again with
  | zero => exact ⟨again, h, hrounds⟩
  | succ rounds ih =>
    have hbound : (POSTPIPE - 1) * B % 2 ^ 32 = POSTPIPE * B - B := by
      rw [Nat.sub_one_mul]
      exact Nat.mod_eq_of_lt (by omega)
    have hsucc : B * (again + 1) = B * again + B := Nat.mul_succ B again
    have hcount := h.count
    have hpipe : B ≤ POSTPIPE * B := Nat.le_mul_of_pos_left B (by decide)
    rw [RecvRing.check, hbound]
    split_ifs with hlow
    · refine ih (h.repost hB hlen (by omega)) ?_
      have hrest : B * (rounds + 1) = B * rounds + B := Nat.mul_succ B rounds
      have hnext : B * (again + 1 + 1) = B * (again + 1) + B := Nat.mul_succ B (again + 1)
      change q.freed ≤ _
      omega
    · exact ⟨again, h, by omega⟩

/-- `get_recv_msg_sg` returns the buffer of the next message. -/
theorem Counted.get (h : Counted B q again) (hlen : POSTPIPE * B < 2 ^ 31)
    (hnext : q.got.length < q.received.length) :
    Counted B { (q.get_recv_msg_sg B).2 with got := q.got ++ [(q.get_recv_msg_sg B).1] } again := by
  have hreceived := h.received
  have hlength := h.length
  have hfreed := h.freed
  have hlower := h.lower
  have hprocessing := h.processing
  have hbuf : (q.get_recv_msg_sg B).1 = nth B q.got.length := by
    rw [get_recv_msg_sg, h.position, Nat.mul_comm, Nat.mod_mul_right_div_self, Nat.mod_mul_right_mod, nth]
  have hvalue : q.received[q.got.length]? = some (nth B q.got.length) := by
    rw [hreceived, List.getElem?_map, List.getElem?_range hnext, Option.map_some]
  refine ⟨h.buffers, ?_, ?_, ?_, h.count, ?_, ?_, h.batches, h.lower,
    h.recorded, h.reposts⟩
  · change q.got ++ [_] = q.received.take (q.got ++ [_]).length
    rw [hbuf, List.length_append, List.length_singleton, List.take_add_one, ← h.got, hvalue]
    rfl
  · change (q.got ++ [_]).length ≤ q.received.length
    rw [List.length_append, List.length_singleton]
    exact hnext
  · change q.freed ≤ (q.got ++ [_]).length
    rw [List.length_append]
    omega
  · change (q.recv_processing_cnt + 1) % 2 ^ 32 + q.freed = (q.got ++ [_]).length
    rw [List.length_append, List.length_singleton, Nat.mod_eq_of_lt (by omega)]
    omega
  · change (q.recv_buf_pos + 1) % (POSTPIPE * B % 2 ^ 32) = (q.got ++ [_]).length % (POSTPIPE * B)
    rw [List.length_append, List.length_singleton, h.position,
      Nat.mod_eq_of_lt (show POSTPIPE * B < 2 ^ 32 by omega), Nat.mod_add_mod]

/-- One step keeps the invariant. -/
theorem Inv.step (h : Inv B q) (hB : 0 < B) (hlen : POSTPIPE * B < 2 ^ 31) {e : Event}
    (hstep : Step B q e q') : Inv B q' := by
  obtain ⟨again, hcounted, hupper⟩ := h
  cases hstep with
  | @deliver b rest hposted =>
    have hbuffers := hcounted.buffers
    have htaken := hcounted.taken
    rw [hposted] at hbuffers
    refine ⟨again, ⟨?_, ?_, ?_, hcounted.freed, hcounted.count, hcounted.processing,
      hcounted.position, hcounted.batches, hcounted.lower, hcounted.recorded, hcounted.reposts⟩,
      hupper⟩
    · rw [← hbuffers, List.append_assoc, List.singleton_append]
    · rw [List.take_append_of_le_length htaken]
      exact hcounted.got
    · change q.got.length ≤ (q.received ++ [b]).length
      rw [List.length_append]
      omega
  | get hnext => exact ⟨again, hcounted.get hlen hnext, hupper⟩
  | free =>
    have hcount := hcounted.count
    have hprocessing := hcounted.processing
    have hlength := hcounted.length
    have htaken := hcounted.taken
    have hfreed := hcounted.freed
    have hlower := hcounted.lower
    have hall : Counted B
        { q with
          recv_buf_cnt := (q.recv_buf_cnt + 2 ^ 32 - q.recv_processing_cnt) % 2 ^ 32
          recv_processing_cnt := 0
          freed := q.got.length } again := by
      refine ⟨hcounted.buffers, hcounted.got, hcounted.taken, le_rfl, ?_, Nat.zero_add _,
        hcounted.position, hcounted.batches, hlower.trans hfreed, hcounted.recorded,
        hcounted.reposts⟩
      have hsub : q.recv_buf_cnt + 2 ^ 32 - q.recv_processing_cnt =
          q.recv_buf_cnt - q.recv_processing_cnt + 2 ^ 32 := by omega
      change (q.recv_buf_cnt + 2 ^ 32 - q.recv_processing_cnt) % 2 ^ 32 + q.got.length = _
      rw [hsub, Nat.add_mod_right, Nat.mod_eq_of_lt (by omega)]
      omega
    refine hall.check hB hlen ?_
    change q.got.length ≤ _
    rw [Nat.mul_succ, Nat.mul_comm B POSTPIPE]
    omega

end

/-- For every `FLAGS_qp_len` that is a positive multiple of `POSTPIPE`, and in every run: the `n`-th call
of `get_recv_msg_sg` returns the buffer that received the `n`-th message; when a batch is posted again,
every message that was received in it has been freed and the NIC has none of its buffers; the batches
posted again are all on record; and at least `POSTPIPE - 1` batches of buffers are posted and not yet
freed. -/
theorem recv_ring (qp_len : ℕ) (hpos : 0 < qp_len) (hmultiple : POSTPIPE ∣ qp_len)
    (hrange : qp_len < 2 ^ 31) {q : RecvRing}
    (hrun : Reachable (init_recv_with_one_mr (kBatchRecv qp_len)) (Step (kBatchRecv qp_len))
      (fun _ _ ↦ True) q) :
    (∀ n < q.got.length, q.got[n]? = q.received[n]?) ∧
      (∀ e ∈ q.reposts, (∀ n b, e.received[n]? = some b → b.batch = e.batch → n < e.freed) ∧
        ∀ b ∈ e.posted, b.batch ≠ e.batch) ∧
      q.received.length + q.posted.length = qp_len + kBatchRecv qp_len * q.reposts.length ∧
      (POSTPIPE - 1) * kBatchRecv qp_len ≤ q.posted.length + (q.received.length - q.freed) := by
  have hlen : POSTPIPE * kBatchRecv qp_len = qp_len := Nat.mul_div_cancel' hmultiple
  have hB : 0 < kBatchRecv qp_len := Nat.pos_of_ne_zero fun hzero ↦ by
    rw [hzero, Nat.mul_zero] at hlen
    omega
  have hbound : POSTPIPE * kBatchRecv qp_len < 2 ^ 31 := by rwa [hlen]
  obtain ⟨again, hcounted, hupper⟩ := hrun.invariant (Inv (kBatchRecv qp_len)) (Inv.init hB hbound)
    fun q e q' _ h _ hstep ↦ h.step hB hbound hstep
  have hlength := hcounted.length
  refine ⟨fun n hn ↦ ?_, hcounted.reposts, ?_, ?_⟩
  · rw [hcounted.got, List.getElem?_take_of_lt]
    exact hn
  · rw [hlength, hlen, hcounted.recorded]
  · have htaken := hcounted.taken
    have hfreed := hcounted.freed
    rw [Nat.mul_succ] at hupper
    rw [Nat.sub_one_mul]
    omega

/-- A step as a function. -/
def exec (B : ℕ) (q : RecvRing) : Event → Option RecvRing
  | .deliver =>
    match q.posted with
    | [] => none
    | b :: rest => some { q with posted := rest, received := q.received ++ [b] }
  | .get =>
    if q.got.length < q.received.length then
      some { (q.get_recv_msg_sg B).2 with got := q.got ++ [(q.get_recv_msg_sg B).1] }
    else none
  | .free => some ({ q with freed := q.got.length }.free_recv_msg B)

theorem exec_step {q q' : RecvRing} {e : Event} (h : exec B q e = some q') : Step B q e q' := by
  cases e with
  | deliver =>
    unfold exec at h
    cases hposted : q.posted with
    | nil => simp [hposted] at h
    | cons b rest =>
      simp only [hposted, Option.some.injEq] at h
      exact h ▸ Step.deliver hposted
  | get =>
    obtain ⟨hnext, hsome⟩ := Option.ite_none_right_eq_some.mp h
    exact Option.some.inj hsome ▸ Step.get hnext
  | free => exact Option.some.inj h ▸ Step.free

/-- A ring of 128 buffers takes and frees 150 messages, three at a time: the position in the ring and
the position among the batches have both wrapped around. -/
theorem recv_ring_wraps :
    ∃ q, Reachable (init_recv_with_one_mr (kBatchRecv 128)) (Step (kBatchRecv 128))
        (fun _ _ ↦ True) q ∧
      q.recv_buf_pos = 22 ∧ q.freed = 150 ∧ q.reposts.length = 74 ∧
      (∀ n < 150, q.got[n]? = q.received[n]?) ∧
      (∀ e ∈ q.reposts, ∀ b ∈ e.posted, b.batch ≠ e.batch) ∧ 126 ≤ q.posted.length := by
  obtain ⟨q, hexec, hcheck⟩ : ∃ q, (List.replicate 50
        [Event.deliver, .deliver, .deliver, .get, .get, .get, .free]).flatten.foldlM
          (exec (kBatchRecv 128)) (init_recv_with_one_mr (kBatchRecv 128)) = some q ∧
      decide (q.recv_buf_pos = 22 ∧ q.freed = 150 ∧ q.reposts.length = 74 ∧ q.got.length = 150 ∧
        q.received.length = 150) = true := by
    have hsome : ((List.replicate 50
        [Event.deliver, .deliver, .deliver, .get, .get, .get, .free]).flatten.foldlM
          (exec (kBatchRecv 128)) (init_recv_with_one_mr (kBatchRecv 128))).map (fun q ↦
      decide (q.recv_buf_pos = 22 ∧ q.freed = 150 ∧ q.reposts.length = 74 ∧ q.got.length = 150 ∧
        q.received.length = 150)) = some true := by
      decide +kernel
    exact Option.map_eq_some_iff.mp hsome
  obtain ⟨hpos, hfreed, hreposts, hgot, hreceived⟩ := of_decide_eq_true hcheck
  have hrun := Reachable.init.foldlM (fun _ _ _ h ↦ ⟨_, trivial, exec_step h⟩) hexec
  obtain ⟨hsame, hsafe, -, hbuffers⟩ := recv_ring 128 (by decide) (by decide) (by decide) hrun
  rw [hgot] at hsame
  rw [hreceived, hfreed] at hbuffers
  exact ⟨q, hrun, hpos, hfreed, hreposts, hsame, fun e he ↦ (hsafe e he).2, hbuffers⟩

end RecvRing

end SwitchDelta.Rdma
