import SwitchDelta.Rdma.SendQueue

/-!
# A client thread and its coroutines

A client thread has queue pairs with one completion queue for all that it sends, and coroutines that
run one at a time. A queue pair has two rings of work requests, one for messages and one for one-sided
reads and writes; both are posted by `generate_and_issue_batch`. A coroutine gives up control when it
waits for a reply, in `post_appended_smsg(&sink)`, or for its one-sided operations, in
`post_appended_one(&sink)`. The loop of `run_client_CPC` resumes it: the first one when a message for
it arrives, the second one when its counter `async_op_cnt` is zero.

The counter is changed by `add_op_cnt` for each signalled one-sided request that is posted, and by
`modify_send_qp_info_by_wc` for each completion whose `WrInfo` names the coroutine. A `WrInfo` belongs
to its place in the ring and is read when the completion is polled.

A coroutine of `run_client_CPC` sends its messages with `append_signal_smsg()`, without the optional
context that `append_signal_smsg` can count for, so that context is left out.
-/

set_option autoImplicit false
set_option relaxedAutoImplicit false

namespace SwitchDelta.Rdma

open Kv (kMaxSignal kStaticSendBuf)

/-- `QPInfo::kBatchOne`. -/
def kBatchOne : ℕ := 128

/-- What is kept of a `SingleWr` and its `WrInfo`. The argument `signal` of `append_signal_one` is
recorded as `asked`; `signaled` is the flag `IBV_SEND_SIGNALED`. -/
structure Wr where
  signaled : Bool
  asked : Bool
  coro_ctx : Option ℕ
  signal_cnt : ℕ
  one_signal_cnt : ℕ

/-- A ring of work requests with its counters. -/
structure WrRing where
  wr : ℕ → Wr
  pos : ℕ
  begin_id : ℕ
  pending_cnt : ℕ
  counter : ℕ
  cnt_bf_signal : ℕ

/-- A request that was posted: its ring and place there, its flags and its coroutine. -/
structure PostedWr where
  one : Bool
  slot : ℕ
  signaled : Bool
  asked : Bool
  coro : Option ℕ
  deriving DecidableEq

/-- A queue pair: the ring `true` is that of the one-sided operations, `false` that of the messages.
The requests posted so far are recorded; the NIC has completed `completed` of them, and `covered` of
them are covered by a completion that was polled. -/
structure Qp where
  ring : Bool → WrRing
  issued : List PostedWr
  completed : ℕ
  covered : ℕ

/-- Where a coroutine stands: at the end of its request, running, or suspended in
`post_appended_smsg(&sink)` or `post_appended_one(&sink)`. -/
inductive Wait
  | idle
  | running
  | reply
  | ops
  deriving DecidableEq

/-- A `CoroCtx`, with where the coroutine stands. -/
structure Coro where
  free : Bool
  async_op_cnt : ℤ
  wait : Wait

/-- A place in the loop of `run_client_CPC`: the three tests for coroutine `i` with the sum `one_side`
so far, the two polls, and the messages that were polled, each with the coroutine that
`client_get_cid` names. -/
inductive LoopPc
  | free (i : ℕ) (one_side : ℤ)
  | ops (i : ℕ) (one_side : ℤ)
  | count (i : ℕ) (one_side : ℤ)
  | poll_send (one_side : ℤ)
  | poll_recv
  | messages (cids : List (Option ℕ))
  deriving DecidableEq

/-- A client thread. A completion is given by its queue pair and the number of its request there. -/
structure ClientThread (Q : Type) where
  qp : Q → Qp
  cq : List (Q × ℕ)
  signal_counter : ℕ
  coro : ℕ → Coro
  pc : LoopPc
  running : Option ℕ

namespace ClientThread

variable {Q : Type} [DecidableEq Q]

/-! ### Counters of the coroutines -/

/-- `CoroCtx::add_op_cnt`. -/
def add_op_cnt (async_op_cnt : ℤ) : ℤ :=
  if async_op_cnt = -1 then 1 else async_op_cnt + 1

/-- The counter of a coroutine changes. -/
def count (t : ClientThread Q) (coro_ctx : Option ℕ) (f : ℤ → ℤ) : ClientThread Q :=
  match coro_ctx with
  | none => t
  | some c =>
    let co := t.coro c
    { t with coro := Function.update t.coro c { co with async_op_cnt := f co.async_op_cnt } }

/-- A queue pair changes. -/
def setQp (t : ClientThread Q) (q : Q) (x : Qp) : ClientThread Q :=
  { t with qp := Function.update t.qp q x }

/-- A ring of a queue pair changes. -/
def setRing (t : ClientThread Q) (q : Q) (one : Bool) (ring : WrRing) : ClientThread Q :=
  t.setQp q { t.qp q with ring := Function.update (t.qp q).ring one ring }

/-! ### Completions -/

/-- The NIC completes the next request of a queue pair. -/
def complete (t : ClientThread Q) (q : Q) (r : PostedWr) : ClientThread Q :=
  { (t.setQp q { t.qp q with completed := (t.qp q).completed + 1 }) with
    cq := if r.signaled then t.cq ++ [(q, (t.qp q).completed)] else t.cq }

/-- A queue pair after a completion: the counters of the two rings go down by the numbers in the
`WrInfo` of the request. -/
def released (x : Qp) (n : ℕ) (r : PostedWr) : Qp :=
  let wr := (x.ring r.one).wr r.slot
  { x with
    ring := fun one ↦ { x.ring one with
      counter := SendQueue.sub32 (x.ring one).counter
        (if one then wr.one_signal_cnt else wr.signal_cnt) }
    covered := n + 1 }

/-- `modify_send_qp_info_by_wc` for the completion of a request: the counter of the coroutine in its
`WrInfo` goes down as well. -/
def release (t : ClientThread Q) (q : Q) (n : ℕ) (r : PostedWr) (cq : List (Q × ℕ)) :
    ClientThread Q :=
  { (t.setQp q (released (t.qp q) n r)).count (((t.qp q).ring r.one).wr r.slot).coro_ctx
      (· - 1) with
    cq := cq
    signal_counter := SendQueue.sub32 t.signal_counter 1 }

/-- The thread polls a number of completions while the NIC goes on. -/
inductive Polled : ℕ → ClientThread Q → ClientThread Q → Prop
  | refl {t : ClientThread Q} : Polled 0 t t
  | complete {k : ℕ} {t t' : ClientThread Q} {q : Q} {r : PostedWr} :
      (t.qp q).issued[(t.qp q).completed]? = some r → Polled k (t.complete q r) t' → Polled k t t'
  | release {k n : ℕ} {t t' : ClientThread Q} {q : Q} {r : PostedWr} {cq : List (Q × ℕ)} :
      t.cq = (q, n) :: cq → (t.qp q).issued[n]? = some r → Polled k (t.release q n r cq) t' →
      Polled (k + 1) t t'

/-- `QPInfo::check_signal`. -/
def CheckSignal (cq_len : ℕ) (t t' : ClientThread Q) : Prop :=
  if t.signal_counter = cq_len then ∃ k, 1 ≤ k ∧ k ≤ 16 ∧ Polled k t t' else t' = t

/-! ### Posting -/

/-- The flag of a request in `generate_and_issue_batch`. -/
def signals (x : Qp) (one : Bool) (id : ℕ) : Bool :=
  ((x.ring one).wr id).signaled ||
    (x.ring false).cnt_bf_signal + (x.ring true).cnt_bf_signal + 1 == kMaxSignal

/-- A ring with one more request counted, which gets its flag. -/
def marked (ring : WrRing) (id : ℕ) (signaled : Bool) : WrRing :=
  { ring with
    cnt_bf_signal := ring.cnt_bf_signal + 1
    wr := Function.update ring.wr id { ring.wr id with signaled := signaled } }

/-- A request is counted and gets its flag. A signalled one-sided request is counted for its
coroutine. -/
def mark (t : ClientThread Q) (q : Q) (one : Bool) (id : ℕ) : ClientThread Q :=
  let ring := (t.qp q).ring one
  let signaled := signals (t.qp q) one id
  let t' := t.setRing q one (marked ring id signaled)
  if signaled then
    { t'.count (if one then (ring.wr id).coro_ctx else none) add_op_cnt with
      signal_counter := (t.signal_counter + 1) % 2 ^ 32 }
  else t'

/-- A queue pair after `set_signal_cnt` and `set_one_signal_cnt` for a request. -/
def recounted (x : Qp) (one : Bool) (id : ℕ) : Qp :=
  let wr : Wr := { (x.ring one).wr id with
    signal_cnt := (x.ring false).cnt_bf_signal
    one_signal_cnt := (x.ring true).cnt_bf_signal }
  { x with
    ring := fun one' ↦ { x.ring one' with
      wr := if one' = one then Function.update (x.ring one').wr id wr else (x.ring one').wr
      cnt_bf_signal := 0 } }

/-- `set_signal_cnt` and `set_one_signal_cnt` of a signalled request. -/
def set_signal_cnt (t : ClientThread Q) (q : Q) (one : Bool) (id : ℕ) : ClientThread Q :=
  t.setQp q (recounted (t.qp q) one id)

/-- The loop of `generate_and_issue_batch` over the requests of the batch. -/
inductive Generate (cq_len : ℕ) (q : Q) (one : Bool) :
    List ℕ → ClientThread Q → ClientThread Q → Prop
  | nil {t : ClientThread Q} : Generate cq_len q one [] t t
  | plain {t t' : ClientThread Q} {id : ℕ} {ids : List ℕ} :
      signals (t.qp q) one id = false → Generate cq_len q one ids (t.mark q one id) t' →
      Generate cq_len q one (id :: ids) t t'
  | signaled {t t₁ t' : ClientThread Q} {id : ℕ} {ids : List ℕ} :
      signals (t.qp q) one id = true → CheckSignal cq_len (t.mark q one id) t₁ →
      Generate cq_len q one ids (t₁.set_signal_cnt q one id) t' →
      Generate cq_len q one (id :: ids) t t'

/-- The number of work requests of a ring. -/
def ringSize (one : Bool) : ℕ := if one then kBatchOne else kStaticSendBuf

/-- The places of the pending requests of a ring. -/
def pendingSlots (one : Bool) (ring : WrRing) : List ℕ :=
  (List.range ring.pending_cnt).map fun i ↦ (i + ring.begin_id) % ringSize one

/-- The record of a request that is posted. -/
def postedOf (one : Bool) (ring : WrRing) (id : ℕ) : PostedWr :=
  ⟨one, id, (ring.wr id).signaled, (ring.wr id).asked, (ring.wr id).coro_ctx⟩

/-- `ibv_post_send` at the end of `generate_and_issue_batch`, and what follows in
`post_appended_smsg` and `post_appended_one`. -/
def issue (t : ClientThread Q) (q : Q) (one : Bool) (ids : List ℕ) : ClientThread Q :=
  let x := t.qp q
  let ring := x.ring one
  t.setQp q { x with
    issued := x.issued ++ ids.map (postedOf one ring)
    ring := Function.update x.ring one { ring with
      counter := (ring.counter + ids.length) % 2 ^ 32
      begin_id := ring.pos
      pending_cnt := 0 } }

/-- `post_appended_smsg` and `post_appended_one` up to the yield. -/
def Post (cq_len : ℕ) (q : Q) (one : Bool) (t t' : ClientThread Q) : Prop :=
  if ((t.qp q).ring one).pending_cnt = 0 then t' = t
  else ∃ t₁, Generate cq_len q one (pendingSlots one ((t.qp q).ring one)) t t₁ ∧
    t' = t₁.issue q one (pendingSlots one ((t.qp q).ring one))

/-! ### Filling the rings -/

/-- A field of the request at the position of a ring changes. -/
def setWr (t : ClientThread Q) (q : Q) (one : Bool) (f : Wr → Wr) : ClientThread Q :=
  let ring := (t.qp q).ring one
  t.setRing q one { ring with wr := Function.update ring.wr ring.pos (f (ring.wr ring.pos)) }

/-- The position of a ring moves past a request that becomes pending. -/
def advance (t : ClientThread Q) (q : Q) (one : Bool) : ClientThread Q :=
  let ring := (t.qp q).ring one
  t.setRing q one { ring with
    pos := (ring.pos + 1) % ringSize one
    pending_cnt := (ring.pending_cnt + 1) % 2 ^ if one then 32 else 16 }

/-- `QPInfo::get_one_wr` and `QPInfo::get_send_wr`. -/
def get_wr (t : ClientThread Q) (q : Q) (one : Bool) : ClientThread Q :=
  t.setWr q one fun wr ↦ { wr with coro_ctx := none }

/-- `QPInfo::append_signal_one`. -/
def append_signal_one (t : ClientThread Q) (q : Q) (c : ℕ) (signal : Bool) : ClientThread Q :=
  (t.setWr q true fun wr ↦
    { wr with signaled := signal, asked := signal, coro_ctx := some c }).advance q true

/-- `QPInfo::append_signal_smsg`. -/
def append_signal_smsg (t : ClientThread Q) (q : Q) (signal : Bool) : ClientThread Q :=
  (t.setWr q false fun wr ↦ { wr with signaled := signal }).advance q false

/-- The loop of `get_send_msg_sg`. -/
inductive WaitForBuffer (cq_len : ℕ) (q : Q) : ClientThread Q → ClientThread Q → Prop
  | done {t : ClientThread Q} :
      ((t.qp q).ring false).counter + ((t.qp q).ring false).pending_cnt < kStaticSendBuf →
      WaitForBuffer cq_len q t t
  | post {t t₁ t₂ t' : ClientThread Q} :
      kStaticSendBuf ≤ ((t.qp q).ring false).counter + ((t.qp q).ring false).pending_cnt →
      ((t.qp q).ring false).counter = 0 → Post cq_len q false t t₁ → Polled 1 t₁ t₂ →
      WaitForBuffer cq_len q t₂ t' → WaitForBuffer cq_len q t t'
  | poll {t t₁ t' : ClientThread Q} :
      kStaticSendBuf ≤ ((t.qp q).ring false).counter + ((t.qp q).ring false).pending_cnt →
      ((t.qp q).ring false).counter ≠ 0 → Polled 1 t t₁ → WaitForBuffer cq_len q t₁ t' →
      WaitForBuffer cq_len q t t'

/-- `QPInfo::get_send_msg_sg`. -/
def GetSend (cq_len : ℕ) (q : Q) (t t' : ClientThread Q) : Prop :=
  ∃ t₁ t₂, CheckSignal cq_len t t₁ ∧ WaitForBuffer cq_len q t₁ t₂ ∧ t' = t₂.get_wr q false

/-! ### What a coroutine does -/

/-- A coroutine gives up control. -/
def yield (t : ClientThread Q) (c : ℕ) (free : Bool) (wait : Wait) : ClientThread Q :=
  { t with
    coro := Function.update t.coro c { t.coro c with free := free, wait := wait }
    running := none }

/-- A call of the running coroutine. The flag `sink` says whether it passes `&sink`. -/
inductive Call (Q : Type)
  | get_one_wr (q : Q)
  | append_signal_one (q : Q) (signal : Bool)
  | post_appended_one (q : Q) (sink : Bool)
  | get_send_wr (q : Q)
  | get_send_msg_sg (q : Q)
  | append_signal_smsg (q : Q) (signal : Bool)
  | post_appended_smsg (q : Q) (sink : Bool)
  | finish

/-- Coroutine `c` makes a call. There is no step when `post_appended_smsg` meets one-sided requests
that were not posted and leaves the program. -/
inductive Calls (cq_len : ℕ) (c : ℕ) : Call Q → ClientThread Q → ClientThread Q → Prop
  | get_one_wr {t : ClientThread Q} (q : Q) : Calls cq_len c (.get_one_wr q) t (t.get_wr q true)
  | append_signal_one {t : ClientThread Q} (q : Q) (signal : Bool) :
      Calls cq_len c (.append_signal_one q signal) t (t.append_signal_one q c signal)
  | post_one {t t' : ClientThread Q} {q : Q} {sink : Bool} :
      sink = false ∨ ((t.qp q).ring true).pending_cnt = 0 → Post cq_len q true t t' →
      Calls cq_len c (.post_appended_one q sink) t t'
  | wait_ops {t t' : ClientThread Q} {q : Q} :
      ((t.qp q).ring true).pending_cnt ≠ 0 → Post cq_len q true t t' →
      Calls cq_len c (.post_appended_one q true) t (t'.yield c false .ops)
  | get_send_wr {t : ClientThread Q} (q : Q) : Calls cq_len c (.get_send_wr q) t (t.get_wr q false)
  | get_send_msg_sg {t t' : ClientThread Q} {q : Q} :
      GetSend cq_len q t t' → Calls cq_len c (.get_send_msg_sg q) t t'
  | append_signal_smsg {t : ClientThread Q} (q : Q) (signal : Bool) :
      Calls cq_len c (.append_signal_smsg q signal) t (t.append_signal_smsg q signal)
  | post_smsg {t t' : ClientThread Q} {q : Q} {sink : Bool} :
      sink = false ∨ ((t.qp q).ring false).pending_cnt = 0 → Post cq_len q false t t' →
      Calls cq_len c (.post_appended_smsg q sink) t t'
  | wait_reply {t t' : ClientThread Q} {q : Q} :
      ((t.qp q).ring false).pending_cnt ≠ 0 → Post cq_len q false t t' →
      ((t'.qp q).ring true).pending_cnt = 0 →
      Calls cq_len c (.post_appended_smsg q true) t (t'.yield c false .reply)
  | finish {t : ClientThread Q} : Calls cq_len c .finish t (t.yield c true .idle)

/-! ### The loop of the thread -/

/-- A coroutine gets control. One that was at the end of a request begins a new one. -/
def resume (t : ClientThread Q) (c : ℕ) (async_op_cnt : ℤ) (pc : LoopPc) : ClientThread Q :=
  { t with
    coro := Function.update t.coro c ⟨false, async_op_cnt, .running⟩
    pc := pc
    running := some c }

/-- What happens in a step: the running coroutine makes a call, the loop resumes a coroutine because
it is free, because its counter is zero or because a message names it, or the loop goes on. -/
inductive Label (Q : Type)
  | call (c : ℕ) (call : Call Q)
  | resume_free (c : ℕ)
  | resume_ops (c : ℕ)
  | resume_message (c : ℕ)
  | loop

/-- The coroutine that a step resumes. -/
def Label.resumed : Label Q → Option ℕ
  | .resume_free c | .resume_ops c | .resume_message c => some c
  | _ => none

/-- What a coroutine adds to `one_side`. -/
def pendingOps (co : Coro) : ℤ :=
  if co.async_op_cnt ≠ 0 ∧ co.async_op_cnt ≠ -1 then co.async_op_cnt else 0

/-- One step of a thread with `coro_num` coroutines: a call of the running coroutine, or a step of
`run_client_CPC`. Any messages may arrive. -/
inductive Step (coro_num cq_len : ℕ) : ClientThread Q → Label Q → ClientThread Q → Prop
  | call {t t' : ClientThread Q} {c : ℕ} {call : Call Q} :
      t.running = some c → Calls cq_len c call t t' → Step coro_num cq_len t (.call c call) t'
  | resume_free {t : ClientThread Q} {i : ℕ} {one_side : ℤ} :
      t.running = none → t.pc = .free i one_side → i < coro_num → (t.coro i).free = true →
      Step coro_num cq_len t (.resume_free i)
        (t.resume i (t.coro i).async_op_cnt (.ops i one_side))
  | not_free {t : ClientThread Q} {i : ℕ} {one_side : ℤ} :
      t.running = none → t.pc = .free i one_side → i < coro_num → (t.coro i).free = false →
      Step coro_num cq_len t .loop { t with pc := .ops i one_side }
  | scanned {t : ClientThread Q} {one_side : ℤ} :
      t.running = none → t.pc = .free coro_num one_side →
      Step coro_num cq_len t .loop { t with pc := .poll_send one_side }
  | resume_ops {t : ClientThread Q} {i : ℕ} {one_side : ℤ} :
      t.running = none → t.pc = .ops i one_side → (t.coro i).async_op_cnt = 0 →
      (t.coro i).free = false →
      Step coro_num cq_len t (.resume_ops i) (t.resume i (-1) (.count i one_side))
  | not_over {t : ClientThread Q} {i : ℕ} {one_side : ℤ} :
      t.running = none → t.pc = .ops i one_side →
      ¬ ((t.coro i).async_op_cnt = 0 ∧ (t.coro i).free = false) →
      Step coro_num cq_len t .loop { t with pc := .count i one_side }
  | count {t : ClientThread Q} {i : ℕ} {one_side : ℤ} :
      t.running = none → t.pc = .count i one_side →
      Step coro_num cq_len t .loop { t with pc := .free (i + 1) (one_side + pendingOps (t.coro i)) }
  | no_poll {t : ClientThread Q} :
      t.running = none → t.pc = .poll_send 0 →
      Step coro_num cq_len t .loop { t with pc := .poll_recv }
  | poll_send {t t' : ClientThread Q} {one_side : ℤ} {k : ℕ} :
      t.running = none → t.pc = .poll_send one_side → 0 < one_side → (k : ℤ) ≤ min one_side 16 →
      Polled k t t' → Step coro_num cq_len t .loop { t' with pc := .poll_recv }
  | poll_recv {t : ClientThread Q} (cids : List (Option ℕ)) :
      t.running = none → t.pc = .poll_recv → cids.length ≤ 16 →
      (∀ c, some c ∈ cids → c < coro_num) →
      Step coro_num cq_len t .loop { t with pc := .messages cids }
  | resume_message {t : ClientThread Q} {c : ℕ} {cids : List (Option ℕ)} :
      t.running = none → t.pc = .messages (some c :: cids) →
      Step coro_num cq_len t (.resume_message c)
        (t.resume c (t.coro c).async_op_cnt (.messages cids))
  | no_coroutine {t : ClientThread Q} {cids : List (Option ℕ)} :
      t.running = none → t.pc = .messages (none :: cids) →
      Step coro_num cq_len t .loop { t with pc := .messages cids }
  | again {t : ClientThread Q} :
      t.running = none → t.pc = .messages [] →
      Step coro_num cq_len t .loop { t with pc := .free 0 0 }

/-- A thread at the start of `run_client_CPC`, with anything in the work requests. -/
def init (wr : Q → Bool → ℕ → Wr) : ClientThread Q where
  qp := fun q ↦ ⟨fun one ↦ ⟨fun slot ↦ { wr q one slot with coro_ctx := none }, 0, 0, 0, 0, 0⟩,
    [], 0, 0⟩
  cq := []
  signal_counter := 0
  coro := fun _ ↦ ⟨true, -1, .idle⟩
  pc := .free 0 0
  running := none

end ClientThread

end SwitchDelta.Rdma
