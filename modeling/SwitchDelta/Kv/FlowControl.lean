import SwitchDelta.Kv.Client

/-!
# Flow control of the clients

A reply reports in `send_cnt` how many requests an index thread has in its buffer, and names the
thread by its port in `index_port`. `after_process_reply` decodes the port with `log2` and stores the
count in `index_buf_cnt`; `cworker_new_request` looks up the number of the thread itself and holds
back a request when the count is above `kMaxCurrentIndexReq`.

`get_thread_port` makes the port of thread `t` from `t + 1` shifted left by eight bits, and the
logarithm of that is `8` plus the logarithm of `t + 1`, not `t`. Under `FLAGS_port_func` it shifts a
one by that whole port, which is more bits than an `unsigned` has; the result is undefined and is a
parameter here. `flow_control_iff` says when what is looked up is what was reported.
-/

set_option autoImplicit false
set_option relaxedAutoImplicit false

namespace SwitchDelta.Kv

/-! ### Ports and buckets -/

/-- The flags that flow control depends on, and what the machine makes of the two expressions that
C++ leaves undefined: `1u << n` for `n` from 32 on, and the conversion of `log2(0)`. -/
structure FlowConfig where
  mn_thread : UInt32
  visibility : Bool
  port_func : Bool
  shift : UInt16 → UInt32
  log2_zero : UInt16

/-- `Rdma::get_thread_port`. -/
def FlowConfig.get_thread_port (cfg : FlowConfig) (t_id qp_id : UInt8) : UInt16 :=
  let compute_port := Kv.get_thread_port t_id qp_id
  if cfg.port_func = false then compute_port
  else if compute_port < 32 then ((1 : UInt32) <<< compute_port.toUInt32).toUInt16
  else (cfg.shift compute_port).toUInt16

/-- `(uint16_t)log2(rdma::toBigEndian16(reply->index_port))`. -/
def FlowConfig.bucket (cfg : FlowConfig) (index_port : UInt16) : UInt16 :=
  let port := toBigEndian16 index_port
  if port = 0 then cfg.log2_zero else port.toNat.log2.toUInt16

/-- The `index_port` of the requests for an index thread, and of their replies. -/
def FlowConfig.index_port (cfg : FlowConfig) (index_tid : UInt8) : UInt16 :=
  toBigEndian16 (cfg.get_thread_port index_tid 0)

/-- `after_process_reply`, with `index_buf_cnt` as a function of the bucket. -/
def after_process_reply (cfg : FlowConfig) (index_buf_cnt : UInt16 → ℤ) (reply : RawKvMsg) :
    UInt16 → ℤ :=
  if cfg.visibility then
    Function.update index_buf_cnt (cfg.bucket reply.index_port)
      (toBigEndian16 reply.send_cnt).toNat
  else index_buf_cnt

/-- `index_buf_cnt` after some replies. -/
def index_buf_cnt (cfg : FlowConfig) (replies : List RawKvMsg) : UInt16 → ℤ :=
  replies.foldl (after_process_reply cfg) fun _ ↦ 0

/-- The value that `cworker_new_request` compares with `kMaxCurrentIndexReq`. -/
def cworker_count (cfg : FlowConfig) (replies : List RawKvMsg) (index_tid : UInt8) : ℤ :=
  index_buf_cnt cfg replies index_tid.toUInt16

/-! ### What is reported -/

/-- An index thread. -/
def FlowConfig.IsThread (cfg : FlowConfig) (t : UInt8) : Prop :=
  t.toUInt32 < cfg.mn_thread

instance (cfg : FlowConfig) (t : UInt8) : Decidable (cfg.IsThread t) :=
  inferInstanceAs (Decidable (_ < _))

/-- The `send_cnt` of the last reply whose `index_port` names a thread, zero if there is none. -/
def reported (cfg : FlowConfig) (replies : List RawKvMsg) (t : UInt8) : ℤ :=
  match (replies.filter fun reply ↦ reply.index_port = cfg.index_port t).getLast? with
  | none => 0
  | some reply => (toBigEndian16 reply.send_cnt).toNat

/-- The client looks up what the replies reported, threads do not share a bucket, and the buckets are
within the array. -/
structure FlowConfig.FlowControl (cfg : FlowConfig) : Prop where
  count : ∀ replies : List RawKvMsg,
    (∀ reply ∈ replies, ∃ t, cfg.IsThread t ∧ reply.index_port = cfg.index_port t) →
    ∀ t, cfg.IsThread t → cworker_count cfg replies t = reported cfg replies t
  separate : ∀ t t', cfg.IsThread t → cfg.IsThread t' →
    cfg.bucket (cfg.index_port t) = cfg.bucket (cfg.index_port t') → t = t'
  inBounds : ∀ t, cfg.IsThread t → cfg.bucket (cfg.index_port t) < kConfigMaxThreadCnt

variable {cfg : FlowConfig}

theorem index_buf_cnt_concat (replies : List RawKvMsg) (reply : RawKvMsg) :
    index_buf_cnt cfg (replies ++ [reply]) =
      after_process_reply cfg (index_buf_cnt cfg replies) reply := by
  rw [index_buf_cnt, List.foldl_append]
  rfl

theorem reported_concat (replies : List RawKvMsg) (reply : RawKvMsg) (t : UInt8) :
    reported cfg (replies ++ [reply]) t =
      if reply.index_port = cfg.index_port t then ((toBigEndian16 reply.send_cnt).toNat : ℤ)
      else reported cfg replies t := by
  unfold reported
  rw [List.filter_append]
  split_ifs with hnames
  · rw [List.filter_cons_of_pos (by simpa using hnames), List.filter_nil,
      List.getLast?_append_of_ne_nil _ (List.cons_ne_nil _ _)]
    rfl
  · rw [List.filter_cons_of_neg (by simpa using hnames), List.filter_nil, List.append_nil]

/-- If the bucket of each thread is its number, the client looks up what was reported. -/
theorem cworker_count_eq_reported (hvisible : cfg.visibility = true)
    (hbucket : ∀ t, cfg.IsThread t → cfg.bucket (cfg.index_port t) = t.toUInt16)
    {replies : List RawKvMsg}
    (hreplies : ∀ reply ∈ replies, ∃ t, cfg.IsThread t ∧ reply.index_port = cfg.index_port t)
    {t : UInt8} (ht : cfg.IsThread t) : cworker_count cfg replies t = reported cfg replies t := by
  induction replies using List.reverseRecOn with
  | nil => rfl
  | append_singleton replies reply ih =>
    obtain ⟨u, hu, hport⟩ := hreplies reply (by simp)
    have hbefore := ih fun r hr ↦ hreplies r (List.mem_append_left _ hr)
    rw [cworker_count, index_buf_cnt_concat, after_process_reply, if_pos hvisible, reported_concat,
      hport, hbucket u hu]
    by_cases heq : u = t
    · subst heq
      rw [Function.update_self, if_pos rfl]
    · have hne : cfg.index_port u ≠ cfg.index_port t := by
        intro hsame
        have hnumber := hbucket u hu
        rw [hsame, hbucket t ht] at hnumber
        exact heq (UInt8.toNat_inj.mp (by simpa using congrArg UInt16.toNat hnumber.symm))
      have hslot : t.toUInt16 ≠ u.toUInt16 := by
        intro hsame
        exact heq (UInt8.toNat_inj.mp (by simpa using congrArg UInt16.toNat hsame.symm))
      rw [Function.update_of_ne hslot, if_neg hne]
      exact hbefore

/-- A reply that reports one request for a thread. -/
def reportOne (cfg : FlowConfig) (t : UInt8) : RawKvMsg where
  rpc_header := ⟨2, 1, 0, 0, .kEnumReadIndexReply⟩
  flag := visibility
  switch_key := 0
  kv_g_id := 0
  kv_c_id := 0
  magic := 0
  server_map := 0
  qp_map := 0
  coro_id := 0
  key := 1
  log_id := 0
  route_port := 0
  route_map := 0
  client_port := 0
  send_cnt := toBigEndian16 1
  index_port := cfg.index_port t
  magic_in_switch := 0
  timestamp := 0
  long_key := 0
  value := []

/-- One reply for a thread is looked up only if its bucket is its number. -/
theorem FlowConfig.FlowControl.bucket_eq (h : cfg.FlowControl) {t : UInt8}
    (ht : cfg.IsThread t) :
    cfg.visibility = true ∧ cfg.bucket (cfg.index_port t) = t.toUInt16 := by
  have hcount := h.count [reportOne cfg t] (fun reply hreply ↦ by
    rw [List.mem_singleton.mp hreply]
    exact ⟨t, ht, rfl⟩) t ht
  have hreported : reported cfg [reportOne cfg t] t = 1 := by
    have hsend : (reportOne cfg t).send_cnt = toBigEndian16 1 := rfl
    have hport : (reportOne cfg t).index_port = cfg.index_port t := rfl
    rw [← List.nil_append [reportOne cfg t], reported_concat, if_pos hport, hsend,
      toBigEndian16_toBigEndian16]
    rfl
  rw [hreported, cworker_count, ← List.nil_append [reportOne cfg t], index_buf_cnt_concat,
    after_process_reply] at hcount
  split_ifs at hcount with hvisible
  · refine ⟨hvisible, ?_⟩
    by_contra hne
    have hport : (reportOne cfg t).index_port = cfg.index_port t := rfl
    rw [hport, Function.update_of_ne (Ne.symm hne)] at hcount
    exact absurd hcount (by simp [index_buf_cnt])
  · exact absurd hcount (by simp [index_buf_cnt])

/-- Without `FLAGS_port_func` the bucket of thread zero is eight. -/
theorem bucket_zero (hport : cfg.port_func = false) : cfg.bucket (cfg.index_port 0) = 8 := by
  have hvalue : cfg.get_thread_port 0 0 = 256 := by
    rw [FlowConfig.get_thread_port, if_pos hport]
    decide
  rw [FlowConfig.bucket, FlowConfig.index_port, hvalue]
  exact if_neg (show ¬ toBigEndian16 (toBigEndian16 256) = 0 by decide)

/-- Under `FLAGS_port_func` the port of a thread is what the machine makes of the shift. -/
theorem get_thread_port_of_port_func (hport : cfg.port_func = true) {t : UInt8}
    (ht : t.toNat < 48) :
    cfg.get_thread_port t 0 = (cfg.shift (Kv.get_thread_port t 0)).toUInt16 := by
  have hvalue : (Kv.get_thread_port t 0).toNat = (t.toNat + 1) * 256 := by
    simp only [Kv.get_thread_port, UInt16.toNat_shiftLeft, UInt16.toNat_add, UInt8.toNat_toUInt16,
      UInt8.reduceToNat, UInt16.reduceToNat, Nat.shiftLeft_eq, Nat.reduceMod, Nat.reducePow]
    omega
  have hlarge : ¬ Kv.get_thread_port t 0 < 32 := by
    rw [UInt16.lt_iff_toNat_lt, hvalue]
    simp only [UInt16.reduceToNat]
    omega
  rw [FlowConfig.get_thread_port, hport, if_neg Bool.noConfusion, if_neg hlarge]

/-- What is looked up is what was reported exactly if the machine's result for the undefined shift
has the number of the thread as its logarithm, for every index thread. Without `FLAGS_port_func`
there is no such configuration. -/
theorem flow_control_iff (cfg : FlowConfig) (hmn : cfg.mn_thread ≤ 48) :
    cfg.FlowControl ↔ ∀ t, cfg.IsThread t →
      cfg.visibility = true ∧ cfg.port_func = true ∧
        let port := (cfg.shift (Kv.get_thread_port t 0)).toUInt16
        (if port = 0 then cfg.log2_zero else port.toNat.log2.toUInt16) = t.toUInt16 := by
  have hlt {t : UInt8} (ht : cfg.IsThread t) : t.toNat < 48 := by
    have hle := UInt32.le_iff_toNat_le.mp hmn
    have htn := UInt32.lt_iff_toNat_lt.mp ht
    rw [UInt8.toNat_toUInt32] at htn
    exact htn.trans_le hle
  have hbucket (hport : cfg.port_func = true) {t : UInt8} (ht : cfg.IsThread t) :
      cfg.bucket (cfg.index_port t) =
        let port := (cfg.shift (Kv.get_thread_port t 0)).toUInt16
        if port = 0 then cfg.log2_zero else port.toNat.log2.toUInt16 := by
    rw [FlowConfig.bucket, FlowConfig.index_port, toBigEndian16_toBigEndian16,
      get_thread_port_of_port_func hport (hlt ht)]
  constructor
  · intro h t ht
    obtain ⟨hvisible, heq⟩ := h.bucket_eq ht
    have hport : cfg.port_func = true := by
      by_contra hport
      have hzero : cfg.IsThread 0 := by
        have htn := UInt32.lt_iff_toNat_lt.mp ht
        rw [FlowConfig.IsThread, UInt32.lt_iff_toNat_lt]
        exact (Nat.zero_le _).trans_lt htn
      have height := (h.bucket_eq hzero).2
      rw [bucket_zero (by simpa using hport)] at height
      exact absurd height (by decide)
    exact ⟨hvisible, hport, (hbucket hport ht).symm.trans heq⟩
  · intro h
    have heq (t : UInt8) (ht : cfg.IsThread t) :
        cfg.bucket (cfg.index_port t) = t.toUInt16 := by
      obtain ⟨-, hport, heq⟩ := h t ht
      rw [hbucket hport ht]
      exact heq
    refine ⟨fun replies hreplies t ht ↦ ?_, fun t t' ht ht' hsame ↦ ?_, fun t ht ↦ ?_⟩
    · exact cworker_count_eq_reported (h t ht).1 heq hreplies ht
    · rw [heq t ht, heq t' ht'] at hsame
      exact UInt8.toNat_inj.mp (by simpa using congrArg UInt16.toNat hsame)
    · rw [heq t ht, UInt16.lt_iff_toNat_lt, UInt8.toNat_toUInt16]
      exact hlt ht

/-- The default flags with one index thread. -/
def defaultFlow : FlowConfig :=
  ⟨1, true, false, fun _ ↦ 1, 0⟩

theorem flow_control_iff_defaultFlow :
    defaultFlow.FlowControl ↔ ∀ t, defaultFlow.IsThread t →
      defaultFlow.visibility = true ∧ defaultFlow.port_func = true ∧
        let port := (defaultFlow.shift (Kv.get_thread_port t 0)).toUInt16
        (if port = 0 then defaultFlow.log2_zero else port.toNat.log2.toUInt16) = t.toUInt16 :=
  flow_control_iff defaultFlow (by decide)

/-- A reply that reports one request of thread zero goes to bucket eight, and the client still
reads zero. -/
theorem flow_control_misses_report :
    ¬ ∀ cfg : FlowConfig, cfg.mn_thread ≤ 48 → cfg.FlowControl := by
  intro h
  have hcount := (h defaultFlow (by decide)).count [reportOne defaultFlow 0]
    (fun reply hreply ↦ ⟨0, by decide, by rw [List.mem_singleton.mp hreply]; rfl⟩) 0 (by decide)
  exact absurd hcount (by decide)

end SwitchDelta.Kv
