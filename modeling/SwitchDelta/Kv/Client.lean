import SwitchDelta.Kv.Wire

/-!
# The client coroutines of `kv.cc`

A coroutine of a client thread runs `kv_test` or `check_req_cnt`. Each of the functions `get_index`,
`put_index`, `get_value`, `put_value` and `check_req_cnt` fills a message, posts it, yields, and
goes on when a packet for the coroutine arrives. They are modelled as two halves: `..._request` is
the message up to `post_appended_smsg(&sink)`, together with the UDP port it is sent to, and
`..._reply` is what happens with the packet that resumes the coroutine. A failed `assert` and an
`exit` are `none`.

A message is written into a send buffer that is not cleared, so a field that a function does not set
keeps what an earlier message left there. The parameter `buf` is that earlier content; the payload of
`put_value` comes from `userbuf`.

`resume` puts the halves together as `kv_test` does. The test types are `kEnumR` and `kEnumW`, the
only ones that `config()` gives a weight. The reporter calls are left out.
-/

set_option autoImplicit false
set_option relaxedAutoImplicit false

namespace SwitchDelta.Kv

/-! ### Configuration -/

/-- The command-line flags that the application reads. -/
structure Flags where
  dn_thread : UInt32
  mn_thread : UInt32
  c_thread : UInt32
  coro_num : UInt32
  keyspace : UInt64
  logspace : UInt64
  visibility : Bool
  batch : Bool
  batch_size : UInt32

/-- `rpc::kConfigMaxThreadCnt`. -/
def kConfigMaxThreadCnt : UInt16 := 48

/-- The value of the field `flag` for a message the switch may act on. -/
def Flags.flag (f : Flags) : UInt8 :=
  if f.visibility then Kv.visibility else 0

/-- The identity of a client coroutine: the node, the thread and the coroutine number. -/
structure CoroId where
  server_id : UInt8
  thread_id : UInt8
  coro_id : UInt8
  deriving DecidableEq

/-- `port_id` of the entries of `server_config`. -/
def port_id (server_id : UInt8) : UInt16 :=
  if server_id = 0 then 128
  else if server_id = 1 then 188
  else if server_id = 2 then 136
  else if server_id = 3 then 180
  else if server_id = 4 then 172
  else 0

/-- `Rdma::compute_gid`. -/
def compute_gid (s_id t_id : UInt8) : UInt16 :=
  s_id.toUInt16 * kConfigMaxThreadCnt + t_id.toUInt16

/-- `Rdma::get_thread_port` with `kMaxQPNum = 1` and `FLAGS_port_func` off. -/
def get_thread_port (t_id qp_id : UInt8) : UInt16 :=
  (t_id.toUInt16 + qp_id.toUInt16 + 1) <<< 8

/-- `get_data_server_id`. -/
def get_data_server_id : UInt8 := 0

/-- `get_index_server_id`. -/
def get_index_server_id : UInt8 := 1

/-- `get_data_thread_id_by_key`. The argument is truncated to 32 bits at the call. -/
def get_data_thread_id_by_key (f : Flags) (key : UInt32) : UInt8 :=
  (key % f.dn_thread).toUInt8

/-- `get_index_thread_id`. -/
def get_index_thread_id (f : Flags) (key : UInt32) : UInt8 :=
  (key % f.mn_thread).toUInt8

/-- `logid_2_threadid`. -/
def logid_2_threadid (f : Flags) (log_id : UInt32) : UInt32 :=
  (log_id.toUInt64 / f.keyspace).toUInt32

/-- `logid_2_locallogid`. -/
def logid_2_locallogid (f : Flags) (log_id : UInt32) : UInt32 :=
  (log_id.toUInt64 % f.keyspace).toUInt32

/-- `compute_log_id`. -/
def compute_log_id (f : Flags) (local_id thread_id : UInt32) : UInt32 :=
  (thread_id.toUInt64 * f.keyspace + local_id.toUInt64).toUInt32

/-- `my_index_bitmap` after `client_prepare`. -/
def my_index_bitmap (server_id : UInt8) : UInt16 :=
  (2 : UInt16) ||| ((1 : UInt16) <<< server_id.toUInt16)

/-! ### Coroutine state -/

/-- The fields of `KvCtx` that the functions below read. -/
structure KvCtx where
  key : UInt64
  magic : UInt16
  long_key : KvKeyType
  log_id : UInt64
  index_in_switch : Bool
  read_ok : Bool
  timestamp : UInt32

/-- Where a coroutine waits. -/
inductive Pc
  | idle
  | get_index
  | get_value
  | put_value
  | put_index
  | check_req_cnt
  deriving DecidableEq

/-- The two test types with a weight. -/
inductive TestType
  | kEnumR
  | kEnumW
  deriving DecidableEq

/-- The index thread of a key, as `get_index`, `put_index`, `get_value` and `check_req_cnt`
compute it. -/
def index_tid (f : Flags) (long_key : KvKeyType) : UInt8 :=
  get_index_thread_id f (get_switch_key long_key).toUInt32

/-- The index thread of a key, as `put_value` computes it: the whole key is passed. -/
def put_value_index_tid (f : Flags) (long_key : KvKeyType) : UInt8 :=
  get_index_thread_id f long_key.toUInt32

/-- A message with the UDP port it is sent to. -/
structure Datagram where
  dst_port : UInt16
  msg : RawKvMsg
  deriving DecidableEq

/-! ### Requests -/

/-- `get_index` up to the yield. -/
def get_index_request (f : Flags) (c : CoroId) (ctx : KvCtx) (buf : RawKvMsg) : Datagram where
  dst_port := get_thread_port (index_tid f ctx.long_key) 0
  msg :=
    { buf with
      rpc_header := ⟨get_index_server_id, c.server_id, c.thread_id, c.coro_id, .kEnumReadIndexReq⟩
      key := get_fingerprint ctx.long_key
      long_key := ctx.long_key
      flag := f.flag
      switch_key := get_switch_key ctx.long_key
      client_port := toBigEndian16 (get_thread_port c.thread_id 0)
      route_port := toBigEndian16 (port_id c.server_id)
      index_port := toBigEndian16 (get_thread_port (index_tid f ctx.long_key) 0)
      timestamp := 0 }

/-- `put_index` up to the yield. The flag is always zero. -/
def put_index_request (f : Flags) (c : CoroId) (ctx : KvCtx) (buf : RawKvMsg) : Datagram where
  dst_port := get_thread_port (index_tid f ctx.long_key) 0
  msg :=
    { buf with
      rpc_header :=
        ⟨get_index_server_id, c.server_id, c.thread_id, c.coro_id, .kEnumUpdateIndexReq⟩
      route_map := my_index_bitmap c.server_id
      key := ctx.key.toUInt32
      magic := ctx.magic.toUInt8
      log_id := ctx.log_id
      flag := 0
      switch_key := get_switch_key ctx.long_key
      index_port := toBigEndian16 (get_thread_port (index_tid f ctx.long_key) 0)
      long_key := ctx.long_key
      client_port := toBigEndian16 (get_thread_port c.thread_id 0)
      timestamp := ctx.timestamp }

/-- `get_value` up to the yield. The data thread is read off the log position. -/
def get_value_request (f : Flags) (c : CoroId) (ctx : KvCtx) (buf : RawKvMsg) : Datagram where
  dst_port := get_thread_port (logid_2_threadid f ctx.log_id.toUInt32).toUInt8 0
  msg :=
    { buf with
      rpc_header := ⟨get_data_server_id, c.server_id, c.thread_id, c.coro_id, .kEnumReadLog⟩
      kv_g_id := compute_gid c.server_id c.thread_id
      kv_c_id := c.coro_id
      timestamp := 0
      key := ctx.key.toUInt32
      log_id := ctx.log_id
      flag := f.flag
      switch_key := get_switch_key ctx.long_key
      index_port := toBigEndian16 (get_thread_port (index_tid f ctx.long_key) 0) }

/-- `put_value` up to the yield. -/
def put_value_request (f : Flags) (c : CoroId) (ctx : KvCtx) (buf : RawKvMsg)
    (userbuf : List UInt8) : Datagram where
  dst_port := get_thread_port (get_data_thread_id_by_key f ctx.long_key.toUInt32) 0
  msg :=
    { buf with
      rpc_header := ⟨get_data_server_id, c.server_id, c.thread_id, c.coro_id, .kEnumAppendReq⟩
      kv_g_id := compute_gid c.server_id c.thread_id
      kv_c_id := c.coro_id
      key := ctx.key.toUInt32
      magic := ctx.magic.toUInt8
      flag := f.flag
      switch_key := get_switch_key ctx.long_key
      client_port := toBigEndian16 (get_thread_port c.thread_id 0)
      index_port := toBigEndian16 (get_thread_port (put_value_index_tid f ctx.long_key) 0)
      route_map := my_index_bitmap c.server_id
      timestamp := 0
      long_key := ctx.long_key
      value := userbuf }

/-- `check_req_cnt` up to the yield: the client sends the probe to itself. -/
def check_req_cnt_request (f : Flags) (c : CoroId) (ctx : KvCtx) (buf : RawKvMsg) : Datagram where
  dst_port := get_thread_port c.thread_id 0
  msg :=
    { buf with
      rpc_header := ⟨c.server_id, c.server_id, c.thread_id, c.coro_id, .kEnumReadSend⟩
      send_cnt := 0
      flag := 0
      key := 1
      index_port := toBigEndian16 (get_thread_port (index_tid f ctx.long_key) 0) }

/-! ### Replies -/

/-- `get_index` after the yield. A key other than the fingerprint is accepted only as the mark of
an absent key; the second assertion of that branch can never hold. -/
def get_index_reply (ctx : KvCtx) (reply : RawKvMsg) : Option KvCtx :=
  if reply.key.toUInt64 ≠ ctx.key then
    if reply.key = 0xFFFFFFFF then some { ctx with log_id := 0xFFFFFFFF } else none
  else
    some { ctx with
      index_in_switch := ctx.index_in_switch || reply.rpc_header.op == .kEnumReadIndexReq
      log_id := reply.log_id }

/-- `put_index` after the yield. -/
def put_index_reply (f : Flags) (c : CoroId) (ctx : KvCtx) (reply : RawKvMsg) : Option KvCtx :=
  if reply.key.toUInt64 ≠ ctx.key then none
  else if reply.rpc_header.src_t_id ≠ c.thread_id then none
  else if f.visibility ∧ reply.rpc_header.op = .kEnumMultiCastPkt then some ctx
  else if reply.rpc_header.op = .kEnumUpdateIndexReply then some ctx
  else none

/-- `get_value` after the yield. -/
def get_value_reply (ctx : KvCtx) (reply : RawKvMsg) : Option KvCtx :=
  if reply.rpc_header.op ≠ .kEnumReadReply then none
  else if reply.key ≠ 0xFFFFFFFF ∧ reply.long_key ≠ ctx.long_key ∧
      get_fingerprint ctx.long_key = get_fingerprint reply.long_key then
    some { ctx with read_ok := false }
  else some ctx

/-- `put_value` after the yield. -/
def put_value_reply (ctx : KvCtx) (reply : RawKvMsg) : Option KvCtx :=
  if reply.key.toUInt64 ≠ ctx.key then none
  else some { ctx with timestamp := reply.timestamp, log_id := reply.log_id }

/-- `check_req_cnt` after the yield. -/
def check_req_cnt_reply (ctx : KvCtx) (reply : RawKvMsg) : Option KvCtx :=
  if reply.rpc_header.op ≠ .kEnumReadSend then none else some ctx

/-! ### `kv_test` -/

/-- The next value of `app_ctx.magic`, which skips zero. -/
def next_magic (magic : UInt16) : UInt16 :=
  if magic + 1 = 0 then 1 else magic + 1

/-- The context with which `kv_test` starts on a key. -/
def kv_test_begin (ctx : KvCtx) (long_key : KvKeyType) : KvCtx :=
  { ctx with
    long_key := long_key
    key := (get_fingerprint long_key).toUInt64
    magic := next_magic ctx.magic
    index_in_switch := false
    read_ok := true }

/-- What a coroutine does when it is resumed: it ends its operation, or sends and waits again. -/
inductive Outcome
  | done (ctx : KvCtx)
  | send (ctx : KvCtx) (pc : Pc) (datagram : Datagram)

/-- The first message of `kv_test`. -/
def kv_test_start (f : Flags) (c : CoroId) (ctx : KvCtx) (test_type : TestType) (buf : RawKvMsg)
    (userbuf : List UInt8) : Pc × Datagram :=
  match test_type with
  | .kEnumR => (.get_index, get_index_request f c ctx buf)
  | .kEnumW => (.put_value, put_value_request f c ctx buf userbuf)

/-- `kv_test` and `check_req_cnt` after a yield. A coroutine that waits for nothing has no business
with a packet, so a packet for it counts as a failure. -/
def resume (f : Flags) (c : CoroId) (ctx : KvCtx) (pc : Pc) (reply buf : RawKvMsg) :
    Option Outcome :=
  match pc with
  | .idle => none
  | .get_index => do
    let ctx ← get_index_reply ctx reply
    if ctx.log_id = 0xFFFFFFFF then return .done ctx
    else return .send ctx .get_value (get_value_request f c ctx buf)
  | .get_value => do
    let ctx ← get_value_reply ctx reply
    return .done ctx
  | .put_value => do
    let ctx ← put_value_reply ctx reply
    if f.visibility ∧ reply.rpc_header.op = .kEnumMultiCastPkt then return .done ctx
    else return .send ctx .put_index (put_index_request f c ctx buf)
  | .put_index => do
    let ctx ← put_index_reply f c ctx reply
    return .done ctx
  | .check_req_cnt => do
    let ctx ← check_req_cnt_reply ctx reply
    return .done ctx

end SwitchDelta.Kv
