import SwitchDelta.Kv.Client
import SwitchDelta.Kv.Timestamp

/-!
# The data node and the index node of `kv.cc`

`server_process_msg` is the body of `run_server_CPC`, which both nodes run: it takes one request and
fills one reply. The data node appends to the log of its thread and draws a timestamp, or reads the
log; the index node reads or writes the index, a map that all index threads share. An operation that
a node has no case for ends the program and is `none`.

As for the clients, the reply is written into a send buffer whose earlier content `buf` shows through
in the fields that are not set.
-/

set_option autoImplicit false
set_option relaxedAutoImplicit false

namespace SwitchDelta.Kv

/-! ### Stores -/

/-- `SampleLog`: a ring of `FLAGS_logspace` records of key and value. -/
structure SampleLog where
  pos : UInt64
  buffer : UInt64 → KvKeyType × List UInt8

/-- `SampleLog::init`. -/
def SampleLog.init : SampleLog where
  pos := 0
  buffer := fun _ ↦ (0, [])

/-- `SampleLog::get`. -/
def SampleLog.get (kv : SampleLog) (key : UInt64) : KvKeyType × List UInt8 :=
  kv.buffer key

/-- `SampleLog::append`: the record goes to the current position, which is returned. -/
def SampleLog.append (f : Flags) (kv : SampleLog) (record : KvKeyType × List UInt8) :
    SampleLog × UInt64 :=
  ({ pos := (kv.pos + 1) % f.logspace
     buffer := Function.update kv.buffer kv.pos record }, kv.pos)

/-- The index of the index node, `ThreadLocalIndex_masstree` as a map. -/
abbrev Index := KvKeyType → Option UInt64

/-- `put_long`. -/
def Index.put_long (index : Index) (key : KvKeyType) (value : UInt64) : Index :=
  Function.update index key (some value)

/-! ### Replies -/

/-- The part of a reply that is the same for every operation. `run_server_CPC` copies the header and
addresses it to the sender, `server_process_msg` sets the rest. -/
def reply_base (req buf : RawKvMsg) (op : RpcType) : RawKvMsg :=
  { buf with
    rpc_header := { req.rpc_header with dst_s_id := req.rpc_header.src_s_id, op := op }
    key := req.key
    send_cnt := req.send_cnt
    timestamp := req.timestamp
    index_port := req.index_port
    magic_in_switch := req.magic_in_switch
    route_port := toBigEndian16 (port_id req.rpc_header.src_s_id)
    client_port := req.client_port
    kv_g_id := req.kv_g_id
    kv_c_id := req.kv_c_id
    magic := req.magic
    switch_key := req.switch_key
    flag := req.flag
    qp_map := 0
    server_map := 0
    coro_id := req.coro_id }

/-- The port a reply is sent to. -/
def reply_port (req : RawKvMsg) : UInt16 :=
  get_thread_port req.rpc_header.src_t_id 0

/-- What a data thread reads and writes: its log, and the counters that all data threads share. -/
structure DataState where
  kv : SampleLog
  tss : UInt16 → UInt64

/-- `server_process_msg` on the data node. -/
def data_process_msg (f : Flags) (thread_id : UInt8) (st : DataState) (req buf : RawKvMsg) :
    Option (DataState × RawKvMsg) :=
  match req.rpc_header.op with
  | .kEnumReadLog =>
    let record := st.kv.get (logid_2_locallogid f req.log_id.toUInt32).toUInt64
    some (st, { reply_base req buf .kEnumReadReply with
      long_key := record.1
      value := record.2 })
  | .kEnumAppendReq =>
    let (kv, local_id) := st.kv.append f (req.long_key, req.value)
    let (tss, timestamp) := next_timestamp (st.tss req.switch_key)
    some ({ kv := kv, tss := Function.update st.tss req.switch_key tss },
      { reply_base req buf .kEnumAppendReply with
        log_id := (compute_log_id f local_id.toUInt32 thread_id.toUInt32).toUInt64
        long_key := req.long_key
        route_map := req.route_map
        timestamp := timestamp })
  | _ => none

/-- `server_process_msg` on the index node, in the build with `OBATCH`. -/
def index_process_msg (index : Index) (req buf : RawKvMsg) : Option (Index × RawKvMsg) :=
  match req.rpc_header.op with
  | .kEnumReadIndexReq =>
    let found := index req.long_key
    let base := reply_base req buf .kEnumReadIndexReply
    some (index, { base with
      key := if found = none then 0xFFFFFFFF else base.key
      log_id := (found.getD 0).toUInt32.toUInt64 })
  | .kEnumMultiCastPkt =>
    some (index.put_long req.long_key req.log_id, reply_base req buf .ReplySwitch)
  | .kEnumUpdateIndexReq =>
    some (index.put_long req.long_key req.log_id, reply_base req buf .kEnumUpdateIndexReply)
  | _ => none

end SwitchDelta.Kv
