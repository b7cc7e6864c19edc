import SwitchDelta.Foundation.Links
import SwitchDelta.Foundation.Register
import SwitchDelta.Foundation.Transition
import SwitchDelta.Kv.SendRing
import SwitchDelta.Switch.Disposition

/-!
# Clients, switch, data node and index node together

A state of the system is the registers of the switch, the packets on the links, the coroutines of the
clients, and the stores of the two server nodes. Every step is one of the code's own: a coroutine
starts an operation, the switch processes a packet, a server thread handles a request, a poll of the
batching index server collects a request or ends, or a packet resumes a coroutine. The links from the
data node to the switch and from the switch to the index node and back deliver in order, one queue
for each thread; all other links deliver in any order. Nothing is lost or duplicated on a link; a
packet whose UDP port no thread of the node listens on is dropped there.

A batching index thread takes a request only when its send ring gives it a buffer at once
(`State.HasBuffer`). Otherwise the source waits for a completion that never comes, and here the request
stays where it is. The one case in which the source goes on, a batch that fills the ring behind a
signalled send, needs more than `kStaticSendBuf` requests in a batch and is in `SendRing` only. With
`FLAGS_batch_size` up to 113 no batch has so many.

Four parts of the state are not in the code, and no function of the code reads them. A packet
carries the identity `op` of the operation it belongs to, `owner` records which write installed the
entry of a slot, `hist` is the history of index reads and writes, and coroutines count their
operations, requests and deliveries. A write is invoked at `put_value`, is assigned its log position
at the data node, and responds when `put_value` or `put_index` ends it; an index read is `get_index`.

`failed` is set when an assertion fails, an `exit` is reached, or a packet resumes a coroutine that
does not wait.
-/

set_option autoImplicit false
set_option relaxedAutoImplicit false

namespace SwitchDelta.Kv

open Foundation Switch

/-! ### Links and packets -/

/-- An operation of `kv_test`: the coroutine, its number there, and the key. -/
structure OpId where
  coro : CoroId
  seq : ℕ
  key : KvKeyType
  deriving DecidableEq

/-- The links. `dnIn t` and `dnOut t` are those of data thread `t`, `ixIn t` and `ixOut t` those of
index thread `t`, and `ixBatch t` is what that thread has polled and not answered. -/
inductive Loc
  | up
  | dnIn (t : UInt8)
  | dnOut (t : UInt8)
  | ixIn (t : UInt8)
  | ixBatch (t : UInt8)
  | ixOut (t : UInt8)
  | down (server_id thread_id : UInt8)
  deriving DecidableEq

/-- A packet with its UDP port and the operation it belongs to. -/
structure Packet where
  dst_port : UInt16
  msg : RawKvMsg
  op : OpId

/-- What a run is started with: the flags, the switch program, which of the two loops the index node
runs, the keys, the uninitialised contexts of the coroutines, and the entries of `counter_table`. -/
structure Setup where
  flags : Flags
  program : Program
  batching : Bool
  key_space : List KvKeyType
  ctx₀ : CoroId → KvCtx
  counter_entries : CounterEntries := installedCounters

/-- `thread_num` of the entries of `server_config`. -/
def Flags.thread_num (f : Flags) (server_id : UInt8) : UInt32 :=
  if server_id = 0 then f.dn_thread
  else if server_id = 1 then f.mn_thread
  else if server_id = 2 then 1
  else if server_id = 3 ∨ server_id = 4 then f.c_thread
  else 0

/-- A coroutine that `run_client_CPC` creates on one of the client nodes. -/
def Flags.HasCoro (f : Flags) (c : CoroId) : Prop :=
  (c.server_id = 2 ∨ c.server_id = 3 ∨ c.server_id = 4) ∧
    c.thread_id.toUInt32 < f.thread_num c.server_id ∧ c.coro_id.toUInt32 < f.coro_num

/-- The bounds on the flags: `Rdma` and `Rpc` have room for 48 threads and 64 coroutines, and the
key and log spaces are divisors. -/
structure Flags.InRange (f : Flags) : Prop where
  dn_pos : 0 < f.dn_thread
  dn_le : f.dn_thread ≤ 48
  mn_pos : 0 < f.mn_thread
  mn_le : f.mn_thread ≤ 48
  c_le : f.c_thread ≤ 48
  coro_le : f.coro_num ≤ 64
  keyspace_pos : 0 < f.keyspace
  logspace_pos : 0 < f.logspace

/-! ### The state -/

/-- A coroutine, with the number of operations it has started, of requests it has sent and of packets
it was resumed with. -/
structure Coroutine where
  pc : Pc
  ctx : KvCtx
  seq : ℕ
  sent : ℕ
  delivered : ℕ

/-- The poll loop of a batching index thread: `onpath`, the number of requests of this poll, and the
`send_cnt_bf_signal` of its send ring, the number of replies posted since the last signalled one. -/
structure Poll where
  onpath : Bool
  polled : ℕ
  behind : ℕ

/-- A state of the system. -/
structure State where
  regs : Registers
  owner : UInt16 → Option OpId
  net : List (Loc × Packet)
  coro : CoroId → Coroutine
  kv : UInt8 → SampleLog
  tss : UInt16 → UInt64
  index : Index
  poll : UInt8 → Poll
  hist : List (Event OpId UInt64)
  failed : Bool

/-- The state after start-up: the index node has inserted every key with log position zero. -/
def State.initial (S : Setup) : State where
  regs := Registers.initial S.counter_entries
  owner := fun _ ↦ none
  net := []
  coro := fun c ↦ ⟨.idle, S.ctx₀ c, 0, 0, 0⟩
  kv := fun _ ↦ SampleLog.init
  tss := fun _ ↦ 1
  index := fun k ↦ if k ∈ S.key_space then some 0 else none
  poll := fun _ ↦ ⟨false, 0, 0⟩
  hist := []
  failed := false

/-! ### The switch -/

/-- The parser of the switch: the header `kvmsg` of a message, as big-endian numbers. -/
def parse (msg : RawKvMsg) : Kvmsg where
  node_id := msg.rpc_header.dst_s_id
  op := msg.rpc_header.op
  flag := msg.flag
  key := toBigEndian16 msg.switch_key
  rpc_id := rpcIdOfBytes msg.kv_g_id msg.kv_c_id msg.magic
  key32 := bswap32 msg.key
  log_id0 := bswap32 (lowWord msg.log_id)
  log_id1 := bswap32 (highWord msg.log_id)
  route_port := toBigEndian16 msg.route_port
  route_map := toBigEndian16 msg.route_map
  client_port := toBigEndian16 msg.client_port
  count := toBigEndian16 msg.send_cnt
  index_port := toBigEndian16 msg.index_port
  timestamp := bswap32 msg.timestamp

/-- The deparser: the fields of the header that the switch may have changed. -/
def deparse (msg : RawKvMsg) (h : Kvmsg) : RawKvMsg :=
  { msg with
    rpc_header := { msg.rpc_header with op := h.op }
    log_id := joinWords (bswap32 h.log_id0) (bswap32 h.log_id1)
    send_cnt := toBigEndian16 h.count }

/-- The node behind a port of the switch. -/
def nodeOfPort (port : UInt16) : Option UInt8 :=
  if port = 128 then some 0
  else if port = 188 then some 1
  else if port = 136 then some 2
  else if port = 180 then some 3
  else if port = 172 then some 4
  else none

/-- The thread of a node that listens on a UDP port. -/
def threadOfPort (f : Flags) (server_id : UInt8) (dst_port : UInt16) : Option UInt8 :=
  let t := (dst_port >>> 8).toUInt8 - 1
  if get_thread_port t 0 = dst_port ∧ t.toUInt32 < f.thread_num server_id then some t else none

/-- The link into a thread of a node. -/
def linkTo (server_id t : UInt8) : Loc :=
  if server_id = 0 then .dnIn t
  else if server_id = 1 then .ixIn t
  else .down server_id t

/-- The copies that leave the switch for a packet, on their links. -/
def switchOutputs (f : Flags) (q : Pipe) (p : Packet) : List (Loc × Packet) :=
  (q.copies p.dst_port).filterMap fun copy ↦ do
    let server_id ← nodeOfPort copy.port
    let t ← threadOfPort f server_id copy.dstPort
    return (linkTo server_id t, ⟨copy.dstPort, deparse p.msg copy.kvmsg, p.op⟩)

/-- The owner of the entries after a packet: an installed write owns its slot, an empty slot has no
owner. -/
def nextOwner (owner : UInt16 → Option OpId) (h : Kvmsg) (q : Pipe) (op : OpId) :
    UInt16 → Option OpId :=
  if q.mcast_grp_a.isSome then Function.update owner h.key (some op)
  else if (q.regs.key_check h.key).lo = 0 then Function.update owner h.key none
  else owner

/-- The switch processes a packet. -/
def State.switchStep (S : Setup) (σ : State) (p : Packet) (rest : List (Loc × Packet)) : State :=
  let h := parse p.msg
  let q := ingress S.program (parse_kvmsg σ.regs h)
  { σ with
    regs := q.regs
    owner := nextOwner σ.owner h q p.op
    net := rest ++ switchOutputs S.flags q p }

/-! ### The nodes -/

/-- A coroutine starts `kv_test` on a key. -/
def State.startStep (S : Setup) (σ : State) (c : CoroId) (test_type : TestType) (k : KvKeyType)
    (buf : RawKvMsg) (userbuf : List UInt8) : State :=
  let co := σ.coro c
  let ctx := kv_test_begin co.ctx k
  let op : OpId := ⟨c, co.seq + 1, k⟩
  let (pc, d) := kv_test_start S.flags c ctx test_type buf userbuf
  { σ with
    net := σ.net ++ [(.up, ⟨d.dst_port, d.msg, op⟩)]
    coro := Function.update σ.coro c ⟨pc, ctx, co.seq + 1, co.sent + 1, co.delivered⟩
    hist := σ.hist ++ [match test_type with
      | .kEnumR => .invokeRead op
      | .kEnumW => .invokeWrite op] }

/-- A coroutine starts `check_req_cnt` for a key. -/
def State.probeStep (S : Setup) (σ : State) (c : CoroId) (k : KvKeyType) (buf : RawKvMsg) :
    State :=
  let co := σ.coro c
  let ctx := { co.ctx with long_key := k }
  let d := check_req_cnt_request S.flags c ctx buf
  { σ with
    net := σ.net ++ [(.up, ⟨d.dst_port, d.msg, ⟨c, co.seq, k⟩⟩)]
    coro := Function.update σ.coro c ⟨.check_req_cnt, ctx, co.seq, co.sent + 1, co.delivered⟩ }

/-- The events of a coroutine that is resumed: `get_index` returns, or a write ends. -/
def Outcome.events (op : OpId) (pc : Pc) : Outcome → List (Event OpId UInt64)
  | .done ctx =>
    match pc with
    | .get_index => [.respondRead op ctx.log_id]
    | .put_value | .put_index => [.respondWrite op ctx.log_id]
    | _ => []
  | .send ctx _ _ =>
    match pc with
    | .get_index => [.respondRead op ctx.log_id]
    | _ => []

/-- A packet resumes the coroutine it names, at the client thread it arrived at. -/
def State.clientStep (S : Setup) (σ : State) (server_id thread_id : UInt8) (p : Packet)
    (rest : List (Loc × Packet)) (buf : RawKvMsg) : State :=
  let c : CoroId := ⟨server_id, thread_id, p.msg.rpc_header.src_c_id⟩
  let co := σ.coro c
  let op : OpId := ⟨c, co.seq, co.ctx.long_key⟩
  match resume S.flags c co.ctx co.pc p.msg buf with
  | none => { σ with net := rest, failed := true }
  | some (.done ctx) =>
    { σ with
      net := rest
      coro := Function.update σ.coro c ⟨.idle, ctx, co.seq, co.sent, co.delivered + 1⟩
      hist := σ.hist ++ (Outcome.done ctx).events op co.pc }
  | some (.send ctx pc d) =>
    { σ with
      net := rest ++ [(.up, ⟨d.dst_port, d.msg, op⟩)]
      coro := Function.update σ.coro c ⟨pc, ctx, co.seq, co.sent + 1, co.delivered + 1⟩
      hist := σ.hist ++ (Outcome.send ctx pc d).events op co.pc }

/-- A data thread handles a request. -/
def State.dataStep (S : Setup) (σ : State) (t : UInt8) (p : Packet) (rest : List (Loc × Packet))
    (buf : RawKvMsg) : State :=
  match data_process_msg S.flags t ⟨σ.kv t, σ.tss⟩ p.msg buf with
  | none => { σ with net := rest, failed := true }
  | some (st, reply) =>
    { σ with
      net := rest ++ [(.dnOut t, ⟨reply_port p.msg, reply, p.op⟩)]
      kv := Function.update σ.kv t st.kv
      tss := st.tss
      hist := σ.hist ++
        if p.msg.rpc_header.op = .kEnumAppendReq then [.assign p.op reply.log_id] else [] }

/-- An index thread in `run_server_CPC` handles a request. -/
def State.indexStep (σ : State) (t : UInt8) (p : Packet) (rest : List (Loc × Packet))
    (buf : RawKvMsg) : State :=
  match index_process_msg σ.index p.msg buf with
  | none => { σ with net := rest, failed := true }
  | some (index, reply) =>
    { σ with
      net := rest ++ [(.ixOut t, ⟨reply_port p.msg, reply, p.op⟩)]
      index := index }

/-- The send ring of an index thread has a buffer for the next reply: the replies of its batch and those
behind the last signalled send leave one of `kStaticSendBuf`. -/
def State.HasBuffer (σ : State) (t : UInt8) : Prop :=
  (σ.poll t).behind + (queue σ.net (.ixBatch t)).length < kStaticSendBuf

instance (σ : State) (t : UInt8) : Decidable (σ.HasBuffer t) :=
  inferInstanceAs (Decidable (_ < _))

/-- An index thread in `server_batch_CPC` takes one request of a poll into the array. -/
def State.collectStep (σ : State) (t : UInt8) (p : Packet) (rest : List (Loc × Packet)) : State :=
  if batch_reply_op p.msg.rpc_header.op = none then { σ with net := rest, failed := true }
  else
    { σ with
      net := rest ++ [(.ixBatch t, p)]
      poll := Function.update σ.poll t
        ⟨(σ.poll t).onpath || onpath p.msg, (σ.poll t).polled + 1, (σ.poll t).behind⟩ }

/-- The batch of an index thread is not applied at the end of this poll. -/
def State.KeepsPolling (S : Setup) (σ : State) (t : UInt8) : Prop :=
  (queue σ.net (.ixBatch t)).length < S.flags.batch_size.toNat ∧ (σ.poll t).onpath = false ∧
    S.flags.batch = true

/-- A new poll starts. -/
def State.keepStep (σ : State) (t : UInt8) : State :=
  { σ with poll := Function.update σ.poll t ⟨false, 0, (σ.poll t).behind⟩ }

/-- The batch of an index thread is applied to the index and its replies are posted in the order of
arrival, every `kMaxSignal`-th of them signalled. -/
def State.flushStep (σ : State) (t : UInt8) (replies : List RawKvMsg) (sorted : List BatchEntry) :
    State :=
  let result := apply_batch σ.index replies sorted
  { σ with
    net := σ.net.filter (fun p ↦ p.1 ≠ .ixBatch t) ++
      (queue σ.net (.ixBatch t)).zipWith
        (fun p reply ↦ (Loc.ixOut t, ⟨reply_port p.msg, reply, p.op⟩)) result.replies
    index := result.index
    poll := Function.update σ.poll t
      ⟨false, 0, ((σ.poll t).behind + (queue σ.net (.ixBatch t)).length) % kMaxSignal⟩ }

/-! ### Steps -/

/-- What happens in a step. -/
inductive Label
  | start (c : CoroId) (test_type : TestType) (k : KvKeyType)
  | probe (c : CoroId) (k : KvKeyType)
  | switch (p : Packet)
  | data (t : UInt8) (p : Packet)
  | index (t : UInt8) (p : Packet)
  | collect (t : UInt8) (p : Packet)
  | keep (t : UInt8)
  | flush (t : UInt8)
  | client (p : Packet)

/-- One step of the system. The arguments `buf` and `userbuf` are the earlier contents of buffers. -/
inductive Step (S : Setup) : State → Label → State → Prop
  | start {σ : State} {c : CoroId} {test_type : TestType} {k : KvKeyType} (buf : RawKvMsg)
      (userbuf : List UInt8) :
      S.flags.HasCoro c → (σ.coro c).pc = .idle → k ∈ S.key_space →
      Step S σ (.start c test_type k) (σ.startStep S c test_type k buf userbuf)
  | probe {σ : State} {c : CoroId} {k : KvKeyType} (buf : RawKvMsg) :
      S.flags.HasCoro c → (σ.coro c).pc = .idle → k ∈ S.key_space →
      Step S σ (.probe c k) (σ.probeStep S c k buf)
  | switchUp {σ : State} {p : Packet} {rest : List (Loc × Packet)} :
      Take σ.net .up p rest → Step S σ (.switch p) (σ.switchStep S p rest)
  | switchData {σ : State} {t : UInt8} {p : Packet} {rest : List (Loc × Packet)} :
      TakeFirst σ.net (.dnOut t) p rest → Step S σ (.switch p) (σ.switchStep S p rest)
  | switchIndex {σ : State} {t : UInt8} {p : Packet} {rest : List (Loc × Packet)} :
      TakeFirst σ.net (.ixOut t) p rest → Step S σ (.switch p) (σ.switchStep S p rest)
  | data {σ : State} {t : UInt8} {p : Packet} {rest : List (Loc × Packet)} (buf : RawKvMsg) :
      Take σ.net (.dnIn t) p rest → Step S σ (.data t p) (σ.dataStep S t p rest buf)
  | index {σ : State} {t : UInt8} {p : Packet} {rest : List (Loc × Packet)} (buf : RawKvMsg) :
      S.batching = false → TakeFirst σ.net (.ixIn t) p rest →
      Step S σ (.index t p) (σ.indexStep t p rest buf)
  | collect {σ : State} {t : UInt8} {p : Packet} {rest : List (Loc × Packet)} :
      S.batching = true → TakeFirst σ.net (.ixIn t) p rest → (σ.poll t).polled < kMaxWcCnt →
      σ.HasBuffer t → Step S σ (.collect t p) (σ.collectStep t p rest)
  | keep {σ : State} {t : UInt8} :
      S.batching = true → σ.KeepsPolling S t → Step S σ (.keep t) (σ.keepStep t)
  | flush {σ : State} {t : UInt8} {replies : List RawKvMsg} {sorted : List BatchEntry} :
      S.batching = true → ¬ σ.KeepsPolling S t →
      Prepared ((queue σ.net (.ixBatch t)).map Packet.msg) replies →
      StdSort (batchEntries replies) sorted →
      Step S σ (.flush t) (σ.flushStep t replies sorted)
  | client {σ : State} {server_id thread_id : UInt8} {p : Packet} {rest : List (Loc × Packet)}
      (buf : RawKvMsg) :
      Take σ.net (.down server_id thread_id) p rest →
      Step S σ (.client p) (σ.clientStep S server_id thread_id p rest buf)

/-- The states of the runs whose steps all meet a condition. -/
abbrev Setup.Reachable (S : Setup) (ok : State → Label → Prop) : State → Prop :=
  Foundation.Reachable (State.initial S) (Step S) ok

/-- The history of one key. -/
def State.history (σ : State) (k : KvKeyType) : List (Event OpId UInt64) :=
  σ.hist.filter fun e ↦ e.op.key = k

end SwitchDelta.Kv
