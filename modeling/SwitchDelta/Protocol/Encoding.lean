import SwitchDelta.Protocol.Tokens
import SwitchDelta.Switch.SlotMachine

/-!
# Items on the wire

`Encodes S p x` says that the packet `p` carries the item `x`: which operation code, addresses,
fingerprint, flag and so on it has. Fields that a message inherits from an old send buffer are not
mentioned, and neither is `send_cnt`, which the switch may change. The lemmas go through the
functions of the client, the two servers and the switch, and say which item each message they send
carries.

The words `rpc_id` of a write are determined by its coroutine and the value of `app_ctx.magic` when
it was started, `Setup.magic`.
-/

set_option autoImplicit false
set_option relaxedAutoImplicit false

namespace SwitchDelta.Protocol

open Foundation Kv Switch

/-! ### The fields of an item -/

/-- The operation code of a kind of message. -/
def Kind.code : Kind → RpcType
  | appendReq => .kEnumAppendReq
  | appendReply => .kEnumAppendReply
  | copy | answer => .kEnumMultiCastPkt
  | replySwitch => .ReplySwitch
  | updateReq => .kEnumUpdateIndexReq
  | updateReply => .kEnumUpdateIndexReply
  | readReq | readHit => .kEnumReadIndexReq
  | readReply => .kEnumReadIndexReply
  | readLog => .kEnumReadLog
  | logReply => .kEnumReadReply
  | probe => .kEnumReadSend

/-- The node that the header of a message names, for a client node. -/
def Kind.node (client : UInt8) : Kind → UInt8
  | appendReq | readLog => get_data_server_id
  | updateReq | readReq | readHit => get_index_server_id
  | _ => client

/-- The flag of a message. Only a write that was installed has a copy, an answer and a
`ReplySwitch`. -/
def Kind.flag (f : Flags) : Kind → UInt8
  | updateReq | updateReply | probe => 0
  | copy | answer | replySwitch => visibility
  | _ => f.flag

/-- The thread that a message is addressed to by its UDP port. -/
def Item.thread (f : Flags) (x : Item) : UInt8 :=
  match x.kind with
  | .appendReq => get_data_thread_id_by_key f x.op.key.toUInt32
  | .readLog => (logid_2_threadid f x.log.toUInt32).toUInt8
  | .updateReq | .readReq => index_tid f x.op.key
  | .copy => put_value_index_tid f x.op.key
  | _ => x.op.coro.thread_id

/-- The value of `app_ctx.magic` during an operation. -/
def magicOf (S : Setup) (o : OpId) : UInt16 :=
  next_magic^[o.seq] (S.ctx₀ o.coro).magic

/-- The `rpc_id` of an operation on the wire. -/
def rpcId (S : Setup) (o : OpId) : UInt32 :=
  rpcIdOfBytes (compute_gid o.coro.server_id o.coro.thread_id) o.coro.coro_id
    (magicOf S o).toUInt8

/-- The packet carries the item. -/
structure Encodes (S : Setup) (p : Packet) (x : Item) : Prop where
  op : p.op = x.op
  src_s_id : p.msg.rpc_header.src_s_id = x.op.coro.server_id
  src_t_id : p.msg.rpc_header.src_t_id = x.op.coro.thread_id
  src_c_id : p.msg.rpc_header.src_c_id = x.op.coro.coro_id
  code : p.msg.rpc_header.op = x.kind.code
  node : p.msg.rpc_header.dst_s_id = x.kind.node x.op.coro.server_id
  dst_port : p.dst_port = get_thread_port (x.thread S.flags) 0
  key : p.msg.key = if x.kind = .probe then 1 else get_fingerprint x.op.key
  flag : p.msg.flag = x.kind.flag S.flags
  visible : x.kind ∈ [.copy, .answer, .replySwitch] → S.flags.visibility = true
  switch_key : x.kind ≠ .probe → p.msg.switch_key = get_switch_key x.op.key
  rpc_id : x.kind ∈ [.appendReq, .appendReply, .copy, .replySwitch] →
    p.msg.kv_g_id = compute_gid x.op.coro.server_id x.op.coro.thread_id ∧
      p.msg.kv_c_id = x.op.coro.coro_id ∧ p.msg.magic = (magicOf S x.op).toUInt8
  multicast : x.kind ∈ [.appendReq, .appendReply] →
    p.msg.client_port = toBigEndian16 (get_thread_port x.op.coro.thread_id 0) ∧
      p.msg.index_port = toBigEndian16 (get_thread_port (put_value_index_tid S.flags x.op.key) 0) ∧
      p.msg.route_map = my_index_bitmap x.op.coro.server_id
  lookup : x.kind = .readReq →
    p.msg.client_port = toBigEndian16 (get_thread_port x.op.coro.thread_id 0) ∧
      p.msg.route_port = toBigEndian16 (port_id x.op.coro.server_id)
  long_key : x.kind ∈ [.appendReq, .appendReply, .copy, .updateReq, .readReq] →
    p.msg.long_key = x.op.key
  log_id : x.kind ∈ [.appendReply, .copy, .answer, .updateReq, .readHit, .readReply] →
    p.msg.log_id = x.log
  small : x.kind ∈ [.appendReply, .copy, .updateReq] → x.log.toUInt32.toUInt64 = x.log
  timestamp : x.kind ∈ [.appendReply, .copy, .replySwitch, .updateReq, .readReq] →
    timestampValue p.msg.timestamp = x.ts
  stamped : x.kind ∈ [.appendReply, .copy, .replySwitch, .updateReq, .readReq] →
    (x.ts = 0 ↔ x.kind = .readReq)

variable {S : Setup} {p : Packet} {x : Item}

/-! ### Requests of the clients -/

theorem encodes_put_value {c : CoroId} {n : ℕ} {k : KvKeyType} {ctx : KvCtx} (buf : RawKvMsg)
    (userbuf : List UInt8) (hkey : ctx.long_key = k)
    (hfingerprint : ctx.key = (get_fingerprint k).toUInt64)
    (hmagic : ctx.magic = magicOf S ⟨c, n, k⟩) :
    Encodes S ⟨(put_value_request S.flags c ctx buf userbuf).dst_port,
      (put_value_request S.flags c ctx buf userbuf).msg, ⟨c, n, k⟩⟩
      ⟨.appendReq, ⟨c, n, k⟩, 0, 0⟩ := by
  subst hkey
  constructor <;>
    simp [put_value_request, Kind.code, Kind.node, Kind.flag, Item.thread, hfingerprint, hmagic]

theorem encodes_get_index {c : CoroId} {n : ℕ} {k : KvKeyType} {ctx : KvCtx} (buf : RawKvMsg)
    (hkey : ctx.long_key = k) :
    Encodes S ⟨(get_index_request S.flags c ctx buf).dst_port,
      (get_index_request S.flags c ctx buf).msg, ⟨c, n, k⟩⟩ ⟨.readReq, ⟨c, n, k⟩, 0, 0⟩ := by
  subst hkey
  constructor <;>
    simp [get_index_request, Kind.code, Kind.node, Kind.flag, Item.thread, timestampValue]
  rfl

theorem encodes_check_req_cnt {c : CoroId} {n : ℕ} {k : KvKeyType} {ctx : KvCtx} (buf : RawKvMsg) :
    Encodes S ⟨(check_req_cnt_request S.flags c ctx buf).dst_port,
      (check_req_cnt_request S.flags c ctx buf).msg, ⟨c, n, k⟩⟩ ⟨.probe, ⟨c, n, k⟩, 0, 0⟩ := by
  constructor <;>
    simp [check_req_cnt_request, Kind.code, Kind.node, Kind.flag, Item.thread]

theorem encodes_put_index {ctx : KvCtx} (buf : RawKvMsg) (h : Encodes S p x)
    (hkind : x.kind = .appendReply) (hkey : ctx.long_key = x.op.key)
    (hfingerprint : ctx.key = (get_fingerprint x.op.key).toUInt64)
    (hlog : ctx.log_id = p.msg.log_id) (htimestamp : ctx.timestamp = p.msg.timestamp) :
    Encodes S ⟨(put_index_request S.flags x.op.coro ctx buf).dst_port,
      (put_index_request S.flags x.op.coro ctx buf).msg, x.op⟩ { x with kind := .updateReq } := by
  have hlog_id := h.log_id (by simp [hkind])
  have hsmall := h.small (by simp [hkind])
  have htime := h.timestamp (by simp [hkind])
  have hstamped := h.stamped (by simp [hkind])
  constructor <;>
    simp_all [put_index_request, Kind.code, Kind.node, Kind.flag, Item.thread]

theorem encodes_get_value {ctx : KvCtx} (buf : RawKvMsg) (hkey : ctx.long_key = x.op.key)
    (hfingerprint : ctx.key = (get_fingerprint x.op.key).toUInt64) (hlog : ctx.log_id = x.log) :
    Encodes S ⟨(get_value_request S.flags x.op.coro ctx buf).dst_port,
      (get_value_request S.flags x.op.coro ctx buf).msg, x.op⟩
      { x with kind := .readLog, ts := 0 } := by
  constructor <;>
    simp_all [get_value_request, Kind.code, Kind.node, Kind.flag, Item.thread]

/-! ### Replies of the servers -/

/-- A data thread answers an append with the next timestamp of its switch key. -/
theorem encodes_append (h : Encodes S p x) (hkind : x.kind = .appendReq) (t : UInt8)
    (st : DataState) (buf : RawKvMsg) : ∃ kv reply,
      data_process_msg S.flags t st p.msg buf = some (⟨kv, Function.update st.tss
        (get_switch_key x.op.key) (next_timestamp (st.tss (get_switch_key x.op.key))).1⟩, reply) ∧
      reply.log_id = (compute_log_id S.flags st.kv.pos.toUInt32 t.toUInt32).toUInt64 ∧
      Encodes S ⟨reply_port p.msg, reply, p.op⟩ ⟨.appendReply, x.op, reply.log_id,
        timestampValue (next_timestamp (st.tss (get_switch_key x.op.key))).2⟩ := by
  have hcode := h.code
  rw [hkind] at hcode
  have hswitch := h.switch_key (by simp [hkind])
  have hlong := h.long_key (by simp [hkind])
  have hrpc := h.rpc_id (by simp [hkind])
  have hmulticast := h.multicast (by simp [hkind])
  have hkey := h.key
  have hflag := h.flag
  have hstamp : timestampValue (next_timestamp (st.tss (get_switch_key x.op.key))).2 ≠ 0 := by
    have hne := next_timestamp_ne_zero (st.tss (get_switch_key x.op.key))
    rw [timestampValue]
    intro hzero
    exact hne (bswap32_eq_zero_iff.mp (UInt32.toNat_inj.mp hzero))
  simp only [data_process_msg, hcode, Kind.code, hswitch]
  refine ⟨_, _, rfl, rfl, ?_⟩
  constructor <;>
    simp_all [reply_base, reply_port, Kind.code, Kind.node, Kind.flag, Item.thread, h.op,
      h.src_s_id, h.src_t_id, h.src_c_id]

/-- A data thread answers a read of its log, whatever the log position. -/
theorem encodes_serveLog (h : Encodes S p x) (hkind : x.kind = .readLog) (t : UInt8)
    (st : DataState) (buf : RawKvMsg) : ∃ reply,
      data_process_msg S.flags t st p.msg buf = some (st, reply) ∧
      Encodes S ⟨reply_port p.msg, reply, p.op⟩ { x with kind := .logReply } := by
  have hcode := h.code
  rw [hkind] at hcode
  have hswitch := h.switch_key (by simp [hkind])
  have hkey := h.key
  have hflag := h.flag
  simp only [data_process_msg, hcode, Kind.code]
  refine ⟨_, rfl, ?_⟩
  constructor <;>
    simp_all [reply_base, reply_port, Kind.code, Kind.node, Kind.flag, Item.thread, h.op,
      h.src_s_id, h.src_t_id, h.src_c_id]

/-- The index after a request: an update writes its log position. -/
def Item.updateIndex (index : Index) (x : Item) : Index :=
  if x.kind = .readReq then index else index.put_long x.op.key x.log

/-- An index thread of `run_server_CPC` answers a request. -/
theorem encodes_serve (h : Encodes S p x) (hkind : x.kind.AtIndex) (index : Index)
    (buf : RawKvMsg) (final : KvKeyType → UInt64)
    (hfinal : x.kind = .readReq → index x.op.key = some (final x.op.key) ∧
      (final x.op.key).toUInt32.toUInt64 = final x.op.key) : ∃ reply,
      index_process_msg index p.msg buf = some (x.updateIndex index, reply) ∧
      Encodes S ⟨reply_port p.msg, reply, p.op⟩ (x.reply final) := by
  have hcode := h.code
  have hlong := h.long_key
  have hlog := h.log_id
  have hswitch := h.switch_key
  have hrpc := h.rpc_id
  have hkey := h.key
  have hflag := h.flag
  have hvisible := h.visible
  have htime := h.timestamp
  have hstamped := h.stamped
  rcases hkind with hkind | hkind | hkind <;>
    rw [hkind] at hcode hlong hlog hswitch hrpc hkey hflag hvisible htime hstamped <;>
    simp only [Kind.code] at hcode
  · simp only [index_process_msg, hcode, Item.updateIndex, hkind, hlong (by simp), hlog (by simp),
      reduceCtorEq, if_false]
    refine ⟨_, rfl, ?_⟩
    constructor <;>
      simp_all [reply_base, reply_port, Item.reply, Kind.code, Kind.node, Kind.flag, Item.thread,
        h.op, h.src_s_id, h.src_t_id, h.src_c_id]
  · simp only [index_process_msg, hcode, Item.updateIndex, hkind, hlong (by simp), hlog (by simp),
      reduceCtorEq, if_false]
    refine ⟨_, rfl, ?_⟩
    constructor <;>
      simp_all [reply_base, reply_port, Item.reply, Kind.code, Kind.node, Kind.flag, Item.thread,
        h.op, h.src_s_id, h.src_t_id, h.src_c_id]
  · obtain ⟨hfound, hsmall⟩ := hfinal hkind
    simp only [index_process_msg, hcode, Item.updateIndex, hkind, if_true, hlong (by simp), hfound]
    refine ⟨_, rfl, ?_⟩
    constructor <;>
      simp_all [reply_base, reply_port, Item.reply, Kind.code, Kind.node, Kind.flag, Item.thread,
        h.op, h.src_s_id, h.src_t_id, h.src_c_id]

/-- The replies of `server_batch_CPC`, for the index after the batch. -/
theorem encodes_batch_reply (h : Encodes S p x) (hkind : x.kind.AtIndex) {buf reply : RawKvMsg}
    (hreply : batch_reply p.msg buf = some reply) {index : Index} (final : KvKeyType → UInt64)
    (hfinal : index x.op.key = some (final x.op.key) ∧
      (final x.op.key).toUInt32.toUInt64 = final x.op.key) :
    Encodes S ⟨reply_port p.msg, apply_reply index reply, p.op⟩ (x.reply final) := by
  have hcode := h.code
  have hlong := h.long_key
  have hlog := h.log_id
  have hswitch := h.switch_key
  have hrpc := h.rpc_id
  have hkey := h.key
  have hflag := h.flag
  have hvisible := h.visible
  have htime := h.timestamp
  have hstamped := h.stamped
  obtain ⟨code, hop, rfl⟩ := Option.map_eq_some_iff.mp hreply
  rcases hkind with hkind | hkind | hkind <;>
    rw [hkind] at hcode hlong hlog hswitch hrpc hkey hflag hvisible htime hstamped <;>
    simp only [Kind.code] at hcode <;>
    simp only [hcode, batch_reply_op, Option.some.injEq] at hop <;>
    subst hop
  all_goals
    constructor <;>
      simp_all [apply_reply, reply_port, Item.reply, Kind.code, Kind.node, Kind.flag, Item.thread,
        h.op, h.src_s_id, h.src_t_id, h.src_c_id]

/-! ### Threads and ports -/

/-- A packet for a thread of a node arrives there if the node has that many threads. -/
theorem threadOfPort_get_thread_port (f : Flags) (server_id t : UInt8) :
    threadOfPort f server_id (get_thread_port t 0) =
      if t.toUInt32 < f.thread_num server_id then some t else none := by
  have hthread : (get_thread_port t 0 >>> 8).toUInt8 - 1 = t := by
    have ht := t.toNat_lt
    apply UInt8.toNat_inj.mp
    simp only [get_thread_port, UInt8.toNat_sub, UInt16.toNat_toUInt8, UInt16.toNat_shiftRight,
      UInt16.toNat_shiftLeft, UInt16.toNat_add, UInt8.toNat_toUInt16, Nat.shiftLeft_eq,
      Nat.shiftRight_eq_div_pow, UInt16.reduceToNat, UInt8.reduceToNat, Nat.reduceMod,
      Nat.reducePow]
    omega
  simp [threadOfPort, hthread]

/-- A residue modulo a number of threads that fits in a byte is a thread. -/
theorem mod_toUInt8_lt {n : UInt32} (hpos : 0 < n) (hle : n ≤ 48) (a : UInt32) :
    (a % n).toUInt8.toUInt32 < n := by
  rw [UInt32.lt_iff_toNat_lt, UInt8.toNat_toUInt32, UInt32.toNat_toUInt8, UInt32.toNat_mod]
  have hpos' : 0 < n.toNat := UInt32.lt_iff_toNat_lt.mp hpos
  have hle' : n.toNat ≤ 48 := UInt32.le_iff_toNat_le.mp hle
  have hmod := Nat.mod_lt a.toNat hpos'
  omega

/-- How the application spreads keys over threads and slots. -/
def layout (S : Setup) : Layout where
  dataThread := fun k ↦ get_data_thread_id_by_key S.flags k.toUInt32
  indexThread := index_tid S.flags
  copyThread := put_value_index_tid S.flags
  logThread := fun log ↦
    let t := (logid_2_threadid S.flags log.toUInt32).toUInt8
    if t.toUInt32 < S.flags.dn_thread then some t else none
  slot := fun k ↦ toBigEndian16 (get_switch_key k)
  Same := fun k k' ↦ get_switch_key k = get_switch_key k' ∧ get_fingerprint k = get_fingerprint k'
  counter := get_switch_key
  keys := S.key_space
  HasCoro := S.flags.HasCoro

/-- The link on which the switch passes an item on, if its thread exists. -/
def Item.link (M : Layout) (x : Item) : Option Loc :=
  match x.kind with
  | .appendReq => some (.dnIn (M.dataThread x.op.key))
  | .readLog => (M.logThread x.log).map .dnIn
  | .updateReq | .readReq => some (.ixIn (M.indexThread x.op.key))
  | _ => some x.home

/-- A client node has a port of its own. -/
theorem Flags.HasCoro.client {f : Flags} {c : CoroId} (h : f.HasCoro c) :
    portOfNode c.server_id = some (port_id c.server_id) ∧
      nodeOfPort (port_id c.server_id) = some c.server_id ∧
      (∀ t, linkTo c.server_id t = .down c.server_id t) ∧
      (port_id c.server_id = 136 ∨ port_id c.server_id = 180 ∨ port_id c.server_id = 172) ∧
      multicastPorts (toBigEndian16 (my_index_bitmap c.server_id)) =
        [188, port_id c.server_id] := by
  rcases h.1 with h | h | h <;> rw [h] <;>
    exact ⟨by decide, by decide, fun _ ↦ rfl, by decide, by decide⟩

section Routing

variable (hrange : S.flags.InRange)

include hrange

theorem thread_num_index (k : KvKeyType) :
    (index_tid S.flags k).toUInt32 < S.flags.thread_num 1 ∧
      (put_value_index_tid S.flags k).toUInt32 < S.flags.thread_num 1 :=
  ⟨mod_toUInt8_lt hrange.mn_pos hrange.mn_le _, mod_toUInt8_lt hrange.mn_pos hrange.mn_le _⟩

theorem thread_num_data (k : KvKeyType) :
    (get_data_thread_id_by_key S.flags k.toUInt32).toUInt32 < S.flags.thread_num 0 :=
  mod_toUInt8_lt hrange.dn_pos hrange.dn_le _

/-- The port of the node of an item, and the link behind it. -/
theorem Encodes.routed (h : Encodes S p x) (hcoro : S.flags.HasCoro x.op.coro)
    (hkind : x.kind ∉ [.copy, .answer, .readHit]) :
    ∃ port, portOfNode p.msg.rpc_header.dst_s_id = some port ∧
      nodeOfPort port = some p.msg.rpc_header.dst_s_id ∧
      (x.kind = .readReq → port = 188) ∧
      (threadOfPort S.flags p.msg.rpc_header.dst_s_id p.dst_port).map
        (linkTo p.msg.rpc_header.dst_s_id) = x.link (layout S) := by
  obtain ⟨hport, hnode, hlink, -, -⟩ := Flags.HasCoro.client hcoro
  have hthread := hcoro.2.1
  have hindex := (thread_num_index hrange x.op.key).1
  have hdata := thread_num_data hrange x.op.key
  rw [h.node, h.dst_port, threadOfPort_get_thread_port]
  cases hk : x.kind with
  | appendReq =>
    refine ⟨128, rfl, rfl, by simp, ?_⟩
    simp [Item.thread, Item.link, layout, hk, Kind.node, get_data_server_id, hdata, linkTo]
  | readLog =>
    refine ⟨128, rfl, rfl, by simp, ?_⟩
    simp only [Item.thread, Item.link, layout, hk, Kind.node, get_data_server_id]
    by_cases ht : (logid_2_threadid S.flags x.log.toUInt32).toUInt8.toUInt32 < S.flags.dn_thread
    · rw [if_pos ht, if_pos (by exact ht)]
      rfl
    · rw [if_neg ht, if_neg (by exact ht)]
      rfl
  | updateReq | readReq =>
    refine ⟨188, rfl, rfl, by simp, ?_⟩
    simp [Item.thread, Item.link, layout, hk, Kind.node, get_index_server_id, hindex, linkTo]
  | copy | answer | readHit => exact absurd hk (by simp_all)
  | _ =>
    refine ⟨port_id x.op.coro.server_id, hport, hnode, by simp, ?_⟩
    simp [Item.thread, Item.link, hk, Kind.node, hthread, hlink, Item.home]

/-! ### The switch -/

omit hrange in
theorem Encodes.key32_ne_zero (h : Encodes S p x) : (parse p.msg).key32 ≠ 0 := by
  rw [parse, Ne, bswap32_eq_zero_iff, h.key]
  split_ifs
  · decide
  · exact get_fingerprint_ne_zero x.op.key

omit hrange in
theorem deparse_parse (msg : RawKvMsg) (count : UInt16) :
    deparse msg { parse msg with count := count } =
      { msg with send_cnt := toBigEndian16 count } := by
  simp [deparse, parse]

omit hrange in
theorem Encodes.send_cnt (h : Encodes S p x) (n : UInt16) :
    Encodes S ⟨p.dst_port, { p.msg with send_cnt := n }, p.op⟩ x :=
  ⟨h.op, h.src_s_id, h.src_t_id, h.src_c_id, h.code, h.node, h.dst_port, h.key, h.flag,
    h.visible, h.switch_key, h.rpc_id, h.multicast, h.lookup, h.long_key, h.log_id, h.small, h.timestamp,
    h.stamped⟩

/-- An item that is passed on leaves on the link of its thread, unchanged. -/
theorem Encodes.forwards (h : Encodes S p x) (hcoro : S.flags.HasCoro x.op.coro)
    (hkind : x.kind ∉ [.copy, .answer, .readHit]) {regs : Registers} {q : Pipe}
    (hq : Forwards regs (parse p.msg) q) : ∃ p', Encodes S p' x ∧
      switchOutputs S.flags q p = (x.link (layout S)).toList.map fun ℓ ↦ (ℓ, p') := by
  obtain ⟨port, hport, hnode, hread, hlink⟩ := h.routed hrange hcoro hkind
  obtain ⟨count, hkvmsg⟩ := hq.kvmsg
  refine ⟨_, h.send_cnt (toBigEndian16 count), ?_⟩
  have hegress : egress port q.kvmsg p.dst_port = p.dst_port := by
    rw [hkvmsg]
    unfold egress fix_port
    simp only [parse, h.code]
    cases hk : x.kind <;> simp_all [Kind.code]
  have hcopies : q.copies p.dst_port = [⟨port, p.dst_port, q.kvmsg⟩] := by
    rw [Pipe.copies, hq.egressPorts, show (parse p.msg).node_id = p.msg.rpc_header.dst_s_id from rfl,
      hport]
    simp [hegress]
  rw [switchOutputs, hcopies, ← hlink]
  cases hthread : threadOfPort S.flags p.msg.rpc_header.dst_s_id p.dst_port with
  | none => simp [hnode, hthread]
  | some t => simp [hnode, hthread, hkvmsg, deparse_parse]

omit hrange in
/-- A read that hits leaves for its client with the log position of the slot. -/
theorem Encodes.answers (h : Encodes S p x) (hcoro : S.flags.HasCoro x.op.coro)
    (hkind : x.kind = .readReq) (hflag : S.flags.visibility = true) {regs : Registers} {q : Pipe}
    (hq : Answers regs (parse p.msg) q) {log : UInt64}
    (hlog : joinWords (bswap32 (regs.log0 (parse p.msg).key))
      (bswap32 (regs.log1 (parse p.msg).key)) = log) :
    ∃ p', Encodes S p' { x with kind := .readHit, log := log } ∧
      switchOutputs S.flags q p = [(x.home, p')] := by
  obtain ⟨hport, hnode, hlink, hclient, -⟩ := Flags.HasCoro.client hcoro
  obtain ⟨count, hkvmsg⟩ := hq.kvmsg
  obtain ⟨hclientPort, hroute⟩ := h.lookup hkind
  have hmsgflag : p.msg.flag = visibility := by
    simp [h.flag, hkind, Kind.flag, Flags.flag, hflag]
  have hcode : p.msg.rpc_header.op = .kEnumReadIndexReq := by rw [h.code, hkind, Kind.code]
  refine ⟨⟨get_thread_port x.op.coro.thread_id 0, deparse p.msg q.kvmsg, p.op⟩, ?_, ?_⟩
  · rw [hkvmsg]
    have hkey := h.key
    have hswitch := h.switch_key
    have hnode' := h.node
    constructor <;>
      simp_all [deparse, parse, Kind.code, Kind.node, Kind.flag, Item.thread, Flags.flag, h.op,
        h.src_s_id, h.src_t_id, h.src_c_id]
  · have hegress : egress (port_id x.op.coro.server_id) q.kvmsg p.dst_port =
        get_thread_port x.op.coro.thread_id 0 := by
      rw [hkvmsg]
      simp [egress, fix_port, parse, hmsgflag, hcode, hclient, hclientPort]
    have hcopies : q.copies p.dst_port =
        [⟨port_id x.op.coro.server_id, get_thread_port x.op.coro.thread_id 0, q.kvmsg⟩] := by
      rw [Pipe.copies, hq.egressPorts, show (parse p.msg).route_port = port_id x.op.coro.server_id
        by simp [parse, hroute]]
      simp [hegress]
    simp [switchOutputs, hcopies, hnode, threadOfPort_get_thread_port, hcoro.2.1, hlink, Item.home]

/-- An installed write leaves as a copy for its index thread and an answer for its client. -/
theorem Encodes.installs (h : Encodes S p x) (hcoro : S.flags.HasCoro x.op.coro)
    (hkind : x.kind = .appendReply) (hflag : p.msg.flag = visibility) {regs : Registers} {q : Pipe}
    (hq : Installs regs (parse p.msg) q) :
    ∃ p₁ p₂, Encodes S p₁ { x with kind := .copy } ∧ Encodes S p₂ { x with kind := .answer } ∧
      switchOutputs S.flags q p =
        [(.ixIn ((layout S).copyThread x.op.key), p₁), (x.home, p₂)] := by
  obtain ⟨hport, hnode, hlink, hclient, hgroup⟩ := Flags.HasCoro.client hcoro
  obtain ⟨count, hkvmsg⟩ := hq.kvmsg
  obtain ⟨hclientPort, hindexPort, hroute⟩ := h.multicast (by simp [hkind])
  have hindex := (thread_num_index hrange x.op.key).2
  have hvisible : S.flags.visibility = true := by
    by_contra hoff
    have hmsgflag := h.flag
    simp [hflag, hkind, Kind.flag, Flags.flag, hoff, visibility] at hmsgflag
  have hkey := h.key
  have hswitch := h.switch_key
  have hnode' := h.node
  have hrpc := h.rpc_id
  have hlong := h.long_key
  have hlog := h.log_id
  have hsmall := h.small
  have htime := h.timestamp
  have hstamped := h.stamped
  refine ⟨⟨get_thread_port (put_value_index_tid S.flags x.op.key) 0, deparse p.msg q.kvmsg, p.op⟩,
    ⟨get_thread_port x.op.coro.thread_id 0, deparse p.msg q.kvmsg, p.op⟩, ?_, ?_, ?_⟩
  · rw [hkvmsg]
    constructor <;>
      simp_all [deparse, parse, Kind.code, Kind.node, Kind.flag, Item.thread, h.op,
        h.src_s_id, h.src_t_id, h.src_c_id]
  · rw [hkvmsg]
    constructor <;>
      simp_all [deparse, parse, Kind.code, Kind.node, Kind.flag, Item.thread, h.op,
        h.src_s_id, h.src_t_id, h.src_c_id]
  · have hegress₁ : egress 188 q.kvmsg p.dst_port =
        get_thread_port (put_value_index_tid S.flags x.op.key) 0 := by
      rw [hkvmsg]
      simp [egress, fix_port, parse, hflag, hindexPort]
    have hne : port_id x.op.coro.server_id ≠ 188 := by
      rcases hclient with h | h | h <;> rw [h] <;> decide
    have hegress₂ : egress (port_id x.op.coro.server_id) q.kvmsg p.dst_port =
        get_thread_port x.op.coro.thread_id 0 := by
      rw [hkvmsg]
      simp [egress, fix_port, parse, hflag, hclientPort, hclient, hne]
    have hcopies : q.copies p.dst_port =
        [⟨188, get_thread_port (put_value_index_tid S.flags x.op.key) 0, q.kvmsg⟩,
          ⟨port_id x.op.coro.server_id, get_thread_port x.op.coro.thread_id 0, q.kvmsg⟩] := by
      rw [Pipe.copies, hq.egressPorts, show (parse p.msg).route_map =
        toBigEndian16 (my_index_bitmap x.op.coro.server_id) by simp [parse, hroute], hgroup]
      simp [hegress₁, hegress₂]
    have hindexNode : nodeOfPort 188 = some 1 := rfl
    have hindexLink (t : UInt8) : linkTo 1 t = .ixIn t := rfl
    simp [switchOutputs, hcopies, hnode, hindexNode, threadOfPort_get_thread_port, hcoro.2.1,
      hlink, Item.home, layout, hindexLink, hindex]

end Routing

end SwitchDelta.Protocol
