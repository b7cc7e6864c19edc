import SwitchDelta.Foundation.OrderedMap
import SwitchDelta.Kv.Client

/-!
# The messages of the secondary index

`secondary_index.cc` sends arrays of 64-bit words after the header, which each function addresses by
`get_ith_key_addr`. A message holds the words that are on the wire. What a receiver reads behind
them is what its receive buffer held before, here `buf`.

The index node stores an entry under the bytes of a secondary key, a version and a primary key. A
fast write reaches it as the `AppendReply` of the data node, whose operation code the switch has
replaced, and a slow write as the message that `put_secondary` builds from the same reply. The two
handlers are the same, the payloads are not, and `fast_insert_eq_slow_insert_iff` says when this
makes no difference.
-/

set_option autoImplicit false
set_option relaxedAutoImplicit false

namespace SwitchDelta.Secondary

open Foundation Kv

/-! ### Bytes -/

/-- The bytes of a word in memory. -/
def bytesLE (v : UInt64) : List ℕ :=
  (List.range 8).map fun i ↦ v.toNat / 256 ^ i % 256

@[simp] theorem length_bytesLE (v : UInt64) : (bytesLE v).length = 8 := rfl

theorem bytesLE_injective : Function.Injective bytesLE := by
  intro v w h
  have hv := v.toNat_lt
  have hw := w.toNat_lt
  simp only [bytesLE, List.range_succ, List.range_zero, List.map_cons, List.map_nil,
    List.nil_append, List.cons_append, List.cons.injEq, Nat.reducePow] at h
  exact UInt64.toNat_inj.mp (by omega)

/-- The first four bytes are those of the low half. -/
theorem take_bytesLE_eq_iff {v w : UInt64} :
    (bytesLE v).take 4 = (bytesLE w).take 4 ↔ v.toUInt32 = w.toUInt32 := by
  rw [← UInt32.toNat_inj, UInt64.toNat_toUInt32, UInt64.toNat_toUInt32]
  have hbyte (n : ℕ) : n / 256 % 256 = n % 4294967296 / 256 % 256 ∧
      n / 65536 % 256 = n % 4294967296 / 65536 % 256 ∧
      n / 16777216 % 256 = n % 4294967296 / 16777216 % 256 := by omega
  simp only [bytesLE, List.range_succ, List.range_zero, List.map_cons, List.map_nil,
    List.nil_append, List.cons_append, List.take_succ_cons, List.take_zero, List.cons.injEq,
    Nat.reducePow, pow_zero, Nat.div_one, and_true]
  constructor
  · rintro ⟨h0, h1, h2, h3⟩
    omega
  · intro h
    obtain ⟨hv1, hv2, hv3⟩ := hbyte v.toNat
    obtain ⟨hw1, hw2, hw3⟩ := hbyte w.toNat
    exact ⟨by omega, by rw [hv1, hw1, h], by rw [hv2, hw2, h], by rw [hv3, hw3, h]⟩

/-! ### Messages -/

/-- The fields of `RawKvMsg` that route a message or that the switch matches on, and its words. -/
structure Msg where
  rpc_header : RpcHeader
  flag : UInt8
  switch_key : UInt16
  key : UInt32
  client_port : UInt16
  index_port : UInt16
  route_map : UInt16
  words : List UInt64

/-- What `get_ith_key_addr` points to in a message that was received into a buffer. -/
def Msg.word (msg : Msg) (buf : ℕ → UInt64) (id : ℕ) : UInt64 :=
  msg.words[id]?.getD (buf id)

/-- `put_primary`: header, pkey, skey. -/
def put_primary_request (f : Flags) (c : CoroId) (long_key long_value_write : KvKeyType) : Msg where
  rpc_header := ⟨get_data_server_id, c.server_id, c.thread_id, c.coro_id, .kEnumAppendReq⟩
  flag := f.flag
  switch_key := get_switch_key long_key
  key := get_fingerprint long_key
  client_port := toBigEndian16 (get_thread_port c.thread_id 0)
  index_port :=
    toBigEndian16 (get_thread_port (get_index_thread_id f (get_fingerprint long_key)) 0)
  route_map := my_index_bitmap c.server_id
  words := [long_key, long_value_write]

/-- `put_secondary`: header, skey, version, pkey. The version is the first word of the reply to
`put_primary`. -/
def put_secondary_request (f : Flags) (c : CoroId) (long_key long_value_write : KvKeyType)
    (reply : Msg) (buf : ℕ → UInt64) : Msg where
  rpc_header := ⟨get_index_server_id, c.server_id, c.thread_id, c.coro_id, .kEnumUpdateIndexReq⟩
  flag := f.flag
  switch_key := get_switch_key long_key
  key := get_fingerprint long_key
  client_port := toBigEndian16 (get_thread_port c.thread_id 0)
  index_port :=
    toBigEndian16 (get_thread_port (get_index_thread_id f (get_fingerprint long_key)) 0)
  route_map := my_index_bitmap c.server_id
  words := [long_value_write, reply.word buf 0, long_key]

/-- `get_secondary`: header, skey. The thread of the index node is that of the fingerprint of the
primary key that `si_test` drew. -/
def get_secondary_request (f : Flags) (c : CoroId) (long_key long_value_read : KvKeyType) : Msg where
  rpc_header := ⟨get_index_server_id, c.server_id, c.thread_id, c.coro_id, .kEnumReadIndexReq⟩
  flag := f.flag
  switch_key := get_switch_key long_value_read
  key := get_fingerprint long_value_read
  client_port := toBigEndian16 (get_thread_port c.thread_id 0)
  index_port :=
    toBigEndian16 (get_thread_port (get_index_thread_id f (get_fingerprint long_key)) 0)
  route_map := my_index_bitmap c.server_id
  words := [long_value_read]

/-- The part of `server_process_msg` that all operations share: the reply goes back to the sender and
keeps the fields that the switch matches on. -/
def reply_to (req : Msg) (op : RpcType) (words : List UInt64) : Msg :=
  { req with
    rpc_header := { req.rpc_header with dst_s_id := req.rpc_header.src_s_id, op := op }
    words := words }

/-! ### The data node -/

/-- `ValueAndVersion`. -/
structure ValueAndVersion where
  value : UInt64
  version : UInt64
  deriving DecidableEq

/-- The primary index. -/
abbrev Pindex := UInt64 → Option ValueAndVersion

/-- A secondary key, a version and a primary key: three words of `del_queue`. -/
structure Entry where
  skey : UInt64
  version : UInt64
  pkey : UInt64
  deriving DecidableEq

/-- `get_version`. -/
def get_version (time_ns : UInt64) (thread_id : UInt8) : UInt64 :=
  (time_ns <<< 4) + thread_id.toUInt64

/-- The data node handles an `AppendReq`: the value is replaced together with its version, the entry
of an old value is queued for deletion, and the reply holds the version. -/
def append_process_msg (pindex : Pindex) (del_queue : List Entry) (version : UInt64) (req : Msg)
    (buf : ℕ → UInt64) : Pindex × List Entry × Msg :=
  let pkey := req.word buf 0
  let del_queue :=
    match pindex pkey with
    | some old => del_queue ++ [⟨old.value, old.version, pkey⟩]
    | none => del_queue
  (Function.update pindex pkey (some ⟨req.word buf 1, version⟩), del_queue,
    reply_to req .kEnumAppendReply [version])

/-! ### The index node -/

/-- The secondary index: the bytes of an entry, and its primary key. -/
abbrev Sindex := OrderedMap (List ℕ) UInt64

/-- `sizeof(kKeySize) * 3`, the size of the keys that are inserted. -/
def insertKeySize : ℕ := 12

/-- The first bytes of an array of three words. -/
def keyBytes (key_size : ℕ) (skey version pkey : UInt64) : List ℕ :=
  (bytesLE skey ++ bytesLE version ++ bytesLE pkey).take key_size

/-- What the handler of `MultiCastPkt` and that of `UpdateIndexReq` insert into the index: nothing
when the version is not above the greatest one that this thread has deleted. -/
def inserted (key_size : ℕ) (local_max_del_timestamp : UInt64) (req : Msg) (buf : ℕ → UInt64) :
    Option (List ℕ × UInt64) :=
  if local_max_del_timestamp < req.word buf 1 then
    some (keyBytes key_size (req.word buf 0) (req.word buf 1) (req.word buf 2), req.word buf 2)
  else none

/-- The switch has installed a write and sends it on under the operation `kEnumMultiCastPkt`. -/
def Msg.multicast (msg : Msg) : Msg :=
  { msg with rpc_header := { msg.rpc_header with op := .kEnumMultiCastPkt } }

/-! ### Fast and slow writes -/

theorem keyBytes_twelve (skey version pkey : UInt64) :
    keyBytes insertKeySize skey version pkey = bytesLE skey ++ (bytesLE version).take 4 := rfl

theorem keyBytes_twelve_eq_iff {skey version pkey skey' version' pkey' : UInt64} :
    keyBytes insertKeySize skey version pkey = keyBytes insertKeySize skey' version' pkey' ↔
      skey = skey' ∧ version.toUInt32 = version'.toUInt32 := by
  rw [keyBytes_twelve, keyBytes_twelve, ← take_bytesLE_eq_iff]
  constructor
  · intro h
    obtain ⟨hskey, hversion⟩ := List.append_inj h (by simp)
    exact ⟨bytesLE_injective hskey, hversion⟩
  · rintro ⟨rfl, hversion⟩
    rw [hversion]

/-- The fast write inserts what the slow write inserts only if both are refused, or if the version
happens to be the secondary key and the receive buffer held a version with the same low half and the
primary key. -/
theorem fast_insert_eq_slow_insert_iff (f : Flags) (c : CoroId) (pkey skey version : UInt64)
    (pindex : Pindex) (del_queue : List Entry) (local_max_del_timestamp : UInt64)
    (reqbuf replybuf fastbuf slowbuf : ℕ → UInt64) :
    let reply := (append_process_msg pindex del_queue version (put_primary_request f c pkey skey)
      reqbuf).2.2
    let slow := put_secondary_request f c pkey skey reply replybuf
    inserted insertKeySize local_max_del_timestamp reply.multicast fastbuf =
        inserted insertKeySize local_max_del_timestamp slow slowbuf ↔
      (fastbuf 1 ≤ local_max_del_timestamp ∧ version ≤ local_max_del_timestamp) ∨
        (local_max_del_timestamp < fastbuf 1 ∧ local_max_del_timestamp < version ∧
          version = skey ∧ (fastbuf 1).toUInt32 = version.toUInt32 ∧ fastbuf 2 = pkey) := by
  intro reply slow
  have hfast : inserted insertKeySize local_max_del_timestamp reply.multicast fastbuf =
      if local_max_del_timestamp < fastbuf 1 then
        some (keyBytes insertKeySize version (fastbuf 1) (fastbuf 2), fastbuf 2) else none := rfl
  have hslow : inserted insertKeySize local_max_del_timestamp slow slowbuf =
      if local_max_del_timestamp < version then
        some (keyBytes insertKeySize skey version pkey, pkey) else none := rfl
  rw [hfast, hslow]
  split_ifs with hbuf hversion hversion
  · rw [Option.some.injEq, Prod.mk.injEq, keyBytes_twelve_eq_iff, and_assoc]
    simp [hbuf, hversion]
  · simp [hbuf, hversion, UInt64.not_le.mpr hbuf]
  · simp [hbuf, UInt64.not_le.mpr hversion]
  · simp [UInt64.not_lt.mp hbuf, UInt64.not_lt.mp hversion]

/-- With buffers that were never used, the first write of a client is not inserted by the fast
path. -/
theorem fast_insert_ne_slow_insert :
    let f : Flags := ⟨1, 1, 1, 1, 1, 1, true, false, 1⟩
    let reply := (append_process_msg (fun _ ↦ none) [] (get_version 100 0)
      (put_primary_request f ⟨2, 0, 0⟩ 7 9) fun _ ↦ 0).2.2
    inserted insertKeySize 0 reply.multicast (fun _ ↦ 0) ≠
      inserted insertKeySize 0 (put_secondary_request f ⟨2, 0, 0⟩ 7 9 reply fun _ ↦ 0)
        (fun _ ↦ 0) := by
  decide +kernel

end SwitchDelta.Secondary
