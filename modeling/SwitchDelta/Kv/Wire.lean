import Mathlib

/-!
# The messages of the key-value application

`apps/kv/kv.cc` exchanges one packed record, `RawKvMsg`, between clients, the data node, the
index node and the switch. This module fixes the record with the field widths of the source, the
enumeration of operation codes, the byte swaps that the hosts apply to the fields the switch
compares as numbers, and the two hashes of a key: `get_switch_key`, which selects a slot of the
switch, and `get_fingerprint`, which is stored in that slot.

`get_fingerprint_ne_zero` and `get_fingerprint_ne_absent` are the two facts the protocol relies
on: the switch reads fingerprint zero as an empty slot, and the index server returns
`0xFFFFFFFF` in place of a fingerprint for an absent key.

The payload that follows the header is kept as two fields, `long_key` at `get_key_addr()` and
`value` at `get_value_addr()`. The fields `local_id` and `payload_size` of `RpcHeader` are copied
and never read, and are left out.
-/

set_option autoImplicit false
set_option relaxedAutoImplicit false

namespace SwitchDelta.Kv

/-! ### Byte order -/

/-- `rdma::toBigEndian16`: exchange the two bytes of a 16-bit word. -/
def toBigEndian16 (v : UInt16) : UInt16 :=
  (v <<< 8) ||| (v >>> 8)

/-- `__builtin_bswap32`: reverse the four bytes of a 32-bit word. -/
def bswap32 (v : UInt32) : UInt32 :=
  (v <<< 24) ||| ((v &&& (0xff00 : UInt32)) <<< 8) ||| ((v >>> 8) &&& (0xff00 : UInt32)) |||
    (v >>> 24)

@[simp] theorem toBigEndian16_toBigEndian16 (v : UInt16) :
    toBigEndian16 (toBigEndian16 v) = v := by
  apply UInt16.toBitVec_inj.mp
  simp only [toBigEndian16]
  ext i hi
  simp
  interval_cases i <;> simp

@[simp] theorem bswap32_bswap32 (v : UInt32) : bswap32 (bswap32 v) = v := by
  apply UInt32.toBitVec_inj.mp
  simp only [bswap32]
  ext i hi
  simp
  interval_cases i <;> simp

@[simp] theorem toBigEndian16_inj {v w : UInt16} : toBigEndian16 v = toBigEndian16 w ↔ v = w := by
  refine ⟨fun h ↦ ?_, fun h ↦ h ▸ rfl⟩
  rw [← toBigEndian16_toBigEndian16 v, h, toBigEndian16_toBigEndian16]

@[simp] theorem bswap32_inj {v w : UInt32} : bswap32 v = bswap32 w ↔ v = w := by
  refine ⟨fun h ↦ ?_, fun h ↦ h ▸ rfl⟩
  rw [← bswap32_bswap32 v, h, bswap32_bswap32]

/-- Reversing the bytes keeps zero, which the switch reads as "empty" and "no timestamp". -/
@[simp] theorem bswap32_eq_zero_iff {v : UInt32} : bswap32 v = 0 ↔ v = 0 :=
  bswap32_inj (w := 0)

/-- The 64-bit little-endian word with the given low and high halves. -/
def joinWords (low high : UInt32) : UInt64 :=
  (high.toUInt64 <<< 32) + low.toUInt64

/-- The low half of a 64-bit word. -/
def lowWord (v : UInt64) : UInt32 :=
  v.toUInt32

/-- The high half of a 64-bit word. -/
def highWord (v : UInt64) : UInt32 :=
  (v >>> 32).toUInt32

@[simp] theorem joinWords_lowWord_highWord (v : UInt64) :
    joinWords (lowWord v) (highWord v) = v := by
  have hlt := v.toNat_lt
  apply UInt64.toNat_inj.mp
  simp only [joinWords, lowWord, highWord, UInt64.toNat_add, UInt64.toNat_shiftLeft,
    UInt32.toNat_toUInt64, UInt64.toNat_toUInt32, UInt64.toNat_shiftRight, Nat.shiftLeft_eq,
    Nat.shiftRight_eq_div_pow, UInt64.reduceToNat, Nat.reduceMod, Nat.reducePow]
  omega

/-! ### Keys -/

/-- `KvKeyType` of `index_wrapper.h`. -/
abbrev KvKeyType := UInt64

/-- `get_fingerprint`: the 32-bit fingerprint of a key that the switch stores in a slot. -/
def get_fingerprint (key : KvKeyType) : UInt32 :=
  (((key >>> 16) &&& 0xFFFFFFFF) % (0xFFFFFFFF - 1) + 1).toUInt32

/-- `get_switch_key`: the 16-bit slot number of a key. -/
def get_switch_key (key : KvKeyType) : UInt16 :=
  (key &&& 0xFFFF).toUInt16

/-- The value of a fingerprint is one more than a residue modulo `0xFFFFFFFE`. -/
theorem get_fingerprint_toNat (key : KvKeyType) :
    ∃ residue < 4294967294, (get_fingerprint key).toNat = residue + 1 := by
  set word : UInt64 := (key >>> 16) &&& 0xFFFFFFFF with hword
  have hmod : (word % (0xFFFFFFFF - 1)).toNat = word.toNat % 4294967294 := by
    rw [UInt64.toNat_mod]
    rfl
  have hresidue : word.toNat % 4294967294 < 4294967294 := Nat.mod_lt _ (by norm_num)
  refine ⟨word.toNat % 4294967294, hresidue, ?_⟩
  rw [get_fingerprint, ← hword, UInt64.toNat_toUInt32, UInt64.toNat_add, hmod]
  simp only [UInt64.reduceToNat, Nat.reducePow]
  omega

/-- No key has the fingerprint zero, which marks an empty slot. -/
theorem get_fingerprint_ne_zero (key : KvKeyType) : get_fingerprint key ≠ 0 := by
  obtain ⟨residue, -, hvalue⟩ := get_fingerprint_toNat key
  intro hzero
  rw [hzero] at hvalue
  simp at hvalue

/-- No key has the fingerprint `0xFFFFFFFF`, which the index server returns for an absent key. -/
theorem get_fingerprint_ne_absent (key : KvKeyType) : get_fingerprint key ≠ 0xFFFFFFFF := by
  obtain ⟨residue, hresidue, hvalue⟩ := get_fingerprint_toNat key
  intro habsent
  rw [habsent] at hvalue
  have hliteral : (0xFFFFFFFF : UInt32).toNat = 4294967295 := rfl
  omega

/-! ### The message record -/

/-- `RpcType` of `kv.cc`, with the numbers that `overwrite.p4` and `overwrite.py` use for the same
operations. `other` is any remaining byte in the `op` field, which no table has an entry for. -/
inductive RpcType
  | kEnumReadReq             -- 0
  | kEnumWriteReq            -- 1
  | kEnumReadReply           -- 2
  | kEnumWriteReply          -- 3
  | kEnumAppendReq           -- 4
  | kEnumAppendReply         -- 5
  | kEnumReadLog             -- 6
  | ReplySwitch              -- 10
  | kEnumUpdateIndexReq      -- 11
  | kEnumUpdateIndexReply    -- 12
  | kEnumReadIndexReq        -- 13
  | kEnumReadIndexReply      -- 14
  | kEnumMultiCastPkt        -- 21
  | kEnumReadSend            -- 22
  | kEnumWriteAndRead        -- 23
  | kEnumWriteReplyWithData  -- 24
  | other (code : UInt8)
  deriving DecidableEq

/-- `rpc::RpcHeader`. -/
structure RpcHeader where
  dst_s_id : UInt8
  src_s_id : UInt8
  src_t_id : UInt8
  src_c_id : UInt8
  op : RpcType
  deriving DecidableEq

/-- `RawKvMsg`, each field with the value a host reads from it. -/
structure RawKvMsg where
  rpc_header : RpcHeader
  flag : UInt8
  switch_key : UInt16
  kv_g_id : UInt16
  kv_c_id : UInt8
  magic : UInt8
  server_map : UInt16
  qp_map : UInt16
  coro_id : UInt64
  key : UInt32
  log_id : UInt64
  route_port : UInt16
  route_map : UInt16
  client_port : UInt16
  send_cnt : UInt16
  index_port : UInt16
  magic_in_switch : UInt16
  timestamp : UInt32
  long_key : KvKeyType
  value : List UInt8
  deriving DecidableEq

/-- The constant `visibility` of `test.h`: the flag value of a message the switch may act on. -/
def visibility : UInt8 := 2

/-- The four bytes `kv_g_id`, `kv_c_id`, `magic` of a message as the switch reads them, most
significant byte first. This is the field `rpc_id` of the P4 header. -/
def rpcIdOfBytes (kv_g_id : UInt16) (kv_c_id magic : UInt8) : UInt32 :=
  ((toBigEndian16 kv_g_id).toUInt32 <<< 16) + (kv_c_id.toUInt32 <<< 8) + magic.toUInt32

/-- Two `rpc_id` words are equal only when all three fields they are laid out from are. -/
theorem rpcIdOfBytes_inj {g g' : UInt16} {c c' m m' : UInt8} :
    rpcIdOfBytes g c m = rpcIdOfBytes g' c' m' ↔ g = g' ∧ c = c' ∧ m = m' := by
  constructor
  · intro h
    have hg := (toBigEndian16 g).toNat_lt
    have hg' := (toBigEndian16 g').toNat_lt
    have hc := c.toNat_lt
    have hc' := c'.toNat_lt
    have hm := m.toNat_lt
    have hm' := m'.toNat_lt
    have hnat := congrArg UInt32.toNat h
    simp only [rpcIdOfBytes, UInt32.toNat_add, UInt32.toNat_shiftLeft, UInt16.toNat_toUInt32,
      UInt8.toNat_toUInt32, Nat.shiftLeft_eq, UInt32.reduceToNat, Nat.reduceMod,
      Nat.reducePow] at hnat
    have hfields : (toBigEndian16 g).toNat = (toBigEndian16 g').toNat ∧ c.toNat = c'.toNat ∧
        m.toNat = m'.toNat := by
      omega
    exact ⟨toBigEndian16_inj.mp (UInt16.toNat_inj.mp hfields.1), UInt8.toNat_inj.mp hfields.2.1,
      UInt8.toNat_inj.mp hfields.2.2⟩
  · rintro ⟨rfl, rfl, rfl⟩
    rfl

end SwitchDelta.Kv
