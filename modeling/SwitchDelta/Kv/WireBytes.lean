import SwitchDelta.Kv.System
import SwitchDelta.Rdma.RoceHeader

/-!
# Messages as bytes

`RawKvMsg` is a packed record, which the hosts keep in little-endian byte order, and the switch reads the
same bytes as the big-endian fields of `message_t`. Some of its fields are therefore stored byte-swapped
by the hosts, some are read byte-swapped by no one, and `rpc_id` spans three members of the record.

`switch_packet_packet` is the agreement of the two layouts: what the switch does to the bytes of a packet
is what `parse`, `ingress` and `deparse` do to the record.
-/

set_option autoImplicit false
set_option relaxedAutoImplicit false

namespace SwitchDelta.Kv

open Foundation Switch Rdma

/-! ### The layout of a message -/

/-- The members of `RpcHeader` that the hosts copy and never read. -/
structure Unread where
  local_id : UInt8
  payload_size : UInt32

/-- The members of `rpc::RpcHeader`, packed. -/
def RpcHeader.bytes (h : RpcHeader) (u : Unread) : List UInt8 :=
  [h.dst_s_id, h.src_s_id, h.src_t_id, h.src_c_id, u.local_id, code h.op] ++
    leBytes 4 u.payload_size.toNat

/-- The members of `RawKvMsg`, packed. -/
def RawKvMsg.bytes (m : RawKvMsg) (u : Unread) : List UInt8 :=
  m.rpc_header.bytes u ++ [m.flag] ++ leBytes 2 m.switch_key.toNat ++ leBytes 2 m.kv_g_id.toNat ++
    [m.kv_c_id, m.magic] ++ leBytes 2 m.server_map.toNat ++ leBytes 2 m.qp_map.toNat ++
    leBytes 8 m.coro_id.toNat ++ leBytes 4 m.key.toNat ++ leBytes 8 m.log_id.toNat ++
    leBytes 2 m.route_port.toNat ++ leBytes 2 m.route_map.toNat ++ leBytes 2 m.client_port.toNat ++
    leBytes 2 m.send_cnt.toNat ++ leBytes 2 m.index_port.toNat ++
    leBytes 2 m.magic_in_switch.toNat ++ leBytes 4 m.timestamp.toNat

/-- `sizeof(RawKvMsg)`. -/
theorem RawKvMsg.length_bytes (m : RawKvMsg) (u : Unread) : (m.bytes u).length = 57 := by
  simp [RawKvMsg.bytes, RpcHeader.bytes]

/-- What follows the record in a send buffer, from `get_key_addr` on. -/
def RawKvMsg.body (m : RawKvMsg) : List UInt8 := leBytes 8 m.long_key.toNat ++ m.value

/-- The packet of a message of `size` bytes. -/
def packet (h : RoCEHeader) (m : RawKvMsg) (u : Unread) (size : ℕ) : List UInt8 :=
  h.bytes ++ (m.bytes u ++ m.body).take size

/-- The bytes of a message, cut into the fields of `message_t`. -/
def RawKvMsg.chunks (m : RawKvMsg) (u : Unread) : List (List UInt8) :=
  [[m.rpc_header.dst_s_id],
    [m.rpc_header.src_s_id, m.rpc_header.src_t_id, m.rpc_header.src_c_id, u.local_id],
    [code m.rpc_header.op], leBytes 4 u.payload_size.toNat, [m.flag], leBytes 2 m.switch_key.toNat,
    leBytes 2 m.kv_g_id.toNat ++ [m.kv_c_id, m.magic], leBytes 2 m.server_map.toNat,
    leBytes 2 m.qp_map.toNat, leBytes 4 m.coro_id.toNat, leBytes 4 (m.coro_id.toNat / 256 ^ 4),
    leBytes 4 m.key.toNat, leBytes 4 m.log_id.toNat, leBytes 4 (m.log_id.toNat / 256 ^ 4),
    leBytes 2 m.route_port.toNat, leBytes 2 m.route_map.toNat, leBytes 2 m.client_port.toNat,
    leBytes 2 m.send_cnt.toNat, leBytes 2 m.index_port.toNat, leBytes 2 m.magic_in_switch.toNat,
    leBytes 4 m.timestamp.toNat]

theorem RawKvMsg.flatten_chunks (m : RawKvMsg) (u : Unread) : (m.chunks u).flatten = m.bytes u := by
  have hcoro := leBytes_add 4 4 m.coro_id.toNat
  have hlog := leBytes_add 4 4 m.log_id.toNat
  simp only [Nat.reduceAdd] at hcoro hlog
  simp only [RawKvMsg.bytes, RpcHeader.bytes, RawKvMsg.chunks, hcoro, hlog, List.flatten_cons,
    List.flatten_nil, List.append_assoc, List.cons_append, List.nil_append, List.append_nil]

theorem RawKvMsg.inBytes (m : RawKvMsg) (u : Unread) :
    InBytes HeaderType.message_t.widths (m.chunks u) := by
  simp [InBytes, HeaderType.widths, RawKvMsg.chunks]

/-! ### The two byte orders -/

theorem or_eq_add {i x y : ℕ} (hx : 2 ^ i ∣ x) (hy : y < 2 ^ i) : x ||| y = x + y := by
  obtain ⟨k, rfl⟩ := hx
  rw [Nat.mul_comm, ← Nat.shiftLeft_eq, Nat.shiftLeft_add_eq_or_of_lt hy]

theorem and_second_byte (n : ℕ) : n &&& 65280 = n / 256 % 256 * 256 := by
  have hhigh : (n &&& 65280) / 2 ^ 8 = n / 256 % 256 := by
    rw [Nat.and_div_two_pow]
    exact Nat.and_two_pow_sub_one_eq_mod _ 8
  have hlow : (n &&& 65280) % 2 ^ 8 = 0 := by
    rw [Nat.and_mod_two_pow]
    exact Nat.and_zero _
  omega

theorem toNat_toBigEndian16 (v : UInt16) :
    (toBigEndian16 v).toNat = v.toNat % 256 * 256 + v.toNat / 256 := by
  have hlt := v.toNat_lt
  simp only [toBigEndian16, UInt16.toNat_or, UInt16.toNat_shiftLeft, UInt16.toNat_shiftRight,
    UInt16.reduceToNat, Nat.shiftLeft_eq, Nat.shiftRight_eq_div_pow, Nat.reduceMod, Nat.reducePow]
  rw [or_eq_add (i := 8) (by omega) (by omega)]
  omega

theorem toNat_bswap32 (v : UInt32) :
    (bswap32 v).toNat = v.toNat % 256 * 16777216 + v.toNat / 256 % 256 * 65536 +
      v.toNat / 65536 % 256 * 256 + v.toNat / 16777216 := by
  have hlt := v.toNat_lt
  simp only [bswap32, UInt32.toNat_or, UInt32.toNat_and, UInt32.toNat_shiftLeft,
    UInt32.toNat_shiftRight, UInt32.reduceToNat, Nat.shiftLeft_eq, Nat.shiftRight_eq_div_pow,
    Nat.reduceMod, Nat.reducePow, and_second_byte]
  -- the innermost disjunction first
  rw [or_eq_add (i := 24) (x := v.toNat * 16777216 % 4294967296) (by omega) (by omega),
    or_eq_add (i := 16) (y := v.toNat / 256 / 256 % 256 * 256) (by omega) (by omega),
    or_eq_add (i := 8) (by omega) (by omega)]
  omega

/-- A 16-bit member as the switch reads it. -/
theorem beNat_leBytes_two (v : UInt16) : beNat (leBytes 2 v.toNat) = (toBigEndian16 v).toNat := by
  have hlt := v.toNat_lt
  rw [toNat_toBigEndian16]
  simp [leBytes]
  omega

/-- A 32-bit member as the switch reads it. -/
theorem beNat_leBytes_four (v : UInt32) : beNat (leBytes 4 v.toNat) = (bswap32 v).toNat := by
  have hlt := v.toNat_lt
  rw [toNat_bswap32]
  simp [leBytes]
  omega

/-- The four bytes of `kv_g_id`, `kv_c_id` and `magic`. -/
theorem beNat_rpcId (g : UInt16) (c m : UInt8) :
    beNat (leBytes 2 g.toNat ++ [c, m]) = (rpcIdOfBytes g c m).toNat := by
  have hg := g.toNat_lt
  have hc := c.toNat_lt
  have hm := m.toNat_lt
  have hword : beNat (leBytes 2 g.toNat ++ [c, m]) =
      beNat (leBytes 2 g.toNat) * 65536 + c.toNat * 256 + m.toNat := by
    simp [leBytes]
    omega
  have hlt := (toBigEndian16 g).toNat_lt
  rw [hword, beNat_leBytes_two]
  simp [rpcIdOfBytes, Nat.shiftLeft_eq]
  omega

/-- The halves of a 64-bit member. -/
theorem beNat_lowWord (v : UInt64) :
    beNat (leBytes 4 v.toNat) = (bswap32 (lowWord v)).toNat := by
  rw [← beNat_leBytes_four]
  simp [lowWord, leBytes]
  omega

theorem beNat_highWord (v : UInt64) :
    beNat (leBytes 4 (v.toNat / 256 ^ 4)) = (bswap32 (highWord v)).toNat := by
  have hlt := v.toNat_lt
  rw [← beNat_leBytes_four]
  simp [highWord, leBytes, Nat.shiftRight_eq_div_pow]
  omega

/-! ### Messages in the switch -/

/-- The parser makes of the bytes of a message what `parse` makes of the record. -/
theorem kvmsgOf_chunks {m : RawKvMsg} (hop : Coded m.rpc_header.op) (u : Unread) :
    kvmsgOf ((m.chunks u).map beNat) = parse m := by
  have hbyte (b : UInt8) : UInt8.ofNat (beNat [b]) = b := by simp
  simp only [kvmsgOf, parse, RawKvMsg.chunks, List.map_cons, List.map_nil, List.getD_cons_zero,
    List.getD_cons_succ, hbyte, beNat_leBytes_two, beNat_leBytes_four, beNat_rpcId, beNat_lowWord,
    beNat_highWord, UInt16.ofNat_toNat, UInt32.ofNat_toNat]
  rw [hop]

theorem words_joinWords (low high : UInt32) :
    lowWord (joinWords low high) = low ∧ highWord (joinWords low high) = high := by
  have hlow := low.toNat_lt
  have hhigh := high.toNat_lt
  constructor <;> apply UInt32.toNat_inj.mp
  · simp [lowWord, joinWords, Nat.shiftLeft_eq]
  · simp [highWord, joinWords, Nat.shiftLeft_eq, Nat.shiftRight_eq_div_pow]
    omega

/-- The deparser makes of a header what `deparse` makes of the record. -/
theorem fieldsOf_chunks {m : RawKvMsg} {h : Kvmsg} (hrewrites : Rewrites (parse m) h) (u : Unread) :
    fieldsOf h ((m.chunks u).map beNat) = ((deparse m h).chunks u).map beNat := by
  obtain ⟨hlow, hhigh⟩ := words_joinWords (bswap32 h.log_id0) (bswap32 h.log_id1)
  have hbyte (b : UInt8) : beNat [b] = b.toNat := by simp
  rw [hrewrites.1]
  simp only [fieldsOf, parse, RawKvMsg.chunks, deparse, List.map_cons, List.map_nil, hbyte,
    List.getD_cons_zero, List.getD_cons_succ, beNat_leBytes_two, beNat_leBytes_four, beNat_rpcId,
    beNat_lowWord, beNat_highWord, hlow, hhigh, bswap32_bswap32, toBigEndian16_toBigEndian16]

/-- A packet of a message, as the parser cuts it. -/
def frame (h : RoCEHeader) (m : RawKvMsg) (u : Unread) (size : ℕ) : Frame where
  ethernet := h.ethernet
  ipv4 := h.ipv4
  udp := h.udp
  kvmsg := (m.chunks u).map beNat
  payload := bitsOf (m.body.take (size - 57))

theorem bits_frame (h : RoCEHeader) (m : RawKvMsg) (u : Unread) {size : ℕ} (hsize : 57 ≤ size) :
    (frame h m u size).parsed.bits = bitsOf (packet h m u size) := by
  have htake : (m.bytes u ++ m.body).take size = m.bytes u ++ m.body.take (size - 57) := by
    rw [List.take_append, m.length_bytes, List.take_of_length_le (by rw [m.length_bytes]; exact hsize)]
  rw [packet, htake, ← m.flatten_chunks, bitsOf_append, bitsOf_append, ← emit_fields,
    ← (m.inBytes u).emit_eq]
  simp [Parsed.bits, Frame.parsed, frame]

theorem valid_frame {h : RoCEHeader} (hudp : h.Ipv4Udp) (m : RawKvMsg) (u : Unread) (size : ℕ) :
    (frame h m u size).Valid where
  fits header hheader := by
    simp only [frame, Frame.parsed, List.mem_cons, List.not_mem_nil, or_false] at hheader
    rcases hheader with rfl | rfl | rfl | rfl
    · exact fits_ethernet h
    · exact fits_ipv4 h
    · exact fits_udp h
    · exact (m.inBytes u).fits
  etherType := by simp [frame, RoCEHeader.ethernet, hudp.eth_type, ETHER_TYPE_IPV4]
  protocol := by simp [frame, RoCEHeader.ipv4, hudp.protocol, IPV4_PROTOCOL_UDP]
  srcPort := by simp [frame, RoCEHeader.udp, hudp.src_port, KVAPP_PORT]

theorem copy_frame {m : RawKvMsg} {copy : Copy} (h : RoCEHeader)
    (hrewrites : Rewrites (parse m) copy.kvmsg) (u : Unread) (size : ℕ) :
    (frame h m u size).copy copy = frame (h.copy copy) (deparse m copy.kvmsg) u size := by
  simp only [Switch.Frame.copy, frame, copy_ethernet, copy_ipv4, copy_udp, fieldsOf_chunks hrewrites]
  rfl

/-- The switch on the bytes of a packet is the switch on its record: the copies leave the same ports,
and each is the packet of the record that `deparse` makes. -/
theorem switch_packet_packet (program : Program) (regs : Registers) (h : RoCEHeader)
    (hudp : h.Ipv4Udp) (m : RawKvMsg) (hop : Coded m.rpc_header.op) (u : Unread) (size : ℕ)
    (hsize : 57 ≤ size) :
    switch_packet program regs (bitsOf (packet h m u size)) =
      some ((ingress program (parse_kvmsg regs (parse m))).regs,
        ((ingress program (parse_kvmsg regs (parse m))).copies h.get_dst_port).map fun copy ↦
          (copy.port, bitsOf (packet (h.copy copy) (deparse m copy.kvmsg) u size))) := by
  have hport : UInt16.ofNat ((frame h m u size).udp.getD 1 0) = h.get_dst_port := by
    change UInt16.ofNat (beNat h.dst_port.toList) = _
    rw [beNat_dst_port, UInt16.ofNat_toNat]
  have hrewrites := ingress_rewrites program regs (parse m)
  rw [← bits_frame h m u hsize,
    switch_packet_of_frameOf (valid_frame hudp m u size).frameOf_bits]
  simp only [hport]
  rw [show (frame h m u size).kvmsg = (m.chunks u).map beNat from rfl, kvmsgOf_chunks hop]
  refine congrArg some (Prod.ext rfl (List.map_congr_left fun copy hcopy ↦ Prod.ext rfl ?_))
  have hcopied : Rewrites (parse m) copy.kvmsg := by
    obtain ⟨port, -, rfl⟩ := List.mem_map.mp hcopy
    exact hrewrites
  change ((frame h m u size).copy copy).parsed.bits = _
  rw [copy_frame h hcopied, bits_frame _ _ _ hsize]

/-! ### Messages that a host sends -/

/-- `ALIGNMENT_XB` with 64. -/
def alignment64 (size : UInt16) : UInt16 := UInt16.ofNat ((size.toNat + 63) / 64 * 64)

/-- The header in a send buffer after `modify_smsg_dst_port` and `modify_smsg_size`. -/
def sendHeader (msg_size : UInt16) (buffer : Vector UInt8 2) (dst_port size : UInt16) : RoCEHeader :=
  ((init_raw_send 666 msg_size buffer).set_dst_port dst_port).set_size (alignment64 size)

/-- What the switch makes of the bytes that a host sends is what `parse`, `ingress` and `deparse` make
of the record: it gets the same registers, the copies leave the same ports, and each one is the packet of
the record that its destination gets. -/
theorem switch_packet_sendHeader (program : Program) (regs : Registers) (msg_size : UInt16)
    (buffer : Vector UInt8 2) (dst_port size : UInt16) (m : RawKvMsg)
    (hop : Coded m.rpc_header.op) (u : Unread) (hsize : 57 ≤ size.toNat) :
    switch_packet program regs
        (bitsOf (packet (sendHeader msg_size buffer dst_port size) m u size.toNat)) =
      some ((ingress program (parse_kvmsg regs (parse m))).regs,
        ((ingress program (parse_kvmsg regs (parse m))).copies dst_port).map fun copy ↦
          (copy.port, bitsOf (packet ((sendHeader msg_size buffer dst_port size).copy copy)
            (deparse m copy.kvmsg) u size.toNat))) := by
  have hudp : (sendHeader msg_size buffer dst_port size).Ipv4Udp :=
    ((ipv4Udp_init_raw_send msg_size buffer).set_dst_port dst_port).set_size _
  have hport : (sendHeader msg_size buffer dst_port size).get_dst_port = dst_port :=
    get_dst_port_set_dst_port (init_raw_send 666 msg_size buffer) dst_port
  rw [switch_packet_packet program regs _ hudp m hop u _ hsize, hport]

/-- A write whose key has fingerprint 5 and slot 7, on its way back from the data node. -/
def appendReply : RawKvMsg where
  rpc_header := ⟨2, 0, 0, 0, .kEnumAppendReply⟩
  flag := 2
  switch_key := 7
  kv_g_id := 0x0102
  kv_c_id := 3
  magic := 4
  server_map := 0
  qp_map := 0
  coro_id := 0
  key := 5
  log_id := 0x0000000900000008
  route_port := 0
  route_map := 6
  client_port := 0x0001
  send_cnt := 0
  index_port := 0x0001
  magic_in_switch := 0
  timestamp := 1
  long_key := 0x40007
  value := []

theorem switch_packet_sendHeader_appendReply :
    switch_packet .overwrite Registers.initial
        (bitsOf (packet (sendHeader 64 #v[0, 0] 0x0100 65) appendReply ⟨0, 0⟩ 65)) =
      some ((ingress .overwrite (parse_kvmsg Registers.initial (parse appendReply))).regs,
        ((ingress .overwrite (parse_kvmsg Registers.initial (parse appendReply))).copies 0x0100).map
          fun copy ↦ (copy.port, bitsOf (packet ((sendHeader 64 #v[0, 0] 0x0100 65).copy copy)
            (deparse appendReply copy.kvmsg) ⟨0, 0⟩ 65))) :=
  switch_packet_sendHeader .overwrite Registers.initial 64 #v[0, 0] 0x0100 65 appendReply (by decide)
    ⟨0, 0⟩ (by decide)

end SwitchDelta.Kv
