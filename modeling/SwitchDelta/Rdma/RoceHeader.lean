import SwitchDelta.Switch.Frames

/-!
# The header of a raw packet

A raw queue pair sends a message behind 42 bytes, `RoCEHeader`: an Ethernet header, an IP header and a
UDP header. `init_raw_send_with_one_mr` puts them into every send buffer once, and each message sets the
size and the UDP port again. The NIC sends the bytes as they are.

`Ipv4Udp` says that the bytes are what the parser of the switch expects of a packet with `kvmsg`. The
first header has it and every setter keeps it; `emit_fields` gives the fields that the switch sees.
-/

set_option autoImplicit false
set_option relaxedAutoImplicit false

namespace SwitchDelta.Rdma

open Foundation Switch

/-- `RoCEHeader`. -/
structure RoCEHeader where
  dst_mac : Vector UInt8 6
  src_mac : Vector UInt8 6
  eth_type : Vector UInt8 2
  ip_header : Vector UInt8 12
  src_ip : Vector UInt8 4
  dst_ip : Vector UInt8 4
  src_port : Vector UInt8 2
  dst_port : Vector UInt8 2
  udp_header : Vector UInt8 4

/-- The initial values of the members. The two ports have none. -/
def RoCEHeader.init (src_port dst_port : Vector UInt8 2) : RoCEHeader where
  dst_mac := #v[0x01, 0x02, 0x9a, 0xae, 0x14, 0x00]
  src_mac := #v[0, 0, 0, 0, 0, 0]
  eth_type := #v[0x08, 0x00]
  ip_header := #v[0x45, 0x00, 0x00, 32, 0x00, 0x00, 0x40, 0x00, 0x40, 0x11, 0xaf, 0xb6]
  src_ip := #v[0x0d, 0x07, 0xff, 0x66]
  dst_ip := #v[0x0d, 0x07, 0xff, 0x66]
  src_port := src_port
  dst_port := dst_port
  udp_header := #v[0x00, 8, 0x00, 0x00]

/-! ### Setters -/

def RoCEHeader.set_size (h : RoCEHeader) (size : UInt16) : RoCEHeader :=
  { h with
    ip_header := (h.ip_header.set 2 (UInt8.ofNat ((32 + size.toNat) / 256))).set 3
      (UInt8.ofNat ((32 + size.toNat) % 256))
    udp_header := (h.udp_header.set 0 (UInt8.ofNat ((8 + size.toNat) / 256))).set 1
      (UInt8.ofNat ((8 + size.toNat) % 256)) }

/-- The bytes of a port. -/
def portBytes (port : UInt16) : Vector UInt8 2 := #v[(port >>> 8).toUInt8, (port &&& 0xFF).toUInt8]

def RoCEHeader.set_src_port (h : RoCEHeader) (port : UInt16) : RoCEHeader :=
  { h with src_port := portBytes port }

def RoCEHeader.set_dst_port (h : RoCEHeader) (port : UInt16) : RoCEHeader :=
  { h with dst_port := portBytes port }

def RoCEHeader.get_dst_port (h : RoCEHeader) : UInt16 :=
  (h.dst_port[0].toUInt16 <<< 8) + h.dst_port[1].toUInt16

/-- `init_raw_send_with_one_mr`, for one send buffer. -/
def init_raw_send (src_port : UInt16) (msg_size : UInt16) (dst_port : Vector UInt8 2) : RoCEHeader :=
  ((RoCEHeader.init #v[0, 0] dst_port).set_src_port src_port).set_size msg_size

/-! ### The packet of a message -/

/-- The bytes of a header, in memory order. -/
def RoCEHeader.bytes (h : RoCEHeader) : List UInt8 :=
  h.dst_mac.toList ++ h.src_mac.toList ++ h.eth_type.toList ++ h.ip_header.toList ++
    h.src_ip.toList ++ h.dst_ip.toList ++ h.src_port.toList ++ h.dst_port.toList ++
    h.udp_header.toList

/-- The bytes that make it a packet with `kvmsg` for the parser of the switch. -/
structure RoCEHeader.Ipv4Udp (h : RoCEHeader) : Prop where
  eth_type : h.eth_type = #v[0x08, 0x00]
  protocol : h.ip_header[9] = 0x11
  src_port : h.src_port = #v[0x02, 0x9a]

theorem RoCEHeader.Ipv4Udp.set_size {h : RoCEHeader} (hudp : h.Ipv4Udp) (size : UInt16) :
    (h.set_size size).Ipv4Udp where
  eth_type := hudp.eth_type
  protocol := by simpa [RoCEHeader.set_size] using hudp.protocol
  src_port := hudp.src_port

theorem RoCEHeader.Ipv4Udp.set_dst_port {h : RoCEHeader} (hudp : h.Ipv4Udp) (port : UInt16) :
    (h.set_dst_port port).Ipv4Udp :=
  ⟨hudp.eth_type, hudp.protocol, hudp.src_port⟩

/-- The send buffers of a raw queue pair with the port of the application. -/
theorem ipv4Udp_init_raw_send (msg_size : UInt16) (dst_port : Vector UInt8 2) :
    (init_raw_send 666 msg_size dst_port).Ipv4Udp :=
  RoCEHeader.Ipv4Udp.set_size (h := (RoCEHeader.init #v[0, 0] dst_port).set_src_port 666)
    ⟨rfl, rfl, rfl⟩ msg_size

theorem beNat_portBytes (port : UInt16) : beNat (portBytes port).toList = port.toNat := by
  have hlt := port.toNat_lt
  have hlow : port.toNat % 256 &&& 255 = port.toNat % 256 := by
    rw [Nat.and_two_pow_sub_one_eq_mod _ 8]
    omega
  simp [portBytes, hlow, Nat.shiftRight_eq_div_pow]
  omega

/-- The port that `get_dst_port` returns is the one that the switch reads. -/
theorem beNat_dst_port (h : RoCEHeader) : beNat h.dst_port.toList = h.get_dst_port.toNat := by
  have hlist : h.dst_port.toList = [h.dst_port[0], h.dst_port[1]] := by
    obtain ⟨⟨l⟩, hl⟩ := h.dst_port
    match l, hl with
    | [_, _], _ => rfl
  have hhigh := h.dst_port[0].toNat_lt
  have hlow := h.dst_port[1].toNat_lt
  simp [hlist, RoCEHeader.get_dst_port, Nat.shiftLeft_eq]
  omega

theorem get_dst_port_set_dst_port (h : RoCEHeader) (port : UInt16) :
    (h.set_dst_port port).get_dst_port = port := by
  apply UInt16.toNat_inj.mp
  rw [← beNat_dst_port, RoCEHeader.set_dst_port, beNat_portBytes]

/-! ### The fields of a header -/

def RoCEHeader.ethernet (h : RoCEHeader) : List ℕ :=
  [beNat h.dst_mac.toList, beNat h.src_mac.toList, beNat h.eth_type.toList]

/-- The two halves of the first byte and the flags of the fourth word are fields of their own. -/
def RoCEHeader.ipv4 (h : RoCEHeader) : List ℕ :=
  let b := h.ip_header
  [b[0].toNat / 2 ^ 4, b[0].toNat % 2 ^ 4, b[1].toNat, beNat [b[2], b[3]], beNat [b[4], b[5]],
    beNat [b[6], b[7]] / 2 ^ 13, beNat [b[6], b[7]] % 2 ^ 13, b[8].toNat, b[9].toNat,
    beNat [b[10], b[11]], beNat h.src_ip.toList, beNat h.dst_ip.toList]

def RoCEHeader.udp (h : RoCEHeader) : List ℕ :=
  [beNat h.src_port.toList, beNat h.dst_port.toList, beNat [h.udp_header[0], h.udp_header[1]],
    beNat [h.udp_header[2], h.udp_header[3]]]

theorem inBytes_ethernet (h : RoCEHeader) :
    InBytes HeaderType.ethernet_t.widths
      [h.dst_mac.toList, h.src_mac.toList, h.eth_type.toList] := by
  simp [InBytes, HeaderType.widths]

theorem inBytes_udp (h : RoCEHeader) :
    InBytes HeaderType.udp_t.widths [h.src_port.toList, h.dst_port.toList,
      [h.udp_header[0], h.udp_header[1]], [h.udp_header[2], h.udp_header[3]]] := by
  simp [InBytes, HeaderType.widths]

theorem fits_ethernet (h : RoCEHeader) : Fits HeaderType.ethernet_t.widths h.ethernet :=
  (inBytes_ethernet h).fits

theorem fits_udp (h : RoCEHeader) : Fits HeaderType.udp_t.widths h.udp := (inBytes_udp h).fits

theorem fits_ipv4 (h : RoCEHeader) : Fits HeaderType.ipv4_t.widths h.ipv4 := by
  have hbyte (b : UInt8) : b.toNat < 2 ^ 8 := b.toNat_lt
  have hword (b b' : UInt8) : beNat [b, b'] < 2 ^ 16 := beNat_lt rfl
  have haddress (v : Vector UInt8 4) : beNat v.toList < 2 ^ 32 := beNat_lt (by simp)
  have hversion := hbyte h.ip_header[0]
  have hflags := hword h.ip_header[6] h.ip_header[7]
  simp only [Fits, HeaderType.widths, RoCEHeader.ipv4, List.forall₂_cons, hbyte, hword, haddress,
    List.Forall₂.nil, and_true, true_and]
  omega

theorem toList_four (v : Vector UInt8 4) : v.toList = [v[0], v[1], v[2], v[3]] := by
  obtain ⟨⟨l⟩, hl⟩ := v
  match l, hl with
  | [_, _, _, _], _ => rfl

theorem toList_twelve (v : Vector UInt8 12) :
    v.toList = [v[0], v[1], v[2], v[3], v[4], v[5], v[6], v[7], v[8], v[9], v[10], v[11]] := by
  obtain ⟨⟨l⟩, hl⟩ := v
  match l, hl with
  | [_, _, _, _, _, _, _, _, _, _, _, _], _ => rfl

/-- Two fields next to each other are one field, in bits. -/
theorem toBits_split (width width' n : ℕ) :
    toBits width (n / 2 ^ width') ++ toBits width' (n % 2 ^ width') = toBits (width + width') n := by
  rw [toBits_mod _ _ _ le_rfl, ← toBits_add]

theorem emit_ipv4 (h : RoCEHeader) :
    emit HeaderType.ipv4_t.widths h.ipv4 =
      bitsOf (h.ip_header.toList ++ h.src_ip.toList ++ h.dst_ip.toList) := by
  have hbyte (b : UInt8) : toBits 8 b.toNat = bitsOf [b] := by simp [bitsOf, byteBits]
  have hword (b b' : UInt8) : toBits 16 (beNat [b, b']) = bitsOf [b, b'] := toBits_beNat rfl
  have haddress (v : Vector UInt8 4) : toBits 32 (beNat v.toList) = bitsOf v.toList :=
    toBits_beNat (by simp)
  have hversion := toBits_split 4 4 h.ip_header[0].toNat
  have hflags := toBits_split 3 13 (beNat [h.ip_header[6], h.ip_header[7]])
  simp only [Nat.reduceAdd, hbyte, hword] at hversion hflags
  simp only [RoCEHeader.ipv4, HeaderType.widths, emit, hbyte, hword, haddress, List.append_nil]
  rw [← List.append_assoc (toBits 4 _), hversion, ← List.append_assoc (toBits 3 _), hflags,
    toList_twelve]
  simp only [← bitsOf_append, List.cons_append, List.nil_append]

/-- The bytes of a header are those of its fields. -/
theorem emit_fields (h : RoCEHeader) :
    emit HeaderType.ethernet_t.widths h.ethernet ++ (emit HeaderType.ipv4_t.widths h.ipv4 ++
      emit HeaderType.udp_t.widths h.udp) = bitsOf h.bytes := by
  have hethernet := (inBytes_ethernet h).emit_eq
  have hudp := (inBytes_udp h).emit_eq
  simp only [List.map_cons, List.map_nil] at hethernet hudp
  rw [RoCEHeader.ethernet, hethernet, emit_ipv4, RoCEHeader.udp, hudp, RoCEHeader.bytes,
    toList_four h.udp_header]
  simp only [bitsOf_append, List.flatten_cons, List.flatten_nil, List.append_assoc, List.append_nil,
    List.cons_append, List.nil_append]

/-! ### The header of a copy -/

/-- What egress and the deparser set in the header of a copy. -/
def RoCEHeader.copy (h : RoCEHeader) (copy : Copy) : RoCEHeader :=
  let checksum := ipv4_checksum h.ipv4
  { h with
    dst_mac := (macOfPort copy.port).elim h.dst_mac fun mac ↦ ⟨(beBytes 6 mac).toArray, by simp⟩
    ip_header := (h.ip_header.set 10 (UInt8.ofNat (checksum / 256))).set 11 (UInt8.ofNat checksum)
    dst_port := portBytes copy.dstPort }

theorem macOfPort_lt {port : UInt16} {mac : ℕ} (h : macOfPort port = some mac) : mac < 2 ^ 48 := by
  unfold macOfPort at h
  split_ifs at h
  all_goals
    obtain rfl := Option.some.inj h
    norm_num

theorem ipv4_checksum_lt (fields : List ℕ) : ipv4_checksum fields < 65536 := by
  unfold ipv4_checksum csum16
  omega

theorem copy_ethernet (h : RoCEHeader) (copy : Copy) :
    (h.copy copy).ethernet =
      h.ethernet.set 0 ((macOfPort copy.port).getD (h.ethernet.getD 0 0)) := by
  cases hmac : macOfPort copy.port with
  | none => simp [RoCEHeader.ethernet, RoCEHeader.copy, hmac]
  | some mac =>
    simpa [RoCEHeader.ethernet, RoCEHeader.copy, hmac, beNat_beBytes] using macOfPort_lt hmac

theorem ipv4_set_checksum (h : RoCEHeader) {checksum : ℕ} (hlt : checksum < 65536) :
    { h with
      ip_header := (h.ip_header.set 10 (UInt8.ofNat (checksum / 256))).set 11
        (UInt8.ofNat checksum) }.ipv4 = h.ipv4.set 9 checksum := by
  simp [RoCEHeader.ipv4]
  omega

theorem copy_ipv4 (h : RoCEHeader) (copy : Copy) :
    (h.copy copy).ipv4 = h.ipv4.set 9 (ipv4_checksum h.ipv4) :=
  ipv4_set_checksum h (ipv4_checksum_lt h.ipv4)

theorem copy_udp (h : RoCEHeader) (copy : Copy) :
    (h.copy copy).udp = h.udp.set 1 copy.dstPort.toNat := by
  simp only [RoCEHeader.udp, RoCEHeader.copy, beNat_portBytes, List.set_cons_succ,
    List.set_cons_zero]

end SwitchDelta.Rdma
