import SwitchDelta.Foundation.HeaderFields
import SwitchDelta.Switch.Pipeline

/-!
# Packets as bits

`parser.p4` takes the headers of a packet from its bits, and the deparser puts them back in the same
order. `Pipeline` starts where the header `kvmsg` has been extracted and ends with the copies that
leave the switch. `switch_packet` is the whole way, from the bits of a packet to those of its copies.

Only ingress changes `kvmsg`, and no more of it than the operation, the log position and the count
(`ingress_rewrites`). The rest of a packet is what it was (`start_lossless`), but for the addresses
that egress sets for a copy and the checksum of the IP header, which the deparser computes.

The parser of a packet that ends inside a header fails, and the packet is dropped. A packet without
`kvmsg` goes to `ipv4_route`, which sends it to the node with its IP address and takes one off its TTL.
-/

set_option autoImplicit false
set_option relaxedAutoImplicit false

namespace SwitchDelta.Switch

open Foundation Kv

/-! ### Headers -/

/-- The header types of `header.p4` that the parser extracts. -/
inductive HeaderType
  | ethernet_t
  | ipv4_t
  | tcp_t
  | udp_t
  | message_t
  deriving DecidableEq

/-- The widths of the fields, in order. -/
def HeaderType.widths : HeaderType → List ℕ
  | .ethernet_t => [48, 48, 16]
  | .ipv4_t => [4, 4, 8, 16, 16, 3, 13, 8, 8, 16, 32, 32]
  | .tcp_t => [16, 16, 32, 32, 4, 3, 3, 6, 16, 16, 16]
  | .udp_t => [16, 16, 16, 16]
  | .message_t => [8, 32, 8, 32, 8, 16, 32, 16, 16, 32, 32, 32, 32, 32, 16, 16, 16, 16, 16, 16, 32]

/-- A header that was extracted, with the values of its fields. -/
structure Header where
  type : HeaderType
  fields : List ℕ
  deriving DecidableEq

/-- A packet after the parser: its headers, and the bits behind them. -/
structure Parsed where
  headers : List Header
  payload : List Bool
  deriving DecidableEq

/-! ### The parser -/

/-- `return ingress`. -/
def toIngress (bits : List Bool) : Option Parsed := some ⟨[], bits⟩

/-- `extract` of a header, after which the parser goes on as its fields say. -/
def extractThen (type : HeaderType) (next : List ℕ → List Bool → Option Parsed)
    (bits : List Bool) : Option Parsed :=
  (extract type.widths bits).bind fun r ↦
    (next r.1 r.2).map fun p ↦ { p with headers := ⟨type, r.1⟩ :: p.headers }

/-- `parse_kvmsg`, without the metadata. -/
def extract_kvmsg : List Bool → Option Parsed :=
  extractThen .message_t fun _ ↦ toIngress

def KVAPP_PORT : ℕ := 666

def parse_udp : List Bool → Option Parsed :=
  extractThen .udp_t fun fields ↦
    if fields.getD 0 0 = KVAPP_PORT then extract_kvmsg else toIngress

def parse_tcp : List Bool → Option Parsed :=
  extractThen .tcp_t fun _ ↦ toIngress

def IPV4_PROTOCOL_TCP : ℕ := 6

def IPV4_PROTOCOL_UDP : ℕ := 17

def parse_ipv4 : List Bool → Option Parsed :=
  extractThen .ipv4_t fun fields ↦
    if fields.getD 8 0 = IPV4_PROTOCOL_TCP then parse_tcp
    else if fields.getD 8 0 = IPV4_PROTOCOL_UDP then parse_udp
    else toIngress

def ETHER_TYPE_IPV4 : ℕ := 0x0800

def parse_ethernet : List Bool → Option Parsed :=
  extractThen .ethernet_t fun fields ↦
    if fields.getD 2 0 = ETHER_TYPE_IPV4 then parse_ipv4 else toIngress

/-- The first state of the parser. -/
def start : List Bool → Option Parsed := parse_ethernet

/-! ### The deparser -/

/-- The headers of a packet with what is behind them. -/
def Parsed.bits (p : Parsed) : List Bool :=
  (p.headers.flatMap fun h ↦ emit h.type.widths h.fields) ++ p.payload

/-- The packet is what its bits say. -/
structure Parsed.Of (p : Parsed) (bits : List Bool) : Prop where
  bits_eq : p.bits = bits
  fits : ∀ h ∈ p.headers, Fits h.type.widths h.fields

theorem parsed_toIngress {p : Parsed} {bits : List Bool} (h : toIngress bits = some p) :
    p.Of bits := by
  obtain rfl := Option.some.inj h
  exact ⟨rfl, fun _ h ↦ absurd h List.not_mem_nil⟩

/-- Where the next states lose nothing, a state that extracts a header does not either. -/
theorem parsed_extractThen {type : HeaderType} {next : List ℕ → List Bool → Option Parsed}
    {p : Parsed} {bits : List Bool}
    (hnext : ∀ fields rest q, next fields rest = some q → q.Of rest)
    (h : extractThen type next bits = some p) : p.Of bits := by
  obtain ⟨⟨fields, rest⟩, hextract, hmap⟩ := Option.bind_eq_some_iff.mp h
  obtain ⟨q, hq, rfl⟩ := Option.map_eq_some_iff.mp hmap
  obtain ⟨hbits, hfits⟩ := hnext fields rest q hq
  obtain ⟨hfields, hemit⟩ := emit_of_extract hextract
  refine ⟨?_, fun h hh ↦ ?_⟩
  · rw [← hemit, ← hbits]
    simp [Parsed.bits]
  · rcases List.mem_cons.mp hh with rfl | hh
    · exact hfields
    · exact hfits h hh

theorem parsed_extract_kvmsg {p : Parsed} {bits : List Bool} (h : extract_kvmsg bits = some p) :
    p.Of bits :=
  parsed_extractThen (fun _ _ _ ↦ parsed_toIngress) h

theorem parsed_parse_udp {p : Parsed} {bits : List Bool} (h : parse_udp bits = some p) :
    p.Of bits := by
  refine parsed_extractThen (fun fields rest q hq ↦ ?_) h
  split_ifs at hq
  · exact parsed_extract_kvmsg hq
  · exact parsed_toIngress hq

theorem parsed_parse_ipv4 {p : Parsed} {bits : List Bool} (h : parse_ipv4 bits = some p) :
    p.Of bits := by
  refine parsed_extractThen (fun fields rest q hq ↦ ?_) h
  split_ifs at hq
  · exact parsed_extractThen (fun _ _ _ ↦ parsed_toIngress) hq
  · exact parsed_parse_udp hq
  · exact parsed_toIngress hq

/-- The parser loses nothing of a packet: the deparser makes the same bits of what it extracted. -/
theorem start_lossless {bits : List Bool} {p : Parsed} (h : start bits = some p) : p.Of bits := by
  unfold start parse_ethernet at h
  refine parsed_extractThen (fun fields rest q hq ↦ ?_) h
  split_ifs at hq
  · exact parsed_parse_ipv4 hq
  · exact parsed_toIngress hq

/-! ### The fields of `kvmsg` -/

/-- The number of an operation code. -/
def code : RpcType → UInt8
  | .kEnumReadReq => 0
  | .kEnumWriteReq => 1
  | .kEnumReadReply => 2
  | .kEnumWriteReply => 3
  | .kEnumAppendReq => 4
  | .kEnumAppendReply => 5
  | .kEnumReadLog => 6
  | .ReplySwitch => 10
  | .kEnumUpdateIndexReq => 11
  | .kEnumUpdateIndexReply => 12
  | .kEnumReadIndexReq => 13
  | .kEnumReadIndexReply => 14
  | .kEnumMultiCastPkt => 21
  | .kEnumReadSend => 22
  | .kEnumWriteAndRead => 23
  | .kEnumWriteReplyWithData => 24
  | .other code => code

/-- The operation code with a number. -/
def ofCode (b : UInt8) : RpcType :=
  if b = 0 then .kEnumReadReq
  else if b = 1 then .kEnumWriteReq
  else if b = 2 then .kEnumReadReply
  else if b = 3 then .kEnumWriteReply
  else if b = 4 then .kEnumAppendReq
  else if b = 5 then .kEnumAppendReply
  else if b = 6 then .kEnumReadLog
  else if b = 10 then .ReplySwitch
  else if b = 11 then .kEnumUpdateIndexReq
  else if b = 12 then .kEnumUpdateIndexReply
  else if b = 13 then .kEnumReadIndexReq
  else if b = 14 then .kEnumReadIndexReply
  else if b = 21 then .kEnumMultiCastPkt
  else if b = 22 then .kEnumReadSend
  else if b = 23 then .kEnumWriteAndRead
  else if b = 24 then .kEnumWriteReplyWithData
  else .other b

/-- The operation is the one that its number says. -/
def Coded (op : RpcType) : Prop := ofCode (code op) = op

instance (op : RpcType) : Decidable (Coded op) := inferInstanceAs (Decidable (_ = _))

theorem code_ofCode : ∀ b : UInt8, code (ofCode b) = b := by
  decide +kernel

theorem coded_multicast : Coded .kEnumMultiCastPkt := by decide

/-- `kvmsg` as the pipeline sees it. -/
def kvmsgOf (fields : List ℕ) : Kvmsg where
  node_id := UInt8.ofNat (fields.getD 0 0)
  op := ofCode (UInt8.ofNat (fields.getD 2 0))
  flag := UInt8.ofNat (fields.getD 4 0)
  key := UInt16.ofNat (fields.getD 5 0)
  rpc_id := UInt32.ofNat (fields.getD 6 0)
  key32 := UInt32.ofNat (fields.getD 11 0)
  log_id0 := UInt32.ofNat (fields.getD 12 0)
  log_id1 := UInt32.ofNat (fields.getD 13 0)
  route_port := UInt16.ofNat (fields.getD 14 0)
  route_map := UInt16.ofNat (fields.getD 15 0)
  client_port := UInt16.ofNat (fields.getD 16 0)
  count := UInt16.ofNat (fields.getD 17 0)
  index_port := UInt16.ofNat (fields.getD 18 0)
  timestamp := UInt32.ofNat (fields.getD 20 0)

/-- The fields of `kvmsg` after the pipeline, which knows nothing of `rpc_addr`, `len`, `s_map`, `q_map`,
`coro_id_1`, `coro_id_2` and `magic_in_switch`. -/
def fieldsOf (h : Kvmsg) (old : List ℕ) : List ℕ :=
  [h.node_id.toNat, old.getD 1 0, (code h.op).toNat, old.getD 3 0, h.flag.toNat, h.key.toNat,
    h.rpc_id.toNat, old.getD 7 0, old.getD 8 0, old.getD 9 0, old.getD 10 0, h.key32.toNat,
    h.log_id0.toNat, h.log_id1.toNat, h.route_port.toNat, h.route_map.toNat, h.client_port.toNat,
    h.count.toNat, h.index_port.toNat, old.getD 19 0, h.timestamp.toNat]

/-- A header that the pipeline leaves alone has the fields that it had. -/
theorem fieldsOf_kvmsgOf {fields : List ℕ} (h : Fits HeaderType.message_t.widths fields) :
    fieldsOf (kvmsgOf fields) fields = fields := by
  simp only [HeaderType.widths, Fits] at h
  simp only [List.forall₂_cons_left_iff, List.forall₂_nil_left_iff] at h
  obtain ⟨f0, h0, _, ⟨f1, h1, _, ⟨f2, h2, _, ⟨f3, h3, _, ⟨f4, h4, _, ⟨f5, h5, _, ⟨f6, h6, _,
    ⟨f7, h7, _, ⟨f8, h8, _, ⟨f9, h9, _, ⟨f10, h10, _, ⟨f11, h11, _, ⟨f12, h12, _, ⟨f13, h13, _,
    ⟨f14, h14, _, ⟨f15, h15, _, ⟨f16, h16, _, ⟨f17, h17, _, ⟨f18, h18, _, ⟨f19, h19, _,
    ⟨f20, h20, _, rfl, rfl⟩, rfl⟩, rfl⟩, rfl⟩, rfl⟩, rfl⟩, rfl⟩, rfl⟩, rfl⟩, rfl⟩, rfl⟩, rfl⟩, rfl⟩,
    rfl⟩, rfl⟩, rfl⟩, rfl⟩, rfl⟩, rfl⟩, rfl⟩, rfl⟩ := h
  simp only [fieldsOf, kvmsgOf, List.getD_cons_zero, List.getD_cons_succ, code_ofCode,
    UInt8.toNat_ofNat', UInt16.toNat_ofNat', UInt32.toNat_ofNat']
  simp (disch := assumption) only [Nat.mod_eq_of_lt]

/-! ### What ingress changes of `kvmsg` -/

/-- The second header differs from the first at most in its operation, log position and count. -/
def Rewrites (h h' : Kvmsg) : Prop :=
  h' = { h with op := h'.op, log_id0 := h'.log_id0, log_id1 := h'.log_id1, count := h'.count } ∧
    (Coded h.op → Coded h'.op)

theorem Rewrites.refl (h : Kvmsg) : Rewrites h h := ⟨rfl, id⟩

theorem Rewrites.trans {h h' h'' : Kvmsg} (hfirst : Rewrites h h') (hsecond : Rewrites h' h'') :
    Rewrites h h'' := by
  refine ⟨?_, hsecond.2 ∘ hfirst.2⟩
  rw [hsecond.1, hfirst.1]

theorem counter_table_rewrites (p : Pipe) : Rewrites p.kvmsg (counter_table p).kvmsg := by
  unfold counter_table
  split
  · exact Rewrites.refl _
  · split <;> exact ⟨rfl, id⟩

theorem key2logid_rewrites (p : Pipe) :
    Rewrites p.kvmsg (key2logid1 (key2logid0 p)).kvmsg := by
  have hfirst : Rewrites p.kvmsg (key2logid0 p).kvmsg := by
    unfold key2logid0
    split <;> exact ⟨rfl, id⟩
  refine hfirst.trans ?_
  unfold key2logid1
  split
  · exact ⟨rfl, id⟩
  · exact ⟨rfl, fun _ ↦ coded_multicast⟩
  · exact ⟨rfl, fun _ ↦ coded_multicast⟩
  · exact Rewrites.refl _

theorem overwriteTimecheck_kvmsg (p : Pipe) : (overwriteTimecheck p).kvmsg = p.kvmsg := by
  unfold overwriteTimecheck
  split <;> rfl

theorem visibilityTable_kvmsg {new_index : Pipe → Pipe} (hnew : ∀ p, (new_index p).kvmsg = p.kvmsg)
    (p : Pipe) : (visibilityTable new_index p).kvmsg = p.kvmsg := by
  unfold visibilityTable
  split
  · exact hnew p
  · exact hnew p
  all_goals rfl

theorem rewrites_ite {h : Kvmsg} {p q : Pipe} (c : Prop) [Decidable c] (hp : Rewrites h p.kvmsg)
    (hq : Rewrites h q.kvmsg) : Rewrites h (if c then p else q).kvmsg := by
  split
  · exact hp
  · exact hq

/-- Ingress changes of `kvmsg` at most the operation, the log position and the count. -/
theorem ingress_rewrites (program : Program) (regs : Registers) (h : Kvmsg) :
    Rewrites h (ingress program (parse_kvmsg regs h)).kvmsg := by
  have hcount := counter_table_rewrites (parse_kvmsg regs h)
  -- what follows the comparison of timestamps in both programs
  have hlookup (new_index : Pipe → Pipe) (hnew : ∀ p, (new_index p).kvmsg = p.kvmsg) (p : Pipe)
      (hp : Rewrites h p.kvmsg) :
      Rewrites h
        (if (visibilityTable new_index p).kvmsg.key32 = (visibilityTable new_index p).umeta_key32
          then key2logid1 (key2logid0 (visibilityTable new_index p))
          else visibilityTable new_index p).kvmsg := by
    rw [← visibilityTable_kvmsg hnew p] at hp
    exact rewrites_ite _ (hp.trans (key2logid_rewrites _)) hp
  have hdrop (p : Pipe) (hp : Rewrites h p.kvmsg) :
      Rewrites h (if p.kvmsg.op = .ReplySwitch then drop_table0 p else p).kvmsg :=
    rewrites_ite _ hp hp
  have hroute (p : Pipe) (hp : Rewrites h p.kvmsg) :
      Rewrites h (if p.kvmsg.key32 ≠ p.umeta_key32 then udp_route p else p).kvmsg :=
    rewrites_ite _ hp hp
  cases program with
  | overwrite =>
    have hcheck : Rewrites h (overwriteTimecheck (counter_table (parse_kvmsg regs h))).kvmsg := by
      rw [overwriteTimecheck_kvmsg]
      exact hcount
    refine hroute _ (rewrites_ite _ (hdrop _ (rewrites_ite _ ?_ hcheck)) hcount)
    exact hlookup overwriteNewIndex (fun _ ↦ rfl) _ hcheck
  | p4_fw =>
    have htime : Rewrites h (timecpy (counter_table (parse_kvmsg regs h))).kvmsg := hcount
    refine hroute _ (rewrites_ite _ (rewrites_ite _ (hdrop _ ?_) htime) hcount)
    exact hlookup fwNewIndex (fun _ ↦ rfl) _ htime

/-! ### The whole switch -/

/-- The sum of words of 16 bits, with the carry added at the other end. -/
def onesSum (words : List ℕ) : ℕ :=
  words.foldl (fun sum word ↦ (sum + word) % 65536 + (sum + word) / 65536) 0

/-- The algorithm `csum16` on the nine words of `ipv4_checksum_list`. -/
def csum16 (bits : List Bool) : ℕ :=
  65535 - onesSum ((extract (List.replicate 9 16) bits).elim [] Prod.fst)

/-- The checksum of an IP header, from its other fields. -/
def ipv4_checksum (fields : List ℕ) : ℕ :=
  csum16 (emit [4, 4, 8, 16, 16, 3, 13, 8, 8, 32, 32] (fields.eraseIdx 9))

/-- The MAC address behind a port, from the `host` file that fills `ethernet_set_mac`. -/
def macOfPort (port : UInt16) : Option ℕ :=
  if port = 128 then some 0xec0d9aae1480
  else if port = 188 then some 0x0c42a1c9846c
  else if port = 136 then some 0x0c42a1c98474
  else if port = 180 then some 0xec0d9ac041c0
  else if port = 172 then some 0x0c42a1c984a4
  else none

/-- The headers of a packet with `kvmsg`, and what is behind them. -/
structure Frame where
  ethernet : List ℕ
  ipv4 : List ℕ
  udp : List ℕ
  kvmsg : List ℕ
  payload : List Bool

def Frame.parsed (f : Frame) : Parsed :=
  ⟨[⟨.ethernet_t, f.ethernet⟩, ⟨.ipv4_t, f.ipv4⟩, ⟨.udp_t, f.udp⟩, ⟨.message_t, f.kvmsg⟩],
    f.payload⟩

/-- A copy as it leaves the switch: egress has set its addresses, and the deparser its checksum. -/
def Frame.copy (f : Frame) (copy : Copy) : Frame where
  ethernet := f.ethernet.set 0 ((macOfPort copy.port).getD (f.ethernet.getD 0 0))
  ipv4 := f.ipv4.set 9 (ipv4_checksum f.ipv4)
  udp := f.udp.set 1 copy.dstPort.toNat
  kvmsg := fieldsOf copy.kvmsg f.kvmsg
  payload := f.payload

/-- The packet with `kvmsg` that the parser made of the bits. -/
def frameOf (bits : List Bool) : Option Frame :=
  match start bits with
  | some ⟨[⟨.ethernet_t, e⟩, ⟨.ipv4_t, i⟩, ⟨.udp_t, u⟩, ⟨.message_t, m⟩], payload⟩ =>
    some ⟨e, i, u, m, payload⟩
  | _ => none

/-- The switch port behind an IP address, from the `host` file that fills `ipv4_route`. -/
def portOfAddress (dstAddr : ℕ) : Option UInt16 :=
  if dstAddr = 0xc0a80274 then some 128
  else if dstAddr = 0xc0a80275 then some 188
  else if dstAddr = 0xc0a80374 then some 136
  else if dstAddr = 0xc0a80273 then some 180
  else if dstAddr = 0xc0a80277 then some 172
  else none

/-- The action `set_egr` on an IP header: `ttl` has eight bits. -/
def set_egr (ipv4 : List ℕ) : List ℕ :=
  ipv4.set 7 ((ipv4.getD 7 0 + 255) % 256)

/-- A packet without `kvmsg` on its way through the switch: `ipv4_route` chooses a port and lowers the
TTL, egress sets the MAC address, and the deparser computes the checksum. Without an entry for its
address, or without an IP header, the packet has no port and is dropped. -/
def route (p : Parsed) : Option (UInt16 × Parsed) :=
  match p.headers with
  | ⟨.ethernet_t, e⟩ :: ⟨.ipv4_t, i⟩ :: headers =>
    (portOfAddress (i.getD 11 0)).map fun port ↦
      (port,
        ⟨⟨.ethernet_t, e.set 0 ((macOfPort port).getD (e.getD 0 0))⟩ ::
          ⟨.ipv4_t, (set_egr i).set 9 (ipv4_checksum (set_egr i))⟩ :: headers, p.payload⟩)
  | _ => none

/-- The switch processes the bits of a packet: its new registers, and the bits that leave its ports. -/
def switch_packet (program : Program) (regs : Registers) (bits : List Bool) :
    Option (Registers × List (UInt16 × List Bool)) :=
  match frameOf bits with
  | some f =>
    let q := ingress program (parse_kvmsg regs (kvmsgOf f.kvmsg))
    some (q.regs, (q.copies (UInt16.ofNat (f.udp.getD 1 0))).map fun copy ↦
      (copy.port, (f.copy copy).parsed.bits))
  | none => (start bits).map fun p ↦ (regs, (route p).toList.map (Prod.map id Parsed.bits))

theorem switch_packet_of_frameOf {program : Program} {regs : Registers} {bits : List Bool} {f : Frame}
    (h : frameOf bits = some f) :
    switch_packet program regs bits =
      let q := ingress program (parse_kvmsg regs (kvmsgOf f.kvmsg))
      some (q.regs, (q.copies (UInt16.ofNat (f.udp.getD 1 0))).map fun copy ↦
        (copy.port, (f.copy copy).parsed.bits)) := by
  rw [switch_packet, h]

theorem switch_packet_of_frameOf_eq_none {program : Program} {regs : Registers} {bits : List Bool}
    (h : frameOf bits = none) : switch_packet program regs bits =
      (start bits).map fun p ↦ (regs, (route p).toList.map (Prod.map id Parsed.bits)) := by
  rw [switch_packet, h]

/-! ### What the switch changes of a packet -/

theorem start_of_frameOf {bits : List Bool} {f : Frame} (h : frameOf bits = some f) :
    start bits = some f.parsed := by
  unfold frameOf at h
  split at h
  case h_1 hstart =>
    obtain rfl := Option.some.inj h
    exact hstart
  case h_2 => exact absurd h (by simp)

/-- The fields of a packet that the parser takes for one with `kvmsg`. -/
structure Frame.Valid (f : Frame) : Prop where
  fits : ∀ h ∈ f.parsed.headers, Fits h.type.widths h.fields
  etherType : f.ethernet.getD 2 0 = ETHER_TYPE_IPV4
  protocol : f.ipv4.getD 8 0 = IPV4_PROTOCOL_UDP
  srcPort : f.udp.getD 0 0 = KVAPP_PORT

theorem extractThen_emit {type : HeaderType} {fields : List ℕ} {rest : List Bool} {p : Parsed}
    (next : List ℕ → List Bool → Option Parsed) (hfits : Fits type.widths fields)
    (hnext : next fields rest = some p) :
    extractThen type next (emit type.widths fields ++ rest) =
      some { p with headers := ⟨type, fields⟩ :: p.headers } := by
  rw [extractThen, extract_emit hfits, Option.bind_some, hnext, Option.map_some]

/-- The parser gets the fields back from the bits of a packet with `kvmsg`. -/
theorem Frame.Valid.frameOf_bits {f : Frame} (h : f.Valid) : frameOf f.parsed.bits = some f := by
  have hfits (type : HeaderType) (fields : List ℕ) (hmem : ⟨type, fields⟩ ∈ f.parsed.headers) :
      Fits type.widths fields :=
    h.fits _ hmem
  have hkvmsg := extractThen_emit (fun _ ↦ toIngress)
    (hfits .message_t f.kvmsg (by simp [Frame.parsed]))
    (show toIngress f.payload = _ from rfl)
  have hudp := extractThen_emit
    (fun fields ↦ if fields.getD 0 0 = KVAPP_PORT then extract_kvmsg else toIngress)
    (hfits .udp_t f.udp (by simp [Frame.parsed])) ((congrFun (if_pos h.srcPort) _).trans hkvmsg)
  have htcp : f.ipv4.getD 8 0 ≠ IPV4_PROTOCOL_TCP := by
    rw [h.protocol]
    decide
  have hipv4 := extractThen_emit
    (fun fields ↦
      if fields.getD 8 0 = IPV4_PROTOCOL_TCP then parse_tcp
      else if fields.getD 8 0 = IPV4_PROTOCOL_UDP then parse_udp
      else toIngress)
    (hfits .ipv4_t f.ipv4 (by simp [Frame.parsed]))
    ((congrFun ((if_neg htcp).trans (if_pos h.protocol)) _).trans hudp)
  have hethernet := extractThen_emit
    (fun fields ↦ if fields.getD 2 0 = ETHER_TYPE_IPV4 then parse_ipv4 else toIngress)
    (hfits .ethernet_t f.ethernet (by simp [Frame.parsed]))
    ((congrFun (if_pos h.etherType) _).trans hipv4)
  have hstart : start f.parsed.bits = some f.parsed := by
    simpa [Parsed.bits, Frame.parsed, start, parse_ethernet] using hethernet
  unfold frameOf
  rw [hstart]
  rfl

/-- The fields of a header of this type that the switch may change: the address that a copy gets, the
checksum, the port, and the operation, the log position and the count. -/
def HeaderType.changes : HeaderType → List Bool
  | .ethernet_t => [true, false, false]
  | .ipv4_t => (List.replicate 12 false).set 9 true
  | .tcp_t => List.replicate 11 false
  | .udp_t => [false, true, false, false]
  | .message_t => [2, 12, 13, 17].foldl (fun frees i ↦ frees.set i true) (List.replicate 21 false)

theorem HeaderType.length_changes (type : HeaderType) :
    type.widths.length = type.changes.length := by
  cases type <;> rfl

/-- The bits of the headers of a packet with `kvmsg` that the switch may change. -/
def frameChanges : List Bool :=
  [HeaderType.ethernet_t, .ipv4_t, .udp_t, .message_t].flatMap fun type ↦
    mask type.widths type.changes

theorem fieldsAgree_set (frees : List Bool) {values : List ℕ} (k value : ℕ)
    (hlength : values.length = frees.length) (hfree : frees[k]? ≠ some false) :
    FieldsAgree frees values (values.set k value) := by
  refine ⟨hlength, by rw [List.length_set, hlength], fun i hi ↦ ?_⟩
  have hne : k ≠ i := by
    rintro rfl
    exact hfree hi
  rw [List.getElem?_set_ne hne]

theorem Rewrites.fieldsAgree {h h' : Kvmsg} (hrewrites : Rewrites h h') (old : List ℕ) :
    FieldsAgree HeaderType.message_t.changes (fieldsOf h old) (fieldsOf h' old) := by
  refine ⟨rfl, rfl, fun i hi ↦ ?_⟩
  have hlt : i < 21 := by
    by_contra hge
    rw [List.getElem?_eq_none (Nat.le_of_not_lt hge)] at hi
    exact absurd hi (by simp)
  rw [hrewrites.1]
  interval_cases i
  all_goals first | rfl | exact absurd hi (by decide)

/-- A copy differs from its packet only in the bits that the switch may change. -/
theorem Frame.copy_agreeOff {f : Frame} {copy : Copy} (hethernet : f.ethernet.length = 3)
    (hipv4 : f.ipv4.length = 12) (hudp : f.udp.length = 4)
    (hkvmsg : Fits HeaderType.message_t.widths f.kvmsg)
    (hcopy : Rewrites (kvmsgOf f.kvmsg) copy.kvmsg) :
    AgreeOff frameChanges f.parsed.bits (f.copy copy).parsed.bits := by
  have hmessage := hcopy.fieldsAgree f.kvmsg
  rw [fieldsOf_kvmsgOf hkvmsg] at hmessage
  have hlength {type : HeaderType} {values values' : List ℕ}
      (h : FieldsAgree type.changes values values') :
      (mask type.widths type.changes).length = (emit type.widths values).length :=
    length_mask values type.length_changes h.1
  have hbits {type : HeaderType} {values values' : List ℕ}
      (h : FieldsAgree type.changes values values') :
      AgreeOff (mask type.widths type.changes) (emit type.widths values)
        (emit type.widths values') :=
    h.agreeOff type.length_changes
  have haddress := fieldsAgree_set HeaderType.ethernet_t.changes 0
    ((macOfPort copy.port).getD (f.ethernet.getD 0 0)) hethernet (by decide)
  have hchecksum := fieldsAgree_set HeaderType.ipv4_t.changes 9
    (ipv4_checksum f.ipv4) hipv4 (by decide)
  have hport := fieldsAgree_set HeaderType.udp_t.changes 1 copy.dstPort.toNat hudp (by decide)
  have hframe := (hbits haddress).append (hlength haddress) <|
    (hbits hchecksum).append (hlength hchecksum) <|
      (hbits hport).append (hlength hport) <|
        (hbits hmessage).append (hlength hmessage) (AgreeOff.refl [] f.payload)
  simpa [Parsed.bits, Frame.parsed, Frame.copy, frameChanges] using hframe

/-- The fields of a header of this type that the switch may change in a packet without `kvmsg`: the
address, the TTL and the checksum. -/
def HeaderType.routeChanges : HeaderType → List Bool
  | .ethernet_t => [true, false, false]
  | .ipv4_t => ((List.replicate 12 false).set 7 true).set 9 true
  | type => List.replicate type.widths.length false

/-- The bits of a packet without `kvmsg` that the switch may change. -/
def routeChanges : List Bool :=
  [HeaderType.ethernet_t, .ipv4_t].flatMap fun type ↦ mask type.widths type.routeChanges

/-- A packet that is routed differs from the one that came only in these bits. -/
theorem route_agreeOff {p q : Parsed} {port : UInt16}
    (hlength : ∀ h ∈ p.headers, h.fields.length = h.type.widths.length)
    (h : route p = some (port, q)) : AgreeOff routeChanges p.bits q.bits := by
  unfold route at h
  split at h
  case h_2 => exact absurd h (by simp)
  case h_1 e i headers hheaders =>
    obtain ⟨port, -, hq⟩ := Option.map_eq_some_iff.mp h
    obtain ⟨rfl, rfl⟩ := Prod.mk.inj hq
    rw [hheaders] at hlength
    have hethernet : e.length = 3 := hlength ⟨.ethernet_t, e⟩ (by simp)
    have hipv4 : i.length = 12 := hlength ⟨.ipv4_t, i⟩ (by simp)
    have haddress := fieldsAgree_set HeaderType.ethernet_t.routeChanges 0
      ((macOfPort port).getD (e.getD 0 0)) hethernet (by decide)
    have httl : FieldsAgree HeaderType.ipv4_t.routeChanges i (set_egr i) :=
      fieldsAgree_set HeaderType.ipv4_t.routeChanges 7 _ hipv4 (by decide)
    have hchecksum := httl.trans (fieldsAgree_set HeaderType.ipv4_t.routeChanges 9
      (ipv4_checksum (set_egr i)) httl.2.1 (by decide))
    have hfirst := @FieldsAgree.agreeOff HeaderType.ethernet_t.widths _ _ _ rfl haddress
    have hsecond := @FieldsAgree.agreeOff HeaderType.ipv4_t.widths _ _ _ rfl hchecksum
    have hrest := AgreeOff.refl []
      ((headers.flatMap fun h ↦ emit h.type.widths h.fields) ++ p.payload)
    have hmask (type : HeaderType) (values : List ℕ)
        (hchanges : type.widths.length = type.routeChanges.length)
        (hvalues : values.length = type.routeChanges.length) :=
      length_mask values hchanges hvalues
    have hbits := hfirst.append (hmask .ethernet_t e rfl hethernet)
      (hsecond.append (hmask .ipv4_t i rfl hipv4) hrest)
    simpa [Parsed.bits, hheaders, routeChanges] using hbits

/-- Whatever packet the switch gets, each packet that leaves it for that one has the same length and
the same bits, except in the fields that the switch changes: with `kvmsg` those of `frameChanges`, and
without it the address, the TTL and the checksum. -/
theorem switch_packet_agreeOff (program : Program) (regs : Registers) (bits bits' : List Bool)
    (port : UInt16) (hout : (port, bits') ∈ (switch_packet program regs bits).elim [] Prod.snd) :
    ((frameOf bits).isSome → AgreeOff frameChanges bits bits') ∧
      (frameOf bits = none → AgreeOff routeChanges bits bits') := by
  cases hf : frameOf bits with
  | none =>
    refine ⟨fun h ↦ absurd h (by simp), fun _ ↦ ?_⟩
    rw [switch_packet_of_frameOf_eq_none hf] at hout
    cases hstart : start bits with
    | none => simp [hstart] at hout
    | some p =>
      obtain ⟨hbits, hfits⟩ := start_lossless hstart
      rw [hstart, Option.map_some] at hout
      obtain ⟨⟨port', q⟩, hq, hpair⟩ := List.mem_map.mp hout
      obtain ⟨-, rfl⟩ := Prod.mk.inj hpair
      rw [← hbits]
      exact route_agreeOff (fun h hh ↦ (hfits h hh).length_eq.symm) (Option.mem_toList.mp hq)
  | some f =>
    refine ⟨fun _ ↦ ?_, fun h ↦ absurd h (by simp)⟩
    rw [switch_packet_of_frameOf hf] at hout
    obtain ⟨copy, hcopy, hpair⟩ := List.mem_map.mp hout
    obtain ⟨-, rfl⟩ := Prod.mk.inj hpair
    obtain ⟨hbits, hfits⟩ := start_lossless (start_of_frameOf hf)
    have hkvmsg : copy.kvmsg = (ingress program (parse_kvmsg regs (kvmsgOf f.kvmsg))).kvmsg := by
      obtain ⟨port, -, rfl⟩ := List.mem_map.mp hcopy
      rfl
    have hlength (type : HeaderType) (fields : List ℕ) (h : ⟨type, fields⟩ ∈ f.parsed.headers) :
        fields.length = type.widths.length :=
      (hfits _ h).length_eq.symm
    rw [← hbits]
    refine Frame.copy_agreeOff (hlength .ethernet_t _ ?_) (hlength .ipv4_t _ ?_)
      (hlength .udp_t _ ?_) (hfits ⟨.message_t, f.kvmsg⟩ ?_) (hkvmsg ▸ ingress_rewrites _ _ _)
    all_goals simp [Frame.parsed]

/-- A read of the client node with address `0c:42:a1:c9:84:74`, for thread 0 of the index node. -/
def readFrame : Frame where
  ethernet := [0x0c42a1c9846c, 0x0c42a1c98474, 0x0800]
  ipv4 := [4, 5, 0, 85, 0, 2, 0, 64, 17, 0, 0x0a000003, 0x0a000002]
  udp := [666, 256, 65, 0]
  kvmsg := [1, 0x02000000, 13, 0, 2, 7, 0x20010005, 0, 0, 0, 0, 9, 0, 0, 136, 0, 256, 0, 256, 0, 0]
  payload := bitsOf [7, 0, 9, 0, 0, 0, 0, 0]

/-- What the index node gets of it. -/
def readFrameOut : Frame :=
  { readFrame with ipv4 := readFrame.ipv4.set 9 (ipv4_checksum readFrame.ipv4) }

/-- An ICMP packet for the index node. -/
def pingFrame : Parsed where
  headers := [⟨.ethernet_t, [0xffffffffffff, 0x0c42a1c98474, 0x0800]⟩,
    ⟨.ipv4_t, [4, 5, 0, 28, 0, 2, 0, 64, 1, 0, 0xc0a80374, 0xc0a80275]⟩]
  payload := bitsOf [8, 0, 0, 0, 0, 0, 0, 0]

/-- What the index node gets of it. -/
def pingFrameOut : Parsed where
  headers := [⟨.ethernet_t, [0x0c42a1c9846c, 0x0c42a1c98474, 0x0800]⟩,
    ⟨.ipv4_t, [4, 5, 0, 28, 0, 2, 0, 63, 1, 46247, 0xc0a80374, 0xc0a80275]⟩]
  payload := bitsOf [8, 0, 0, 0, 0, 0, 0, 0]

theorem switch_packet_agreeOff_read :
    AgreeOff frameChanges readFrame.parsed.bits readFrameOut.parsed.bits ∧
      AgreeOff routeChanges pingFrame.bits pingFrameOut.bits :=
  ⟨(switch_packet_agreeOff .overwrite Registers.initial _ _ 188 (by decide +kernel)).1
      (by decide +kernel),
    (switch_packet_agreeOff .overwrite Registers.initial _ _ 188 (by decide +kernel)).2
      (by decide +kernel)⟩

end SwitchDelta.Switch
