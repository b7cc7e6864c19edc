import SwitchDelta.Kv.Wire

/-!
# The switch programs `overwrite.p4` and `p4_fw.p4`

Both programs keep one entry per slot in four register arrays: the timestamp of the slot, the
pair of fingerprint and `rpc_id` that `key_check` holds in one 64-bit register, and the two halves
of a log position. A packet is processed to the end before the next one starts. `Pipe` is what one
packet carries through the pipeline: the registers, the `kvmsg` header, the metadata fields
`umeta.key32` and `umeta.timestamp` that `parse_kvmsg` sets to zero, and the intrinsic metadata
that selects the outputs. Every stateful ALU is a function of its register and the packet, every
table a function on `Pipe` that matches on the entries which `overwrite.py` and `py_fw.py` install.
Which index ports `counter_table` has entries for is kept with the registers, so that the counters can
be read for other ports than the scripts' own.

`overwriteIngress` is the control `ingress` of `overwrite.p4`, where a newer write of the same
fingerprint replaces the entry of a slot and `timecheck` compares timestamps. `fwIngress` is that of
`p4_fw.p4`, where an occupied slot refuses every write and `timecheck` has no entries.

`copies` is what leaves the switch: nothing for a dropped packet, one copy for the unicast port and
one for each port of the multicast group, each rewritten by the egress table `fix_port`.

The branch of `ingress` for packets without a `kvmsg` header and the MAC rewriting do not touch this
state; `switch_packet` has both, for the bits of a packet. Register comparisons are unsigned, the
default of a P4 register.
-/

set_option autoImplicit false
set_option relaxedAutoImplicit false

namespace SwitchDelta.Switch

open Kv

/-! ### Headers, registers and metadata -/

/-- The fields of the header `kvmsg` of `header.p4` that a table or an ALU reads or writes, as
big-endian numbers. -/
structure Kvmsg where
  node_id : UInt8
  op : RpcType
  flag : UInt8
  key : UInt16
  rpc_id : UInt32
  key32 : UInt32
  log_id0 : UInt32
  log_id1 : UInt32
  route_port : UInt16
  route_map : UInt16
  client_port : UInt16
  count : UInt16
  index_port : UInt16
  timestamp : UInt32
  deriving DecidableEq

/-- One 64-bit instance of the register `key_check`. -/
structure KeyCheck where
  lo : UInt32
  hi : UInt32
  deriving DecidableEq

/-- The entries of `counter_table`: `id port` is the instance of `index_counter` that the entries for
`port` work on, if there are any. The register has 48 instances, and no two ports share one. -/
structure CounterEntries where
  id : UInt16 → Option UInt16
  id_lt : ∀ {port i}, id port = some i → i < 48
  id_inj : ∀ {port port' i}, id port = some i → id port' = some i → port = port'

/-- The instance that `overwrite.py` and `py_fw.py` give a port. -/
def installedId (port : UInt16) : Option UInt16 :=
  if port < 8 then some port else none

theorem installedId_eq_some {port i : UInt16} : installedId port = some i ↔ port < 8 ∧ port = i := by
  unfold installedId
  split_ifs with hport <;> simp [hport]

theorem installedId_lt {port i : UInt16} (h : installedId port = some i) : i < 48 := by
  obtain ⟨hport, rfl⟩ := installedId_eq_some.mp h
  exact UInt16.lt_trans hport (by decide)

theorem installedId_inj {port port' i : UInt16} (h : installedId port = some i)
    (h' : installedId port' = some i) : port = port' :=
  (installedId_eq_some.mp h).2.trans (installedId_eq_some.mp h').2.symm

/-- The entries of `overwrite.py` and `py_fw.py`, for the ports `0` to `7`. -/
def installedCounters : CounterEntries :=
  ⟨installedId, installedId_lt, installedId_inj⟩

/-- The state of the switch: the register arrays, whose slots are the 65536 values of `kvmsg.key`, and
the entries of `counter_table`, which no packet changes. -/
structure Registers where
  timestamp1 : UInt16 → UInt32
  key_check : UInt16 → KeyCheck
  log0 : UInt16 → UInt32
  log1 : UInt16 → UInt32
  index_counter : UInt16 → UInt16
  counter_entries : CounterEntries

/-- The registers after power-up, from the `initial_register` attributes. -/
def Registers.initial (counter_entries : CounterEntries := installedCounters) : Registers where
  timestamp1 := fun _ ↦ 0
  key_check := fun _ ↦ ⟨0, 0⟩
  log0 := fun _ ↦ 0
  log1 := fun _ ↦ 0
  index_counter := fun _ ↦ 0
  counter_entries := counter_entries

/-- A packet in the ingress pipeline, with the registers it finds. -/
structure Pipe where
  regs : Registers
  kvmsg : Kvmsg
  umeta_key32 : UInt32
  umeta_timestamp : UInt32
  ucast_egress_port : Option UInt16
  mcast_grp_a : Option UInt16
  dropped : Bool

/-- The parser state `parse_kvmsg`: the metadata starts at zero and no output is selected. -/
def parse_kvmsg (regs : Registers) (kvmsg : Kvmsg) : Pipe where
  regs := regs
  kvmsg := kvmsg
  umeta_key32 := 0
  umeta_timestamp := 0
  ucast_egress_port := none
  mcast_grp_a := none
  dropped := false

/-! ### Stateful ALUs -/

/-- `timecmp_box`: the new register value, which is also its output. -/
def timecmp_box (register_lo timestamp : UInt32) : UInt32 :=
  if register_lo = 0 ∨ register_lo < timestamp then timestamp else register_lo

/-- `timeclr_box`: reset the register when it holds the timestamp of the packet. -/
def timeclr_box (register_lo timestamp : UInt32) : UInt32 :=
  if register_lo = timestamp then 0 else register_lo

/-- `write_data_reply` of `overwrite_v2.p4`: an empty slot takes fingerprint and `rpc_id`, a slot
with the same fingerprint takes the `rpc_id`. The output is the new low half. -/
def overwrite_write_data_reply (register : KeyCheck) (key32 rpc_id : UInt32) : KeyCheck where
  lo := if register.lo = 0 then key32 else register.lo
  hi := if register.lo = 0 then rpc_id else if register.lo = key32 then rpc_id else register.hi

/-- `write_data_reply` of `visible_fw.p4`: only an empty slot is written. The output, under
`output_predicate`, is the new low half of a slot that was empty. -/
def fw_write_data_reply (register : KeyCheck) (key32 rpc_id : UInt32) : KeyCheck where
  lo := if register.lo = 0 then key32 else register.lo
  hi := if register.lo = 0 then rpc_id else register.hi

/-- `write_index_reply`: clear the slot when it holds the `rpc_id` of the packet. -/
def write_index_reply (register : KeyCheck) (rpc_id : UInt32) : KeyCheck :=
  if rpc_id = register.hi then ⟨0, 0⟩ else register

/-! ### Tables -/

/-- One of the three ALUs of `index_counter`: instance `id` takes `value`, which is also the output
in `kvmsg.count`. -/
def writeCounter (p : Pipe) (id value : UInt16) : Pipe :=
  { p with
    regs := { p.regs with index_counter := Function.update p.regs.index_counter id value }
    kvmsg := { p.kvmsg with count := value } }

/-- `counter_table`: for a port with entries, count the writes of an index thread and report the count
in the packet. -/
def counter_table (p : Pipe) : Pipe :=
  match p.regs.counter_entries.id p.kvmsg.index_port with
  | none => p
  | some id =>
    match p.kvmsg.op with
    | .kEnumAppendReq => writeCounter p id (p.regs.index_counter id + 1)
    | .ReplySwitch | .kEnumUpdateIndexReply => writeCounter p id (p.regs.index_counter id - 1)
    | .kEnumAppendReply | .kEnumReadReply | .kEnumReadIndexReply | .kEnumReadSend =>
      writeCounter p id (p.regs.index_counter id)
    | _ => p

/-- The action `timecpy`. -/
def timecpy (p : Pipe) : Pipe :=
  { p with umeta_timestamp := p.kvmsg.timestamp }

/-- The action `timecmp`. -/
def timecmp (p : Pipe) : Pipe :=
  let value := timecmp_box (p.regs.timestamp1 p.kvmsg.key) p.kvmsg.timestamp
  { p with
    regs := { p.regs with timestamp1 := Function.update p.regs.timestamp1 p.kvmsg.key value }
    umeta_timestamp := value }

/-- The action `timeclr`. -/
def timeclr (p : Pipe) : Pipe :=
  let value := timeclr_box (p.regs.timestamp1 p.kvmsg.key) p.kvmsg.timestamp
  { p with
    regs := { p.regs with timestamp1 := Function.update p.regs.timestamp1 p.kvmsg.key value }
    umeta_timestamp := p.kvmsg.timestamp }

/-- `timecheck` with the entries of `overwrite.py`. -/
def overwriteTimecheck (p : Pipe) : Pipe :=
  match p.kvmsg.op with
  | .kEnumAppendReply | .kEnumUpdateIndexReq => timecmp p
  | .ReplySwitch => timeclr p
  | _ => timecpy p

/-- The action `new_index` of `overwrite_v2.p4`. -/
def overwriteNewIndex (p : Pipe) : Pipe :=
  let register := overwrite_write_data_reply (p.regs.key_check p.kvmsg.key) p.kvmsg.key32
    p.kvmsg.rpc_id
  { p with
    regs := { p.regs with key_check := Function.update p.regs.key_check p.kvmsg.key register }
    umeta_key32 := register.lo }

/-- The action `new_index` of `visible_fw.p4`. -/
def fwNewIndex (p : Pipe) : Pipe :=
  let old := p.regs.key_check p.kvmsg.key
  let register := fw_write_data_reply old p.kvmsg.key32 p.kvmsg.rpc_id
  { p with
    regs := { p.regs with key_check := Function.update p.regs.key_check p.kvmsg.key register }
    umeta_key32 := if old.lo = 0 then register.lo else p.umeta_key32 }

/-- The action `delete_index`. -/
def delete_index (p : Pipe) : Pipe :=
  let register := write_index_reply (p.regs.key_check p.kvmsg.key) p.kvmsg.rpc_id
  { p with
    regs := { p.regs with key_check := Function.update p.regs.key_check p.kvmsg.key register } }

/-- The action `check_index`: the register keeps its value and its low half is the output. -/
def check_index (p : Pipe) : Pipe :=
  { p with umeta_key32 := (p.regs.key_check p.kvmsg.key).lo }

/-- `visibility` with its installed entries, for the given action `new_index`. -/
def visibilityTable (new_index : Pipe → Pipe) (p : Pipe) : Pipe :=
  match p.kvmsg.op with
  | .kEnumAppendReply | .kEnumUpdateIndexReq => new_index p
  | .ReplySwitch => delete_index p
  | .kEnumReadIndexReq => check_index p
  | _ => p

/-- `key2logid0` with its installed entries. -/
def key2logid0 (p : Pipe) : Pipe :=
  match p.kvmsg.op with
  | .kEnumReadIndexReq => { p with kvmsg := { p.kvmsg with log_id0 := p.regs.log0 p.kvmsg.key } }
  | .kEnumAppendReply | .kEnumUpdateIndexReq =>
    { p with
      regs := { p.regs with log0 := Function.update p.regs.log0 p.kvmsg.key p.kvmsg.log_id0 } }
  | _ => p

/-- `key2logid1` with its installed entries. A read is sent to `route_port`, an installed write is
multicast to `route_map` under the operation `kEnumMultiCastPkt`. -/
def key2logid1 (p : Pipe) : Pipe :=
  match p.kvmsg.op with
  | .kEnumReadIndexReq =>
    { p with
      kvmsg := { p.kvmsg with log_id1 := p.regs.log1 p.kvmsg.key }
      ucast_egress_port := some p.kvmsg.route_port }
  | .kEnumAppendReply | .kEnumUpdateIndexReq =>
    { p with
      regs := { p.regs with log1 := Function.update p.regs.log1 p.kvmsg.key p.kvmsg.log_id1 }
      mcast_grp_a := some p.kvmsg.route_map
      kvmsg := { p.kvmsg with op := .kEnumMultiCastPkt } }
  | _ => p

/-- `drop_table0`. -/
def drop_table0 (p : Pipe) : Pipe :=
  { p with dropped := true }

/-- The switch port of a node, from the `host` file that fills `udp_route`. -/
def portOfNode (node_id : UInt8) : Option UInt16 :=
  if node_id = 0 then some 128
  else if node_id = 1 then some 188
  else if node_id = 2 then some 136
  else if node_id = 3 then some 180
  else if node_id = 4 then some 172
  else none

/-- `udp_route`: a node without an entry leaves the port as it was. -/
def udp_route (p : Pipe) : Pipe :=
  { p with ucast_egress_port := (portOfNode p.kvmsg.node_id).or p.ucast_egress_port }

/-! ### Ingress -/

/-- The control `ingress` of `overwrite.p4` on a packet with a valid `kvmsg`. -/
def overwriteIngress (p : Pipe) : Pipe :=
  let p := counter_table p
  let p :=
    if p.kvmsg.flag = visibility then
      let p := overwriteTimecheck p
      let p :=
        if p.umeta_timestamp = p.kvmsg.timestamp then
          let p := visibilityTable overwriteNewIndex p
          if p.kvmsg.key32 = p.umeta_key32 then key2logid1 (key2logid0 p) else p
        else p
      if p.kvmsg.op = .ReplySwitch then drop_table0 p else p
    else p
  if p.kvmsg.key32 ≠ p.umeta_key32 then udp_route p else p

/-- The control `ingress` of `p4_fw.p4` on a packet with a valid `kvmsg`. `py_fw.py` installs no
entry in `timecheck`, so its default action `timecpy` always runs. -/
def fwIngress (p : Pipe) : Pipe :=
  let p := counter_table p
  let p :=
    if p.kvmsg.flag = visibility then
      let p := timecpy p
      if p.umeta_timestamp = p.kvmsg.timestamp then
        let p := visibilityTable fwNewIndex p
        let p := if p.kvmsg.key32 = p.umeta_key32 then key2logid1 (key2logid0 p) else p
        if p.kvmsg.op = .ReplySwitch then drop_table0 p else p
      else p
    else p
  if p.kvmsg.key32 ≠ p.umeta_key32 then udp_route p else p

/-- The two switch programs. -/
inductive Program
  | overwrite
  | p4_fw
  deriving DecidableEq

/-- The control `ingress` of a program. -/
def ingress : Program → Pipe → Pipe
  | .overwrite => overwriteIngress
  | .p4_fw => fwIngress

/-! ### Replication and egress -/

/-- The ports of a multicast group, as `overwrite_mc.py` creates them: the group whose number has
the byte-swapped value `i` reaches the ports of the nodes whose bit is set in `i`. -/
def multicastPorts (group : UInt16) : List UInt16 :=
  let i := toBigEndian16 group
  if i < 32 then
    [(0, 128), (1, 188), (2, 136), (3, 180), (4, 172)].filterMap fun node : UInt16 × UInt16 ↦
      if (i >>> node.1) &&& 1 = 1 then some node.2 else none
  else []

/-- `fix_port` with its installed entries: the new `udp.dstPort` of a copy that leaves through
`egress_port`. -/
def fix_port (egress_port : UInt16) (kvmsg : Kvmsg) (dstPort : UInt16) : UInt16 :=
  match kvmsg.op with
  | .kEnumMultiCastPkt =>
    if egress_port = 188 then kvmsg.index_port
    else if egress_port = 136 ∨ egress_port = 180 ∨ egress_port = 172 then kvmsg.client_port
    else dstPort
  | .kEnumReadIndexReq =>
    if egress_port = 136 ∨ egress_port = 180 ∨ egress_port = 172 then kvmsg.client_port
    else dstPort
  | _ => dstPort

/-- The control `egress`, as far as it changes the UDP header. -/
def egress (egress_port : UInt16) (kvmsg : Kvmsg) (dstPort : UInt16) : UInt16 :=
  if kvmsg.flag = visibility then fix_port egress_port kvmsg dstPort else dstPort

/-- The egress ports of a packet at the end of ingress. A dropped packet has none, whatever port
was set after `drop()`. -/
def Pipe.egressPorts (p : Pipe) : List UInt16 :=
  if p.dropped then []
  else p.ucast_egress_port.toList ++ (p.mcast_grp_a.elim [] multicastPorts)

/-- A copy of a packet on a port of the switch. -/
structure Copy where
  port : UInt16
  dstPort : UInt16
  kvmsg : Kvmsg
  deriving DecidableEq

/-- The copies that leave the switch for a packet at the end of ingress. -/
def Pipe.copies (p : Pipe) (dstPort : UInt16) : List Copy :=
  p.egressPorts.map fun port ↦ ⟨port, egress port p.kvmsg dstPort, p.kvmsg⟩

end SwitchDelta.Switch
