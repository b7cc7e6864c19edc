import SwitchDelta.Switch.Pipeline

/-!
# What the switch does with a packet

A packet with a nonzero fingerprint leaves the ingress pipeline in one of four ways, in both switch
programs. It is forwarded to the port of its `node_id` (`Forwards`), answered from the registers to
its `route_port` (`Answers`), installed in its slot and multicast (`Installs`), or dropped after it
has cleared its slot (`Drops`). The lemmas `ingress_install` to `ingress_pass` say which, from the
registers before the packet: the programs differ only in `AcceptsInstall`, the condition under
which an install is accepted.

The timestamp register of `overwrite.p4` moves on its own: `overwriteIngress_timestamp1` gives its
new value for every packet, installed or not. `p4_fw.p4` never writes it.
-/

set_option autoImplicit false
set_option relaxedAutoImplicit false

namespace SwitchDelta.Switch

open Kv

/-! ### The four dispositions -/

/-- The packet is sent to the port of its node and no slot changes its entry. -/
structure Forwards (regs : Registers) (h : Kvmsg) (q : Pipe) : Prop where
  key_check : q.regs.key_check = regs.key_check
  log0 : q.regs.log0 = regs.log0
  log1 : q.regs.log1 = regs.log1
  kvmsg : ∃ count, q.kvmsg = { h with count := count }
  ucast : q.ucast_egress_port = portOfNode h.node_id
  mcast : q.mcast_grp_a = none
  dropped : q.dropped = false

/-- The packet is sent to its `route_port` with the log position that its slot holds. -/
structure Answers (regs : Registers) (h : Kvmsg) (q : Pipe) : Prop where
  key_check : q.regs.key_check = regs.key_check
  log0 : q.regs.log0 = regs.log0
  log1 : q.regs.log1 = regs.log1
  kvmsg : ∃ count, q.kvmsg =
    { h with count := count, log_id0 := regs.log0 h.key, log_id1 := regs.log1 h.key }
  ucast : q.ucast_egress_port = some h.route_port
  mcast : q.mcast_grp_a = none
  dropped : q.dropped = false

/-- The packet becomes the entry of its slot and is multicast as a `kEnumMultiCastPkt`. -/
structure Installs (regs : Registers) (h : Kvmsg) (q : Pipe) : Prop where
  key_check : q.regs.key_check = Function.update regs.key_check h.key ⟨h.key32, h.rpc_id⟩
  log0 : q.regs.log0 = Function.update regs.log0 h.key h.log_id0
  log1 : q.regs.log1 = Function.update regs.log1 h.key h.log_id1
  kvmsg : ∃ count, q.kvmsg = { h with count := count, op := .kEnumMultiCastPkt }
  ucast : q.ucast_egress_port = none
  mcast : q.mcast_grp_a = some h.route_map
  dropped : q.dropped = false

/-- The packet clears its slot when the `rpc_id` matches, and is dropped. -/
structure Drops (regs : Registers) (h : Kvmsg) (q : Pipe) : Prop where
  key_check : q.regs.key_check =
    Function.update regs.key_check h.key (write_index_reply (regs.key_check h.key) h.rpc_id)
  log0 : q.regs.log0 = regs.log0
  log1 : q.regs.log1 = regs.log1
  mcast : q.mcast_grp_a = none
  dropped : q.dropped = true

/-- A packet that asks the switch to install its log position. -/
def Kvmsg.IsInstall (h : Kvmsg) : Prop :=
  h.flag = visibility ∧ (h.op = .kEnumAppendReply ∨ h.op = .kEnumUpdateIndexReq)

/-- A packet that asks the switch for the log position of its slot. -/
def Kvmsg.IsLookup (h : Kvmsg) : Prop :=
  h.flag = visibility ∧ h.op = .kEnumReadIndexReq

/-- A packet that asks the switch to clear its slot. -/
def Kvmsg.IsClear (h : Kvmsg) : Prop :=
  h.flag = visibility ∧ h.op = .ReplySwitch

instance (h : Kvmsg) : Decidable h.IsInstall :=
  inferInstanceAs (Decidable (_ ∧ _))

instance (h : Kvmsg) : Decidable h.IsLookup :=
  inferInstanceAs (Decidable (_ ∧ _))

instance (h : Kvmsg) : Decidable h.IsClear :=
  inferInstanceAs (Decidable (_ ∧ _))

/-- The timestamp register of the slot lets an install through `timecmp`. -/
def Registers.Current (regs : Registers) (h : Kvmsg) : Prop :=
  regs.timestamp1 h.key = 0 ∨ regs.timestamp1 h.key ≤ h.timestamp

instance (regs : Registers) (h : Kvmsg) : Decidable (regs.Current h) :=
  inferInstanceAs (Decidable (_ ∨ _))

/-- The condition under which a program accepts an install, on the registers before the packet. -/
def AcceptsInstall : Program → Registers → Kvmsg → Prop
  | .overwrite, regs, h => regs.Current h ∧
      ((regs.key_check h.key).lo = 0 ∨ (regs.key_check h.key).lo = h.key32)
  | .p4_fw, regs, h => (regs.key_check h.key).lo = 0

/-! ### The tables on packets they have no entry for -/

/-- `counter_table` changes only the counters and the count field of the packet. -/
theorem counter_table_eq (p : Pipe) : ∃ counters count,
    counter_table p = { p with
      regs := { p.regs with index_counter := counters }
      kvmsg := { p.kvmsg with count := count } } := by
  unfold counter_table
  split
  · exact ⟨p.regs.index_counter, p.kvmsg.count, rfl⟩
  · split
    all_goals exact ⟨_, _, rfl⟩

/-- The operation has an entry in one of the tables that work on slots. -/
def SlotOp (op : RpcType) : Prop :=
  op = .kEnumAppendReply ∨ op = .kEnumUpdateIndexReq ∨ op = .ReplySwitch ∨ op = .kEnumReadIndexReq

theorem overwriteTimecheck_other {p : Pipe} (hop : ¬ SlotOp p.kvmsg.op) :
    overwriteTimecheck p = timecpy p := by
  unfold overwriteTimecheck
  split <;> simp_all [SlotOp]

theorem visibilityTable_other {new_index : Pipe → Pipe} {p : Pipe} (hop : ¬ SlotOp p.kvmsg.op) :
    visibilityTable new_index p = p := by
  unfold visibilityTable
  split <;> simp_all [SlotOp]

/-- `timecmp` lets a packet through exactly when the register is current. -/
theorem timecmp_box_eq_iff (register timestamp : UInt32) :
    timecmp_box register timestamp = timestamp ↔ register = 0 ∨ register ≤ timestamp := by
  unfold timecmp_box
  split_ifs with hupdate
  · refine iff_of_true rfl (hupdate.imp_right fun hlt ↦ UInt32.le_of_lt hlt)
  · rw [not_or] at hupdate
    constructor
    · intro heq
      exact Or.inr (UInt32.le_of_eq heq)
    · rintro (hzero | hle)
      · exact absurd hzero hupdate.1
      · exact UInt32.le_antisymm hle (UInt32.not_lt.mp hupdate.2)

/-! ### `overwrite.p4` -/

theorem overwriteIngress_unflagged {regs : Registers} {h : Kvmsg} (hkey : h.key32 ≠ 0)
    (hflag : h.flag ≠ visibility) :
    Forwards regs h (overwriteIngress (parse_kvmsg regs h)) ∧
      (overwriteIngress (parse_kvmsg regs h)).regs.timestamp1 = regs.timestamp1 := by
  obtain ⟨counters, count, hcounter⟩ := counter_table_eq (parse_kvmsg regs h)
  have hresult : overwriteIngress (parse_kvmsg regs h) =
      udp_route { parse_kvmsg regs h with
        regs := { regs with index_counter := counters }
        kvmsg := { h with count := count } } := by
    rw [overwriteIngress, hcounter]
    simp [parse_kvmsg, hflag, hkey]
  rw [hresult]
  refine ⟨⟨rfl, rfl, rfl, ⟨count, rfl⟩, ?_, rfl, rfl⟩, rfl⟩
  simp [udp_route, parse_kvmsg]

theorem overwriteIngress_other {regs : Registers} {h : Kvmsg} (hkey : h.key32 ≠ 0)
    (hflag : h.flag = visibility) (hop : ¬ SlotOp h.op) :
    Forwards regs h (overwriteIngress (parse_kvmsg regs h)) ∧
      (overwriteIngress (parse_kvmsg regs h)).regs.timestamp1 = regs.timestamp1 := by
  obtain ⟨counters, count, hcounter⟩ := counter_table_eq (parse_kvmsg regs h)
  have hreply : h.op ≠ .ReplySwitch := fun hreply ↦ hop (Or.inr (Or.inr (Or.inl hreply)))
  have hresult : overwriteIngress (parse_kvmsg regs h) =
      udp_route { parse_kvmsg regs h with
        regs := { regs with index_counter := counters }
        kvmsg := { h with count := count }
        umeta_timestamp := h.timestamp } := by
    rw [overwriteIngress, hcounter]
    simp [parse_kvmsg, timecpy, hflag, hkey, hreply, hop, overwriteTimecheck_other,
      visibilityTable_other]
  rw [hresult]
  refine ⟨⟨rfl, rfl, rfl, ⟨count, rfl⟩, ?_, rfl, rfl⟩, rfl⟩
  simp [udp_route, parse_kvmsg]

theorem overwriteIngress_lookup_hit {regs : Registers} {h : Kvmsg} (hlookup : h.IsLookup)
    (hlo : (regs.key_check h.key).lo = h.key32) :
    Answers regs h (overwriteIngress (parse_kvmsg regs h)) ∧
      (overwriteIngress (parse_kvmsg regs h)).regs.timestamp1 = regs.timestamp1 := by
  obtain ⟨hflag, hop⟩ := hlookup
  obtain ⟨counters, count, hcounter⟩ := counter_table_eq (parse_kvmsg regs h)
  have hresult : overwriteIngress (parse_kvmsg regs h) =
      { regs := { regs with index_counter := counters }
        kvmsg := { h with
          count := count, log_id0 := regs.log0 h.key, log_id1 := regs.log1 h.key }
        umeta_key32 := h.key32
        umeta_timestamp := h.timestamp
        ucast_egress_port := some h.route_port
        mcast_grp_a := none
        dropped := false } := by
    rw [overwriteIngress, hcounter]
    simp [parse_kvmsg, hflag, hop, overwriteTimecheck, visibilityTable, timecpy, check_index,
      key2logid0, key2logid1, hlo]
  rw [hresult]
  exact ⟨⟨rfl, rfl, rfl, ⟨count, rfl⟩, rfl, rfl, rfl⟩, rfl⟩

theorem overwriteIngress_lookup_miss {regs : Registers} {h : Kvmsg} (hlookup : h.IsLookup)
    (hlo : (regs.key_check h.key).lo ≠ h.key32) :
    Forwards regs h (overwriteIngress (parse_kvmsg regs h)) ∧
      (overwriteIngress (parse_kvmsg regs h)).regs.timestamp1 = regs.timestamp1 := by
  obtain ⟨hflag, hop⟩ := hlookup
  obtain ⟨counters, count, hcounter⟩ := counter_table_eq (parse_kvmsg regs h)
  have hresult : overwriteIngress (parse_kvmsg regs h) =
      udp_route { parse_kvmsg regs h with
        regs := { regs with index_counter := counters }
        kvmsg := { h with count := count }
        umeta_key32 := (regs.key_check h.key).lo
        umeta_timestamp := h.timestamp } := by
    rw [overwriteIngress, hcounter]
    simp [parse_kvmsg, hflag, hop, overwriteTimecheck, visibilityTable, timecpy, check_index,
      Ne.symm hlo]
  rw [hresult]
  refine ⟨⟨rfl, rfl, rfl, ⟨count, rfl⟩, ?_, rfl, rfl⟩, rfl⟩
  simp [udp_route, parse_kvmsg]

theorem overwriteIngress_clear {regs : Registers} {h : Kvmsg} (hkey : h.key32 ≠ 0)
    (hclear : h.IsClear) :
    Drops regs h (overwriteIngress (parse_kvmsg regs h)) ∧
      (overwriteIngress (parse_kvmsg regs h)).regs.timestamp1 =
        Function.update regs.timestamp1 h.key
          (timeclr_box (regs.timestamp1 h.key) h.timestamp) := by
  obtain ⟨hflag, hop⟩ := hclear
  obtain ⟨counters, count, hcounter⟩ := counter_table_eq (parse_kvmsg regs h)
  have hresult : overwriteIngress (parse_kvmsg regs h) =
      udp_route { parse_kvmsg regs h with
        regs := { regs with
          timestamp1 := Function.update regs.timestamp1 h.key
            (timeclr_box (regs.timestamp1 h.key) h.timestamp)
          key_check := Function.update regs.key_check h.key
            (write_index_reply (regs.key_check h.key) h.rpc_id)
          index_counter := counters }
        kvmsg := { h with count := count }
        umeta_timestamp := h.timestamp
        dropped := true } := by
    rw [overwriteIngress, hcounter]
    simp [parse_kvmsg, hflag, hop, hkey, overwriteTimecheck, visibilityTable, timeclr,
      delete_index, drop_table0]
  rw [hresult]
  exact ⟨⟨rfl, rfl, rfl, rfl, rfl⟩, rfl⟩

/-- The timestamp register is out of date: `timecmp` keeps it and the packet goes on to the client
as a plain reply. -/
theorem overwriteIngress_install_stale {regs : Registers} {h : Kvmsg} (hkey : h.key32 ≠ 0)
    (hinstall : h.IsInstall) (hstale : ¬ regs.Current h) :
    Forwards regs h (overwriteIngress (parse_kvmsg regs h)) ∧
      (overwriteIngress (parse_kvmsg regs h)).regs.timestamp1 =
        Function.update regs.timestamp1 h.key
          (timecmp_box (regs.timestamp1 h.key) h.timestamp) := by
  obtain ⟨hflag, hop⟩ := hinstall
  have hbox : timecmp_box (regs.timestamp1 h.key) h.timestamp ≠ h.timestamp := fun heq ↦
    hstale ((timecmp_box_eq_iff _ _).mp heq)
  obtain ⟨counters, count, hcounter⟩ := counter_table_eq (parse_kvmsg regs h)
  have hresult : overwriteIngress (parse_kvmsg regs h) =
      udp_route { parse_kvmsg regs h with
        regs := { regs with
          timestamp1 := Function.update regs.timestamp1 h.key
            (timecmp_box (regs.timestamp1 h.key) h.timestamp)
          index_counter := counters }
        kvmsg := { h with count := count }
        umeta_timestamp := timecmp_box (regs.timestamp1 h.key) h.timestamp } := by
    rw [overwriteIngress, hcounter]
    rcases hop with hop | hop <;>
      simp [parse_kvmsg, hflag, hop, hkey, overwriteTimecheck, timecmp, hbox]
  rw [hresult]
  refine ⟨⟨rfl, rfl, rfl, ⟨count, rfl⟩, ?_, rfl, rfl⟩, rfl⟩
  simp [udp_route, parse_kvmsg]

/-- The slot holds another fingerprint: the timestamp register is raised all the same. -/
theorem overwriteIngress_install_occupied {regs : Registers} {h : Kvmsg}
    (hinstall : h.IsInstall) (hcurrent : regs.Current h)
    (hlo : (regs.key_check h.key).lo ≠ 0) (hother : (regs.key_check h.key).lo ≠ h.key32) :
    Forwards regs h (overwriteIngress (parse_kvmsg regs h)) ∧
      (overwriteIngress (parse_kvmsg regs h)).regs.timestamp1 =
        Function.update regs.timestamp1 h.key
          (timecmp_box (regs.timestamp1 h.key) h.timestamp) := by
  obtain ⟨hflag, hop⟩ := hinstall
  have hbox : timecmp_box (regs.timestamp1 h.key) h.timestamp = h.timestamp :=
    (timecmp_box_eq_iff _ _).mpr hcurrent
  have hsame : overwrite_write_data_reply (regs.key_check h.key) h.key32 h.rpc_id =
      regs.key_check h.key := by
    simp [overwrite_write_data_reply, hlo, hother]
  obtain ⟨counters, count, hcounter⟩ := counter_table_eq (parse_kvmsg regs h)
  have hresult : overwriteIngress (parse_kvmsg regs h) =
      udp_route { parse_kvmsg regs h with
        regs := { regs with
          timestamp1 := Function.update regs.timestamp1 h.key h.timestamp
          index_counter := counters }
        kvmsg := { h with count := count }
        umeta_key32 := (regs.key_check h.key).lo
        umeta_timestamp := h.timestamp } := by
    rw [overwriteIngress, hcounter]
    rcases hop with hop | hop <;>
      simp [parse_kvmsg, hflag, hop, overwriteTimecheck, timecmp, hbox, visibilityTable,
        overwriteNewIndex, hsame, Ne.symm hother]
  rw [hresult, hbox]
  refine ⟨⟨rfl, rfl, rfl, ⟨count, rfl⟩, ?_, rfl, rfl⟩, rfl⟩
  simp [udp_route, parse_kvmsg]

theorem overwriteIngress_install {regs : Registers} {h : Kvmsg} (hinstall : h.IsInstall)
    (hcurrent : regs.Current h)
    (hfree : (regs.key_check h.key).lo = 0 ∨ (regs.key_check h.key).lo = h.key32) :
    Installs regs h (overwriteIngress (parse_kvmsg regs h)) ∧
      (overwriteIngress (parse_kvmsg regs h)).regs.timestamp1 =
        Function.update regs.timestamp1 h.key
          (timecmp_box (regs.timestamp1 h.key) h.timestamp) := by
  obtain ⟨hflag, hop⟩ := hinstall
  have hbox : timecmp_box (regs.timestamp1 h.key) h.timestamp = h.timestamp :=
    (timecmp_box_eq_iff _ _).mpr hcurrent
  have hwrite : overwrite_write_data_reply (regs.key_check h.key) h.key32 h.rpc_id =
      ⟨h.key32, h.rpc_id⟩ := by
    rcases hfree with hfree | hfree <;> simp [overwrite_write_data_reply, hfree]
  obtain ⟨counters, count, hcounter⟩ := counter_table_eq (parse_kvmsg regs h)
  have hresult : overwriteIngress (parse_kvmsg regs h) =
      { regs :=
          { timestamp1 := Function.update regs.timestamp1 h.key h.timestamp
            key_check := Function.update regs.key_check h.key ⟨h.key32, h.rpc_id⟩
            log0 := Function.update regs.log0 h.key h.log_id0
            log1 := Function.update regs.log1 h.key h.log_id1
            index_counter := counters
            counter_entries := regs.counter_entries }
        kvmsg := { h with count := count, op := .kEnumMultiCastPkt }
        umeta_key32 := h.key32
        umeta_timestamp := h.timestamp
        ucast_egress_port := none
        mcast_grp_a := some h.route_map
        dropped := false } := by
    rw [overwriteIngress, hcounter]
    rcases hop with hop | hop <;>
      simp [parse_kvmsg, hflag, hop, overwriteTimecheck, timecmp, hbox, visibilityTable,
        overwriteNewIndex, hwrite, key2logid0, key2logid1]
  rw [hresult, hbox]
  exact ⟨⟨rfl, rfl, rfl, ⟨count, rfl⟩, rfl, rfl, rfl⟩, rfl⟩

/-! ### `p4_fw.p4` -/

theorem fwIngress_unflagged {regs : Registers} {h : Kvmsg} (hkey : h.key32 ≠ 0)
    (hflag : h.flag ≠ visibility) : Forwards regs h (fwIngress (parse_kvmsg regs h)) := by
  obtain ⟨counters, count, hcounter⟩ := counter_table_eq (parse_kvmsg regs h)
  have hresult : fwIngress (parse_kvmsg regs h) =
      udp_route { parse_kvmsg regs h with
        regs := { regs with index_counter := counters }
        kvmsg := { h with count := count } } := by
    rw [fwIngress, hcounter]
    simp [parse_kvmsg, hflag, hkey]
  rw [hresult]
  refine ⟨rfl, rfl, rfl, ⟨count, rfl⟩, ?_, rfl, rfl⟩
  simp [udp_route, parse_kvmsg]

theorem fwIngress_other {regs : Registers} {h : Kvmsg} (hkey : h.key32 ≠ 0)
    (hflag : h.flag = visibility) (hop : ¬ SlotOp h.op) :
    Forwards regs h (fwIngress (parse_kvmsg regs h)) := by
  obtain ⟨counters, count, hcounter⟩ := counter_table_eq (parse_kvmsg regs h)
  have hreply : h.op ≠ .ReplySwitch := fun hreply ↦ hop (Or.inr (Or.inr (Or.inl hreply)))
  have hresult : fwIngress (parse_kvmsg regs h) =
      udp_route { parse_kvmsg regs h with
        regs := { regs with index_counter := counters }
        kvmsg := { h with count := count }
        umeta_timestamp := h.timestamp } := by
    rw [fwIngress, hcounter]
    simp [parse_kvmsg, timecpy, hflag, hkey, hreply, hop, visibilityTable_other]
  rw [hresult]
  refine ⟨rfl, rfl, rfl, ⟨count, rfl⟩, ?_, rfl, rfl⟩
  simp [udp_route, parse_kvmsg]

theorem fwIngress_lookup_hit {regs : Registers} {h : Kvmsg} (hlookup : h.IsLookup)
    (hlo : (regs.key_check h.key).lo = h.key32) :
    Answers regs h (fwIngress (parse_kvmsg regs h)) := by
  obtain ⟨hflag, hop⟩ := hlookup
  obtain ⟨counters, count, hcounter⟩ := counter_table_eq (parse_kvmsg regs h)
  have hresult : fwIngress (parse_kvmsg regs h) =
      { regs := { regs with index_counter := counters }
        kvmsg := { h with
          count := count, log_id0 := regs.log0 h.key, log_id1 := regs.log1 h.key }
        umeta_key32 := h.key32
        umeta_timestamp := h.timestamp
        ucast_egress_port := some h.route_port
        mcast_grp_a := none
        dropped := false } := by
    rw [fwIngress, hcounter]
    simp [parse_kvmsg, hflag, hop, visibilityTable, timecpy, check_index, key2logid0, key2logid1,
      hlo]
  rw [hresult]
  exact ⟨rfl, rfl, rfl, ⟨count, rfl⟩, rfl, rfl, rfl⟩

theorem fwIngress_lookup_miss {regs : Registers} {h : Kvmsg} (hlookup : h.IsLookup)
    (hlo : (regs.key_check h.key).lo ≠ h.key32) :
    Forwards regs h (fwIngress (parse_kvmsg regs h)) := by
  obtain ⟨hflag, hop⟩ := hlookup
  obtain ⟨counters, count, hcounter⟩ := counter_table_eq (parse_kvmsg regs h)
  have hresult : fwIngress (parse_kvmsg regs h) =
      udp_route { parse_kvmsg regs h with
        regs := { regs with index_counter := counters }
        kvmsg := { h with count := count }
        umeta_key32 := (regs.key_check h.key).lo
        umeta_timestamp := h.timestamp } := by
    rw [fwIngress, hcounter]
    simp [parse_kvmsg, hflag, hop, visibilityTable, timecpy, check_index, Ne.symm hlo]
  rw [hresult]
  refine ⟨rfl, rfl, rfl, ⟨count, rfl⟩, ?_, rfl, rfl⟩
  simp [udp_route, parse_kvmsg]

theorem fwIngress_clear {regs : Registers} {h : Kvmsg} (hkey : h.key32 ≠ 0)
    (hclear : h.IsClear) : Drops regs h (fwIngress (parse_kvmsg regs h)) := by
  obtain ⟨hflag, hop⟩ := hclear
  obtain ⟨counters, count, hcounter⟩ := counter_table_eq (parse_kvmsg regs h)
  have hresult : fwIngress (parse_kvmsg regs h) =
      udp_route { parse_kvmsg regs h with
        regs := { regs with
          key_check := Function.update regs.key_check h.key
            (write_index_reply (regs.key_check h.key) h.rpc_id)
          index_counter := counters }
        kvmsg := { h with count := count }
        umeta_timestamp := h.timestamp
        dropped := true } := by
    rw [fwIngress, hcounter]
    simp [parse_kvmsg, hflag, hop, hkey, visibilityTable, timecpy, delete_index, drop_table0]
  rw [hresult]
  exact ⟨rfl, rfl, rfl, rfl, rfl⟩

theorem fwIngress_install_occupied {regs : Registers} {h : Kvmsg} (hkey : h.key32 ≠ 0)
    (hinstall : h.IsInstall) (hlo : (regs.key_check h.key).lo ≠ 0) :
    Forwards regs h (fwIngress (parse_kvmsg regs h)) := by
  obtain ⟨hflag, hop⟩ := hinstall
  have hsame : fw_write_data_reply (regs.key_check h.key) h.key32 h.rpc_id =
      regs.key_check h.key := by
    simp [fw_write_data_reply, hlo]
  obtain ⟨counters, count, hcounter⟩ := counter_table_eq (parse_kvmsg regs h)
  have hresult : fwIngress (parse_kvmsg regs h) =
      udp_route { parse_kvmsg regs h with
        regs := { regs with index_counter := counters }
        kvmsg := { h with count := count }
        umeta_timestamp := h.timestamp } := by
    rw [fwIngress, hcounter]
    rcases hop with hop | hop <;>
      simp [parse_kvmsg, hflag, hop, hkey, visibilityTable, timecpy, fwNewIndex, hsame, hlo]
  rw [hresult]
  refine ⟨rfl, rfl, rfl, ⟨count, rfl⟩, ?_, rfl, rfl⟩
  simp [udp_route, parse_kvmsg]

theorem fwIngress_install {regs : Registers} {h : Kvmsg} (hinstall : h.IsInstall)
    (hlo : (regs.key_check h.key).lo = 0) :
    Installs regs h (fwIngress (parse_kvmsg regs h)) := by
  obtain ⟨hflag, hop⟩ := hinstall
  obtain ⟨counters, count, hcounter⟩ := counter_table_eq (parse_kvmsg regs h)
  have hresult : fwIngress (parse_kvmsg regs h) =
      { regs := { regs with
          key_check := Function.update regs.key_check h.key ⟨h.key32, h.rpc_id⟩
          log0 := Function.update regs.log0 h.key h.log_id0
          log1 := Function.update regs.log1 h.key h.log_id1
          index_counter := counters }
        kvmsg := { h with count := count, op := .kEnumMultiCastPkt }
        umeta_key32 := h.key32
        umeta_timestamp := h.timestamp
        ucast_egress_port := none
        mcast_grp_a := some h.route_map
        dropped := false } := by
    rw [fwIngress, hcounter]
    rcases hop with hop | hop <;>
      simp [parse_kvmsg, hflag, hop, visibilityTable, timecpy, fwNewIndex, fw_write_data_reply,
        hlo, key2logid0, key2logid1]
  rw [hresult]
  exact ⟨rfl, rfl, rfl, ⟨count, rfl⟩, rfl, rfl, rfl⟩

/-! ### Both programs -/

/-- An install that its program accepts becomes the entry of its slot. -/
theorem ingress_install {prog : Program} {regs : Registers} {h : Kvmsg} (hinstall : h.IsInstall)
    (haccepts : AcceptsInstall prog regs h) :
    Installs regs h (ingress prog (parse_kvmsg regs h)) := by
  cases prog with
  | overwrite => exact (overwriteIngress_install hinstall haccepts.1 haccepts.2).1
  | p4_fw => exact fwIngress_install hinstall haccepts

/-- An install that its program refuses goes on to the port of its node. -/
theorem ingress_refuse {prog : Program} {regs : Registers} {h : Kvmsg} (hkey : h.key32 ≠ 0)
    (hinstall : h.IsInstall) (hrefuses : ¬ AcceptsInstall prog regs h) :
    Forwards regs h (ingress prog (parse_kvmsg regs h)) := by
  cases prog with
  | overwrite =>
    by_cases hcurrent : regs.Current h
    · have hoccupied : ¬ ((regs.key_check h.key).lo = 0 ∨
          (regs.key_check h.key).lo = h.key32) := fun hfree ↦ hrefuses ⟨hcurrent, hfree⟩
      rw [not_or] at hoccupied
      exact (overwriteIngress_install_occupied hinstall hcurrent hoccupied.1 hoccupied.2).1
    · exact (overwriteIngress_install_stale hkey hinstall hcurrent).1
  | p4_fw => exact fwIngress_install_occupied hkey hinstall hrefuses

/-- A lookup that finds its fingerprint is answered from the registers. -/
theorem ingress_lookup_hit {prog : Program} {regs : Registers} {h : Kvmsg} (hlookup : h.IsLookup)
    (hlo : (regs.key_check h.key).lo = h.key32) :
    Answers regs h (ingress prog (parse_kvmsg regs h)) := by
  cases prog with
  | overwrite => exact (overwriteIngress_lookup_hit hlookup hlo).1
  | p4_fw => exact fwIngress_lookup_hit hlookup hlo

/-- A lookup that does not find its fingerprint goes on to the port of its node. -/
theorem ingress_lookup_miss {prog : Program} {regs : Registers} {h : Kvmsg}
    (hlookup : h.IsLookup) (hlo : (regs.key_check h.key).lo ≠ h.key32) :
    Forwards regs h (ingress prog (parse_kvmsg regs h)) := by
  cases prog with
  | overwrite => exact (overwriteIngress_lookup_miss hlookup hlo).1
  | p4_fw => exact fwIngress_lookup_miss hlookup hlo

/-- A flagged `ReplySwitch` is dropped. -/
theorem ingress_clear {prog : Program} {regs : Registers} {h : Kvmsg} (hkey : h.key32 ≠ 0)
    (hclear : h.IsClear) : Drops regs h (ingress prog (parse_kvmsg regs h)) := by
  cases prog with
  | overwrite => exact (overwriteIngress_clear hkey hclear).1
  | p4_fw => exact fwIngress_clear hkey hclear

/-- A packet that is no install, no lookup and no clear goes on to the port of its node. -/
theorem ingress_pass {prog : Program} {regs : Registers} {h : Kvmsg} (hkey : h.key32 ≠ 0)
    (hpass : h.flag ≠ visibility ∨ ¬ SlotOp h.op) :
    Forwards regs h (ingress prog (parse_kvmsg regs h)) := by
  by_cases hflag : h.flag = visibility
  · have hop : ¬ SlotOp h.op := hpass.resolve_left (not_not.mpr hflag)
    cases prog with
    | overwrite => exact (overwriteIngress_other hkey hflag hop).1
    | p4_fw => exact fwIngress_other hkey hflag hop
  · cases prog with
    | overwrite => exact (overwriteIngress_unflagged hkey hflag).1
    | p4_fw => exact fwIngress_unflagged hkey hflag

/-- Every packet is disposed of in exactly one of the four ways. -/
theorem ingress_cases (prog : Program) (regs : Registers) {h : Kvmsg} (hkey : h.key32 ≠ 0) :
    (h.IsInstall ∧ AcceptsInstall prog regs h ∧
      Installs regs h (ingress prog (parse_kvmsg regs h))) ∨
    (h.IsClear ∧ Drops regs h (ingress prog (parse_kvmsg regs h))) ∨
    (h.IsLookup ∧ (regs.key_check h.key).lo = h.key32 ∧
      Answers regs h (ingress prog (parse_kvmsg regs h))) ∨
    (¬ (h.IsInstall ∧ AcceptsInstall prog regs h) ∧ ¬ h.IsClear ∧
      ¬ (h.IsLookup ∧ (regs.key_check h.key).lo = h.key32) ∧
      Forwards regs h (ingress prog (parse_kvmsg regs h))) := by
  have hexclusive {a b : RpcType} (hop : h.op = a) (hop' : h.op = b) : a = b := hop.symm.trans hop'
  by_cases hinstall : h.IsInstall
  · by_cases haccepts : AcceptsInstall prog regs h
    · exact Or.inl ⟨hinstall, haccepts, ingress_install hinstall haccepts⟩
    · refine Or.inr (Or.inr (Or.inr ⟨fun h' ↦ haccepts h'.2, ?_, ?_,
        ingress_refuse hkey hinstall haccepts⟩))
      · rintro ⟨-, hop⟩
        rcases hinstall.2 with hop' | hop' <;> exact absurd (hexclusive hop' hop) (by simp)
      · rintro ⟨⟨-, hop⟩, -⟩
        rcases hinstall.2 with hop' | hop' <;> exact absurd (hexclusive hop' hop) (by simp)
  · by_cases hclear : h.IsClear
    · exact Or.inr (Or.inl ⟨hclear, ingress_clear hkey hclear⟩)
    · by_cases hlookup : h.IsLookup
      · by_cases hlo : (regs.key_check h.key).lo = h.key32
        · exact Or.inr (Or.inr (Or.inl ⟨hlookup, hlo, ingress_lookup_hit hlookup hlo⟩))
        · exact Or.inr (Or.inr (Or.inr ⟨fun h' ↦ hinstall h'.1, hclear, fun h' ↦ hlo h'.2,
            ingress_lookup_miss hlookup hlo⟩))
      · refine Or.inr (Or.inr (Or.inr ⟨fun h' ↦ hinstall h'.1, hclear, fun h' ↦ hlookup h'.1,
          ingress_pass hkey ?_⟩))
        by_cases hflag : h.flag = visibility
        · refine Or.inr ?_
          rintro (hop | hop | hop | hop)
          · exact hinstall ⟨hflag, Or.inl hop⟩
          · exact hinstall ⟨hflag, Or.inr hop⟩
          · exact hclear ⟨hflag, hop⟩
          · exact hlookup ⟨hflag, hop⟩
        · exact Or.inl hflag

/-- Where a packet goes at the end of ingress. -/
inductive Destination
  | drop
  | multicast (group : UInt16)
  | unicast (port : UInt16)
  deriving DecidableEq

/-- The destination of a packet, unless it has none or two. A dropped packet goes nowhere, whatever
port was set after `drop()`. -/
def Pipe.destination (q : Pipe) : Option Destination :=
  match q.dropped, q.mcast_grp_a, q.ucast_egress_port with
  | true, _, _ => some .drop
  | false, some group, none => some (.multicast group)
  | false, none, some port => some (.unicast port)
  | false, none, none => none
  | false, some _, some _ => none

instance (prog : Program) (regs : Registers) (h : Kvmsg) :
    Decidable (AcceptsInstall prog regs h) :=
  match prog with
  | .overwrite => inferInstanceAs (Decidable (_ ∧ (_ ∨ _)))
  | .p4_fw => inferInstanceAs (Decidable (_ = _))

/-- Every packet has one destination: a flagged `ReplySwitch` is dropped, an accepted install goes to
the group `route_map` as a `kEnumMultiCastPkt`, a lookup that finds its fingerprint to `route_port`,
and every other packet to the port of its node. -/
theorem ingress_destination (prog : Program) (regs : Registers) {h : Kvmsg} (hkey : h.key32 ≠ 0)
    {port : UInt16} (hnode : portOfNode h.node_id = some port) :
    let q := ingress prog (parse_kvmsg regs h)
    q.destination = some
        (if h.IsClear then .drop
        else if h.IsInstall ∧ AcceptsInstall prog regs h then .multicast h.route_map
        else if h.IsLookup ∧ (regs.key_check h.key).lo = h.key32 then .unicast h.route_port
        else .unicast port) ∧
      (q.destination = some .drop ↔ h.flag = visibility ∧ h.op = .ReplySwitch) ∧
      (∀ group, q.destination = some (.multicast group) → q.kvmsg.op = .kEnumMultiCastPkt) ∧
      ¬ (q.mcast_grp_a.isSome ∧ q.ucast_egress_port.isSome) := by
  intro q
  have hclear : h.IsClear ↔ h.flag = visibility ∧ h.op = .ReplySwitch := Iff.rfl
  rw [← hclear]
  rcases ingress_cases prog regs hkey with
    ⟨hinstall, haccepts, hq⟩ | ⟨hclear, hq⟩ | ⟨hlookup, hlo, hq⟩ | ⟨hinstall, hclear, hlookup, hq⟩
  · have hnot : ¬ h.IsClear := by
      rintro ⟨-, hop⟩
      rcases hinstall.2 with hop' | hop' <;> exact absurd (hop'.symm.trans hop) (by simp)
    have hdest : q.destination = some (.multicast h.route_map) := by
      simp only [Pipe.destination, q, hq.dropped, hq.mcast, hq.ucast]
    obtain ⟨count, hkvmsg⟩ := hq.kvmsg
    refine ⟨?_, iff_of_false (by simp [hdest]) hnot, fun _ _ ↦ congrArg Kvmsg.op hkvmsg, ?_⟩
    · rw [hdest, if_neg hnot, if_pos ⟨hinstall, haccepts⟩]
    · simp [q, hq.ucast]
  · have hdest : q.destination = some .drop := by
      simp only [Pipe.destination, q, hq.dropped]
    refine ⟨?_, iff_of_true hdest hclear, fun group hgroup ↦ ?_, ?_⟩
    · rw [hdest, if_pos hclear]
    · exact absurd (hdest.symm.trans hgroup) (by simp)
    · simp [q, hq.mcast]
  · have hnot : ¬ h.IsClear := fun hc ↦ absurd (hlookup.2.symm.trans hc.2) (by simp)
    have hinstall : ¬ (h.IsInstall ∧ AcceptsInstall prog regs h) := by
      rintro ⟨⟨-, hop⟩, -⟩
      rcases hop with hop | hop <;> exact absurd (hop.symm.trans hlookup.2) (by simp)
    have hdest : q.destination = some (.unicast h.route_port) := by
      simp only [Pipe.destination, q, hq.dropped, hq.mcast, hq.ucast]
    refine ⟨?_, iff_of_false (by simp [hdest]) hnot, fun group hgroup ↦ ?_, ?_⟩
    · rw [hdest, if_neg hnot, if_neg hinstall, if_pos ⟨hlookup, hlo⟩]
    · exact absurd (hdest.symm.trans hgroup) (by simp)
    · simp [q, hq.mcast]
  · have hdest : q.destination = some (.unicast port) := by
      simp only [Pipe.destination, q, hq.dropped, hq.mcast, hq.ucast, hnode]
    refine ⟨?_, iff_of_false (by simp [hdest]) hclear, fun group hgroup ↦ ?_, ?_⟩
    · rw [hdest, if_neg hclear, if_neg hinstall, if_neg hlookup]
    · exact absurd (hdest.symm.trans hgroup) (by simp)
    · simp [q, hq.mcast]

/-- A flagged append reply from the data node, which finds its slot empty. -/
def sampleAppendReply : Kvmsg :=
  ⟨2, .kEnumAppendReply, visibility, 7, 1, 3, 0, 9, 136, 6, 0, 0, 0, 5⟩

theorem ingress_destination_sample :
    (ingress .overwrite (parse_kvmsg Registers.initial sampleAppendReply)).destination =
      some (.multicast 6) :=
  (ingress_destination .overwrite Registers.initial (h := sampleAppendReply) (by decide)
    (by decide : portOfNode 2 = some 136)).1

/-- No packet changes the entry registers of a slot other than its own. -/
theorem ingress_entry_of_ne (prog : Program) (regs : Registers) {h : Kvmsg} (hkey : h.key32 ≠ 0)
    {s : UInt16} (hs : s ≠ h.key) :
    (ingress prog (parse_kvmsg regs h)).regs.key_check s = regs.key_check s ∧
      (ingress prog (parse_kvmsg regs h)).regs.log0 s = regs.log0 s ∧
      (ingress prog (parse_kvmsg regs h)).regs.log1 s = regs.log1 s := by
  rcases ingress_cases prog regs hkey with ⟨-, -, hq⟩ | ⟨-, hq⟩ | ⟨-, -, hq⟩ | ⟨-, -, -, hq⟩
  · rw [hq.key_check, hq.log0, hq.log1]
    exact ⟨Function.update_of_ne hs _ _, Function.update_of_ne hs _ _,
      Function.update_of_ne hs _ _⟩
  · rw [hq.key_check, hq.log0, hq.log1]
    exact ⟨Function.update_of_ne hs _ _, rfl, rfl⟩
  · exact ⟨congrFun hq.key_check s, congrFun hq.log0 s, congrFun hq.log1 s⟩
  · exact ⟨congrFun hq.key_check s, congrFun hq.log0 s, congrFun hq.log1 s⟩

/-- The timestamp register of `overwrite.p4` after a packet: an install runs `timecmp` on it, a
clear runs `timeclr`, and every other packet leaves it. -/
theorem overwriteIngress_timestamp1 {regs : Registers} {h : Kvmsg} (hkey : h.key32 ≠ 0) :
    (overwriteIngress (parse_kvmsg regs h)).regs.timestamp1 =
      Function.update regs.timestamp1 h.key
        (if h.IsInstall then timecmp_box (regs.timestamp1 h.key) h.timestamp
        else if h.IsClear then timeclr_box (regs.timestamp1 h.key) h.timestamp
        else regs.timestamp1 h.key) := by
  by_cases hinstall : h.IsInstall
  · rw [if_pos hinstall]
    by_cases hcurrent : regs.Current h
    · by_cases hfree : (regs.key_check h.key).lo = 0 ∨ (regs.key_check h.key).lo = h.key32
      · exact (overwriteIngress_install hinstall hcurrent hfree).2
      · rw [not_or] at hfree
        exact (overwriteIngress_install_occupied hinstall hcurrent hfree.1 hfree.2).2
    · exact (overwriteIngress_install_stale hkey hinstall hcurrent).2
  · rw [if_neg hinstall]
    by_cases hclear : h.IsClear
    · rw [if_pos hclear]
      exact (overwriteIngress_clear hkey hclear).2
    · rw [if_neg hclear, Function.update_eq_self]
      by_cases hflag : h.flag = visibility
      · by_cases hlookup : h.IsLookup
        · by_cases hlo : (regs.key_check h.key).lo = h.key32
          · exact (overwriteIngress_lookup_hit hlookup hlo).2
          · exact (overwriteIngress_lookup_miss hlookup hlo).2
        · refine (overwriteIngress_other hkey hflag ?_).2
          rintro (hop | hop | hop | hop)
          · exact hinstall ⟨hflag, Or.inl hop⟩
          · exact hinstall ⟨hflag, Or.inr hop⟩
          · exact hclear ⟨hflag, hop⟩
          · exact hlookup ⟨hflag, hop⟩
      · exact (overwriteIngress_unflagged hkey hflag).2

/-! ### The counters -/

/-- The counters of the switch, with the entries that say what they count. -/
def Registers.counters (regs : Registers) : (UInt16 → UInt16) × CounterEntries :=
  (regs.index_counter, regs.counter_entries)

theorem timecheck_counters (p : Pipe) :
    (overwriteTimecheck p).regs.counters = p.regs.counters := by
  unfold overwriteTimecheck
  split <;> rfl

theorem visibilityTable_counters {new_index : Pipe → Pipe}
    (h : ∀ p, (new_index p).regs.counters = p.regs.counters) (p : Pipe) :
    (visibilityTable new_index p).regs.counters = p.regs.counters := by
  unfold visibilityTable
  split
  · exact h p
  · exact h p
  all_goals rfl

theorem key2logid_counters (p : Pipe) :
    (key2logid1 (key2logid0 p)).regs.counters = p.regs.counters := by
  have h0 : (key2logid0 p).regs.counters = p.regs.counters := by
    unfold key2logid0
    split <;> rfl
  have h1 (q : Pipe) : (key2logid1 q).regs.counters = q.regs.counters := by
    unfold key2logid1
    split <;> rfl
  rw [h1, h0]

/-- Both programs count a packet, and nothing else in them changes a counter. -/
theorem ingress_counters (program : Program) (regs : Registers) (h : Kvmsg) :
    (ingress program (parse_kvmsg regs h)).regs.counters =
      (counter_table (parse_kvmsg regs h)).regs.counters := by
  have hoverwrite := @visibilityTable_counters overwriteNewIndex fun _ ↦ rfl
  have hfw := @visibilityTable_counters fwNewIndex fun _ ↦ rfl
  cases program with
  | overwrite =>
    simp only [ingress, overwriteIngress, udp_route, drop_table0]
    split_ifs <;> simp only [key2logid_counters, hoverwrite, timecheck_counters]
  | p4_fw =>
    have htimecpy (p : Pipe) : (timecpy p).regs.counters = p.regs.counters := rfl
    simp only [ingress, fwIngress, udp_route, drop_table0]
    split_ifs <;> simp only [key2logid_counters, hfw, htimecpy]

/-- No packet changes the entries of `counter_table`. -/
theorem ingress_counter_entries (program : Program) (regs : Registers) (h : Kvmsg) :
    (ingress program (parse_kvmsg regs h)).regs.counter_entries = regs.counter_entries := by
  refine (congrArg Prod.snd (ingress_counters program regs h)).trans ?_
  obtain ⟨counters, count, hcounter⟩ := counter_table_eq (parse_kvmsg regs h)
  rw [hcounter]
  rfl

/-- The packet counts a write up. -/
def Kvmsg.CountsUp (h : Kvmsg) (port : UInt16) : Prop :=
  h.op = .kEnumAppendReq ∧ h.index_port = port

instance (h : Kvmsg) (port : UInt16) : Decidable (h.CountsUp port) :=
  inferInstanceAs (Decidable (_ ∧ _))

/-- The packet counts a write down. -/
def Kvmsg.CountsDown (h : Kvmsg) (port : UInt16) : Prop :=
  (h.op = .ReplySwitch ∨ h.op = .kEnumUpdateIndexReply) ∧ h.index_port = port

instance (h : Kvmsg) (port : UInt16) : Decidable (h.CountsDown port) :=
  inferInstanceAs (Decidable (_ ∧ _))

/-- The counter of a port with entries moves with the packets that carry this port, and no other
packet touches it. -/
theorem counter_table_index_counter {p : Pipe} {port id : UInt16}
    (hentry : p.regs.counter_entries.id port = some id) :
    (counter_table p).regs.index_counter id = p.regs.index_counter id +
      (if p.kvmsg.CountsUp port then 1 else 0) - (if p.kvmsg.CountsDown port then 1 else 0) := by
  by_cases hport : p.kvmsg.index_port = port
  · subst hport
    rw [counter_table, hentry]
    cases hop : p.kvmsg.op <;> simp [writeCounter, Kvmsg.CountsUp, Kvmsg.CountsDown, hop]
  · have hup : ¬ p.kvmsg.CountsUp port := fun h ↦ hport h.2
    have hdown : ¬ p.kvmsg.CountsDown port := fun h ↦ hport h.2
    rw [if_neg hup, if_neg hdown, add_zero, sub_zero, counter_table]
    cases hother : p.regs.counter_entries.id p.kvmsg.index_port with
    | none => rfl
    | some id' =>
      -- the entries of the other port work on another instance
      have hne : id ≠ id' := by
        rintro rfl
        exact hport (p.regs.counter_entries.id_inj hother hentry)
      cases p.kvmsg.op <;> simp [writeCounter, Function.update_of_ne hne]

theorem ingress_index_counter (program : Program) {regs : Registers} (h : Kvmsg) {port id : UInt16}
    (hentry : regs.counter_entries.id port = some id) :
    (ingress program (parse_kvmsg regs h)).regs.index_counter id = regs.index_counter id +
      (if h.CountsUp port then 1 else 0) - (if h.CountsDown port then 1 else 0) := by
  have hcounters := congrArg Prod.fst (ingress_counters program regs h)
  exact (congrFun hcounters id).trans
    (@counter_table_index_counter (parse_kvmsg regs h) port id hentry)

end SwitchDelta.Switch
