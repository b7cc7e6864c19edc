import SwitchDelta.Switch.Disposition

/-!
# A slot of the overwrite switch as an optional entry

Four register arrays of `overwrite.p4` describe one slot. Here they are read as a single value, a
timestamp together with an optional entry of fingerprint, `rpc_id` and the two halves of a log
position. `Slot.step` says what a packet of the slot does to that value, without reference to the
registers, and `slotOf_overwriteRun` shows that the registers follow it over every packet sequence.

The entry of a slot is always the most recent install the switch accepted for it
(`slotRun_entry_mostRecent`), so a lookup never returns the halves of two writes.
-/

set_option autoImplicit false
set_option relaxedAutoImplicit false

namespace SwitchDelta.Switch

open Kv

/-! ### The abstract slot -/

/-- The entry of an occupied slot. -/
structure Entry where
  fingerprint : UInt32
  rpc_id : UInt32
  log_id0 : UInt32
  log_id1 : UInt32
  deriving DecidableEq

/-- A slot: its timestamp and its entry, if it holds one. -/
@[ext]
structure Slot where
  timestamp : UInt32
  entry : Option Entry
  deriving DecidableEq

/-- The slot of a switch that has seen no packet. -/
def Slot.empty : Slot := ⟨0, none⟩

/-- The entry that an install packet writes. -/
def Kvmsg.entry (h : Kvmsg) : Entry := ⟨h.key32, h.rpc_id, h.log_id0, h.log_id1⟩

/-- The slot holds an entry of the given fingerprint. -/
def Slot.Holds (slot : Slot) (fingerprint : UInt32) : Prop :=
  ∃ entry ∈ slot.entry, entry.fingerprint = fingerprint

/-- The timestamp of the slot does not exceed that of the packet, where zero means none. -/
def Slot.Current (slot : Slot) (h : Kvmsg) : Prop :=
  slot.timestamp = 0 ∨ slot.timestamp ≤ h.timestamp

/-- An install is accepted when it is current and the slot is empty or has its fingerprint. -/
def Slot.Accepts (slot : Slot) (h : Kvmsg) : Prop :=
  slot.Current h ∧ (slot.entry = none ∨ slot.Holds h.key32)

instance (slot : Slot) (fingerprint : UInt32) : Decidable (slot.Holds fingerprint) :=
  inferInstanceAs (Decidable (∃ entry ∈ slot.entry, entry.fingerprint = fingerprint))

instance (slot : Slot) (h : Kvmsg) : Decidable (slot.Current h) :=
  inferInstanceAs (Decidable (_ ∨ _))

instance (slot : Slot) (h : Kvmsg) : Decidable (slot.Accepts h) :=
  inferInstanceAs (Decidable (_ ∧ _))

/-- What a packet of the slot does to it. A current install raises the timestamp even when another
fingerprint keeps its entry out; a clear resets the timestamp and the entry by separate tests. -/
def Slot.step (slot : Slot) (h : Kvmsg) : Slot :=
  if h.IsInstall then
    { timestamp := if slot.Current h then h.timestamp else slot.timestamp
      entry := if slot.Accepts h then some h.entry else slot.entry }
  else if h.IsClear then
    { timestamp := if slot.timestamp = h.timestamp then 0 else slot.timestamp
      entry := slot.entry.filter fun entry ↦ entry.rpc_id ≠ h.rpc_id }
  else slot

/-- The slot `s` after a sequence of packets, of which only those with key `s` matter. -/
def slotRun (s : UInt16) (packets : List Kvmsg) : Slot :=
  (packets.filter fun h ↦ h.key = s).foldl Slot.step Slot.empty

/-! ### The registers of a slot -/

/-- The registers of slot `s`, read as a slot. Fingerprint zero is the mark of an empty slot. -/
def slotOf (regs : Registers) (s : UInt16) : Slot where
  timestamp := regs.timestamp1 s
  entry :=
    if (regs.key_check s).lo = 0 then none
    else some ⟨(regs.key_check s).lo, (regs.key_check s).hi, regs.log0 s, regs.log1 s⟩

/-- The registers after a sequence of packets, processed one at a time by `overwrite.p4`. -/
def overwriteRun (regs : Registers) (packets : List Kvmsg) : Registers :=
  packets.foldl (fun regs h ↦ (overwriteIngress (parse_kvmsg regs h)).regs) regs

@[simp] theorem slotOf_initial (s : UInt16) : slotOf Registers.initial s = Slot.empty := rfl

theorem slotOf_current_iff {regs : Registers} {h : Kvmsg} :
    (slotOf regs h.key).Current h ↔ regs.Current h := Iff.rfl

theorem slotOf_entry_eq_none_iff {regs : Registers} {s : UInt16} :
    (slotOf regs s).entry = none ↔ (regs.key_check s).lo = 0 := by
  unfold slotOf
  split_ifs with hlo <;> simp [hlo]

theorem slotOf_holds_iff {regs : Registers} {s : UInt16} {fingerprint : UInt32}
    (hfingerprint : fingerprint ≠ 0) :
    (slotOf regs s).Holds fingerprint ↔ (regs.key_check s).lo = fingerprint := by
  unfold Slot.Holds slotOf
  split_ifs with hlo
  · rw [hlo]
    simpa using Ne.symm hfingerprint
  · simp

theorem slotOf_accepts_iff {regs : Registers} {h : Kvmsg} (hkey : h.key32 ≠ 0) :
    (slotOf regs h.key).Accepts h ↔ AcceptsInstall .overwrite regs h := by
  unfold Slot.Accepts AcceptsInstall
  rw [slotOf_entry_eq_none_iff, slotOf_holds_iff hkey, slotOf_current_iff]

/-! ### One packet -/

theorem Slot.step_install {slot : Slot} {h : Kvmsg} (hinstall : h.IsInstall) :
    slot.step h =
      { timestamp := if slot.Current h then h.timestamp else slot.timestamp
        entry := if slot.Accepts h then some h.entry else slot.entry } :=
  if_pos hinstall

theorem Slot.step_clear (slot : Slot) {h : Kvmsg} (hclear : h.IsClear) :
    slot.step h =
      { timestamp := if slot.timestamp = h.timestamp then 0 else slot.timestamp
        entry := slot.entry.filter fun entry ↦ entry.rpc_id ≠ h.rpc_id } := by
  have hinstall : ¬ h.IsInstall := by
    rintro ⟨-, hop | hop⟩ <;> exact absurd (hop.symm.trans hclear.2) (by simp)
  rw [Slot.step, if_neg hinstall, if_pos hclear]

theorem Slot.step_other {slot : Slot} {h : Kvmsg} (hinstall : ¬ h.IsInstall)
    (hclear : ¬ h.IsClear) : slot.step h = slot := by
  rw [Slot.step, if_neg hinstall, if_neg hclear]

/-- `timecmp_box` replaces the timestamp of a slot exactly for a current packet. -/
theorem timecmp_box_eq_ite (slot : Slot) (h : Kvmsg) :
    timecmp_box slot.timestamp h.timestamp =
      if slot.Current h then h.timestamp else slot.timestamp := by
  split_ifs with hcurrent
  · exact (timecmp_box_eq_iff _ _).mpr hcurrent
  · unfold timecmp_box
    refine if_neg fun hupdate ↦ hcurrent ?_
    exact hupdate.imp_right fun hlt ↦ UInt32.le_of_lt hlt

/-- The timestamp of the packet's own slot follows `Slot.step`. -/
theorem slotOf_step_timestamp {regs : Registers} {h : Kvmsg} (hkey : h.key32 ≠ 0) :
    (overwriteIngress (parse_kvmsg regs h)).regs.timestamp1 h.key =
      ((slotOf regs h.key).step h).timestamp := by
  rw [overwriteIngress_timestamp1 hkey, Function.update_self]
  by_cases hinstall : h.IsInstall
  · rw [if_pos hinstall, Slot.step_install hinstall]
    exact timecmp_box_eq_ite (slotOf regs h.key) h
  · rw [if_neg hinstall]
    by_cases hclear : h.IsClear
    · rw [if_pos hclear, Slot.step_clear _ hclear]
      rfl
    · rw [if_neg hclear, Slot.step_other hinstall hclear]
      rfl

/-- Only the registers `key_check`, `log0` and `log1` enter the entry of a slot. -/
theorem slotOf_entry_congr {regs regs' : Registers} {s : UInt16}
    (hcheck : regs'.key_check s = regs.key_check s) (hlog0 : regs'.log0 s = regs.log0 s)
    (hlog1 : regs'.log1 s = regs.log1 s) : (slotOf regs' s).entry = (slotOf regs s).entry := by
  simp only [slotOf, hcheck, hlog0, hlog1]

theorem Installs.entry_self {regs : Registers} {h : Kvmsg} {q : Pipe} (hkey : h.key32 ≠ 0)
    (hq : Installs regs h q) : (slotOf q.regs h.key).entry = some h.entry := by
  simp [slotOf, hq.key_check, hq.log0, hq.log1, hkey, Kvmsg.entry]

theorem Drops.entry_self {regs : Registers} {h : Kvmsg} {q : Pipe} (hq : Drops regs h q) :
    (slotOf q.regs h.key).entry =
      (slotOf regs h.key).entry.filter fun entry ↦ entry.rpc_id ≠ h.rpc_id := by
  by_cases hlo : (regs.key_check h.key).lo = 0
  · have hnone : (write_index_reply (regs.key_check h.key) h.rpc_id).lo = 0 := by
      unfold write_index_reply
      split_ifs
      · rfl
      · exact hlo
    simp [slotOf, hq.key_check, hnone, hlo]
  · by_cases hmatch : h.rpc_id = (regs.key_check h.key).hi
    · simp [slotOf, hq.key_check, write_index_reply, hmatch, hlo, Option.filter]
    · simp [slotOf, hq.key_check, hq.log0, hq.log1, write_index_reply, hmatch, hlo,
        Option.filter, Ne.symm hmatch]

/-- The entry of the packet's own slot follows `Slot.step`. -/
theorem slotOf_step_entry {regs : Registers} {h : Kvmsg} (hkey : h.key32 ≠ 0) :
    (slotOf (overwriteIngress (parse_kvmsg regs h)).regs h.key).entry =
      ((slotOf regs h.key).step h).entry := by
  rcases ingress_cases .overwrite regs hkey with ⟨hinstall, haccepts, hq⟩ | ⟨hclear, hq⟩ |
    ⟨hlookup, -, hq⟩ | ⟨hinstall, hclear, -, hq⟩
  · rw [Slot.step_install hinstall, if_pos ((slotOf_accepts_iff hkey).mpr haccepts)]
    exact hq.entry_self hkey
  · rw [Slot.step_clear _ hclear]
    exact hq.entry_self
  · have hinstall : ¬ h.IsInstall := by
      rintro ⟨-, hop | hop⟩ <;> exact absurd (hop.symm.trans hlookup.2) (by simp)
    have hclear : ¬ h.IsClear := fun hclear ↦
      absurd (hclear.2.symm.trans hlookup.2) (by simp)
    rw [Slot.step_other hinstall hclear]
    exact slotOf_entry_congr (congrFun hq.key_check _) (congrFun hq.log0 _) (congrFun hq.log1 _)
  · have hsame : (slotOf (overwriteIngress (parse_kvmsg regs h)).regs h.key).entry =
        (slotOf regs h.key).entry :=
      slotOf_entry_congr (congrFun hq.key_check _) (congrFun hq.log0 _) (congrFun hq.log1 _)
    rw [hsame]
    by_cases hinstall' : h.IsInstall
    · have hrefused : ¬ (slotOf regs h.key).Accepts h := fun haccepts ↦
        hinstall ⟨hinstall', (slotOf_accepts_iff hkey).mp haccepts⟩
      rw [Slot.step_install hinstall', if_neg hrefused]
    · rw [Slot.step_other hinstall' hclear]

/-- One packet takes its own slot one step and leaves every other slot. -/
theorem slotOf_step {regs : Registers} {h : Kvmsg} (hkey : h.key32 ≠ 0) (s : UInt16) :
    slotOf (overwriteIngress (parse_kvmsg regs h)).regs s =
      if h.key = s then (slotOf regs s).step h else slotOf regs s := by
  split_ifs with hs
  · subst hs
    exact Slot.ext (slotOf_step_timestamp hkey) (slotOf_step_entry hkey)
  · obtain ⟨hcheck, hlog0, hlog1⟩ := ingress_entry_of_ne .overwrite regs hkey (Ne.symm hs)
    refine Slot.ext ?_ (slotOf_entry_congr hcheck hlog0 hlog1)
    change (overwriteIngress (parse_kvmsg regs h)).regs.timestamp1 s = regs.timestamp1 s
    rw [overwriteIngress_timestamp1 hkey, Function.update_of_ne (Ne.symm hs)]

/-! ### Packet sequences -/

theorem slotRun_concat (s : UInt16) (packets : List Kvmsg) (h : Kvmsg) :
    slotRun s (packets ++ [h]) =
      if h.key = s then (slotRun s packets).step h else slotRun s packets := by
  unfold slotRun
  split_ifs with hs <;> simp [hs]

theorem overwriteRun_concat (regs : Registers) (packets : List Kvmsg) (h : Kvmsg) :
    overwriteRun regs (packets ++ [h]) =
      (overwriteIngress (parse_kvmsg (overwriteRun regs packets) h)).regs := by
  simp [overwriteRun]

/-- The registers of every slot follow the abstract slot over every packet sequence. -/
theorem slotOf_overwriteRun (packets : List Kvmsg) (hkeys : ∀ h ∈ packets, h.key32 ≠ 0)
    (s : UInt16) : slotOf (overwriteRun Registers.initial packets) s = slotRun s packets := by
  induction packets using List.reverseRecOn with
  | nil => rfl
  | append_singleton packets h ih =>
    have hrest : ∀ p ∈ packets, p.key32 ≠ 0 := fun p hp ↦
      hkeys p (List.mem_append_left _ hp)
    have hkey : h.key32 ≠ 0 := hkeys h (by simp)
    rw [overwriteRun_concat, slotOf_step hkey, ih hrest, slotRun_concat]

/-- The packet `w` is the most recent install that slot `s` accepted in the sequence. -/
def MostRecentInstall (packets : List Kvmsg) (s : UInt16) (w : Kvmsg) : Prop :=
  ∃ before after, packets = before ++ w :: after ∧ w.key = s ∧ w.IsInstall ∧
    (slotRun s before).Accepts w ∧
    ∀ between v later, after = between ++ v :: later → v.key = s → v.IsInstall →
      ¬ (slotRun s (before ++ w :: between)).Accepts v

/-- The most recent accepted install stays the most recent after a packet that is not one. -/
theorem MostRecentInstall.concat {packets : List Kvmsg} {s : UInt16} {w : Kvmsg} {h : Kvmsg}
    (hrecent : MostRecentInstall packets s w)
    (hrefused : h.key = s → h.IsInstall → ¬ (slotRun s packets).Accepts h) :
    MostRecentInstall (packets ++ [h]) s w := by
  obtain ⟨before, after, rfl, hkey, hinstall, haccepts, hlast⟩ := hrecent
  refine ⟨before, after ++ [h], by simp, hkey, hinstall, haccepts, ?_⟩
  intro between v later hsplit
  rcases List.eq_nil_or_concat later with rfl | ⟨later, x, rfl⟩
  · obtain ⟨rfl, hv⟩ := List.append_inj' hsplit rfl
    obtain rfl : h = v := by simpa using hv
    exact hrefused
  · have hsplit' : after ++ [h] = (between ++ v :: later) ++ [x] := by simpa using hsplit
    exact hlast between v later (List.append_inj' hsplit' rfl).1

/-- The entry that a slot holds is the one its most recent accepted install wrote. -/
theorem slotRun_entry_mostRecent {packets : List Kvmsg} {s : UInt16} {entry : Entry}
    (hentry : (slotRun s packets).entry = some entry) :
    ∃ w, MostRecentInstall packets s w ∧ entry = w.entry := by
  induction packets using List.reverseRecOn with
  | nil => exact absurd hentry (by simp [slotRun, Slot.empty])
  | append_singleton packets h ih =>
    rw [slotRun_concat] at hentry
    by_cases hs : h.key = s
    · rw [if_pos hs] at hentry
      by_cases hinstall : h.IsInstall
      · rw [Slot.step_install hinstall] at hentry
        by_cases haccepts : (slotRun s packets).Accepts h
        · -- the new packet is itself the most recent accepted install
          obtain rfl : h.entry = entry := by simpa [haccepts] using hentry
          exact ⟨h, ⟨packets, [], rfl, hs, hinstall, haccepts, by simp⟩, rfl⟩
        · obtain ⟨w, hrecent, rfl⟩ := ih (by simpa [haccepts] using hentry)
          exact ⟨w, hrecent.concat fun _ _ ↦ haccepts, rfl⟩
      · have hkept : (slotRun s packets).entry = some entry := by
          by_cases hclear : h.IsClear
          · rw [Slot.step_clear _ hclear] at hentry
            exact (Option.filter_eq_some_iff.mp hentry).1
          · rwa [Slot.step_other hinstall hclear] at hentry
        obtain ⟨w, hrecent, rfl⟩ := ih hkept
        exact ⟨w, hrecent.concat fun _ h' ↦ absurd h' hinstall, rfl⟩
    · rw [if_neg hs] at hentry
      obtain ⟨w, hrecent, rfl⟩ := ih hentry
      exact ⟨w, hrecent.concat fun h' ↦ absurd h' hs, rfl⟩

/-! ### What leaves the switch -/

theorem Forwards.egressPorts {regs : Registers} {h : Kvmsg} {q : Pipe} (hq : Forwards regs h q) :
    q.egressPorts = (portOfNode h.node_id).toList := by
  simp [Pipe.egressPorts, hq.dropped, hq.ucast, hq.mcast]

theorem Answers.egressPorts {regs : Registers} {h : Kvmsg} {q : Pipe} (hq : Answers regs h q) :
    q.egressPorts = [h.route_port] := by
  simp [Pipe.egressPorts, hq.dropped, hq.ucast, hq.mcast]

theorem Installs.egressPorts {regs : Registers} {h : Kvmsg} {q : Pipe} (hq : Installs regs h q) :
    q.egressPorts = multicastPorts h.route_map := by
  simp [Pipe.egressPorts, hq.dropped, hq.ucast, hq.mcast]

theorem Drops.egressPorts {regs : Registers} {h : Kvmsg} {q : Pipe} (hq : Drops regs h q) :
    q.egressPorts = [] := by
  simp [Pipe.egressPorts, hq.dropped]

/-- The answer to a lookup: the packet leaves through its `route_port` alone and carries the two
log halves of the entry. -/
structure AnswersLookup (h : Kvmsg) (entry : Entry) (q : Pipe) : Prop where
  ucast : q.ucast_egress_port = some h.route_port
  egressPorts : q.egressPorts = [h.route_port]
  log_id0 : q.kvmsg.log_id0 = entry.log_id0
  log_id1 : q.kvmsg.log_id1 = entry.log_id1

/-- A lookup is answered from the entry exactly when the slot holds its fingerprint; otherwise it
goes on, unchanged, to the port of its node. -/
theorem lookup_spec (regs : Registers) {h : Kvmsg} (hkey : h.key32 ≠ 0) (hlookup : h.IsLookup) :
    (∀ entry, (slotOf regs h.key).entry = some entry → entry.fingerprint = h.key32 →
      AnswersLookup h entry (overwriteIngress (parse_kvmsg regs h))) ∧
    (¬ (slotOf regs h.key).Holds h.key32 →
      Forwards regs h (overwriteIngress (parse_kvmsg regs h))) := by
  constructor
  · intro entry hentry hfingerprint
    have hlo : (regs.key_check h.key).lo = h.key32 :=
      (slotOf_holds_iff hkey).mp ⟨entry, hentry, hfingerprint⟩
    have hq := @ingress_lookup_hit .overwrite _ _ hlookup hlo
    obtain ⟨count, hkvmsg⟩ := hq.kvmsg
    have hvalue : entry = ⟨(regs.key_check h.key).lo, (regs.key_check h.key).hi,
        regs.log0 h.key, regs.log1 h.key⟩ := by
      have hne : (regs.key_check h.key).lo ≠ 0 := hlo ▸ hkey
      simpa [slotOf, hne] using hentry.symm
    subst hvalue
    exact ⟨hq.ucast, hq.egressPorts, congrArg Kvmsg.log_id0 hkvmsg,
      congrArg Kvmsg.log_id1 hkvmsg⟩
  · intro hholds
    exact @ingress_lookup_miss .overwrite _ _ hlookup
      fun hlo ↦ hholds ((slotOf_holds_iff hkey).mpr hlo)

/-- An install leaves with the operation `kEnumMultiCastPkt`, and to the multicast group, exactly
when it was accepted. -/
theorem install_spec (regs : Registers) {h : Kvmsg} (hkey : h.key32 ≠ 0)
    (hinstall : h.IsInstall) :
    ((overwriteIngress (parse_kvmsg regs h)).mcast_grp_a = some h.route_map ∧
        (overwriteIngress (parse_kvmsg regs h)).kvmsg.op = .kEnumMultiCastPkt ∧
        (overwriteIngress (parse_kvmsg regs h)).egressPorts = multicastPorts h.route_map ↔
      (slotOf regs h.key).Accepts h) ∧
    (¬ (slotOf regs h.key).Accepts h →
      (overwriteIngress (parse_kvmsg regs h)).mcast_grp_a = none ∧
        (overwriteIngress (parse_kvmsg regs h)).kvmsg.op = h.op) := by
  have hrefuse (hrefused : ¬ (slotOf regs h.key).Accepts h) :
      (overwriteIngress (parse_kvmsg regs h)).mcast_grp_a = none ∧
        (overwriteIngress (parse_kvmsg regs h)).kvmsg.op = h.op := by
    have hq := ingress_refuse hkey hinstall (mt (slotOf_accepts_iff hkey).mpr hrefused)
    obtain ⟨count, hkvmsg⟩ := hq.kvmsg
    exact ⟨hq.mcast, (congrArg Kvmsg.op hkvmsg :)⟩
  refine ⟨⟨fun hmulticast ↦ ?_, fun haccepts ↦ ?_⟩, hrefuse⟩
  · by_contra hrefused
    have hnone := (hrefuse hrefused).1
    rw [hmulticast.1] at hnone
    exact absurd hnone (by simp)
  · have hq := ingress_install hinstall ((slotOf_accepts_iff hkey).mp haccepts)
    obtain ⟨count, hkvmsg⟩ := hq.kvmsg
    exact ⟨hq.mcast, (congrArg Kvmsg.op hkvmsg :), hq.egressPorts⟩

/-- No packet changes a register of a slot other than its own. -/
theorem registers_of_ne {regs : Registers} {h : Kvmsg} (hkey : h.key32 ≠ 0) {s : UInt16}
    (hs : s ≠ h.key) :
    let q := overwriteIngress (parse_kvmsg regs h)
    q.regs.timestamp1 s = regs.timestamp1 s ∧ q.regs.key_check s = regs.key_check s ∧
      q.regs.log0 s = regs.log0 s ∧ q.regs.log1 s = regs.log1 s := by
  refine ⟨?_, ingress_entry_of_ne .overwrite regs hkey hs⟩
  rw [overwriteIngress_timestamp1 hkey, Function.update_of_ne hs]

/-! ### The refinement -/

/-- After every packet sequence the registers are the abstract slots; and the next packet is
answered, multicast or passed on as its abstract slot says, and touches no other slot. A lookup
whose own node sits on its `route_port` leaves there either way, so the equivalence for lookups is
stated for the others; what each kind of lookup carries is stated for all. -/
theorem overwrite_slots_refine_entries (packets : List Kvmsg)
    (hkeys : ∀ p ∈ packets, p.key32 ≠ 0) (h : Kvmsg) (hkey : h.key32 ≠ 0) :
    let regs := overwriteRun Registers.initial packets
    let q := overwriteIngress (parse_kvmsg regs h)
    let slot := slotRun h.key packets
    (∀ s, slotOf regs s = slotRun s packets) ∧
    (∀ s, slotOf q.regs s = slotRun s (packets ++ [h])) ∧
    (h.IsLookup →
      (portOfNode h.node_id ≠ some h.route_port →
        (q.ucast_egress_port = some h.route_port ↔ slot.Holds h.key32)) ∧
      (slot.Holds h.key32 → ∃ w, MostRecentInstall packets h.key w ∧ w.key32 = h.key32 ∧
        slot.entry = some w.entry ∧ AnswersLookup h w.entry q) ∧
      (¬ slot.Holds h.key32 → Forwards regs h q)) ∧
    (h.IsInstall →
      (q.mcast_grp_a = some h.route_map ∧ q.kvmsg.op = .kEnumMultiCastPkt ∧
          q.egressPorts = multicastPorts h.route_map ↔ slot.Accepts h) ∧
      (¬ slot.Accepts h → q.mcast_grp_a = none ∧ q.kvmsg.op = h.op)) ∧
    ∀ s, s ≠ h.key →
      q.regs.timestamp1 s = regs.timestamp1 s ∧ q.regs.key_check s = regs.key_check s ∧
        q.regs.log0 s = regs.log0 s ∧ q.regs.log1 s = regs.log1 s := by
  intro regs q slot
  have hslots : ∀ s, slotOf regs s = slotRun s packets := slotOf_overwriteRun packets hkeys
  have hslot : slotOf regs h.key = slot := hslots h.key
  have hnext (s : UInt16) : slotOf q.regs s = slotRun s (packets ++ [h]) := by
    rw [slotOf_step hkey, hslots, slotRun_concat]
  refine ⟨hslots, hnext, fun hlookup ↦ ?_, fun hinstall ↦ ?_, fun s hs ↦ registers_of_ne hkey hs⟩
  · obtain ⟨hhit, hmiss⟩ := lookup_spec regs hkey hlookup
    rw [hslot] at hhit hmiss
    have hanswer (hholds : slot.Holds h.key32) : ∃ w, MostRecentInstall packets h.key w ∧
        w.key32 = h.key32 ∧ slot.entry = some w.entry ∧ AnswersLookup h w.entry q := by
      obtain ⟨entry, hentry, hfingerprint⟩ := hholds
      obtain ⟨w, hrecent, rfl⟩ := slotRun_entry_mostRecent hentry
      exact ⟨w, hrecent, hfingerprint, hentry, hhit _ hentry hfingerprint⟩
    refine ⟨fun hport ↦ ⟨fun hucast ↦ ?_, fun hholds ↦ ?_⟩, hanswer, hmiss⟩
    · by_contra hholds
      exact hport ((hmiss hholds).ucast.symm.trans hucast)
    · obtain ⟨w, -, -, -, hq⟩ := hanswer hholds
      exact hq.ucast
  · rw [← hslot]
    exact install_spec regs hkey hinstall

/-- The slot of fingerprint `7` after one accepted write and before a lookup of it. -/
theorem overwrite_slots_refine_entries_lookup :
    let w : Kvmsg := ⟨2, .kEnumAppendReply, 2, 5, 9, 7, 11, 12, 136, 0x0600, 136, 0, 0x0100, 3⟩
    let h : Kvmsg := ⟨1, .kEnumReadIndexReq, 2, 5, 10, 7, 0, 0, 136, 0, 136, 0, 0x0100, 0⟩
    let q := overwriteIngress (parse_kvmsg (overwriteRun Registers.initial [w]) h)
    q.ucast_egress_port = some 136 ↔ (slotRun 5 [w]).Holds 7 := by
  intro w h q
  have hrefines := overwrite_slots_refine_entries [w] (by simp [w]) h (by simp [h])
  exact (hrefines.2.2.1 ⟨rfl, rfl⟩).1 (by decide)

end SwitchDelta.Switch
