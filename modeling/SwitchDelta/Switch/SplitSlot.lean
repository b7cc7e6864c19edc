import SwitchDelta.Switch.Disposition

/-!
# The switch programs with two registers for a slot

`cable_store.p4` and `p4_pw.p4` keep the `rpc_id` and the fingerprint of an entry in two register
arrays, `rpc_id_check` and `key_check`. The table `visibility` works on the first and puts its verdict
into `umeta.rpc_id`; the table `check_hash` works on the second, for packets whose `rpc_id` is the
verdict, and puts the fingerprint into `umeta.key32`. The tables of the log position, the counters and
the routes are those of `p4_fw.p4`. The conditions of `check_index_msg` name `condition_lo`, which is
not declared there and counts as false.

`cableIngress` is the control `ingress` of `cable_store.p4` and `pwIngress` that of `p4_pw.p4`, in which
the lines that apply `check_hash` are commented out.

`cable_store_refines_fw` says that `cable_store.p4` and `p4_fw.p4` are the same slot machine: two
registers that are zero together stand for the 64-bit register of `p4_fw.p4`, and the programs agree on
every output as long as no write uses the `rpc_id` of a write whose `ReplySwitch` is outstanding.
`pw_never_visible` says that no write is ever visible in `p4_pw.p4`.
-/

set_option autoImplicit false
set_option relaxedAutoImplicit false

namespace SwitchDelta.Switch

open Kv

/-! ### Registers and metadata -/

/-- The register arrays. `cable_store.p4` has neither `timestamp1` nor the value registers `data`. -/
structure SplitRegisters where
  timestamp1 : UInt16 → UInt32
  rpc_id_check : UInt16 → UInt32
  key_check : UInt16 → UInt32
  log0 : UInt16 → UInt32
  log1 : UInt16 → UInt32
  data : Fin 16 → UInt16 → UInt32
  index_counter : UInt16 → UInt16
  counter_entries : CounterEntries

/-- The registers after power-up. -/
def SplitRegisters.initial : SplitRegisters where
  timestamp1 := fun _ ↦ 0
  rpc_id_check := fun _ ↦ 0
  key_check := fun _ ↦ 0
  log0 := fun _ ↦ 0
  log1 := fun _ ↦ 0
  data := fun _ _ ↦ 0
  index_counter := fun _ ↦ 0
  counter_entries := installedCounters

/-- A packet in the ingress pipeline. The values of the header `fsmsg` are there when it is valid. -/
structure SplitPipe where
  regs : SplitRegisters
  kvmsg : Kvmsg
  fsmsg : Option (Fin 16 → UInt32)
  umeta_key32 : UInt32
  umeta_rpc_id : UInt32
  umeta_timestamp : UInt32
  ucast_egress_port : Option UInt16
  mcast_grp_a : Option UInt16
  dropped : Bool

/-- `DELTA_TYPE_FS`, the `log_id1` of a packet with values. -/
def DELTA_TYPE_FS : UInt32 := 0xFFFFFFFF

/-- The parser state `parse_kvmsg` of `parser.p4`, which never continues with `parse_fs`. -/
def cableParse (regs : SplitRegisters) (kvmsg : Kvmsg) : SplitPipe :=
  ⟨regs, kvmsg, none, 0, 0, 0, none, none, false⟩

/-- The parser states `parse_kvmsg` and `parse_fs` of `parser_l.p4`, for the values that follow. -/
def pwParse (regs : SplitRegisters) (kvmsg : Kvmsg) (values : Fin 16 → UInt32) : SplitPipe :=
  { cableParse regs kvmsg with
    fsmsg := if kvmsg.log_id1 = DELTA_TYPE_FS then some values else none }

/-- The registers and metadata that the tables of `p4_fw.p4` work on, with the two halves of a slot
put together. -/
def SplitPipe.merged (p : SplitPipe) : Pipe where
  regs :=
    { timestamp1 := p.regs.timestamp1
      key_check := fun k ↦ ⟨p.regs.key_check k, p.regs.rpc_id_check k⟩
      log0 := p.regs.log0
      log1 := p.regs.log1
      index_counter := p.regs.index_counter
      counter_entries := p.regs.counter_entries }
  kvmsg := p.kvmsg
  umeta_key32 := p.umeta_key32
  umeta_timestamp := p.umeta_timestamp
  ucast_egress_port := p.ucast_egress_port
  mcast_grp_a := p.mcast_grp_a
  dropped := p.dropped

/-- A table that this program shares with `p4_fw.p4` and that does not touch `key_check`. -/
def SplitPipe.onShared (table : Pipe → Pipe) (p : SplitPipe) : SplitPipe :=
  let q := table p.merged
  { p with
    regs :=
      { p.regs with
        timestamp1 := q.regs.timestamp1
        log0 := q.regs.log0
        log1 := q.regs.log1
        index_counter := q.regs.index_counter }
    kvmsg := q.kvmsg
    umeta_key32 := q.umeta_key32
    umeta_timestamp := q.umeta_timestamp
    ucast_egress_port := q.ucast_egress_port
    mcast_grp_a := q.mcast_grp_a
    dropped := q.dropped }

/-! ### The tables of the slots -/

/-- `write_data_reply`: an empty register takes the `rpc_id`. The new value is the output. -/
def split_write_data_reply (register_lo rpc_id : UInt32) : UInt32 :=
  if register_lo = 0 then rpc_id else register_lo

/-- `write_index_reply`: the new value of the register, and the output `alu_hi`. -/
def split_write_index_reply (register_lo rpc_id : UInt32) : UInt32 × UInt32 :=
  if rpc_id = register_lo then (0, rpc_id) else (register_lo, 0)

/-- `check_index_msg`: its output does not depend on the register. -/
def split_check_index_msg (rpc_id : UInt32) : UInt32 :=
  rpc_id

/-- `visibility` with its entries, which are the same in all programs. -/
def splitVisibility (p : SplitPipe) : SplitPipe :=
  let register_lo := p.regs.rpc_id_check p.kvmsg.key
  match p.kvmsg.op with
  | .kEnumAppendReply | .kEnumUpdateIndexReq =>
    let value := split_write_data_reply register_lo p.kvmsg.rpc_id
    { p with
      regs := { p.regs with
        rpc_id_check := Function.update p.regs.rpc_id_check p.kvmsg.key value }
      umeta_rpc_id := value }
  | .ReplySwitch =>
    let (value, output) := split_write_index_reply register_lo p.kvmsg.rpc_id
    { p with
      regs := { p.regs with
        rpc_id_check := Function.update p.regs.rpc_id_check p.kvmsg.key value }
      umeta_rpc_id := output }
  | .kEnumReadIndexReq => { p with umeta_rpc_id := split_check_index_msg p.kvmsg.rpc_id }
  | _ => p

/-- `check_hash`, with the entries of `visibility`: `new_index_hash` writes the fingerprint,
`delete_index_hash` clears it and outputs that of the packet, `check_index_hash` outputs it. -/
def check_hash (p : SplitPipe) : SplitPipe :=
  match p.kvmsg.op with
  | .kEnumAppendReply | .kEnumUpdateIndexReq =>
    { p with
      regs := { p.regs with
        key_check := Function.update p.regs.key_check p.kvmsg.key p.kvmsg.key32 }
      umeta_key32 := p.kvmsg.key32 }
  | .ReplySwitch =>
    { p with
      regs := { p.regs with key_check := Function.update p.regs.key_check p.kvmsg.key 0 }
      umeta_key32 := p.kvmsg.key32 }
  | .kEnumReadIndexReq => { p with umeta_key32 := p.regs.key_check p.kvmsg.key }
  | _ => p

/-- `key2value0` to `key2value15` with their entries. -/
def key2value (id : Fin 16) (p : SplitPipe) : SplitPipe :=
  match p.fsmsg with
  | none => p
  | some values =>
    match p.kvmsg.op with
    | .kEnumReadIndexReq =>
      { p with fsmsg := some (Function.update values id (p.regs.data id p.kvmsg.key)) }
    | .kEnumAppendReply | .kEnumUpdateIndexReq =>
      { p with regs := { p.regs with
          data := Function.update p.regs.data id
            (Function.update (p.regs.data id) p.kvmsg.key (values id)) } }
    | _ => p

/-! ### Ingress -/

/-- The control `ingress` of `cable_store.p4`. -/
def cableIngress (p : SplitPipe) : SplitPipe :=
  let p := p.onShared counter_table
  let p :=
    if p.kvmsg.flag = visibility then
      let p := splitVisibility p
      let p := if p.kvmsg.rpc_id = p.umeta_rpc_id then check_hash p else p
      let p := if p.kvmsg.key32 = p.umeta_key32 then
          (p.onShared key2logid0).onShared key2logid1 else p
      if p.kvmsg.op = .ReplySwitch then p.onShared drop_table0 else p
    else p
  if p.kvmsg.key32 ≠ p.umeta_key32 then p.onShared udp_route else p

/-- The control `ingress` of `p4_pw.p4`. -/
def pwIngress (p : SplitPipe) : SplitPipe :=
  let p := p.onShared counter_table
  let p :=
    if p.kvmsg.flag = visibility then
      let p := p.onShared overwriteTimecheck
      if p.umeta_timestamp = p.kvmsg.timestamp then
        let p := splitVisibility p
        let p := if p.kvmsg.key32 = p.umeta_key32 then
            let p := if p.fsmsg.isSome then (List.finRange 16).foldl (fun p id ↦ key2value id p) p
              else p
            (p.onShared key2logid0).onShared key2logid1
          else p
        if p.kvmsg.op = .ReplySwitch then p.onShared drop_table0 else p
      else p
    else p
  if p.kvmsg.key32 ≠ p.umeta_key32 then p.onShared udp_route else p

/-! ### One packet in `cable_store.p4` and in `p4_fw.p4` -/

/-- The registers of `p4_fw.p4` that a pair of registers stands for. -/
def SplitRegisters.merged (regs : SplitRegisters) : Registers where
  timestamp1 := regs.timestamp1
  key_check := fun k ↦ ⟨regs.key_check k, regs.rpc_id_check k⟩
  log0 := regs.log0
  log1 := regs.log1
  index_counter := regs.index_counter
  counter_entries := regs.counter_entries

/-- What a packet causes outside the switch: it is dropped, or leaves for a multicast group or a
port with the header it then has. -/
structure Effect where
  dropped : Bool
  multicast : Option UInt16
  unicast : Option UInt16
  kvmsg : Kvmsg
  deriving DecidableEq

/-- The effect of a packet of `p4_fw.p4`. -/
def Pipe.effect (p : Pipe) : Effect where
  dropped := p.dropped
  multicast := if p.dropped then none else p.mcast_grp_a
  unicast := if p.dropped then none else p.ucast_egress_port
  kvmsg := p.kvmsg

/-- The two halves of every slot are zero together. -/
def SplitRegisters.ZeroTogether (regs : SplitRegisters) : Prop :=
  ∀ k, regs.key_check k = 0 ↔ regs.rpc_id_check k = 0

/-- The packets of the clients and servers: the fingerprint is not zero, and neither is the `rpc_id` of
a packet that installs or clears an entry. -/
def Kvmsg.Proper (h : Kvmsg) : Prop :=
  h.key32 ≠ 0 ∧ (h.IsInstall ∨ h.IsClear → h.rpc_id ≠ 0)

theorem merged_update (regs : SplitRegisters) (k : UInt16) (lo hi : UInt32) :
    (fun s ↦ (⟨Function.update regs.key_check k lo s, Function.update regs.rpc_id_check k hi s⟩ :
      KeyCheck)) = Function.update regs.merged.key_check k ⟨lo, hi⟩ := by
  funext s
  by_cases hs : s = k
  · subst hs
    simp
  · simp [hs, SplitRegisters.merged]

/-- Both halves of a slot are written together. -/
theorem SplitRegisters.ZeroTogether.update {regs regs' : SplitRegisters} {k : UInt16}
    {lo hi : UInt32} (h : regs.ZeroTogether)
    (hkey : regs'.key_check = Function.update regs.key_check k lo)
    (hrpc : regs'.rpc_id_check = Function.update regs.rpc_id_check k hi) (hiff : lo = 0 ↔ hi = 0) :
    regs'.ZeroTogether := by
  intro s
  rw [hkey, hrpc]
  by_cases hs : s = k
  · subst hs
    rw [Function.update_self, Function.update_self]
    exact hiff
  · rw [Function.update_of_ne hs, Function.update_of_ne hs]
    exact h s

/-- The counters before a packet of `cable_store.p4` is matched with its slot. -/
theorem onShared_counter_table (regs : SplitRegisters) (h : Kvmsg) : ∃ counters count,
    (cableParse regs h).onShared counter_table =
        cableParse { regs with index_counter := counters } { h with count := count } ∧
      counter_table (parse_kvmsg regs.merged h) =
        parse_kvmsg { regs.merged with index_counter := counters } { h with count := count } := by
  obtain ⟨counters, count, hcounter⟩ := counter_table_eq (parse_kvmsg regs.merged h)
  refine ⟨counters, count, ?_, hcounter⟩
  have hmerged : (cableParse regs h).merged = parse_kvmsg regs.merged h := rfl
  simp only [SplitPipe.onShared, hmerged, hcounter]
  rfl

theorem splitVisibility_other {p : SplitPipe} (hop : ¬ SlotOp p.kvmsg.op) :
    splitVisibility p = p := by
  unfold splitVisibility
  dsimp only
  split <;> simp_all [SlotOp]

theorem check_hash_other {p : SplitPipe} (hop : ¬ SlotOp p.kvmsg.op) : check_hash p = p := by
  unfold check_hash
  split <;> simp_all [SlotOp]

/-- A packet in two registers that are zero together, and in the register they stand for. A write must
not come with the `rpc_id` of the entry in its slot. -/
theorem cableIngress_agrees {regs : SplitRegisters} {h : Kvmsg} (hproper : h.Proper)
    (hzero : regs.ZeroTogether) (hfresh : h.IsInstall → regs.rpc_id_check h.key ≠ h.rpc_id) :
    (cableIngress (cableParse regs h)).regs.merged =
        (fwIngress (parse_kvmsg regs.merged h)).regs ∧
      (cableIngress (cableParse regs h)).merged.effect =
        (fwIngress (parse_kvmsg regs.merged h)).effect ∧
      (cableIngress (cableParse regs h)).regs.ZeroTogether := by
  obtain ⟨hkey, hrpc⟩ := hproper
  obtain ⟨counters, count, hcable, hfw⟩ := onShared_counter_table regs h
  rw [cableIngress, fwIngress, hcable, hfw]
  by_cases hflag : h.flag = visibility
  · by_cases hinstall : h.op = .kEnumAppendReply ∨ h.op = .kEnumUpdateIndexReq
    · have hne := hrpc (Or.inl ⟨hflag, hinstall⟩)
      have hother := hfresh ⟨hflag, hinstall⟩
      by_cases hempty : regs.rpc_id_check h.key = 0
      · -- both programs take the packet as the entry of the slot
        have hkeyempty : regs.key_check h.key = 0 := (hzero h.key).mpr hempty
        have hregs := merged_update regs h.key h.key32 h.rpc_id
        rcases hinstall with hop | hop <;>
          simp [cableParse, parse_kvmsg, hflag, hop, splitVisibility, split_write_data_reply,
            hempty, check_hash, SplitPipe.onShared, SplitPipe.merged, SplitRegisters.merged,
            key2logid0, key2logid1, visibilityTable, timecpy, fwNewIndex, fw_write_data_reply,
            hkeyempty, Pipe.effect] <;>
          exact ⟨hregs, hzero.update rfl rfl (by simp [hkey, hne])⟩
      · -- both programs leave the slot and forward the packet
        have hkeyfull : regs.key_check h.key ≠ 0 := mt (hzero h.key).mp hempty
        rcases hinstall with hop | hop <;>
          simp [cableParse, parse_kvmsg, hflag, hop, splitVisibility, split_write_data_reply,
            hempty, Ne.symm hother, SplitPipe.onShared, SplitPipe.merged, SplitRegisters.merged,
            visibilityTable, timecpy, fwNewIndex, fw_write_data_reply,
            hkeyfull, hkey, Pipe.effect, udp_route] <;>
          exact hzero
    · by_cases hclear : h.op = .ReplySwitch
      · have hne := hrpc (Or.inr ⟨hflag, hclear⟩)
        by_cases hown : h.rpc_id = regs.rpc_id_check h.key
        · simp [cableParse, parse_kvmsg, hflag, hclear, splitVisibility, split_write_index_reply,
            hown, check_hash, SplitPipe.onShared, SplitPipe.merged, SplitRegisters.merged,
            key2logid0, key2logid1, visibilityTable, timecpy, delete_index, write_index_reply,
            hkey, Pipe.effect, udp_route, drop_table0]
          exact ⟨merged_update regs h.key 0 0, hzero.update rfl rfl Iff.rfl⟩
        · simp [cableParse, parse_kvmsg, hflag, hclear, splitVisibility, split_write_index_reply,
            hown, hne, SplitPipe.onShared, SplitPipe.merged, SplitRegisters.merged,
            visibilityTable, timecpy, delete_index, write_index_reply,
            hkey, Pipe.effect, udp_route, drop_table0]
          exact hzero
      · by_cases hlookup : h.op = .kEnumReadIndexReq
        · by_cases hmatch : h.key32 = regs.key_check h.key
          · simp [cableParse, parse_kvmsg, hflag, hlookup, splitVisibility, split_check_index_msg,
              check_hash, SplitPipe.onShared, SplitPipe.merged, SplitRegisters.merged, hmatch,
              key2logid0, key2logid1, visibilityTable, timecpy, check_index, Pipe.effect]
            exact hzero
          · simp [cableParse, parse_kvmsg, hflag, hlookup, splitVisibility, split_check_index_msg,
              check_hash, SplitPipe.onShared, SplitPipe.merged, SplitRegisters.merged, hmatch,
              visibilityTable, timecpy, check_index, Pipe.effect, udp_route]
            exact hzero
        · have hslot : ¬ SlotOp h.op := by
            rw [SlotOp]
            tauto
          simp [cableParse, parse_kvmsg, hflag, splitVisibility_other, check_hash_other,
            visibilityTable_other, hslot, timecpy, hkey, hclear, SplitPipe.onShared,
            SplitPipe.merged, SplitRegisters.merged, Pipe.effect, udp_route]
          exact hzero
  · simp [cableParse, parse_kvmsg, hflag, hkey, SplitPipe.onShared, SplitPipe.merged,
      SplitRegisters.merged, Pipe.effect, udp_route]
    exact hzero

/-! ### Sequences of packets -/

/-- The registers of `p4_fw.p4` and the effects after a sequence of packets. -/
def fwRun (regs : Registers) : List Kvmsg → Registers × List Effect
  | [] => (regs, [])
  | h :: packets =>
    let p := fwIngress (parse_kvmsg regs h)
    let rest := fwRun p.regs packets
    (rest.1, p.effect :: rest.2)

/-- The registers of `cable_store.p4` and the effects after a sequence of packets. -/
def cableRun (regs : SplitRegisters) : List Kvmsg → SplitRegisters × List Effect
  | [] => (regs, [])
  | h :: packets =>
    let p := cableIngress (cableParse regs h)
    let rest := cableRun p.regs packets
    (rest.1, p.merged.effect :: rest.2)

/-- The writes with an outstanding `ReplySwitch`, as slot and `rpc_id`: a write that is multicast will
be answered by one, and a `ReplySwitch` that arrives is no longer outstanding. -/
def outstandingAfter (outstanding : List (UInt16 × UInt32)) (h : Kvmsg) (e : Effect) :
    List (UInt16 × UInt32) :=
  if e.multicast.isSome then (h.key, h.rpc_id) :: outstanding
  else if h.IsClear then outstanding.filter (· ≠ (h.key, h.rpc_id))
  else outstanding

/-- The packets are proper, and no write has the `rpc_id` of a write with an outstanding
`ReplySwitch`. -/
def Disciplined (regs : Registers) (outstanding : List (UInt16 × UInt32)) : List Kvmsg → Prop
  | [] => True
  | h :: packets =>
    h.Proper ∧ (h.IsInstall → h.rpc_id ∉ outstanding.map Prod.snd) ∧
      let p := fwIngress (parse_kvmsg regs h)
      Disciplined p.regs (outstandingAfter outstanding h p.effect) packets

/-- The entry of every occupied slot belongs to a write with an outstanding `ReplySwitch`. -/
def EntriesOutstanding (regs : Registers) (outstanding : List (UInt16 × UInt32)) : Prop :=
  ∀ k, (regs.key_check k).hi ≠ 0 → (k, (regs.key_check k).hi) ∈ outstanding

theorem EntriesOutstanding.step {regs : Registers} {outstanding : List (UInt16 × UInt32)}
    {h : Kvmsg} (hentries : EntriesOutstanding regs outstanding) (hkey : h.key32 ≠ 0) :
    EntriesOutstanding (fwIngress (parse_kvmsg regs h)).regs
      (outstandingAfter outstanding h (fwIngress (parse_kvmsg regs h)).effect) := by
  intro k hhi
  rcases ingress_cases .p4_fw regs hkey with
    ⟨-, -, hq⟩ | ⟨hclear, hq⟩ | ⟨hlookup, -, hq⟩ | ⟨-, hnot, -, hq⟩
  all_goals
    rw [show ingress .p4_fw = fwIngress from rfl] at hq
    rw [hq.key_check] at hhi ⊢
    unfold outstandingAfter Pipe.effect
    simp only [hq.dropped, hq.mcast, Bool.false_eq_true, if_false, if_true, Option.isSome_none,
      Option.isSome_some]
  · by_cases hk : k = h.key
    · subst hk
      simp
    · rw [Function.update_of_ne hk] at hhi ⊢
      exact List.mem_cons_of_mem _ (hentries k hhi)
  · rw [if_pos hclear, List.mem_filter]
    by_cases hk : k = h.key
    · subst hk
      rw [Function.update_self] at hhi ⊢
      unfold write_index_reply at hhi ⊢
      split_ifs at hhi ⊢ with hown
      · exact absurd rfl hhi
      · refine ⟨hentries _ hhi, ?_⟩
        simpa using Ne.symm hown
    · rw [Function.update_of_ne hk] at hhi ⊢
      exact ⟨hentries k hhi, by simp [hk]⟩
  · have hnot : ¬ h.IsClear := fun hclear ↦ absurd (hlookup.2.symm.trans hclear.2) (by decide)
    rw [if_neg hnot]
    exact hentries k hhi
  · rw [if_neg hnot]
    exact hentries k hhi

/-- `cable_store.p4` and `p4_fw.p4` from registers that stand for each other. -/
theorem cableRun_eq_fwRun {packets : List Kvmsg} {regs : SplitRegisters}
    {outstanding : List (UInt16 × UInt32)} (hzero : regs.ZeroTogether)
    (hentries : EntriesOutstanding regs.merged outstanding)
    (hdisciplined : Disciplined regs.merged outstanding packets) :
    (cableRun regs packets).2 = (fwRun regs.merged packets).2 ∧
      (cableRun regs packets).1.merged = (fwRun regs.merged packets).1 := by
  induction packets generalizing regs outstanding with
  | nil => exact ⟨rfl, rfl⟩
  | cons h packets ih =>
    obtain ⟨hproper, hdistinct, hrest⟩ := hdisciplined
    have hfresh (hinstall : h.IsInstall) : regs.rpc_id_check h.key ≠ h.rpc_id := by
      intro heq
      have hne : (regs.merged.key_check h.key).hi ≠ 0 := by
        change regs.rpc_id_check h.key ≠ 0
        rw [heq]
        exact hproper.2 (Or.inl hinstall)
      exact hdistinct hinstall (List.mem_map.mpr ⟨_, hentries h.key hne, heq⟩)
    obtain ⟨hregs, heffect, hzero'⟩ := cableIngress_agrees hproper hzero hfresh
    have hentries' := hentries.step hproper.1
    dsimp only at hrest
    rw [← hregs] at hentries' hrest
    obtain ⟨heffects, hfinal⟩ := ih hzero' hentries' hrest
    simp only [cableRun, fwRun]
    rw [heffects, hfinal, heffect, hregs]
    exact ⟨rfl, rfl⟩

/-- The two programs are the same slot machine: on every sequence of proper packets in which no write
has the `rpc_id` of a write with an outstanding `ReplySwitch`, they drop, multicast and forward the
same packets with the same contents, and their registers stand for each other. -/
theorem cable_store_refines_fw {packets : List Kvmsg}
    (hdisciplined : Disciplined Registers.initial [] packets) :
    (cableRun SplitRegisters.initial packets).2 = (fwRun Registers.initial packets).2 ∧
      (cableRun SplitRegisters.initial packets).1.merged =
        (fwRun Registers.initial packets).1 :=
  cableRun_eq_fwRun (fun _ ↦ Iff.rfl) (fun _ hhi ↦ absurd rfl hhi) hdisciplined

/-- A packet of slot `7` with fingerprint `9`. -/
def slotPacket (op : RpcType) (rpc_id log_id : UInt32) : Kvmsg :=
  ⟨2, op, visibility, 7, rpc_id, 9, log_id, 0, 136, 0x0600, 0x0100, 0, 0x0100, 1⟩

/-- A write that is installed, a second one that is not, a read that is answered and the
`ReplySwitch` of the first. -/
theorem cable_store_refines_fw_four :
    let packets := [slotPacket .kEnumAppendReply 1 20, slotPacket .kEnumAppendReply 2 30,
      slotPacket .kEnumReadIndexReq 3 0, slotPacket .ReplySwitch 1 20]
    Disciplined Registers.initial [] packets ∧
      (cableRun SplitRegisters.initial packets).2 = (fwRun Registers.initial packets).2 ∧
      (fwRun Registers.initial packets).2.map Effect.multicast = [some 0x0600, none, none, none] ∧
      (cableRun SplitRegisters.initial packets).1.merged =
        (fwRun Registers.initial packets).1 := by
  intro packets
  have hdisciplined : Disciplined Registers.initial [] packets := by
    exact ⟨⟨by decide, by decide⟩, by decide, ⟨by decide, by decide⟩, by decide +kernel,
      ⟨by decide, by decide⟩, by decide +kernel, ⟨by decide, by decide⟩, by decide +kernel, trivial⟩
  obtain ⟨heffects, hregs⟩ := cable_store_refines_fw hdisciplined
  exact ⟨hdisciplined, heffects, by decide +kernel, hregs⟩

/-! ### Visibility in `p4_pw.p4` -/

/-- The registers of `p4_pw.p4` after a sequence of packets, each with the values behind its header. -/
def pwAfter (regs : SplitRegisters) (packets : List (Kvmsg × (Fin 16 → UInt32))) :
    SplitRegisters :=
  packets.foldl (fun regs packet ↦ (pwIngress (pwParse regs packet.1 packet.2)).regs) regs

/-- An append that may become the entry of its slot: its timestamp is accepted and the slot is
free. -/
structure SplitRegisters.Admits (regs : SplitRegisters) (h : Kvmsg) : Prop where
  flag : h.flag = visibility
  op : h.op = .kEnumAppendReply
  key32 : h.key32 ≠ 0
  current : regs.timestamp1 h.key = 0 ∨ regs.timestamp1 h.key ≤ h.timestamp
  free : regs.rpc_id_check h.key = 0

/-- A read of the slot and the fingerprint of a write. -/
def Kvmsg.Reads (g h : Kvmsg) : Prop :=
  g.IsLookup ∧ g.key = h.key ∧ g.key32 = h.key32

/-- The `ReplySwitch` of a write. -/
def Kvmsg.Clears (g h : Kvmsg) : Prop :=
  g.IsClear ∧ g.key = h.key ∧ g.rpc_id = h.rpc_id

/-- The write is visible: it is multicast, every read before its `ReplySwitch` is answered with its
log position and values, and its `ReplySwitch` frees the slot. -/
structure SplitRegisters.Visible (regs : SplitRegisters) (h : Kvmsg) (values : Fin 16 → UInt32) :
    Prop where
  multicast : (pwIngress (pwParse regs h values)).mcast_grp_a = some h.route_map ∧
    (pwIngress (pwParse regs h values)).kvmsg.op = .kEnumMultiCastPkt
  answered : ∀ (later : List (Kvmsg × (Fin 16 → UInt32))) (g : Kvmsg) (old : Fin 16 → UInt32),
    (∀ packet ∈ later, ¬ packet.1.Clears h) → g.Reads h →
    let q := pwIngress (pwParse
      (pwAfter (pwIngress (pwParse regs h values)).regs later) g old)
    q.ucast_egress_port = some g.route_port ∧ q.kvmsg.log_id0 = h.log_id0 ∧
      q.kvmsg.log_id1 = h.log_id1 ∧ (q.fsmsg.isSome → q.fsmsg = some values)
  freed : ∀ (later : List (Kvmsg × (Fin 16 → UInt32))) (g : Kvmsg) (old : Fin 16 → UInt32),
    (∀ packet ∈ later, ¬ packet.1.Clears h) → g.Clears h →
    (pwIngress (pwParse (pwAfter (pwIngress (pwParse regs h values)).regs later) g
      old)).regs.rpc_id_check h.key = 0

/-- A packet that no table has matched with an entry: `check_hash` would have to set
`umeta.key32`. -/
structure SplitPipe.Unmatched (h : Kvmsg) (p : SplitPipe) : Prop where
  kvmsg : ∃ count, p.kvmsg = { h with count := count }
  umeta : p.umeta_key32 = 0
  mcast : p.mcast_grp_a = none

theorem SplitPipe.Unmatched.counter_table {h : Kvmsg} {p : SplitPipe} (hp : p.Unmatched h) :
    (p.onShared Switch.counter_table).Unmatched h := by
  obtain ⟨counters, count, hcounter⟩ := counter_table_eq p.merged
  obtain ⟨old, hold⟩ := hp.kvmsg
  simp only [SplitPipe.onShared, hcounter]
  refine ⟨⟨count, ?_⟩, hp.umeta, hp.mcast⟩
  simp only [SplitPipe.merged, hold]

theorem SplitPipe.Unmatched.timecheck {h : Kvmsg} {p : SplitPipe} (hp : p.Unmatched h) :
    (p.onShared overwriteTimecheck).Unmatched h := by
  unfold SplitPipe.onShared overwriteTimecheck
  split <;> exact ⟨hp.kvmsg, hp.umeta, hp.mcast⟩

theorem SplitPipe.Unmatched.visibility {h : Kvmsg} {p : SplitPipe} (hp : p.Unmatched h) :
    (splitVisibility p).Unmatched h := by
  unfold splitVisibility
  dsimp only
  split <;> exact ⟨hp.kvmsg, hp.umeta, hp.mcast⟩

/-- `p4_pw.p4` multicasts no packet and writes no log position into one. -/
theorem pwIngress_passes (regs : SplitRegisters) {h : Kvmsg} (values : Fin 16 → UInt32)
    (hkey : h.key32 ≠ 0) :
    (pwIngress (pwParse regs h values)).mcast_grp_a = none ∧
      ∃ count, (pwIngress (pwParse regs h values)).kvmsg = { h with count := count } := by
  have hparse : (pwParse regs h values).Unmatched h := ⟨⟨h.count, rfl⟩, rfl, rfl⟩
  have hcounter := hparse.counter_table
  have hcheck := hcounter.timecheck
  have hslot := hcheck.visibility
  have hkey32 : (splitVisibility (((pwParse regs h values).onShared counter_table).onShared
      overwriteTimecheck)).kvmsg.key32 ≠ (splitVisibility
      (((pwParse regs h values).onShared counter_table).onShared
      overwriteTimecheck)).umeta_key32 := by
    obtain ⟨count, hkvmsg⟩ := hslot.kvmsg
    rw [hkvmsg, hslot.umeta]
    exact hkey
  unfold pwIngress
  dsimp only
  rw [if_neg hkey32]
  split_ifs
  all_goals first
    | exact ⟨hslot.mcast, hslot.kvmsg⟩
    | exact ⟨hcheck.mcast, hcheck.kvmsg⟩
    | exact ⟨hcounter.mcast, hcounter.kvmsg⟩

/-- No write becomes visible in `p4_pw.p4`, from any state it can reach: an append that its slot and
its timestamp admit is not multicast, and no later read gets a log position from the switch. -/
theorem pw_never_visible {packets : List (Kvmsg × (Fin 16 → UInt32))} {h : Kvmsg}
    (values : Fin 16 → UInt32)
    (hadmits : (pwAfter SplitRegisters.initial packets).Admits h) :
    ¬ (pwAfter SplitRegisters.initial packets).Visible h values ∧
      ∀ (later : List (Kvmsg × (Fin 16 → UInt32))) (g : Kvmsg) (old : Fin 16 → UInt32),
        g.Reads h → ∃ count, (pwIngress (pwParse
          (pwAfter SplitRegisters.initial (packets ++ (h, values) :: later)) g old)).kvmsg =
            { g with count := count } := by
  refine ⟨fun hvisible ↦ ?_, fun later g old hreads ↦ ?_⟩
  · have hnone := (pwIngress_passes (pwAfter SplitRegisters.initial packets) values
      hadmits.key32).1
    exact absurd (hvisible.multicast.1.symm.trans hnone) (by simp)
  · exact (pwIngress_passes _ old (by rw [hreads.2.2]; exact hadmits.key32)).2

/-- The first append after power-up is admitted and not visible. -/
theorem first_append_not_visible :
    SplitRegisters.initial.Admits (slotPacket .kEnumAppendReply 1 20) ∧
      ¬ SplitRegisters.initial.Visible (slotPacket .kEnumAppendReply 1 20) fun _ ↦ 0 := by
  refine ⟨⟨rfl, rfl, by decide, Or.inl rfl, rfl⟩, fun hvisible ↦ ?_⟩
  exact absurd hvisible.multicast.1 (by decide +kernel)

theorem pw_never_visible_second_append :
    ∃ packets : List (Kvmsg × (Fin 16 → UInt32)), packets ≠ [] ∧
      (pwAfter SplitRegisters.initial packets).Admits (slotPacket .kEnumAppendReply 1 20) ∧
      ¬ (pwAfter SplitRegisters.initial packets).Visible (slotPacket .kEnumAppendReply 1 20)
        fun _ ↦ 0 := by
  let packets : List (Kvmsg × (Fin 16 → UInt32)) :=
    [(slotPacket .kEnumAppendReply 2 30, fun _ ↦ 0), (slotPacket .ReplySwitch 2 30, fun _ ↦ 0)]
  have hadmits : (pwAfter SplitRegisters.initial packets).Admits
      (slotPacket .kEnumAppendReply 1 20) :=
    ⟨rfl, rfl, by decide, by decide +kernel, by decide +kernel⟩
  exact ⟨packets, by simp [packets], hadmits, (pw_never_visible _ hadmits).1⟩

end SwitchDelta.Switch
