import SwitchDelta.Switch.SlotMachine

/-!
# The timestamp guard of the overwrite switch

`timestamp1` and the entry of a slot drift apart: a packet of a colliding fingerprint raises the
timestamp and installs nothing, and a `ReplySwitch` resets the timestamp and clears the entry by two
separate tests. The guard holds nevertheless. While a slot holds an entry its timestamp is at least
that of the write which installed it, so an older `kEnumAppendReply` cannot replace the entry.

The invariant behind it (`GuardInvariant.reset`) is about the reset: if the timestamp of a slot is
that of a write whose `ReplySwitch` is still to come, then that write is the one in the slot. A
reset therefore always meets the entry it belongs to.
-/

set_option autoImplicit false
set_option relaxedAutoImplicit false

namespace SwitchDelta.Switch

open Kv

/-! ### The packets that reach a slot -/

/-- A flagged reply of the data node to an append. -/
def Kvmsg.IsAppendReply (h : Kvmsg) : Prop :=
  h.flag = visibility ∧ h.op = .kEnumAppendReply

theorem Kvmsg.IsAppendReply.isInstall {h : Kvmsg} (hreply : h.IsAppendReply) : h.IsInstall :=
  ⟨hreply.1, Or.inl hreply.2⟩

/-- The switch multicasts the packet. -/
def Multicasts (regs : Registers) (h : Kvmsg) : Prop :=
  (overwriteIngress (parse_kvmsg regs h)).mcast_grp_a = some h.route_map

instance (regs : Registers) (h : Kvmsg) : Decidable (Multicasts regs h) :=
  inferInstanceAs (Decidable (_ = _))

/-- `GuardTrace packets outstanding`: the packet sequence is one the guard is meant for, and
`outstanding` are the multicast replies whose `ReplySwitch` has not come back.

The timestamps of the replies of one slot are nonzero and distinct, the `rpc_id` of a multicast
reply is none of the outstanding ones, each `ReplySwitch` echoes an outstanding reply and settles
it, and every other packet of `kv.cc` is no install and no clear. -/
inductive GuardTrace : List Kvmsg → List Kvmsg → Prop
  | nil : GuardTrace [] []
  | appendReply {packets outstanding : List Kvmsg} {h : Kvmsg} :
      GuardTrace packets outstanding → h.IsAppendReply → h.key32 ≠ 0 → h.timestamp ≠ 0 →
      (∀ p ∈ packets, p.IsAppendReply → p.key = h.key → p.timestamp ≠ h.timestamp) →
      (Multicasts (overwriteRun Registers.initial packets) h →
        ∀ w ∈ outstanding, w.rpc_id ≠ h.rpc_id) →
      GuardTrace (packets ++ [h])
        (if Multicasts (overwriteRun Registers.initial packets) h then h :: outstanding
        else outstanding)
  | replySwitch {packets outstanding : List Kvmsg} {w h : Kvmsg} :
      GuardTrace packets outstanding → w ∈ outstanding → h.IsClear → h.key32 ≠ 0 →
      h.key = w.key → h.rpc_id = w.rpc_id → h.timestamp = w.timestamp →
      GuardTrace (packets ++ [h]) (outstanding.erase w)
  | other {packets outstanding : List Kvmsg} {h : Kvmsg} :
      GuardTrace packets outstanding → h.key32 ≠ 0 → ¬ h.IsInstall → ¬ h.IsClear →
      GuardTrace (packets ++ [h]) outstanding

theorem GuardTrace.key32_ne_zero {packets outstanding : List Kvmsg}
    (htrace : GuardTrace packets outstanding) : ∀ p ∈ packets, p.key32 ≠ 0 := by
  have hconcat {packets : List Kvmsg} {h : Kvmsg} (ih : ∀ p ∈ packets, p.key32 ≠ 0)
      (hkey : h.key32 ≠ 0) : ∀ p ∈ packets ++ [h], p.key32 ≠ 0 := by
    intro p hp
    rcases List.mem_append.mp hp with hp | hp
    · exact ih p hp
    · exact List.mem_singleton.mp hp ▸ hkey
  induction htrace with
  | nil => simp
  | appendReply _ _ hkey _ _ _ ih => exact hconcat ih hkey
  | replySwitch _ _ _ hkey _ _ _ ih => exact hconcat ih hkey
  | other _ hkey _ _ ih => exact hconcat ih hkey

/-- The switch multicasts a reply exactly when its slot accepts it. -/
theorem multicasts_iff_accepts {packets : List Kvmsg} (hkeys : ∀ p ∈ packets, p.key32 ≠ 0)
    {h : Kvmsg} (hkey : h.key32 ≠ 0) (hinstall : h.IsInstall) :
    Multicasts (overwriteRun Registers.initial packets) h ↔
      (slotRun h.key packets).Accepts h := by
  obtain ⟨haccepted, hrefused⟩ := install_spec
    (overwriteRun Registers.initial packets) hkey hinstall
  rw [slotOf_overwriteRun packets hkeys] at haccepted hrefused
  refine ⟨fun hmulticast ↦ ?_, fun haccepts ↦ (haccepted.mpr haccepts).1⟩
  by_contra h'
  have hnone := (hrefused h').1
  rw [hmulticast] at hnone
  exact absurd hnone (by simp)

/-! ### The invariant -/

/-- What every guard trace keeps. -/
structure GuardInvariant (packets outstanding : List Kvmsg) : Prop where
  sent : ∀ w ∈ outstanding, w ∈ packets ∧ w.IsAppendReply
  timestamp_ne_zero : ∀ w ∈ outstanding, w.timestamp ≠ 0
  rpc_id : (outstanding.map Kvmsg.rpc_id).Nodup
  /-- The entry of a slot belongs to an outstanding write, no newer than the timestamp. -/
  held : ∀ s entry, (slotRun s packets).entry = some entry → ∃ w ∈ outstanding,
    w.key = s ∧ entry = w.entry ∧ MostRecentInstall packets s w ∧
      w.timestamp ≤ (slotRun s packets).timestamp
  /-- A slot whose timestamp is that of an outstanding write holds the entry of that write. -/
  reset : ∀ w ∈ outstanding, (slotRun w.key packets).timestamp = w.timestamp →
    (slotRun w.key packets).entry = some w.entry

theorem GuardInvariant.nil : GuardInvariant [] [] where
  sent := by simp
  timestamp_ne_zero := by simp
  rpc_id := List.nodup_nil
  held := by simp [slotRun, Slot.empty]
  reset := by simp

/-- A packet that leaves its slot alone keeps the invariant. -/
theorem GuardInvariant.concat_of_step_eq {packets outstanding : List Kvmsg} {h : Kvmsg}
    (hinv : GuardInvariant packets outstanding)
    (hrefused : h.IsInstall → ¬ (slotRun h.key packets).Accepts h)
    (hstep : (slotRun h.key packets).step h = slotRun h.key packets) :
    GuardInvariant (packets ++ [h]) outstanding := by
  have hsame (s : UInt16) : slotRun s (packets ++ [h]) = slotRun s packets := by
    rw [slotRun_concat]
    split_ifs with hs
    · rw [← hs, hstep]
    · rfl
  refine ⟨fun w hw ↦ ⟨List.mem_append_left _ (hinv.sent w hw).1, (hinv.sent w hw).2⟩,
    hinv.timestamp_ne_zero, hinv.rpc_id, fun s entry hentry ↦ ?_, fun w hw htime ↦ ?_⟩
  · rw [hsame] at hentry
    obtain ⟨w, hw, hkey, rfl, hrecent, hle⟩ := hinv.held s entry hentry
    refine ⟨w, hw, hkey, rfl, hrecent.concat fun hs hinstall ↦ ?_, ?_⟩
    · rw [← hs]
      exact hrefused hinstall
    · rwa [hsame]
  · rw [hsame] at htime ⊢
    exact hinv.reset w hw htime

/-- A reply with a fresh timestamp that its slot refuses may raise the timestamp of the slot; no
outstanding write has the new timestamp, so the reset clause asks nothing of it. -/
theorem GuardInvariant.refuse {packets outstanding : List Kvmsg} {h : Kvmsg}
    (hinv : GuardInvariant packets outstanding) (hreply : h.IsAppendReply)
    (hfresh : ∀ p ∈ packets, p.IsAppendReply → p.key = h.key → p.timestamp ≠ h.timestamp)
    (hrefused : ¬ (slotRun h.key packets).Accepts h) :
    GuardInvariant (packets ++ [h]) outstanding := by
  have hslot : (slotRun h.key packets).step h =
      { timestamp := if (slotRun h.key packets).Current h then h.timestamp
          else (slotRun h.key packets).timestamp
        entry := (slotRun h.key packets).entry } := by
    rw [Slot.step_install hreply.isInstall, if_neg hrefused]
  by_cases hcurrent : (slotRun h.key packets).Current h
  · rw [if_pos hcurrent] at hslot
    refine ⟨fun w hw ↦ ⟨List.mem_append_left _ (hinv.sent w hw).1, (hinv.sent w hw).2⟩,
      hinv.timestamp_ne_zero, hinv.rpc_id, fun s entry hentry ↦ ?_, fun w hw htime ↦ ?_⟩
    · have hkept : (slotRun s packets).entry = some entry := by
        rw [slotRun_concat] at hentry
        split_ifs at hentry with hs
        · subst hs
          rwa [hslot] at hentry
        · exact hentry
      obtain ⟨w, hw, hkey, rfl, hrecent, hle⟩ := hinv.held s entry hkept
      refine ⟨w, hw, hkey, rfl, hrecent.concat fun hs _ ↦ hs ▸ hrefused, ?_⟩
      rw [slotRun_concat]
      split_ifs with hs
      · subst hs
        rw [hslot]
        have hne : (slotRun h.key packets).timestamp ≠ 0 := by
          intro hzero
          have hpos := hinv.timestamp_ne_zero w hw
          rw [hzero] at hle
          exact hpos (UInt32.le_zero_iff.mp hle)
        exact UInt32.le_trans hle (hcurrent.resolve_left hne)
      · exact hle
    · rw [slotRun_concat] at htime ⊢
      split_ifs at htime ⊢ with hs
      · rw [← hs, hslot] at htime
        obtain ⟨hmem, hw'⟩ := hinv.sent w hw
        exact absurd htime.symm (hfresh w hmem hw' hs.symm)
      · exact hinv.reset w hw htime
  · refine hinv.concat_of_step_eq (fun _ ↦ hrefused) ?_
    rw [hslot, if_neg hcurrent]

/-- A reply that its slot accepts becomes its entry, with its own timestamp. -/
theorem GuardInvariant.accept {packets outstanding : List Kvmsg} {h : Kvmsg}
    (hinv : GuardInvariant packets outstanding) (hreply : h.IsAppendReply)
    (htimestamp : h.timestamp ≠ 0)
    (hfresh : ∀ p ∈ packets, p.IsAppendReply → p.key = h.key → p.timestamp ≠ h.timestamp)
    (hrpc : ∀ w ∈ outstanding, w.rpc_id ≠ h.rpc_id)
    (haccepts : (slotRun h.key packets).Accepts h) :
    GuardInvariant (packets ++ [h]) (h :: outstanding) := by
  have hslot : (slotRun h.key packets).step h = ⟨h.timestamp, some h.entry⟩ := by
    rw [Slot.step_install hreply.isInstall, if_pos haccepts, if_pos haccepts.1]
  refine ⟨?_, ?_, ?_, fun s entry hentry ↦ ?_, fun w hw htime ↦ ?_⟩
  · intro w hw
    rcases List.mem_cons.mp hw with rfl | hw
    · exact ⟨by simp, hreply⟩
    · exact ⟨List.mem_append_left _ (hinv.sent w hw).1, (hinv.sent w hw).2⟩
  · intro w hw
    rcases List.mem_cons.mp hw with rfl | hw
    · exact htimestamp
    · exact hinv.timestamp_ne_zero w hw
  · refine List.nodup_cons.mpr ⟨fun hmem ↦ ?_, hinv.rpc_id⟩
    obtain ⟨w, hw, heq⟩ := List.mem_map.mp hmem
    exact hrpc w hw heq
  · rw [slotRun_concat] at hentry ⊢
    split_ifs at hentry ⊢ with hs
    · rw [← hs, hslot] at hentry ⊢
      obtain rfl : h.entry = entry := by simpa using hentry
      exact ⟨h, by simp, rfl, rfl,
        ⟨packets, [], rfl, rfl, hreply.isInstall, haccepts, by simp⟩, UInt32.le_refl _⟩
    · obtain ⟨w, hw, hkey, rfl, hrecent, hle⟩ := hinv.held s entry hentry
      exact ⟨w, List.mem_cons_of_mem _ hw, hkey, rfl,
        hrecent.concat fun hs' ↦ absurd hs' hs, hle⟩
  · rcases List.mem_cons.mp hw with rfl | hw
    · rw [slotRun_concat, if_pos rfl, hslot]
    · rw [slotRun_concat] at htime ⊢
      split_ifs at htime ⊢ with hs
      · rw [← hs, hslot] at htime
        obtain ⟨hmem, hw'⟩ := hinv.sent w hw
        exact absurd htime.symm (hfresh w hmem hw' hs.symm)
      · exact hinv.reset w hw htime

/-- The members of `outstanding` other than `w` have another `rpc_id`. -/
theorem GuardInvariant.rpc_id_of_mem_erase {packets outstanding : List Kvmsg} {w v : Kvmsg}
    (hinv : GuardInvariant packets outstanding) (hw : w ∈ outstanding)
    (hv : v ∈ outstanding.erase w) : v.rpc_id ≠ w.rpc_id := by
  intro heq
  have hnodup : outstanding.Nodup := List.Nodup.of_map _ hinv.rpc_id
  have hsame : v = w :=
    List.inj_on_of_nodup_map hinv.rpc_id (List.mem_of_mem_erase hv) hw heq
  exact hnodup.not_mem_erase (hsame ▸ hv)

/-- A `ReplySwitch` resets the timestamp only together with the entry of its own write. -/
theorem GuardInvariant.clear {packets outstanding : List Kvmsg} {w h : Kvmsg}
    (hinv : GuardInvariant packets outstanding) (hw : w ∈ outstanding) (hclear : h.IsClear)
    (hkey : h.key = w.key) (hrpc : h.rpc_id = w.rpc_id) (htimestamp : h.timestamp = w.timestamp) :
    GuardInvariant (packets ++ [h]) (outstanding.erase w) := by
  have hnotInstall : ¬ h.IsInstall := by
    rintro ⟨-, hop | hop⟩ <;> exact absurd (hop.symm.trans hclear.2) (by simp)
  have hslot := Slot.step_clear (slotRun h.key packets) hclear
  rw [hrpc, htimestamp] at hslot
  refine ⟨fun v hv ↦ ?_, fun v hv ↦ ?_, hinv.rpc_id.sublist (List.erase_sublist.map _),
    fun s entry hentry ↦ ?_, fun v hv htime ↦ ?_⟩
  · have hmem := List.mem_of_mem_erase hv
    exact ⟨List.mem_append_left _ (hinv.sent v hmem).1, (hinv.sent v hmem).2⟩
  · exact hinv.timestamp_ne_zero v (List.mem_of_mem_erase hv)
  · rw [slotRun_concat] at hentry ⊢
    split_ifs at hentry ⊢ with hs
    · -- the entry survives, so it is that of another outstanding write
      rw [← hs, hslot] at hentry ⊢
      obtain ⟨hkept, hother⟩ := Option.filter_eq_some_iff.mp hentry
      obtain ⟨v, hv, hvkey, rfl, hrecent, hle⟩ := hinv.held h.key entry hkept
      have hne : v ≠ w := by
        rintro rfl
        simp [Kvmsg.entry] at hother
      have htime : (slotRun h.key packets).timestamp ≠ w.timestamp := by
        intro heq
        have hown := hinv.reset w hw (hkey ▸ heq)
        rw [← hkey, hkept] at hown
        have hrpc' := congrArg Entry.rpc_id (Option.some.inj hown)
        exact hinv.rpc_id_of_mem_erase hw ((List.mem_erase_of_ne hne).mpr hv) hrpc'
      refine ⟨v, (List.mem_erase_of_ne hne).mpr hv, hvkey, rfl,
        hrecent.concat fun _ h' ↦ absurd h' hnotInstall, ?_⟩
      simpa [htime] using hle
    · obtain ⟨v, hv, hvkey, rfl, hrecent, hle⟩ := hinv.held s entry hentry
      have hne : v ≠ w := by
        rintro rfl
        exact hs (hkey.trans hvkey)
      exact ⟨v, (List.mem_erase_of_ne hne).mpr hv, hvkey, rfl,
        hrecent.concat fun hs' ↦ absurd hs' hs, hle⟩
  · have hmem := List.mem_of_mem_erase hv
    have hother := hinv.rpc_id_of_mem_erase hw hv
    rw [slotRun_concat] at htime ⊢
    split_ifs at htime ⊢ with hs
    · rw [← hs, hslot] at htime ⊢
      by_cases hreset : (slotRun h.key packets).timestamp = w.timestamp
      · rw [if_pos hreset] at htime
        exact absurd htime.symm (hinv.timestamp_ne_zero v hmem)
      · rw [if_neg hreset] at htime
        have hown := hinv.reset v hmem (hs ▸ htime)
        rw [← hs] at hown
        simp [hown, Option.filter, Kvmsg.entry, hother]
    · exact hinv.reset v hmem htime

/-- Every guard trace keeps the invariant. -/
theorem GuardTrace.invariant {packets outstanding : List Kvmsg}
    (htrace : GuardTrace packets outstanding) : GuardInvariant packets outstanding := by
  induction htrace with
  | nil => exact GuardInvariant.nil
  | @appendReply packets outstanding h htrace hreply hkey htimestamp hfresh hrpc ih =>
    have hiff := multicasts_iff_accepts htrace.key32_ne_zero hkey hreply.isInstall
    by_cases hmulticast : Multicasts (overwriteRun Registers.initial packets) h
    · rw [if_pos hmulticast]
      exact ih.accept hreply htimestamp hfresh (hrpc hmulticast) (hiff.mp hmulticast)
    · rw [if_neg hmulticast]
      exact ih.refuse hreply hfresh (mt hiff.mpr hmulticast)
  | replySwitch _ hw hclear _ hkey hrpc htimestamp ih =>
    exact ih.clear hw hclear hkey hrpc htimestamp
  | other _ _ hinstall hclear ih =>
    exact ih.concat_of_step_eq (fun h' ↦ absurd h' hinstall)
      (Slot.step_other hinstall hclear)

/-! ### The guard -/

/-- A sequence has at most one most recent accepted install for a slot. -/
theorem MostRecentInstall.unique {packets : List Kvmsg} {s : UInt16} {w v : Kvmsg}
    (hw : MostRecentInstall packets s w) (hv : MostRecentInstall packets s v) : w = v := by
  obtain ⟨before, after, rfl, hwkey, hwinstall, hwaccepts, hwlast⟩ := hw
  obtain ⟨before', after', hsplit, hvkey, hvinstall, hvaccepts, hvlast⟩ := hv
  rcases List.append_eq_append_iff.mp hsplit with ⟨between, hb, ha⟩ | ⟨between, hb, ha⟩
  · cases between with
    | nil => exact (List.cons.inj ha).1
    | cons x between =>
      obtain ⟨rfl, hafter⟩ := List.cons.inj ha
      subst hb
      exact absurd hvaccepts (hwlast between v after' hafter hvkey hvinstall)
  · cases between with
    | nil => exact (List.cons.inj ha).1.symm
    | cons x between =>
      obtain ⟨rfl, hafter⟩ := List.cons.inj ha
      subst hb
      exact absurd hwaccepts (hvlast between w after hafter hwkey hwinstall)

/-- A reply whose timestamp is below that of the slot changes no register of the entry. -/
theorem stale_appendReply_keeps_entry {regs : Registers} {h : Kvmsg} (hkey : h.key32 ≠ 0)
    (hop : h.op = .kEnumAppendReply) (hzero : regs.timestamp1 h.key ≠ 0)
    (hlt : h.timestamp < regs.timestamp1 h.key) :
    let q := overwriteIngress (parse_kvmsg regs h)
    q.regs.key_check = regs.key_check ∧ q.regs.log0 = regs.log0 ∧ q.regs.log1 = regs.log1 := by
  by_cases hflag : h.flag = visibility
  · have hstale : ¬ regs.Current h := by
      rintro (hnone | hle)
      · exact hzero hnone
      · exact UInt32.not_lt.mpr hle hlt
    have hq := (overwriteIngress_install_stale hkey ⟨hflag, Or.inl hop⟩ hstale).1
    exact ⟨hq.key_check, hq.log0, hq.log1⟩
  · have hq := (@overwriteIngress_unflagged regs _ hkey hflag).1
    exact ⟨hq.key_check, hq.log0, hq.log1⟩

/-- The guard: an occupied slot was filled by a write `w`, its most recent accepted install, whose
timestamp is positive and at most that of the slot; a slot with timestamp zero is empty; and an
older reply leaves the entry of an occupied slot as it is. -/
theorem timestamp1_guards_entry {packets outstanding : List Kvmsg}
    (htrace : GuardTrace packets outstanding) (s : UInt16) :
    let regs := overwriteRun Registers.initial packets
    ((regs.key_check s).lo ≠ 0 → ∃ w, MostRecentInstall packets s w ∧
      slotOf regs s = ⟨regs.timestamp1 s, some w.entry⟩) ∧
    (∀ w, MostRecentInstall packets s w → (regs.key_check s).lo ≠ 0 →
      0 < w.timestamp ∧ w.timestamp ≤ regs.timestamp1 s) ∧
    (regs.timestamp1 s = 0 → (regs.key_check s).lo = 0) ∧
    (∀ w, MostRecentInstall packets s w → (regs.key_check s).lo ≠ 0 →
      ∀ h : Kvmsg, h.key32 ≠ 0 → h.op = .kEnumAppendReply → h.key = s →
        h.timestamp < w.timestamp →
        let q := overwriteIngress (parse_kvmsg regs h)
        q.regs.key_check = regs.key_check ∧ q.regs.log0 = regs.log0 ∧
          q.regs.log1 = regs.log1) := by
  intro regs
  have hinv := htrace.invariant
  have hslot : slotOf regs s = slotRun s packets :=
    slotOf_overwriteRun packets htrace.key32_ne_zero s
  have htime : (slotRun s packets).timestamp = regs.timestamp1 s := by rw [← hslot]; rfl
  have hheld (hlo : (regs.key_check s).lo ≠ 0) : ∃ w, MostRecentInstall packets s w ∧
      (slotRun s packets).entry = some w.entry ∧ 0 < w.timestamp ∧
      w.timestamp ≤ regs.timestamp1 s := by
    have hsome : (slotRun s packets).entry ≠ none := by
      rw [← hslot]
      exact mt slotOf_entry_eq_none_iff.mp hlo
    obtain ⟨entry, hentry⟩ := Option.ne_none_iff_exists'.mp hsome
    obtain ⟨w, hw, -, rfl, hrecent, hle⟩ := hinv.held s entry hentry
    exact ⟨w, hrecent, hentry, UInt32.pos_iff_ne_zero.mpr (hinv.timestamp_ne_zero w hw),
      htime ▸ hle⟩
  have hbound (w : Kvmsg) (hw : MostRecentInstall packets s w) (hlo : (regs.key_check s).lo ≠ 0) :
      0 < w.timestamp ∧ w.timestamp ≤ regs.timestamp1 s := by
    obtain ⟨v, hv, -, hbounds⟩ := hheld hlo
    exact hw.unique hv ▸ hbounds
  refine ⟨fun hlo ↦ ?_, hbound, fun hzero ↦ ?_, fun w hw hlo h hkey hop hs hlt ↦ ?_⟩
  · obtain ⟨w, hw, hentry, -⟩ := hheld hlo
    exact ⟨w, hw, Slot.ext rfl (by rw [hslot, hentry])⟩
  · by_contra hlo
    obtain ⟨w, -, -, hpos, hle⟩ := hheld hlo
    rw [hzero] at hle
    exact absurd (UInt32.le_zero_iff.mp hle) (UInt32.pos_iff_ne_zero.mp hpos)
  · subst hs
    obtain ⟨hpos, hle⟩ := hbound w hw hlo
    have hzero : regs.timestamp1 h.key ≠ 0 := by
      intro hzero
      rw [hzero] at hle
      exact absurd (UInt32.le_zero_iff.mp hle) (UInt32.pos_iff_ne_zero.mp hpos)
    exact stale_appendReply_keeps_entry hkey hop hzero (UInt32.lt_of_lt_of_le hlt hle)

/-- A write of fingerprint `7` with timestamp `3` is installed in slot `5`. -/
def guardedWrite : Kvmsg :=
  ⟨2, .kEnumAppendReply, 2, 5, 9, 7, 11, 12, 136, 0x0600, 136, 0, 0x0100, 3⟩

/-- A write of fingerprint `8` with timestamp `6` finds slot `5` occupied. -/
def collidingWrite : Kvmsg :=
  ⟨3, .kEnumAppendReply, 2, 5, 10, 8, 13, 14, 180, 0x0a00, 180, 0, 0x0100, 6⟩

/-- The two writes are a guard trace, and the first one is outstanding after it. -/
theorem guardTrace_colliding : GuardTrace [guardedWrite, collidingWrite] [guardedWrite] := by
  have hfirst : GuardTrace [guardedWrite] [guardedWrite] := by
    have htrace := GuardTrace.nil.appendReply (h := guardedWrite) ⟨rfl, rfl⟩ (by decide)
      (by decide) (by simp) (by simp)
    rwa [if_pos (by decide)] at htrace
  have hsecond := hfirst.appendReply (h := collidingWrite) ⟨rfl, rfl⟩ (by decide) (by decide)
    (by simp [guardedWrite, collidingWrite]) (fun hmulticast ↦ absurd hmulticast (by decide))
  rwa [if_neg (by decide)] at hsecond

/-- After the colliding write the slot has timestamp `6`, is occupied, and its guard holds. -/
theorem timestamp1_guards_entry_colliding :
    let regs := overwriteRun Registers.initial [guardedWrite, collidingWrite]
    regs.timestamp1 5 = 6 ∧ (regs.key_check 5).lo = 7 ∧
      ∃ w, MostRecentInstall [guardedWrite, collidingWrite] 5 w ∧
        0 < w.timestamp ∧ w.timestamp ≤ regs.timestamp1 5 := by
  intro regs
  have hlo : (regs.key_check 5).lo ≠ 0 := by decide
  have hguard := timestamp1_guards_entry guardTrace_colliding 5
  obtain ⟨w, hw, -⟩ := hguard.1 hlo
  exact ⟨by decide, by decide, w, hw, hguard.2.1 w hw hlo⟩

end SwitchDelta.Switch
