import SwitchDelta.Kv.Execution
import SwitchDelta.Protocol.Refinement

/-!
# Timestamps along a run

The data node stamps an append with the next number of its switch key, and `timecmp` keeps the
greatest timestamp that a slot has seen. The order of issue is the order of these numbers within a
round of the counter (`issued_order_iff`), and in a run in which no counter comes to the end of its
first round, the register of a slot never gets ahead of the counter. So once the links are empty,
the next `kEnumAppendReply` of a slot passes `timecmp`, even if the slot still has the timestamp of a
write that is long gone (`timestamps_follow_issue_order`).

When the counter wraps, the next timestamp is one again, which is smaller than every timestamp of the
round before (`not_laterIsGreater_at_wrap`).
-/

set_option autoImplicit false
set_option relaxedAutoImplicit false

namespace SwitchDelta.Protocol

open Foundation Kv Switch

/-! ### Stamps in the protocol -/

variable {M : Layout} {D : Discipline} {π π' : PState} {action : Action}

/-- The counters after a step: at most one has moved, to its next timestamp. -/
theorem PStep.clock_cases (hstep : PStep M D π action π') :
    π'.clock = π.clock ∨
      ∃ k, π'.clock = Function.update π.clock k (next_timestamp (π.clock k)).1 := by
  cases hstep with
  | append => exact Or.inr ⟨_, rfl⟩
  | _ => exact Or.inl rfl

/-- The reply to an append is old, or was stamped in this step. -/
theorem PStep.appendReply_origin (hsound : π.Sound M D) (hstep : PStep M D π action π') {ℓ : Loc}
    {y : Item} (hy : (ℓ, y) ∈ π'.net) (hkind : y.kind = .appendReply) :
    (∃ ℓ₀, (ℓ₀, y) ∈ π.net) ∨
      (y.ts = timestampValue (next_timestamp (π.clock (M.counter y.op.key))).2 ∧
        π'.clock (M.counter y.op.key) = (next_timestamp (π.clock (M.counter y.op.key))).1) := by
  have hrest {ℓ₀ : Loc} {x : Item} {rest new : List (Loc × Item)} (htake : Take π.net ℓ₀ x rest)
      (hnew : ∀ p ∈ new, p.2.kind ≠ .appendReply ∨ p.2 = x) (hmem : (ℓ, y) ∈ rest ++ new) :
      ∃ ℓ₀, (ℓ₀, y) ∈ π.net := by
    rcases List.mem_append.mp hmem with hmem | hmem
    · exact ⟨ℓ, htake.mem_of_mem hmem⟩
    · rcases hnew _ hmem with hne | rfl
      · exact absurd hkind hne
      · exact ⟨ℓ₀, htake.mem⟩
  have hreply {x : Item} {index : KvKeyType → UInt64} (hx : x.kind.AtIndex) :
      (x.reply index).kind ≠ .appendReply := by
    rcases hx with hx | hx | hx <;> simp [Item.reply, hx]
  cases hstep with
  | write | read | probe =>
    rcases List.mem_append.mp hy with hy | hy
    · exact Or.inl ⟨ℓ, hy⟩
    · obtain ⟨-, rfl⟩ := Prod.mk.inj (List.mem_singleton.mp hy)
      exact absurd hkind (by simp)
  | passUp htake => exact Or.inl (hrest htake (by simp) hy)
  | passOut _ htake => exact Or.inl (hrest htake.take (by simp) hy)
  | lose htake => exact Or.inl ⟨ℓ, htake.mem_of_mem hy⟩
  | install htake => exact Or.inl (hrest htake.take (by simp) hy)
  | hit htake => exact Or.inl (hrest htake (by simp) hy)
  | clear htake => exact Or.inl ⟨ℓ, htake.take.mem_of_mem hy⟩
  | keep htake => exact Or.inl ⟨ℓ, htake.take.mem_of_mem hy⟩
  | append htake =>
    rcases List.mem_append.mp hy with hy | hy
    · exact Or.inl ⟨ℓ, htake.mem_of_mem hy⟩
    · obtain ⟨-, rfl⟩ := Prod.mk.inj (List.mem_singleton.mp hy)
      exact Or.inr ⟨rfl, Function.update_self _ _ _⟩
  | serveLog htake => exact Or.inl (hrest htake (by simp) hy)
  | serve htake hx => exact Or.inl (hrest htake.take (by simpa using Or.inl (hreply hx)) hy)
  | collect htake => exact Or.inl (hrest htake.take (by simp) hy)
  | flush =>
    rcases List.mem_append.mp hy with hy | hy
    · exact Or.inl ⟨ℓ, List.mem_of_mem_filter hy⟩
    · obtain ⟨x, hx, heq⟩ := List.mem_map.mp hy
      obtain ⟨-, rfl⟩ := Prod.mk.inj heq
      exact absurd hkind (hreply (Placed.atIndex (Or.inr (hsound.placed _ _ (mem_queue.mp hx)))))
  | finish htake => exact Or.inl ⟨ℓ, htake.mem_of_mem hy⟩
  | goOn htake hnext =>
    refine Or.inl (hrest htake ?_ hy)
    rcases Item.next_eq_some hnext with ⟨-, rfl⟩ | ⟨-, -, rfl⟩ <;> simp

/-! ### Registers and counters -/

/-- No counter is at the end of its round. -/
def CountersBelow (σ : State) (_label : Label) : Prop :=
  ∀ k, (σ.tss k).toNat + 1 < 2 ^ 31

/-- The switch runs `timecmp` on a slot. -/
def InstallsAt (s : UInt16) (label : Label) : Prop :=
  ∃ p, label = .switch p ∧ (parse p.msg).IsInstall ∧ (parse p.msg).key = s

variable {S : Setup} {σ σ' : State} {p : Packet} {x : Item}

/-- The slot has seen no timestamp above `bound`, and the appends of its switch key that are on their
way have greater ones. -/
structure SlotBehind (k : UInt16) (bound : ℕ) (σ : State) (π : PState) : Prop where
  register : (σ.regs.timestamp1 (toBigEndian16 k)).toNat ≤ bound
  fresh : ∀ ℓ x, (ℓ, x) ∈ π.net → x.kind = .appendReply → get_switch_key x.op.key = k → bound < x.ts
  clock : bound ≤ (π.clock k).toNat

/-- Only the switch changes the registers. -/
theorem Step.regs_eq {label : Label} (hstep : Step S σ label σ') (hlabel : ∀ p, label ≠ .switch p) :
    σ'.regs = σ.regs := by
  cases hstep with
  | switchUp => exact absurd rfl (hlabel _)
  | switchData => exact absurd rfl (hlabel _)
  | switchIndex => exact absurd rfl (hlabel _)
  | data =>
    unfold State.dataStep
    split <;> rfl
  | index =>
    unfold State.indexStep
    split <;> rfl
  | collect =>
    unfold State.collectStep
    split_ifs <;> rfl
  | client =>
    unfold State.clientStep
    dsimp only
    split <;> rfl
  | _ => rfl

theorem Step.switch_regs {p : Packet} (hstep : Step S σ (.switch p) σ') :
    σ'.regs = (ingress S.program (parse_kvmsg σ.regs (parse p.msg))).regs ∧
      ∃ ℓ rest, Take σ.net ℓ p rest := by
  cases hstep with
  | switchUp htake => exact ⟨rfl, _, _, htake⟩
  | switchData htake => exact ⟨rfl, _, _, htake.take⟩
  | switchIndex htake => exact ⟨rfl, _, _, htake.take⟩

/-- A packet that is no install of a slot does not raise its timestamp register. -/
theorem timestamp1_le (hprogram : S.program = .overwrite) (h : Refines S σ π) {label : Label}
    {s : UInt16} (hlabel : ¬ InstallsAt s label) (hstep : Step S σ label σ') :
    (σ'.regs.timestamp1 s).toNat ≤ (σ.regs.timestamp1 s).toNat := by
  by_cases hswitch : ∃ p, label = .switch p
  · obtain ⟨p, rfl⟩ := hswitch
    obtain ⟨hregs, ℓ, rest, htake⟩ := Step.switch_regs hstep
    obtain ⟨x, -, henc⟩ := h.exists_item htake.mem
    rw [hregs, hprogram]
    change ((overwriteIngress (parse_kvmsg σ.regs (parse p.msg))).regs.timestamp1 s).toNat ≤ _
    rw [overwriteIngress_timestamp1 henc.key32_ne_zero]
    by_cases hs : s = (parse p.msg).key
    · subst hs
      have hinstall : ¬ (parse p.msg).IsInstall := fun hinstall ↦ hlabel ⟨p, rfl, hinstall, rfl⟩
      rw [Function.update_self, if_neg hinstall]
      split_ifs
      · unfold timeclr_box
        split_ifs
        · exact Nat.zero_le _
        · exact le_rfl
      · exact le_rfl
    · rw [Function.update_of_ne hs]
  · rw [Step.regs_eq hstep fun p hp ↦ hswitch ⟨p, hp⟩]

/-- A step that runs `timecmp` on another slot at most leaves the slot behind its counter. -/
theorem SlotBehind.step {k : UInt16} {bound : ℕ} (h : SlotBehind k bound σ π)
    (hprogram : S.program = .overwrite) (hrefines : Refines S σ π)
    (hsound : π.Sound (layout S) D) {label : Label} (hbelow : CountersBelow σ label)
    (hlabel : ¬ InstallsAt (toBigEndian16 k) label) (hstep : Step S σ label σ')
    (hpstep : PStep (layout S) D π action π') : SlotBehind k bound σ' π' := by
  have hnext (k : UInt16) : (next_timestamp (π.clock k)).1.toNat = (π.clock k).toNat + 1 ∧
      timestampValue (next_timestamp (π.clock k)).2 = (π.clock k).toNat + 1 :=
    next_timestamp_of_lt (by rw [← hrefines.tss]; exact hbelow k)
  refine ⟨(timestamp1_le hprogram hrefines hlabel hstep).trans h.register, fun ℓ x hx hkind hk ↦ ?_,
    ?_⟩
  · rcases hpstep.appendReply_origin hsound hx hkind with ⟨ℓ₀, hold⟩ | ⟨hnew, -⟩
    · exact h.fresh ℓ₀ x hold hkind hk
    · have hcounter : (layout S).counter x.op.key = k := hk
      rw [hnew, hcounter, (hnext k).2]
      exact Nat.lt_succ_of_le h.clock
  · rcases hpstep.clock_cases with hclock | ⟨k', hclock⟩
    · rw [hclock]
      exact h.clock
    · rw [hclock]
      by_cases hk : k = k'
      · subst hk
        rw [Function.update_self, (hnext k).1]
        exact h.clock.trans (Nat.le_succ _)
      · rw [Function.update_of_ne hk]
        exact h.clock

/-- No slot has seen, and no append carries, a timestamp that its counter has not issued. -/
structure CountersAhead (σ : State) (π : PState) : Prop where
  register : ∀ k, (σ.regs.timestamp1 (toBigEndian16 k)).toNat ≤ (π.clock k).toNat
  issued : ∀ ℓ x, (ℓ, x) ∈ π.net → x.kind = .appendReply →
    x.ts ≤ (π.clock (get_switch_key x.op.key)).toNat

theorem CountersAhead.initial (S : Setup) : CountersAhead (State.initial S) PState.initial where
  register := fun _ ↦ Nat.zero_le _
  issued := by simp [PState.initial]

/-- An install raises the timestamp register of its slot to its own timestamp at most. -/
theorem timestamp1_install_le (hprogram : S.program = .overwrite) (henc : Encodes S p x) {s : UInt16}
    (hstep : Step S σ (.switch p) σ') (hinstall : (parse p.msg).IsInstall)
    (hs : (parse p.msg).key = s) :
    (σ'.regs.timestamp1 s).toNat ≤ (σ.regs.timestamp1 s).toNat ∨
      (σ'.regs.timestamp1 s).toNat = timestampValue p.msg.timestamp := by
  subst hs
  obtain ⟨hregs, -⟩ := Step.switch_regs hstep
  rw [hregs, hprogram]
  change ((overwriteIngress (parse_kvmsg σ.regs (parse p.msg))).regs.timestamp1 _).toNat ≤ _ ∨
    ((overwriteIngress (parse_kvmsg σ.regs (parse p.msg))).regs.timestamp1 _).toNat = _
  rw [overwriteIngress_timestamp1 henc.key32_ne_zero, Function.update_self, if_pos hinstall]
  unfold timecmp_box
  split_ifs
  · exact Or.inr rfl
  · exact Or.inl le_rfl

/-- The items behind the packets that `timecmp` runs on are appends. -/
theorem Encodes.kind_of_isInstall (henc : Encodes S p x) (hinstall : (parse p.msg).IsInstall) :
    x.kind = .appendReply := by
  have hop := hinstall.2
  have hflag := hinstall.1
  rw [show (parse p.msg).op = x.kind.code from henc.code] at hop
  rw [show (parse p.msg).flag = x.kind.flag S.flags from henc.flag] at hflag
  cases hk : x.kind <;> simp_all [Kind.code, Kind.flag, visibility]

theorem CountersAhead.step (h : CountersAhead σ π) (hprogram : S.program = .overwrite)
    (hrefines : Refines S σ π) (hsound : π.Sound (layout S) D) {label : Label}
    (hbelow : CountersBelow σ label) (hstep : Step S σ label σ')
    (hpstep : PStep (layout S) D π action π') : CountersAhead σ' π' := by
  have hnext (k : UInt16) : (next_timestamp (π.clock k)).1.toNat = (π.clock k).toNat + 1 ∧
      timestampValue (next_timestamp (π.clock k)).2 = (π.clock k).toNat + 1 :=
    next_timestamp_of_lt (by rw [← hrefines.tss]; exact hbelow k)
  have hclock (k : UInt16) : (π.clock k).toNat ≤ (π'.clock k).toNat := by
    rcases hpstep.clock_cases with hclock | ⟨k', hclock⟩
    · rw [hclock]
    · rw [hclock]
      by_cases hk : k = k'
      · subst hk
        rw [Function.update_self, (hnext k).1]
        exact Nat.le_succ _
      · rw [Function.update_of_ne hk]
  refine ⟨fun k ↦ ?_, fun ℓ y hy hkind ↦ ?_⟩
  · refine le_trans ?_ (hclock k)
    by_cases hinstalls : InstallsAt (toBigEndian16 k) label
    · obtain ⟨p, rfl, hinstall, hkey⟩ := hinstalls
      obtain ⟨-, ℓ, rest, htake⟩ := Step.switch_regs hstep
      obtain ⟨x, hx, henc⟩ := hrefines.exists_item htake.mem
      have hkind := henc.kind_of_isInstall hinstall
      rcases timestamp1_install_le hprogram henc hstep hinstall hkey with hle | heq
      · exact hle.trans (h.register k)
      · rw [heq, henc.timestamp (by simp [hkind])]
        have hk : get_switch_key x.op.key = k := by
          rw [henc.parse_key (by simp [hkind])] at hkey
          exact toBigEndian16_inj.mp hkey
        exact hk ▸ h.issued ℓ x hx hkind
    · exact (timestamp1_le hprogram hrefines hinstalls hstep).trans (h.register k)
  · rcases hpstep.appendReply_origin hsound hy hkind with ⟨ℓ₀, hold⟩ | ⟨hnew, hmoved⟩
    · exact (h.issued ℓ₀ y hold hkind).trans (hclock _)
    · have hcounter : get_switch_key y.op.key = (layout S).counter y.op.key := rfl
      rw [hcounter, hnew, hmoved, (hnext _).1, (hnext _).2]

/-! ### Runs -/

/-- The protocol with all its freedoms. -/
def unrestricted : Discipline :=
  ⟨False, False, fun _ ↦ True⟩

theorem grants_unrestricted (S : Setup) (σ : State) (label : Label) :
    Grants S unrestricted σ label :=
  ⟨fun hfalse ↦ hfalse.elim, fun hfalse ↦ hfalse.elim, fun _ _ _ _ ↦ trivial⟩

/-- A relation between the system and the protocol that the steps of both keep holds along a run whose
steps grant the protocol its discipline, from any state that refines a sound state of the protocol. -/
theorem Refines.run_of_grants (hrange : S.flags.InRange) {ok : State → Label → Prop}
    (R : State → PState → Prop) {start : State} (hrefines : Refines S start π)
    (hsound : π.Sound (layout S) D) (hstart : R start π)
    (hgrants : ∀ σ label σ' π, Refines S σ π → R σ π → ok σ label → Step S σ label σ' →
      Grants S D σ label)
    (hR : ∀ σ label σ' π action π', Refines S σ π → π.Sound (layout S) D → R σ π →
      ok σ label → Step S σ label σ' → ActsAs S label action → PStep (layout S) D π action π' →
      Refines S σ' π' → R σ' π')
    (hkeep : ∀ σ t π, R σ π → R (σ.keepStep t) π)
    (h : Foundation.Reachable start (Step S) ok σ) :
    ∃ π', Refines S σ π' ∧ π'.Sound (layout S) D ∧ R σ π' := by
  induction h with
  | init => exact ⟨π, hrefines, hsound, hstart⟩
  | @step σ σ' label hσ hok hstep ih =>
    obtain ⟨a, harefines, hasound, hRa⟩ := ih
    obtain ⟨a', haction, hrefines'⟩ :=
      harefines.step hrange hasound (hgrants _ _ _ _ harefines hRa hok hstep) hstep
    rcases haction with ⟨t, -, rfl, rfl⟩ | ⟨action, hacts, hpstep⟩
    · exact ⟨a', hrefines', hasound, hkeep _ _ _ hRa⟩
    · exact ⟨a', hrefines', hasound.step hpstep,
        hR _ _ _ _ _ _ harefines hasound hRa hok hstep hacts hpstep hrefines'⟩

/-- Every run grants the protocol all its freedoms. -/
theorem Refines.run (hrange : S.flags.InRange) {ok : State → Label → Prop}
    (R : State → PState → Prop) {start : State} (hrefines : Refines S start π)
    (hsound : π.Sound (layout S) unrestricted) (hstart : R start π)
    (hR : ∀ σ label σ' π action π', Refines S σ π → π.Sound (layout S) unrestricted → R σ π →
      ok σ label → Step S σ label σ' → PStep (layout S) unrestricted π action π' →
      Refines S σ' π' → R σ' π')
    (hkeep : ∀ σ t π, R σ π → R (σ.keepStep t) π)
    (h : Foundation.Reachable start (Step S) ok σ) :
    ∃ π', Refines S σ π' ∧ π'.Sound (layout S) unrestricted ∧ R σ π' :=
  Refines.run_of_grants hrange R hrefines hsound hstart
    (fun σ label _ _ _ _ _ _ ↦ grants_unrestricted S σ label)
    (fun _ _ _ _ _ _ href hsd hRa hok hst _ hpst href' ↦ hR _ _ _ _ _ _ href hsd hRa hok hst hpst
      href') hkeep h

/-! ### Short runs -/

/-- A counter moves by two at most. -/
theorem next_timestamp_le (tss : UInt64) : (next_timestamp tss).1.toNat ≤ tss.toNat + 2 := by
  have hnext (n : UInt64) : (get_next_ts n).1.toNat ≤ n.toNat + 1 := by
    simp only [get_next_ts, UInt64.toNat_add, UInt64.reduceToNat]
    exact Nat.mod_le _ _
  unfold next_timestamp
  dsimp only
  split_ifs
  · exact (hnext _).trans (Nat.succ_le_succ (hnext tss))
  · exact (hnext tss).trans (Nat.le_succ _)

/-- The counters of a short history are small. -/
theorem PStep.clock_le (hstep : PStep M D π action π')
    (h : ∀ c, (π.clock c).toNat ≤ 2 * π.hist.length + 1) (c : UInt16) :
    (π'.clock c).toNat ≤ 2 * π'.hist.length + 1 := by
  have hc := h c
  cases hstep with
  | @append x _ _ _ =>
    change (Function.update π.clock _ _ c).toNat ≤ _
    rw [List.length_append, List.length_singleton]
    by_cases heq : c = M.counter x.op.key
    · rw [heq, Function.update_self]
      have hnext := next_timestamp_le (π.clock (M.counter x.op.key))
      rw [← heq] at hnext ⊢
      omega
    · rw [Function.update_of_ne heq]
      omega
  | write | read | finish | goOn =>
    rw [List.length_append]
    exact hc.trans (by omega)
  | _ => exact hc

theorem countersBelow_of_short (hrange : S.flags.InRange) {ok : State → Label → Prop}
    (h : S.Reachable ok σ) (hshort : σ.hist.length < 2 ^ 29) (label : Label) :
    CountersBelow σ label := by
  obtain ⟨π, hrefines, -, hclock⟩ := Refines.run hrange
    (fun _ π ↦ ∀ c, (π.clock c).toNat ≤ 2 * π.hist.length + 1) (Refines.initial S)
    (PState.Sound.initial _ _) (fun _ ↦ le_rfl)
    (fun _ _ _ _ _ _ _ _ hR _ _ hpst _ ↦ hpst.clock_le hR) (fun _ _ _ hR ↦ hR) h
  intro c
  have hc := hclock c
  rw [hrefines.tss]
  rw [hrefines.hist] at hshort
  omega

/-! ### The order of issue -/

/-- The later of two timestamps is greater, both for `timecmp` and for `batchEntry::operator<`, which
puts the greater timestamp of a key first. -/
def LaterIsGreater (ts ts' : UInt32) : Prop :=
  bswap32 ts < bswap32 ts' ∧ ∀ (k : UInt64) (addr addr' : ℕ),
    (⟨k, (bswap32 ts').toUInt64, addr'⟩ : BatchEntry).lt ⟨k, (bswap32 ts).toUInt64, addr⟩

theorem laterIsGreater_iff (ts ts' : UInt32) :
    LaterIsGreater ts ts' ↔ timestampValue ts < timestampValue ts' := by
  have hlt : bswap32 ts < bswap32 ts' ↔ timestampValue ts < timestampValue ts' :=
    UInt32.lt_iff_toNat_lt
  rw [LaterIsGreater, hlt, and_iff_left_iff_imp]
  intro hvalue k addr addr'
  simp only [BatchEntry.lt, if_true, UInt64.lt_iff_toNat_lt, UInt32.toNat_toUInt64]
  exact hvalue

/-- Timestamps compare in the order of issue within a round of the counter, and in a run in which no
counter ends its first round, the next append of a slot after a moment without packets passes
`timecmp`. -/
theorem timestamps_follow_issue_order (schedule : List UInt8) :
    (∀ (i j : ℕ) (t t' : UInt8) (ts ts' : UInt32),
      (Issuer.run schedule).issued[i]? = some (t, ts) →
      (Issuer.run schedule).issued[j]? = some (t', ts') → i < j → j - i ≤ 2 ^ 30 →
      (LaterIsGreater ts ts' ↔ (i + 1) / timestampRound = (j + 1) / timestampRound)) ∧
    ∀ (S : Setup) (σ σ' next : State) (s : UInt16) (p : Packet), S.flags.InRange →
      S.program = .overwrite → S.Reachable CountersBelow σ → σ.net = [] →
      Foundation.Reachable σ (Step S)
        (fun τ label ↦ CountersBelow τ label ∧ ¬ InstallsAt s label) σ' →
      Step S σ' (.switch p) next → InstallsAt s (.switch p) → σ'.regs.Current (parse p.msg) := by
  refine ⟨fun i j t t' ts ts' hi hj hij hnear ↦ ?_, ?_⟩
  · rw [laterIsGreater_iff]
    exact issued_order_iff hi hj hij hnear
  · intro S σ σ' next s p hrange hprogram hσ hnet hσ' hstep hinstalls
    set k := toBigEndian16 s with hk
    have hs : toBigEndian16 k = s := by simp [hk]
    obtain ⟨π, hrefines, hsound, hahead⟩ := Refines.run hrange CountersAhead (Refines.initial S)
      (PState.Sound.initial _ _) (CountersAhead.initial S)
      (fun _ _ _ _ _ _ href hsd hR hok hst hpst _ ↦ hR.step hprogram href hsd hok hst hpst)
      (fun _ _ _ hR ↦ ⟨hR.register, hR.issued⟩) hσ
    have hempty : π.net = [] := by
      have hforall := hrefines.net
      rw [hnet, List.forall₂_nil_left_iff] at hforall
      exact hforall
    have hbehind : SlotBehind k (π.clock k).toNat σ π :=
      ⟨hahead.register k, by simp [hempty], le_rfl⟩
    obtain ⟨π', hrefines', hsound', hbehind'⟩ := Refines.run hrange
      (SlotBehind k (π.clock k).toNat) hrefines hsound hbehind
      (fun _ _ _ _ _ _ href hsd hR hok hst hpst _ ↦
        hR.step hprogram href hsd hok.1 (by rw [hs]; exact hok.2) hst hpst)
      (fun _ _ _ hR ↦ ⟨hR.register, hR.fresh, hR.clock⟩) hσ'
    obtain ⟨q, hq, hinstall, hkey⟩ := hinstalls
    obtain rfl : p = q := by simpa using hq
    obtain ⟨-, ℓ, rest, htake⟩ := Step.switch_regs hstep
    obtain ⟨x, hx, henc⟩ := hrefines'.exists_item htake.mem
    have hkind := henc.kind_of_isInstall hinstall
    have hxkey : get_switch_key x.op.key = k := by
      rw [henc.parse_key (by simp [hkind]), ← hs] at hkey
      exact toBigEndian16_inj.mp hkey
    refine Or.inr (UInt32.le_iff_toNat_le.mpr ?_)
    have hvalue : (parse p.msg).timestamp.toNat = x.ts := henc.timestamp (by simp [hkind])
    rw [hvalue, hkey, ← hs]
    exact hbehind'.register.trans (hbehind'.fresh ℓ x hx hkind hxkey).le

/-- The timestamp after the greatest one is the smallest. -/
theorem not_laterIsGreater_at_wrap :
    ∃ (schedule : List UInt8) (t t' : UInt8) (ts ts' : UInt32),
      (Issuer.run schedule).issued[2 ^ 31 - 3]? = some (t, ts) ∧
      (Issuer.run schedule).issued[2 ^ 31 - 2]? = some (t', ts') ∧ ¬ LaterIsGreater ts ts' := by
  obtain ⟨schedule, hlength⟩ := exists_issued (2 ^ 31)
  have hget (n : ℕ) (hn : n < 2 ^ 31) :
      ∃ t ts, (Issuer.run schedule).issued[n]? = some (t, ts) :=
    ⟨_, _, List.getElem?_eq_getElem (hn.trans_le hlength)⟩
  obtain ⟨t, ts, hi⟩ := hget (2 ^ 31 - 3) (by norm_num)
  obtain ⟨t', ts', hj⟩ := hget (2 ^ 31 - 2) (by norm_num)
  refine ⟨schedule, t, t', ts, ts', hi, hj, ?_⟩
  rw [laterIsGreater_iff, issued_order_iff hi hj (by norm_num) (by norm_num)]
  norm_num [timestampRound]

/-- A setup with one key. -/
def oneKey : Setup where
  flags := ⟨1, 1, 1, 3, 2, 2, true, false, 16⟩
  program := .overwrite
  batching := false
  key_space := [65536]
  ctx₀ := fun _ ↦ ⟨0, 0, 0, 0, false, false, 0⟩

/-- The check of `InstallsAt`. -/
def installsAt (s : UInt16) : Label → Bool
  | .switch p => (parse p.msg).IsInstall ∧ (parse p.msg).key = s
  | _ => false

theorem installsAt_iff {s : UInt16} {label : Label} :
    installsAt s label = true ↔ InstallsAt s label := by
  constructor
  · intro h
    cases label with
    | switch p => exact ⟨p, rfl, of_decide_eq_true h⟩
    | _ => cases h
  · rintro ⟨p, rfl, h⟩
    exact decide_eq_true h

/-- A write from its start until its copy has been handled and its entry cleared. -/
def completeWriteMoves : List Move :=
  [.start ⟨2, 0, 0⟩ .kEnumW 65536, .deliver 0, .deliver 0, .deliver 0, .deliver 1, .deliver 0,
    .deliver 0]

/-- The next write up to the data node, whose reply then comes to the switch. -/
def nextWriteMoves : List Move := [.start ⟨2, 0, 1⟩ .kEnumW 65536, .deliver 0, .deliver 0]

/-- Timestamps of two data threads, and a second write whose reply passes `timecmp` after the first one is
complete. -/
theorem timestamps_follow_issue_order_second_write :
    LaterIsGreater (bswap32 2) (bswap32 4) ∧
      ∃ σ σ' p next, oneKey.Reachable CountersBelow σ ∧ σ.net = [] ∧ σ.hist.length = 3 ∧
        Foundation.Reachable σ (Step oneKey) CountersBelow σ' ∧ Step oneKey σ' (.switch p) next ∧
        InstallsAt 0 (.switch p) ∧ σ'.regs.Current (parse p.msg) := by
  refine ⟨((timestamps_follow_issue_order [0, 1, 0]).1 0 2 0 0 _ _ (by decide) (by decide)
    (by decide) (by decide)).mpr (by decide), ?_⟩
  have hrange : oneKey.flags.InRange :=
    ⟨by decide, by decide, by decide, by decide, by decide, by decide, by decide, by decide⟩
  have hmoves : ∃ σ σ' p next, execAll oneKey (fun σ _ ↦ σ.hist.length < 2 ^ 29)
        (State.initial oneKey) completeWriteMoves = some σ ∧ σ.net = [] ∧ σ.hist.length = 3 ∧
      execAll oneKey (fun σ label ↦ σ.hist.length < 2 ^ 29 && !installsAt 0 label) σ nextWriteMoves =
        some σ' ∧
      exec oneKey σ' (.deliver 0) = some (.switch p, next) ∧ installsAt 0 (.switch p) = true :=
    ⟨_, _, _, _, rfl, rfl, rfl, rfl, rfl, by decide +kernel⟩
  obtain ⟨σ, σ', p, next, hexec, hnet, hhist, hexec', hlast, hinstalls⟩ := hmoves
  have hshort : oneKey.Reachable (fun σ _ ↦ σ.hist.length < 2 ^ 29) σ :=
    execAll_reachable (fun _ _ h ↦ of_decide_eq_true h) Reachable.init hexec
  have hreach : oneKey.Reachable CountersBelow σ :=
    hshort.strengthen fun _ label hσ hok ↦ countersBelow_of_short hrange hσ hok label
  have hafter : Foundation.Reachable σ (Step oneKey)
      (fun τ label ↦ τ.hist.length < 2 ^ 29 ∧ ¬ InstallsAt 0 label) σ' := by
    refine execAll_reachable (fun τ label hcheck ↦ ?_) Reachable.init hexec'
    rw [Bool.and_eq_true, decide_eq_true_eq, Bool.not_eq_true'] at hcheck
    exact ⟨hcheck.1, fun hinstalls ↦ by simp [installsAt_iff.mpr hinstalls] at hcheck⟩
  have hrun : Foundation.Reachable σ (Step oneKey)
      (fun τ label ↦ CountersBelow τ label ∧ ¬ InstallsAt 0 label) σ' :=
    hafter.strengthen fun τ label hτ hok ↦ ⟨countersBelow_of_short hrange
      (hshort.trans (hτ.mono fun _ _ h ↦ h.1)) hok.1 label, hok.2⟩
  exact ⟨σ, σ', p, next, hreach, hnet, hhist, hrun.mono fun _ _ h ↦ h.1, exec_step hlast,
    installsAt_iff.mp hinstalls, (timestamps_follow_issue_order [0, 1, 0]).2 oneKey σ σ' next 0 p
      hrange rfl hreach hnet hrun (exec_step hlast) (installsAt_iff.mp hinstalls)⟩

end SwitchDelta.Protocol
