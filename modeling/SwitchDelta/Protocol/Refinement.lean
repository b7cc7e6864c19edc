import SwitchDelta.Protocol.Encoding

/-!
# The system refines the protocol

`Refines S σ π` relates a state of the system to a state of the protocol: the same packets on the
same links, one item for each; slots with the entries of their owners; coroutines that wait for what
the protocol says they wait for; the same index, counters and history. No assertion has failed.

Every step of the system is a step of the protocol or changes nothing there (`Refines.step`). So
every reachable state of the system refines a reachable state of the protocol, and the invariants of
the protocol are facts about the system (`refines_of_reachable`). The protocol may use a
`Discipline` in runs whose steps grant it.
-/

set_option autoImplicit false
set_option relaxedAutoImplicit false

namespace SwitchDelta.Protocol

open Foundation Kv Switch

/-! ### The relation -/

/-- The registers of a slot and its owner stand for an entry. -/
def EntryRel (S : Setup) (check : KeyCheck) (log0 log1 : UInt32) (owner : Option OpId) :
    Option (OpId × UInt64) → Prop
  | none => check.lo = 0 ∧ owner = none
  | some (w, log) => S.flags.visibility = true ∧ owner = some w ∧
      check = ⟨bswap32 (get_fingerprint w.key), rpcId S w⟩ ∧
      joinWords (bswap32 log0) (bswap32 log1) = log

/-- A coroutine waits for what the protocol says it waits for. -/
def WaitRel (c : CoroId) (co : Coroutine) : Option Waiting → Prop
  | none => co.pc = .idle ∧ co.sent = co.delivered
  | some w => co.pc = w.pc ∧ w.pc ≠ .idle ∧ co.sent = co.delivered + 1 ∧
      w.op = ⟨c, co.seq, co.ctx.long_key⟩ ∧
      (w.pc ≠ .check_req_cnt → co.ctx.key = (get_fingerprint co.ctx.long_key).toUInt64) ∧
      (w.pc = .put_index → co.ctx.log_id = w.log)

/-- A packet on a link carries the item on that link. -/
def LinkRel (S : Setup) (p : Loc × Packet) (q : Loc × Item) : Prop :=
  p.1 = q.1 ∧ Encodes S p.2 q.2

/-- The state of the system stands for the state of the protocol. -/
structure Refines (S : Setup) (σ : State) (π : PState) : Prop where
  net : List.Forall₂ (LinkRel S) σ.net π.net
  slot : ∀ s, EntryRel S (σ.regs.key_check s) (σ.regs.log0 s) (σ.regs.log1 s) (σ.owner s) (π.slot s)
  seq : ∀ c, (σ.coro c).seq = π.seq c
  magic : ∀ c, (σ.coro c).ctx.magic = next_magic^[(σ.coro c).seq] (S.ctx₀ c).magic
  waits : ∀ c, WaitRel c (σ.coro c) (π.phase c)
  tss : σ.tss = π.clock
  index : ∀ k ∈ S.key_space,
    σ.index k = some (π.index k) ∧ (π.index k).toUInt32.toUInt64 = π.index k
  hist : σ.hist = π.hist
  failed : σ.failed = false

/-- What a step grants to a discipline. A write is refused by a slot that holds its fingerprint only
without `refuseFree`, a `ReplySwitch` meets a foreign entry under its `rpc_id` only without
`clearOwn`, and a data thread hands out only the log positions `logs`. -/
structure Grants (S : Setup) (D : Discipline) (σ : State) (label : Label) : Prop where
  refuse : D.refuseFree → ∀ p, label = .switch p → (parse p.msg).IsInstall →
    (σ.regs.key_check (parse p.msg).key).lo = (parse p.msg).key32 →
    AcceptsInstall S.program σ.regs (parse p.msg)
  clear : D.clearOwn → ∀ p w, label = .switch p → (parse p.msg).IsClear →
    σ.owner (parse p.msg).key = some w →
    (σ.regs.key_check (parse p.msg).key).hi = (parse p.msg).rpc_id → w = p.op
  log : ∀ t p, label = .data t p → t.toUInt32 < S.flags.dn_thread →
    D.logs (compute_log_id S.flags (σ.kv t).pos.toUInt32 t.toUInt32).toUInt64

variable {S : Setup} {D : Discipline} {σ σ' : State} {π : PState}

theorem Refines.initial (S : Setup) : Refines S (State.initial S) PState.initial where
  net := List.Forall₂.nil
  slot := fun _ ↦ ⟨rfl, rfl⟩
  seq := fun _ ↦ rfl
  magic := fun _ ↦ rfl
  waits := fun _ ↦ ⟨rfl, rfl⟩
  tss := rfl
  index := fun _ hk ↦ ⟨if_pos hk, rfl⟩
  hist := rfl
  failed := rfl

theorem linkRel_loc (p : Loc × Packet) (q : Loc × Item) (h : LinkRel S p q) : p.1 = q.1 := h.1

/-- One more packet and its item. -/
theorem forall₂_concat {net : List (Loc × Packet)} {net' : List (Loc × Item)} {ℓ : Loc}
    {p : Packet} {x : Item} (hnet : List.Forall₂ (LinkRel S) net net') (h : Encodes S p x) :
    List.Forall₂ (LinkRel S) (net ++ [(ℓ, p)]) (net' ++ [(ℓ, x)]) :=
  List.rel_append hnet (List.Forall₂.cons ⟨rfl, h⟩ List.Forall₂.nil)

/-- Every packet carries an item on the same link. -/
theorem Refines.exists_item (h : Refines S σ π) {ℓ : Loc} {p : Packet} (hp : (ℓ, p) ∈ σ.net) :
    ∃ x, (ℓ, x) ∈ π.net ∧ Encodes S p x := by
  obtain ⟨⟨ℓ', x⟩, hx, hloc, henc⟩ := exists_right_of_forall₂ h.net hp
  obtain rfl : ℓ = ℓ' := hloc
  exact ⟨x, hx, henc⟩

/-! ### Slots -/

section Slots

variable {check : KeyCheck} {log0 log1 : UInt32} {owner : Option OpId}
  {entry : Option (OpId × UInt64)}

theorem EntryRel.lo_eq_zero_iff (h : EntryRel S check log0 log1 owner entry) :
    check.lo = 0 ↔ entry = none := by
  cases entry with
  | none => simpa using h.1
  | some e =>
    obtain ⟨-, -, hcheck, -⟩ := h
    simp [hcheck, get_fingerprint_ne_zero]

theorem EntryRel.owner_eq (h : EntryRel S check log0 log1 owner entry) :
    owner = entry.map Prod.fst := by
  cases entry with
  | none => exact h.2
  | some e => exact h.2.1

/-- A slot holds a fingerprint exactly when its entry is of a key with that fingerprint. -/
theorem EntryRel.lo_eq_iff (h : EntryRel S check log0 log1 owner entry) (k : KvKeyType) :
    check.lo = bswap32 (get_fingerprint k) ↔
      ∃ w log, entry = some (w, log) ∧ get_fingerprint w.key = get_fingerprint k := by
  cases entry with
  | none =>
    rw [h.1]
    simp only [reduceCtorEq, false_and, exists_false, iff_false]
    exact fun heq ↦ get_fingerprint_ne_zero k (bswap32_eq_zero_iff.mp heq.symm)
  | some e =>
    obtain ⟨-, -, hcheck, -⟩ := h
    rw [hcheck, bswap32_inj]
    constructor
    · exact fun heq ↦ ⟨e.1, e.2, rfl, heq⟩
    · rintro ⟨w, log, heq, hw⟩
      obtain ⟨rfl, rfl⟩ := Prod.mk.inj (Option.some.inj heq)
      exact hw

end Slots

/-- A slot holds the fingerprint of a key exactly when the protocol says so. -/
theorem Refines.holds_iff (h : Refines S σ π) (hsound : π.Sound (layout S) D) (k : KvKeyType) :
    (σ.regs.key_check ((layout S).slot k)).lo = bswap32 (get_fingerprint k) ↔
      π.Holds (layout S) k := by
  rw [(h.slot _).lo_eq_iff]
  constructor
  · rintro ⟨w, log, hentry, hw⟩
    obtain ⟨hs, -, -⟩ := hsound.slot_owner _ w log hentry
    exact ⟨w, log, hentry, (toBigEndian16_inj.mp hs).symm, hw⟩
  · rintro ⟨w, log, hentry, -, hw⟩
    exact ⟨w, log, hentry, hw⟩

/-- Without `FLAGS_visibility` no slot is ever filled. -/
theorem Refines.not_holds (h : Refines S σ π) (hflag : S.flags.visibility ≠ true) (k : KvKeyType) :
    ¬ π.Holds (layout S) k := by
  rintro ⟨w, log, hentry, -⟩
  have hslot := h.slot ((layout S).slot k)
  rw [hentry] at hslot
  exact hflag hslot.1

/-! ### The switch -/

variable {p : Packet} {x : Item} {rest : List (Loc × Packet)} {rest' : List (Loc × Item)}

theorem Encodes.parse_key (h : Encodes S p x) (hkind : x.kind ≠ .probe) :
    (parse p.msg).key = (layout S).slot x.op.key := by
  simp [parse, layout, h.switch_key hkind]

theorem Encodes.parse_key32 (h : Encodes S p x) (hkind : x.kind ≠ .probe) :
    (parse p.msg).key32 = bswap32 (get_fingerprint x.op.key) := by
  simp [parse, h.key, hkind]

theorem Encodes.parse_rpc_id (h : Encodes S p x)
    (hkind : x.kind ∈ [.appendReq, .appendReply, .copy, .replySwitch]) :
    (parse p.msg).rpc_id = rpcId S x.op := by
  obtain ⟨hg, hc, hm⟩ := h.rpc_id hkind
  simp [parse, rpcId, hg, hc, hm]

/-- The relation after the switch has processed a packet, from its parts. -/
theorem Refines.switch_of (h : Refines S σ π) {out : List (Loc × Item)}
    {slot : UInt16 → Option (OpId × UInt64)} (hrest : List.Forall₂ (LinkRel S) rest rest')
    (hout : List.Forall₂ (LinkRel S)
      (switchOutputs S.flags (ingress S.program (parse_kvmsg σ.regs (parse p.msg))) p) out)
    (hslot : ∀ s, EntryRel S ((σ.switchStep S p rest).regs.key_check s)
      ((σ.switchStep S p rest).regs.log0 s) ((σ.switchStep S p rest).regs.log1 s)
      ((σ.switchStep S p rest).owner s) (slot s)) :
    Refines S (σ.switchStep S p rest) { π with net := rest' ++ out, slot := slot } where
  net := List.rel_append hrest hout
  slot := hslot
  seq := h.seq
  magic := h.magic
  waits := h.waits
  tss := h.tss
  index := h.index
  hist := h.hist
  failed := h.failed

/-- A packet that changes no entry changes no owner. -/
theorem Refines.slot_of_unchanged (h : Refines S σ π)
    (hcheck : (σ.switchStep S p rest).regs.key_check = σ.regs.key_check)
    (hlog0 : (σ.switchStep S p rest).regs.log0 = σ.regs.log0)
    (hlog1 : (σ.switchStep S p rest).regs.log1 = σ.regs.log1)
    (hmcast : (ingress S.program (parse_kvmsg σ.regs (parse p.msg))).mcast_grp_a = none)
    (s : UInt16) :
    EntryRel S ((σ.switchStep S p rest).regs.key_check s) ((σ.switchStep S p rest).regs.log0 s)
      ((σ.switchStep S p rest).regs.log1 s) ((σ.switchStep S p rest).owner s) (π.slot s) := by
  have howner : (σ.switchStep S p rest).owner = σ.owner := by
    change nextOwner σ.owner (parse p.msg) _ p.op = σ.owner
    rw [nextOwner, hmcast]
    simp only [Option.isSome_none, Bool.false_eq_true, if_false]
    split_ifs with hlo
    · have hentry := h.slot (parse p.msg).key
      change ((σ.switchStep S p rest).regs.key_check (parse p.msg).key).lo = 0 at hlo
      rw [hcheck, hentry.lo_eq_zero_iff] at hlo
      rw [hlo] at hentry
      rw [← hentry.2, Function.update_eq_self]
    · rfl
  rw [hcheck, hlog0, hlog1, howner]
  exact h.slot s

/-- An accepted write is installed. -/
theorem Refines.install (hrange : S.flags.InRange) (hsound : π.Sound (layout S) D)
    (h : Refines S σ π) (henc : Encodes S p x) (hcoro : S.flags.HasCoro x.op.coro)
    (hrest : List.Forall₂ (LinkRel S) rest rest') (hkind : x.kind = .appendReply)
    (hinstall : (parse p.msg).IsInstall) (haccepts : AcceptsInstall S.program σ.regs (parse p.msg))
    (hq : Installs σ.regs (parse p.msg) (ingress S.program (parse_kvmsg σ.regs (parse p.msg)))) :
    (π.slot ((layout S).slot x.op.key) = none ∨ π.Holds (layout S) x.op.key) ∧
      Refines S (σ.switchStep S p rest)
        { π with
          net := rest' ++ [(.ixIn ((layout S).copyThread x.op.key), { x with kind := .copy }),
            (x.home, { x with kind := .answer })]
          slot := Function.update π.slot ((layout S).slot x.op.key) (some (x.op, x.log)) } := by
  have hkey := henc.parse_key (by simp [hkind])
  have hkey32 := henc.parse_key32 (by simp [hkind])
  have hrpc := henc.parse_rpc_id (by simp [hkind])
  have hvisible : S.flags.visibility = true := by
    by_contra hoff
    have hflag := hinstall.1
    simp [parse, henc.flag, hkind, Kind.flag, Flags.flag, hoff, visibility] at hflag
  refine ⟨?_, ?_⟩
  · have hlo : (σ.regs.key_check (parse p.msg).key).lo = 0 ∨
        (σ.regs.key_check (parse p.msg).key).lo = (parse p.msg).key32 := by
      cases hprog : S.program <;> rw [hprog] at haccepts
      · exact haccepts.2
      · exact Or.inl haccepts
    rw [hkey, hkey32] at hlo
    exact hlo.imp (h.slot _).lo_eq_zero_iff.mp (h.holds_iff hsound _).mp
  · obtain ⟨p₁, p₂, henc₁, henc₂, hout⟩ := henc.installs hrange hcoro hkind hinstall.1 hq
    refine h.switch_of hrest ?_ fun s ↦ ?_
    · rw [hout]
      exact List.Forall₂.cons ⟨rfl, henc₁⟩ (List.Forall₂.cons ⟨rfl, henc₂⟩ List.Forall₂.nil)
    · simp only [State.switchStep, nextOwner, hq.mcast, Option.isSome_some, if_true, hq.key_check,
        hq.log0, hq.log1]
      rw [hkey]
      by_cases hs : s = (layout S).slot x.op.key
      · subst hs
        simp only [Function.update_self]
        refine ⟨hvisible, by rw [henc.op], by rw [hkey32, hrpc], ?_⟩
        simp [parse, henc.log_id (by simp [hkind])]
      · simp only [Function.update_of_ne hs]
        exact h.slot s

/-- A `ReplySwitch` clears the entry under its `rpc_id`. -/
theorem Refines.clear (h : Refines S σ π) (henc : Encodes S p x)
    (hrest : List.Forall₂ (LinkRel S) rest rest') (hkind : x.kind = .replySwitch)
    (hq : Drops σ.regs (parse p.msg) (ingress S.program (parse_kvmsg σ.regs (parse p.msg))))
    (hmatch : (parse p.msg).rpc_id = (σ.regs.key_check (parse p.msg).key).hi) :
    Refines S (σ.switchStep S p rest)
      { π with
        net := rest'
        slot := Function.update π.slot ((layout S).slot x.op.key) none } := by
  have hkey := henc.parse_key (by simp [hkind])
  have hout : switchOutputs S.flags (ingress S.program (parse_kvmsg σ.regs (parse p.msg))) p =
      [] := by
    simp [switchOutputs, Pipe.copies, hq.egressPorts]
  rw [← List.append_nil rest']
  refine h.switch_of hrest (by rw [hout]; exact List.Forall₂.nil) fun s ↦ ?_
  simp only [State.switchStep, nextOwner, hq.mcast, hq.key_check, hq.log0, hq.log1,
    write_index_reply, hmatch, if_true, Function.update_self, Option.isSome_none,
    Bool.false_eq_true, if_false]
  rw [hkey]
  by_cases hs : s = (layout S).slot x.op.key
  · subst hs
    simp only [Function.update_self]
    exact ⟨rfl, rfl⟩
  · simp only [Function.update_of_ne hs]
    exact h.slot s

/-- A `ReplySwitch` leaves a slot with another `rpc_id` alone. -/
theorem Refines.keep (h : Refines S σ π) (hrest : List.Forall₂ (LinkRel S) rest rest')
    (hq : Drops σ.regs (parse p.msg) (ingress S.program (parse_kvmsg σ.regs (parse p.msg))))
    (hmatch : (parse p.msg).rpc_id ≠ (σ.regs.key_check (parse p.msg).key).hi) :
    Refines S (σ.switchStep S p rest) { π with net := rest' } := by
  have hout : switchOutputs S.flags (ingress S.program (parse_kvmsg σ.regs (parse p.msg))) p =
      [] := by
    simp [switchOutputs, Pipe.copies, hq.egressPorts]
  have hcheck : (σ.switchStep S p rest).regs.key_check = σ.regs.key_check := by
    simp only [State.switchStep, hq.key_check, write_index_reply, if_neg hmatch,
      Function.update_eq_self]
  rw [← List.append_nil rest']
  exact h.switch_of hrest (by rw [hout]; exact List.Forall₂.nil)
    (h.slot_of_unchanged hcheck hq.log0 hq.log1 hq.mcast)

/-- Where the switch passes an item on to. -/
theorem passes_of_link {ℓ : Loc} (hplaced : Placed (layout S) ℓ x)
    (hℓ : ℓ = .up ∨ (∃ t, ℓ = .dnOut t) ∨ ∃ t, ℓ = .ixOut t)
    (hkind : x.kind ∉ [.copy, .answer, .readHit, .replySwitch])
    (hread : x.kind = .readReq → ¬ π.Holds (layout S) x.op.key)
    (hreply : x.kind = .appendReply → D.refuseFree → ¬ π.Holds (layout S) x.op.key) :
    match x.link (layout S) with
    | some ℓ' => Passes (layout S) D π ℓ x ℓ'
    | none => ℓ = .up ∧ x.kind = .readLog ∧ (layout S).logThread x.log = none := by
  rcases hℓ with rfl | ⟨t, rfl⟩ | ⟨t, rfl⟩
  · cases hk : x.kind with
    | appendReq => simpa [Item.link, hk] using Passes.appendReq hk
    | updateReq => simpa [Item.link, hk] using Passes.updateReq hk
    | readReq => simpa [Item.link, hk] using Passes.readReq hk (hread hk)
    | probe => simpa [Item.link, hk] using Passes.probe hk
    | readLog =>
      cases hthread : (layout S).logThread x.log with
      | none => simp [Item.link, hk, hthread]
      | some t => simpa [Item.link, hk, hthread] using Passes.readLog hk hthread
    | _ => simp_all [Placed, Item.home]
  · cases hk : x.kind with
    | appendReply => simpa [Item.link, hk] using Passes.appendReply hk (hreply hk)
    | logReply => simpa [Item.link, hk] using Passes.logReply hk
    | _ => simp_all [Placed, Item.home]
  · cases hk : x.kind with
    | updateReply => simpa [Item.link, hk] using Passes.updateReply hk
    | readReply => simpa [Item.link, hk] using Passes.readReply hk
    | _ => simp_all [Placed, Item.home]

/-- The switch processes a packet. -/
theorem Refines.switch (hrange : S.flags.InRange) (hsound : π.Sound (layout S) D)
    (h : Refines S σ π) (hgrants : Grants S D σ (.switch p)) {ℓ : Loc}
    (htake : Take π.net ℓ x rest')
    (hℓ : ℓ = .up ∨ (TakeFirst π.net ℓ x rest' ∧ ((∃ t, ℓ = .dnOut t) ∨ ∃ t, ℓ = .ixOut t)))
    (henc : Encodes S p x) (hrest : List.Forall₂ (LinkRel S) rest rest') :
    ∃ π', PStep (layout S) D π (.move ℓ x) π' ∧ Refines S (σ.switchStep S p rest) π' := by
  have hplaced := hsound.placed _ _ htake.mem
  have hcoro := hsound.item_coro _ _ htake.mem
  have hcode : (parse p.msg).op = x.kind.code := henc.code
  have hflag : (parse p.msg).flag = x.kind.flag S.flags := henc.flag
  have hdown : ∀ s t, ℓ ≠ .down s t := by
    rintro s t rfl
    rcases hℓ with hup | ⟨-, ⟨t', ht⟩ | ⟨t', ht⟩⟩ <;> simp_all
  -- the links into the switch carry none of the items that end at a node
  have hkind : x.kind ∉ [.copy, .answer, .readHit] := by
    intro hmem
    have hhome : ℓ ≠ x.home := hdown _ _
    rcases hℓ with rfl | ⟨-, ⟨t, rfl⟩ | ⟨t, rfl⟩⟩ <;>
      cases hk : x.kind <;> simp_all [Placed, Item.home]
  rcases ingress_cases S.program σ.regs henc.key32_ne_zero with
    ⟨hinstall, haccepts, hq⟩ | ⟨hclear, hq⟩ | ⟨hlookup, hlo, hq⟩ | ⟨hninstall, hnclear, hnlookup, hq⟩
  · have hk : x.kind = .appendReply := by
      obtain ⟨hvisible, hop⟩ := hinstall
      rw [hcode] at hop
      rw [hflag] at hvisible
      cases hk : x.kind <;> simp_all [Kind.code, Kind.flag, visibility]
    obtain ⟨hfree, hrefines⟩ :=
      h.install hrange hsound henc hcoro hrest hk hinstall haccepts hq
    simp only [Placed, hk] at hplaced
    obtain rfl := hplaced.resolve_right (hdown _ _)
    exact ⟨_, PStep.install (hℓ.resolve_left (by simp)).1 hk hfree, hrefines⟩
  · have hk : x.kind = .replySwitch := by
      have hop := hclear.2
      rw [hcode] at hop
      cases hk : x.kind <;> simp_all [Kind.code]
    simp only [Placed, hk] at hplaced
    subst hplaced
    have hfirst := (hℓ.resolve_left (by simp)).1
    have hkey := henc.parse_key (by simp [hk])
    have hrpc := henc.parse_rpc_id (by simp [hk])
    by_cases hmatch : (parse p.msg).rpc_id = (σ.regs.key_check (parse p.msg).key).hi
    · refine ⟨_, PStep.clear hfirst hk fun hown w log hslot ↦ ?_, h.clear henc hrest hk hq hmatch⟩
      have howner := (h.slot ((layout S).slot x.op.key)).owner_eq
      rw [hslot, ← hkey] at howner
      exact (hgrants.clear hown p w rfl hclear howner hmatch.symm).trans henc.op
    · refine ⟨_, PStep.keep hfirst hk fun log hslot ↦ hmatch ?_, h.keep hrest hq hmatch⟩
      have hentry := h.slot ((layout S).slot x.op.key)
      rw [hslot] at hentry
      rw [hkey, hentry.2.2.1, hrpc]
  · have hk : x.kind = .readReq := by
      have hop := hlookup.2
      rw [hcode] at hop
      cases hk : x.kind <;> simp_all [Kind.code]
    have hup : ℓ = .up := by
      rcases hℓ with rfl | ⟨-, ⟨t, rfl⟩ | ⟨t, rfl⟩⟩ <;> simp_all [Placed]
    subst hup
    have hkey := henc.parse_key (by simp [hk])
    rw [hkey, henc.parse_key32 (by simp [hk]), h.holds_iff hsound] at hlo
    obtain ⟨w, log, hslot, hsame⟩ := hlo
    have hentry := h.slot ((layout S).slot x.op.key)
    rw [hslot] at hentry
    have hlog : joinWords (bswap32 (σ.regs.log0 (parse p.msg).key))
        (bswap32 (σ.regs.log1 (parse p.msg).key)) = log := by
      rw [hkey]
      exact hentry.2.2.2
    obtain ⟨p', henc', hout⟩ := henc.answers hcoro hk hentry.1 hq hlog
    refine ⟨_, PStep.hit htake hk hslot hsame, h.switch_of hrest ?_
      (h.slot_of_unchanged hq.key_check hq.log0 hq.log1 hq.mcast)⟩
    rw [hout]
    exact List.Forall₂.cons ⟨rfl, henc'⟩ List.Forall₂.nil
  · obtain ⟨p', henc', hout⟩ := henc.forwards hrange hcoro hkind hq
    have hrefines : Refines S (σ.switchStep S p rest)
        { π with net := rest' ++ (x.link (layout S)).toList.map fun ℓ ↦ (ℓ, x) } := by
      refine h.switch_of hrest ?_ (h.slot_of_unchanged hq.key_check hq.log0 hq.log1 hq.mcast)
      rw [hout]
      cases x.link (layout S) with
      | none => exact List.Forall₂.nil
      | some ℓ' => exact List.Forall₂.cons ⟨rfl, henc'⟩ List.Forall₂.nil
    have hnotClear : x.kind ≠ .replySwitch := fun hk ↦
      hnclear ⟨by rw [hflag, hk, Kind.flag], by rw [hcode, hk, Kind.code]⟩
    have hvisible (hk : x.kind = .readReq ∨ x.kind = .appendReply)
        (hon : S.flags.visibility = true) : (parse p.msg).flag = visibility := by
      rcases hk with hk | hk <;> simp [hflag, hk, Kind.flag, Flags.flag, hon]
    have hregs (hk : x.kind ≠ .probe) (hholds : π.Holds (layout S) x.op.key) :
        (σ.regs.key_check (parse p.msg).key).lo = (parse p.msg).key32 := by
      rw [henc.parse_key hk, henc.parse_key32 hk]
      exact (h.holds_iff hsound _).mpr hholds
    have hread (hk : x.kind = .readReq) : ¬ π.Holds (layout S) x.op.key := fun hholds ↦ by
      by_cases hon : S.flags.visibility = true
      · exact hnlookup ⟨⟨hvisible (Or.inl hk) hon, by rw [hcode, hk, Kind.code]⟩,
          hregs (by simp [hk]) hholds⟩
      · exact h.not_holds hon _ hholds
    have hreply (hk : x.kind = .appendReply) (hfree : D.refuseFree) :
        ¬ π.Holds (layout S) x.op.key := fun hholds ↦ by
      by_cases hon : S.flags.visibility = true
      · have hinstall : (parse p.msg).IsInstall :=
          ⟨hvisible (Or.inr hk) hon, Or.inl (by rw [hcode, hk, Kind.code])⟩
        exact hninstall ⟨hinstall, hgrants.refuse hfree p rfl hinstall
          (hregs (by simp [hk]) hholds)⟩
      · exact h.not_holds hon _ hholds
    have hpasses := passes_of_link hplaced (hℓ.imp_right And.right)
      (by simp_all) hread hreply
    cases hlink : x.link (layout S) with
    | none =>
      rw [hlink] at hpasses hrefines
      obtain ⟨rfl, hk, hthread⟩ := hpasses
      exact ⟨_, PStep.lose htake hk hthread, by simpa using hrefines⟩
    | some ℓ' =>
      rw [hlink] at hpasses hrefines
      by_cases hup : ℓ = .up
      · subst hup
        exact ⟨_, PStep.passUp htake hpasses, hrefines⟩
      · exact ⟨_, PStep.passOut hup (hℓ.resolve_left hup).1 hpasses, hrefines⟩

/-! ### Clients start -/

theorem Refines.phase_eq_none (h : Refines S σ π) {c : CoroId} (hidle : (σ.coro c).pc = .idle) :
    π.phase c = none := by
  have hwaits := h.waits c
  cases hphase : π.phase c with
  | none => rfl
  | some w =>
    rw [hphase] at hwaits
    exact absurd (hwaits.1.symm.trans hidle) hwaits.2.1

theorem Refines.sent_eq (h : Refines S σ π) {c : CoroId} (hidle : (σ.coro c).pc = .idle) :
    (σ.coro c).sent = (σ.coro c).delivered := by
  have hwaits := h.waits c
  rw [h.phase_eq_none hidle] at hwaits
  exact hwaits.2

/-- The coroutines after one of them has changed. -/
theorem Refines.update_coro (h : Refines S σ π) (c : CoroId) (co : Coroutine) (n : ℕ)
    (waiting : Option Waiting) (hseq : co.seq = n)
    (hmagic : co.ctx.magic = next_magic^[co.seq] (S.ctx₀ c).magic)
    (hwaits : WaitRel c co waiting) :
    (∀ c', (Function.update σ.coro c co c').seq = Function.update π.seq c n c') ∧
      (∀ c', (Function.update σ.coro c co c').ctx.magic =
        next_magic^[(Function.update σ.coro c co c').seq] (S.ctx₀ c').magic) ∧
      ∀ c', WaitRel c' (Function.update σ.coro c co c') (Function.update π.phase c waiting c') := by
  refine ⟨fun c' ↦ ?_, fun c' ↦ ?_, fun c' ↦ ?_⟩ <;> by_cases hc : c' = c
  · subst hc
    simpa only [Function.update_self] using hseq
  · simpa only [Function.update_of_ne hc] using h.seq c'
  · subst hc
    simpa only [Function.update_self] using hmagic
  · simpa only [Function.update_of_ne hc] using h.magic c'
  · subst hc
    simpa only [Function.update_self] using hwaits
  · simpa only [Function.update_of_ne hc] using h.waits c'

theorem Refines.start (h : Refines S σ π) {c : CoroId} {test_type : TestType} {k : KvKeyType}
    (buf : RawKvMsg) (userbuf : List UInt8) (hcoro : S.flags.HasCoro c)
    (hidle : (σ.coro c).pc = .idle) (hk : k ∈ S.key_space) :
    ∃ π', PStep (layout S) D π .start π' ∧ Refines S (σ.startStep S c test_type k buf userbuf) π' := by
  have hphase := h.phase_eq_none hidle
  have hsent := h.sent_eq hidle
  have hseq := h.seq c
  have hmagic : (kv_test_begin (σ.coro c).ctx k).magic =
      next_magic^[(σ.coro c).seq + 1] (S.ctx₀ c).magic := by
    rw [Function.iterate_succ_apply', ← h.magic c]
    rfl
  cases test_type with
  | kEnumW =>
    obtain ⟨hseqs, hmagics, hwaits⟩ := h.update_coro c ⟨.put_value,
      kv_test_begin (σ.coro c).ctx k, (σ.coro c).seq + 1, (σ.coro c).sent + 1,
      (σ.coro c).delivered⟩ (π.seq c + 1) (some ⟨.put_value, ⟨c, π.seq c + 1, k⟩, 0⟩)
      (by rw [hseq]) hmagic (by simp [WaitRel, kv_test_begin, hsent, hseq])
    refine ⟨_, PStep.write hcoro hphase hk, ?_, h.slot, hseqs, hmagics, hwaits, h.tss, h.index, ?_,
      h.failed⟩
    · rw [← hseq]
      exact forall₂_concat h.net (encodes_put_value buf userbuf rfl rfl hmagic)
    · simp [State.startStep, h.hist, hseq]
  | kEnumR =>
    obtain ⟨hseqs, hmagics, hwaits⟩ := h.update_coro c ⟨.get_index,
      kv_test_begin (σ.coro c).ctx k, (σ.coro c).seq + 1, (σ.coro c).sent + 1,
      (σ.coro c).delivered⟩ (π.seq c + 1) (some ⟨.get_index, ⟨c, π.seq c + 1, k⟩, 0⟩)
      (by rw [hseq]) hmagic (by simp [WaitRel, kv_test_begin, hsent, hseq])
    refine ⟨_, PStep.read hcoro hphase hk, ?_, h.slot, hseqs, hmagics, hwaits, h.tss, h.index, ?_,
      h.failed⟩
    · rw [← hseq]
      exact forall₂_concat h.net (encodes_get_index buf rfl)
    · simp [State.startStep, h.hist, hseq]

theorem Refines.probe (h : Refines S σ π) {c : CoroId} {k : KvKeyType} (buf : RawKvMsg)
    (hcoro : S.flags.HasCoro c) (hidle : (σ.coro c).pc = .idle) (hk : k ∈ S.key_space) :
    ∃ π', PStep (layout S) D π .start π' ∧ Refines S (σ.probeStep S c k buf) π' := by
  have hseq := h.seq c
  obtain ⟨hseqs, hmagics, hwaits⟩ := h.update_coro c ⟨.check_req_cnt,
    { (σ.coro c).ctx with long_key := k }, (σ.coro c).seq, (σ.coro c).sent + 1,
    (σ.coro c).delivered⟩ (π.seq c) (some ⟨.check_req_cnt, ⟨c, π.seq c, k⟩, 0⟩) hseq (h.magic c)
    (by simp [WaitRel, h.sent_eq hidle, hseq])
  rw [Function.update_eq_self] at hseqs
  refine ⟨_, PStep.probe hcoro (h.phase_eq_none hidle) hk, ?_, h.slot, hseqs, hmagics, hwaits,
    h.tss, h.index, h.hist, h.failed⟩
  rw [← hseq]
  exact forall₂_concat h.net (encodes_check_req_cnt buf)

/-! ### The data node -/

theorem Refines.data (hrange : S.flags.InRange) (hsound : π.Sound (layout S) D)
    (h : Refines S σ π) {t : UInt8} (hgrants : Grants S D σ (.data t p)) (buf : RawKvMsg)
    (htake : Take π.net (.dnIn t) x rest') (henc : Encodes S p x)
    (hrest : List.Forall₂ (LinkRel S) rest rest') :
    ∃ π', PStep (layout S) D π (.move (.dnIn t) x) π' ∧
      Refines S (σ.dataStep S t p rest buf) π' := by
  have hplaced := hsound.placed _ _ htake.mem
  have hkind : x.kind = .appendReq ∨ x.kind = .readLog := by
    cases hk : x.kind <;> simp_all [Placed, Item.home]
  have hcode := henc.code
  rcases hkind with hk | hk
  · obtain ⟨kv, reply, hprocess, hreply, henc'⟩ := encodes_append henc hk t ⟨σ.kv t, σ.tss⟩ buf
    have hthread : t.toUInt32 < S.flags.dn_thread := by
      simp only [Placed, hk, reduceCtorEq, Loc.dnIn.injEq, false_or] at hplaced
      rw [hplaced]
      exact thread_num_data hrange x.op.key
    have hlog : D.logs reply.log_id := by
      rw [hreply]
      exact hgrants.log t p rfl hthread
    have hresult : σ.dataStep S t p rest buf = { σ with
        net := rest ++ [(.dnOut t, ⟨reply_port p.msg, reply, p.op⟩)]
        kv := Function.update σ.kv t kv
        tss := Function.update σ.tss (get_switch_key x.op.key)
          (next_timestamp (σ.tss (get_switch_key x.op.key))).1
        hist := σ.hist ++ [.assign p.op reply.log_id] } := by
      simp only [State.dataStep, hprocess, hcode, hk, Kind.code, if_true]
    rw [hresult]
    rw [h.tss] at henc' ⊢
    refine ⟨_, PStep.append htake hk hlog, forall₂_concat hrest henc', h.slot, h.seq, h.magic, h.waits,
      rfl, h.index, ?_, h.failed⟩
    simp [h.hist, henc.op]
  · obtain ⟨reply, hprocess, henc'⟩ := encodes_serveLog henc hk t ⟨σ.kv t, σ.tss⟩ buf
    have hresult : σ.dataStep S t p rest buf = { σ with
        net := rest ++ [(.dnOut t, ⟨reply_port p.msg, reply, p.op⟩)]
        kv := Function.update σ.kv t (σ.kv t) } := by
      simp [State.dataStep, hprocess, hcode, hk, Kind.code]
    rw [hresult]
    exact ⟨_, PStep.serveLog htake hk, forall₂_concat hrest henc', h.slot, h.seq, h.magic, h.waits,
      h.tss, h.index, h.hist, h.failed⟩

/-! ### The index node -/

/-- The index of the protocol after one update. -/
theorem updateIndex_eq (h : Refines S σ π) (henc : Encodes S p x) (hk : x.kind.AtIndex)
    {k : KvKeyType} (hmem : k ∈ S.key_space) :
    x.updateIndex σ.index k = some (if x.Updates k then x.log else π.index k) ∧
      (if x.Updates k then x.log else π.index k).toUInt32.toUInt64 =
        if x.Updates k then x.log else π.index k := by
  obtain ⟨hindex, hsmall⟩ := h.index k hmem
  by_cases hread : x.kind = .readReq
  · have hnot : ¬ x.Updates k := by
      rintro ⟨hupdate | hupdate, -⟩ <;> exact absurd (hupdate.symm.trans hread) (by simp)
    rw [if_neg hnot, Item.updateIndex, if_pos hread]
    exact ⟨hindex, hsmall⟩
  · have hupdate : x.kind = .copy ∨ x.kind = .updateReq := by
      rcases hk with hk | hk | hk
      · exact Or.inl hk
      · exact Or.inr hk
      · exact absurd hk hread
    rw [Item.updateIndex, if_neg hread, Index.put_long]
    by_cases hkey : x.op.key = k
    · subst hkey
      rw [if_pos ⟨hupdate, rfl⟩, Function.update_self]
      exact ⟨rfl, henc.small (by rcases hupdate with hu | hu <;> simp [hu])⟩
    · rw [if_neg fun hboth ↦ hkey hboth.2, Function.update_of_ne (Ne.symm hkey)]
      exact ⟨hindex, hsmall⟩

theorem batchIndex_singleton (x : Item) (index : KvKeyType → UInt64) (k : KvKeyType) :
    BatchIndex [x] index (fun k ↦ if x.Updates k then x.log else index k) k := by
  by_cases hupdates : x.Updates k
  · refine Or.inr ⟨x, by simp, hupdates, by simp, if_pos hupdates⟩
  · exact Or.inl ⟨by simpa using hupdates, if_neg hupdates⟩

theorem Refines.serve (hsound : π.Sound (layout S) D) (h : Refines S σ π) {t : UInt8}
    (buf : RawKvMsg) (htake : TakeFirst π.net (.ixIn t) x rest') (henc : Encodes S p x)
    (hrest : List.Forall₂ (LinkRel S) rest rest') :
    ∃ π', PStep (layout S) D π (.move (.ixIn t) x) π' ∧
      Refines S (σ.indexStep t p rest buf) π' := by
  have hk : x.kind.AtIndex := Placed.atIndex (Or.inl (hsound.placed _ _ htake.take.mem))
  have hmem : x.op.key ∈ S.key_space := hsound.item_key _ _ htake.take.mem
  have hfinal (hread : x.kind = .readReq) := updateIndex_eq h henc hk hmem
  have hsame (hread : x.kind = .readReq) : x.updateIndex σ.index = σ.index := if_pos hread
  obtain ⟨reply, hprocess, henc'⟩ := encodes_serve henc hk σ.index buf
    (fun k ↦ if x.Updates k then x.log else π.index k) fun hread ↦ hsame hread ▸ hfinal hread
  have hresult : σ.indexStep t p rest buf = { σ with
      net := rest ++ [(.ixOut t, ⟨reply_port p.msg, reply, p.op⟩)]
      index := x.updateIndex σ.index } := by
    simp only [State.indexStep, hprocess]
  rw [hresult]
  exact ⟨_, PStep.serve htake hk (batchIndex_singleton x π.index), forall₂_concat hrest henc',
    h.slot, h.seq, h.magic, h.waits, h.tss, fun k hk' ↦ updateIndex_eq h henc hk hk', h.hist,
    h.failed⟩

theorem Refines.collect (hsound : π.Sound (layout S) D) (h : Refines S σ π) {t : UInt8}
    (htake : TakeFirst π.net (.ixIn t) x rest') (henc : Encodes S p x)
    (hrest : List.Forall₂ (LinkRel S) rest rest') :
    ∃ π', PStep (layout S) D π (.move (.ixIn t) x) π' ∧ Refines S (σ.collectStep t p rest) π' := by
  have hk : x.kind.AtIndex := Placed.atIndex (Or.inl (hsound.placed _ _ htake.take.mem))
  have hop : batch_reply_op p.msg.rpc_header.op ≠ none := by
    rw [henc.code]
    rcases hk with hk | hk | hk <;> simp [hk, Kind.code, batch_reply_op]
  rw [State.collectStep, if_neg hop]
  exact ⟨_, PStep.collect htake hk, forall₂_concat hrest henc, h.slot, h.seq, h.magic, h.waits,
    h.tss, h.index, h.hist, h.failed⟩

/-- The replies to a batch are posted on the same link in the same order. -/
theorem forall₂_replies {packets : List Packet} {items : List Item} {replies : List RawKvMsg}
    {index : Index} {final : KvKeyType → UInt64} (t : UInt8)
    (hpackets : List.Forall₂ (Encodes S) packets items)
    (hprepared : Prepared (packets.map Packet.msg) replies)
    (hk : ∀ x ∈ items, x.kind.AtIndex)
    (hfinal : ∀ x ∈ items, index x.op.key = some (final x.op.key) ∧
      (final x.op.key).toUInt32.toUInt64 = final x.op.key) :
    List.Forall₂ (LinkRel S)
      (packets.zipWith (fun p reply ↦ (Loc.ixOut t, ⟨reply_port p.msg, reply, p.op⟩))
        (replies.map (apply_reply index)))
      (items.map fun x ↦ (Loc.ixOut t, x.reply final)) := by
  induction hpackets generalizing replies with
  | nil => exact List.Forall₂.nil
  | @cons p x packets items henc _ ih =>
    cases hprepared with
    | @cons _ reply _ replies hreply htail =>
      obtain ⟨buf, hreply⟩ := hreply
      refine List.Forall₂.cons ⟨rfl, ?_⟩ (ih htail (fun y hy ↦ hk y (List.mem_cons_of_mem _ hy))
        fun y hy ↦ hfinal y (List.mem_cons_of_mem _ hy))
      exact encodes_batch_reply henc (hk x List.mem_cons_self) hreply final
        (hfinal x List.mem_cons_self)

theorem Encodes.isIndexWrite_iff (henc : Encodes S p x) (hk : x.kind.AtIndex) :
    p.msg.IsIndexWrite ↔ x.Updates x.op.key := by
  unfold RawKvMsg.IsIndexWrite Item.Updates
  rw [henc.code]
  rcases hk with hk | hk | hk <;> simp [hk, Kind.code]

theorem Encodes.request_fields (henc : Encodes S p x) (hk : x.kind.AtIndex) :
    p.msg.long_key = x.op.key ∧ timestampValue p.msg.timestamp = x.ts ∧
      (x.ts = 0 ↔ x.kind = .readReq) := by
  rcases hk with hk | hk | hk <;>
    exact ⟨henc.long_key (by simp [hk]), henc.timestamp (by simp [hk]), henc.stamped (by simp [hk])⟩

theorem Encodes.stamped_request (henc : Encodes S p x) (hk : x.kind.AtIndex) : Stamped p.msg := by
  obtain ⟨-, htime, hstamped⟩ := henc.request_fields hk
  rw [Stamped, henc.isIndexWrite_iff hk, htime, Ne, hstamped, Item.Updates]
  rcases hk with hk | hk | hk <;> simp [hk]

/-- The index after a batch, from the requests. -/
theorem batchIndex_of_apply {packets : List Packet} {items : List Item} {replies : List RawKvMsg}
    {sorted : List BatchEntry} {index : Index} {old final : KvKeyType → UInt64} {k : KvKeyType}
    (hpackets : List.Forall₂ (Encodes S) packets items) (hitems : ∀ x ∈ items, x.kind.AtIndex)
    (hprepared : Prepared (packets.map Packet.msg) replies)
    (hsort : StdSort (batchEntries replies) sorted) (hk : k ≠ 0) (hold : index k = some (old k))
    (hfinal : (apply_batch index replies sorted).index k = some (final k)) :
    BatchIndex items old final k := by
  have hstamped : ∀ req ∈ packets.map Packet.msg, Stamped req := by
    intro req hreq
    obtain ⟨p, hp, rfl⟩ := List.mem_map.mp hreq
    obtain ⟨x, hx, henc⟩ := exists_right_of_forall₂ hpackets hp
    exact henc.stamped_request (hitems x hx)
  rcases apply_batch_requests index hprepared hsort hk hstamped with
    ⟨hnone, hsame⟩ | ⟨newest, ⟨hmem, hwrite, hkey, hgreatest⟩, hnewest⟩
  · refine Or.inl ⟨fun x hx hupdates ↦ ?_, ?_⟩
    · obtain ⟨p, hp, henc⟩ := exists_left_of_forall₂ hpackets hx
      have hwrite := (henc.isIndexWrite_iff (hitems x hx)).mpr (hupdates.2 ▸ hupdates)
      exact hnone p.msg (List.mem_map_of_mem hp) hwrite
        ((henc.request_fields (hitems x hx)).1.trans hupdates.2)
    · exact Option.some.inj (hfinal.symm.trans (hsame.trans hold))
  · obtain ⟨p, hp, rfl⟩ := List.mem_map.mp hmem
    obtain ⟨x, hx, henc⟩ := exists_right_of_forall₂ hpackets hp
    obtain ⟨hlong, htime, -⟩ := henc.request_fields (hitems x hx)
    have hxkey : x.op.key = k := hlong.symm.trans hkey
    have hupdates := (henc.isIndexWrite_iff (hitems x hx)).mp hwrite
    refine Or.inr ⟨x, hx, hxkey ▸ hupdates, fun y hy hyupdates ↦ ?_, ?_⟩
    · obtain ⟨p', hp', henc'⟩ := exists_left_of_forall₂ hpackets hy
      obtain ⟨hlong', htime', -⟩ := henc'.request_fields (hitems y hy)
      rw [← htime, ← htime']
      exact hgreatest p'.msg (List.mem_map_of_mem hp')
        ((henc'.isIndexWrite_iff (hitems y hy)).mpr (hyupdates.2 ▸ hyupdates))
        (hlong'.trans hyupdates.2)
    · have hlog : p.msg.log_id = x.log := by
        refine henc.log_id ?_
        rcases hupdates.1 with hu | hu <;> simp [hu]
      exact Option.some.inj (hfinal.symm.trans (hlog ▸ hnewest))

theorem Refines.flush (hsound : π.Sound (layout S) D) (h : Refines S σ π) {t : UInt8}
    {replies : List RawKvMsg} {sorted : List BatchEntry}
    (hprepared : Prepared ((queue σ.net (.ixBatch t)).map Packet.msg) replies)
    (hsort : StdSort (batchEntries replies) sorted) :
    ∃ π', PStep (layout S) D π .flush π' ∧ Refines S (σ.flushStep t replies sorted) π' := by
  have hpackets : List.Forall₂ (Encodes S) (queue σ.net (.ixBatch t)) (queue π.net (.ixBatch t)) :=
    queue_forall₂ (fun _ _ hpq ↦ hpq) h.net _
  have hitems : ∀ x ∈ queue π.net (.ixBatch t), x.kind.AtIndex := fun x hx ↦
    Placed.atIndex (Or.inr (hsound.placed _ _ (mem_queue.mp hx)))
  set result := apply_batch σ.index replies sorted with hresult
  let final : KvKeyType → UInt64 := fun k ↦ (result.index k).getD 0
  have hvalue (k : KvKeyType) (hk : k ∈ S.key_space) :
      ∃ v, result.index k = some v ∧ v.toUInt32.toUInt64 = v ∧
        (v = π.index k ∨ ∃ x ∈ queue π.net (.ixBatch t), x.Updates k ∧ v = x.log) := by
    obtain ⟨hold, hsmall⟩ := h.index k hk
    rcases apply_batch_index_mem σ.index hsort k with hsame | ⟨reply, hreply, hupdate, hkey, heq⟩
    · exact ⟨π.index k, hsame.trans hold, hsmall, Or.inl rfl⟩
    · obtain ⟨req, hreq, buf, hbuf⟩ := hprepared.exists_request hreply
      obtain ⟨hwrite, hlong, hlog, -⟩ := batch_reply_fields hbuf
      obtain ⟨p, hp, rfl⟩ := List.mem_map.mp hreq
      obtain ⟨x, hx, henc⟩ := exists_right_of_forall₂ hpackets hp
      have hupdates := (henc.isIndexWrite_iff (hitems x hx)).mp (hwrite.mp hupdate)
      have hxkey : x.op.key = k :=
        (henc.request_fields (hitems x hx)).1.symm.trans (hlong.symm.trans hkey)
      have hxlog : p.msg.log_id = x.log := by
        refine henc.log_id ?_
        rcases hupdates.1 with hu | hu <;> simp [hu]
      refine ⟨x.log, by rw [← hxlog, ← hlog]; exact heq, henc.small ?_,
        Or.inr ⟨x, hx, hxkey ▸ hupdates, rfl⟩⟩
      rcases hupdates.1 with hu | hu <;> simp [hu]
  have hfinal (k : KvKeyType) (hk : k ∈ S.key_space) :
      result.index k = some (final k) ∧ (final k).toUInt32.toUInt64 = final k := by
    obtain ⟨v, heq, hsmall, -⟩ := hvalue k hk
    simpa only [final, heq, Option.getD_some, true_and] using hsmall
  have hwrites : ∀ k ∈ (layout S).keys,
      BatchWrites (queue π.net (.ixBatch t)) π.index final k := fun k hk ↦ by
    obtain ⟨v, heq, -, hcases⟩ := hvalue k hk
    simpa only [BatchWrites, final, heq, Option.getD_some] using hcases
  have hreplies : result.replies = replies.map (apply_reply result.index) :=
    apply_batch_replies σ.index hsort
  have hbatch : ∀ k ∈ (layout S).keys, k ≠ 0 →
      BatchIndex (queue π.net (.ixBatch t)) π.index final k := fun k hk hne ↦
    batchIndex_of_apply hpackets hitems hprepared hsort hne (h.index k hk).1 (hfinal k hk).1
  refine ⟨_, PStep.flush hwrites hbatch, ?_, h.slot, h.seq, h.magic, h.waits, h.tss, hfinal, h.hist,
    h.failed⟩
  refine List.rel_append (filter_ne_forall₂ linkRel_loc h.net _) ?_
  rw [← hresult, hreplies]
  exact forall₂_replies t hpackets hprepared hitems fun x hx ↦
    hfinal _ (hsound.item_key _ _ (mem_queue.mp hx))

/-! ### Clients go on -/

/-- The coroutine of a delivered item waits for it. -/
theorem Refines.awaits (hsound : π.Sound (layout S) D) (h : Refines S σ π)
    (htake : Take π.net x.home x rest') :
    x.kind.pc = some (σ.coro x.op.coro).pc ∧
      (σ.coro x.op.coro).sent = (σ.coro x.op.coro).delivered + 1 ∧
      x.op = ⟨x.op.coro, (σ.coro x.op.coro).seq, (σ.coro x.op.coro).ctx.long_key⟩ ∧
      ((σ.coro x.op.coro).pc ≠ .check_req_cnt →
        (σ.coro x.op.coro).ctx.key = (get_fingerprint x.op.key).toUInt64) ∧
      ((σ.coro x.op.coro).pc = .put_index → (σ.coro x.op.coro).ctx.log_id = x.log) := by
  have hpc := (hsound.placed _ _ htake.mem).pc_ne_none_of_home
  obtain ⟨-, w, hphase, hkind, hop, hlog⟩ :=
    tokens_take_self htake hpc (hsound.tokens x.op.coro)
  have hwaits := h.waits x.op.coro
  rw [hphase] at hwaits
  obtain ⟨hwpc, -, hsent, hwop, hkey, hwlog⟩ := hwaits
  have hxop := hop.trans hwop
  have hxkey : x.op.key = (σ.coro x.op.coro).ctx.long_key := congrArg OpId.key hxop
  refine ⟨by rw [hkind, hwpc], hsent, hxop, fun hne ↦ ?_, fun heq ↦ ?_⟩
  · rw [hxkey]
    exact hkey (by rwa [← hwpc])
  · have hput : w.pc = .put_index := hwpc.symm.trans heq
    rw [hwlog hput, hlog hput]

section Deliver

variable (hsound : π.Sound (layout S) D) (h : Refines S σ π) (htake : Take π.net x.home x rest')
  (henc : Encodes S p x) (hrest : List.Forall₂ (LinkRel S) rest rest') {buf : RawKvMsg}
  {ctx : KvCtx}

include hsound h htake henc hrest

/-- The delivered item ends an operation. -/
theorem Refines.client_done
    (hresume : resume S.flags x.op.coro (σ.coro x.op.coro).ctx (σ.coro x.op.coro).pc p.msg buf =
      some (.done ctx))
    (hmagic : ctx.magic = (σ.coro x.op.coro).ctx.magic) (hnext : x.next = none)
    (hevents : (Outcome.done ctx).events x.op (σ.coro x.op.coro).pc = x.response) :
    ∃ π', PStep (layout S) D π (.move x.home x) π' ∧
      Refines S (σ.clientStep S x.op.coro.server_id x.op.coro.thread_id p rest buf) π' := by
  obtain ⟨-, hsent, hop, -, -⟩ := h.awaits hsound htake
  have hcoro : (⟨x.op.coro.server_id, x.op.coro.thread_id, p.msg.rpc_header.src_c_id⟩ : CoroId) =
      x.op.coro := by rw [henc.src_c_id]
  obtain ⟨hseqs, hmagics, hwaits⟩ := h.update_coro x.op.coro ⟨.idle, ctx,
    (σ.coro x.op.coro).seq, (σ.coro x.op.coro).sent, (σ.coro x.op.coro).delivered + 1⟩
    (π.seq x.op.coro) none (h.seq _) (hmagic.trans (h.magic _)) ⟨rfl, hsent⟩
  rw [Function.update_eq_self] at hseqs
  have hresult : σ.clientStep S x.op.coro.server_id x.op.coro.thread_id p rest buf = { σ with
      net := rest
      coro := Function.update σ.coro x.op.coro ⟨.idle, ctx, (σ.coro x.op.coro).seq,
        (σ.coro x.op.coro).sent, (σ.coro x.op.coro).delivered + 1⟩
      hist := σ.hist ++ x.response } := by
    rw [hop] at hevents
    simp only [State.clientStep, hcoro, hresume, hevents]
  rw [hresult]
  exact ⟨_, PStep.finish htake hnext, hrest, h.slot, hseqs, hmagics, hwaits, h.tss, h.index,
    by rw [h.hist], h.failed⟩

/-- The delivered item makes the coroutine send another one. -/
theorem Refines.client_send {y : Item} {pc : Pc} {d : Datagram}
    (hresume : resume S.flags x.op.coro (σ.coro x.op.coro).ctx (σ.coro x.op.coro).pc p.msg buf =
      some (.send ctx pc d))
    (hmagic : ctx.magic = (σ.coro x.op.coro).ctx.magic) (hnext : x.next = some y)
    (hpc : y.kind.pc = some pc) (hidle : pc ≠ .idle) (hlong : ctx.long_key = x.op.key)
    (hkey : ctx.key = (get_fingerprint x.op.key).toUInt64)
    (hlog : pc = .put_index → ctx.log_id = y.log)
    (henc' : Encodes S ⟨d.dst_port, d.msg, x.op⟩ y)
    (hevents : (Outcome.send ctx pc d).events x.op (σ.coro x.op.coro).pc = x.response) :
    ∃ π', PStep (layout S) D π (.move x.home x) π' ∧
      Refines S (σ.clientStep S x.op.coro.server_id x.op.coro.thread_id p rest buf) π' := by
  obtain ⟨-, hsent, hop, -, -⟩ := h.awaits hsound htake
  have hcoro : (⟨x.op.coro.server_id, x.op.coro.thread_id, p.msg.rpc_header.src_c_id⟩ : CoroId) =
      x.op.coro := by rw [henc.src_c_id]
  have hyop := Item.next_op hnext
  have hwait : WaitRel x.op.coro ⟨pc, ctx, (σ.coro x.op.coro).seq, (σ.coro x.op.coro).sent + 1,
      (σ.coro x.op.coro).delivered + 1⟩ (some ⟨pc, y.op, y.log⟩) := by
    refine ⟨rfl, hidle, by simp [hsent], ?_, fun _ ↦ ?_, hlog⟩
    · rw [hyop, hlong]
      rw [hop]
    · rw [hlong]
      exact hkey
  obtain ⟨hseqs, hmagics, hwaits⟩ := h.update_coro x.op.coro ⟨pc, ctx,
    (σ.coro x.op.coro).seq, (σ.coro x.op.coro).sent + 1, (σ.coro x.op.coro).delivered + 1⟩
    (π.seq x.op.coro) (some ⟨pc, y.op, y.log⟩) (h.seq _) (hmagic.trans (h.magic _)) hwait
  rw [Function.update_eq_self] at hseqs
  have hresult : σ.clientStep S x.op.coro.server_id x.op.coro.thread_id p rest buf = { σ with
      net := rest ++ [(.up, ⟨d.dst_port, d.msg, x.op⟩)]
      coro := Function.update σ.coro x.op.coro ⟨pc, ctx, (σ.coro x.op.coro).seq,
        (σ.coro x.op.coro).sent + 1, (σ.coro x.op.coro).delivered + 1⟩
      hist := σ.hist ++ x.response } := by
    simp only [State.clientStep, hcoro, hresume, ← hop, hevents]
  rw [hresult]
  exact ⟨_, PStep.goOn htake hnext hpc, forall₂_concat hrest henc', h.slot, hseqs, hmagics, hwaits,
    h.tss, h.index, by rw [h.hist], h.failed⟩

end Deliver

/-- A packet resumes a coroutine. No assertion fails, and the coroutine does with the packet what
the protocol does with the item. -/
theorem Refines.client (hsound : π.Sound (layout S) D) (h : Refines S σ π)
    (htake : Take π.net x.home x rest') (henc : Encodes S p x)
    (hrest : List.Forall₂ (LinkRel S) rest rest') (buf : RawKvMsg) :
    ∃ π', PStep (layout S) D π (.move x.home x) π' ∧
      Refines S (σ.clientStep S x.op.coro.server_id x.op.coro.thread_id p rest buf) π' := by
  obtain ⟨hpc, -, hop, hkey, hlog⟩ := h.awaits hsound htake
  have hplaced := hsound.placed _ _ htake.mem
  have hlong : (σ.coro x.op.coro).ctx.long_key = x.op.key := (congrArg OpId.key hop).symm
  have hcode := henc.code
  have hmsgkey := henc.key
  have hsrc := henc.src_t_id
  cases hk : x.kind with
  | appendReply =>
    rw [hk] at hpc hcode hmsgkey
    have hput : (σ.coro x.op.coro).pc = .put_value := (Option.some.inj hpc).symm
    have hfp := hkey (by simp [hput])
    let ctx : KvCtx := { (σ.coro x.op.coro).ctx with
      timestamp := p.msg.timestamp, log_id := p.msg.log_id }
    have hresume : resume S.flags x.op.coro (σ.coro x.op.coro).ctx (σ.coro x.op.coro).pc p.msg
        buf = some (.send ctx .put_index (put_index_request S.flags x.op.coro ctx buf)) := by
      simp [resume, hput, put_value_reply, hmsgkey, hfp, hcode, Kind.code, ctx]
    have hnext : x.next = some { x with kind := .updateReq } := by simp [Item.next, hk]
    have hctxlong : ctx.long_key = x.op.key := hlong
    refine h.client_send hsound htake henc hrest hresume rfl hnext rfl (by simp) hctxlong hfp
      (fun _ ↦ henc.log_id (by simp [hk])) (encodes_put_index buf henc hk hctxlong hfp rfl rfl) ?_
    simp [Outcome.events, hput, Item.response, hk]
  | answer =>
    rw [hk] at hpc hcode hmsgkey
    have hput : (σ.coro x.op.coro).pc = .put_value := (Option.some.inj hpc).symm
    have hfp := hkey (by simp [hput])
    have hresume : resume S.flags x.op.coro (σ.coro x.op.coro).ctx (σ.coro x.op.coro).pc p.msg
        buf = some (.done { (σ.coro x.op.coro).ctx with
          timestamp := p.msg.timestamp, log_id := p.msg.log_id }) := by
      simp [resume, hput, put_value_reply, hmsgkey, hfp, hcode, Kind.code,
        henc.visible (by simp [hk])]
    refine h.client_done hsound htake henc hrest hresume rfl (by simp [Item.next, hk]) ?_
    simp [Outcome.events, hput, Item.response, hk, henc.log_id (by simp [hk])]
  | updateReply =>
    rw [hk] at hpc hcode hmsgkey
    have hput : (σ.coro x.op.coro).pc = .put_index := (Option.some.inj hpc).symm
    have hfp := hkey (by simp [hput])
    have hresume : resume S.flags x.op.coro (σ.coro x.op.coro).ctx (σ.coro x.op.coro).pc p.msg
        buf = some (.done (σ.coro x.op.coro).ctx) := by
      simp [resume, hput, put_index_reply, hmsgkey, hfp, hcode, Kind.code, hsrc]
    refine h.client_done hsound htake henc hrest hresume rfl (by simp [Item.next, hk]) ?_
    simp [Outcome.events, hput, Item.response, hk, hlog hput]
  | readHit | readReply =>
    rw [hk] at hpc hcode hmsgkey
    have hget : (σ.coro x.op.coro).pc = .get_index := (Option.some.inj hpc).symm
    have hfp := hkey (by simp [hget])
    have hread := henc.log_id (by simp [hk])
    let ctx : KvCtx := { (σ.coro x.op.coro).ctx with
      index_in_switch := (σ.coro x.op.coro).ctx.index_in_switch ||
        p.msg.rpc_header.op == .kEnumReadIndexReq
      log_id := p.msg.log_id }
    have hreply : get_index_reply (σ.coro x.op.coro).ctx p.msg = some ctx := by
      simp [get_index_reply, hmsgkey, hfp, ctx]
    by_cases habsent : x.log = 0xFFFFFFFF
    · have hresume : resume S.flags x.op.coro (σ.coro x.op.coro).ctx (σ.coro x.op.coro).pc p.msg
          buf = some (.done ctx) := by
        simp [resume, hget, hreply, ctx, hread, habsent]
      refine h.client_done hsound htake henc hrest hresume rfl
        (by simp [Item.next, hk, habsent]) ?_
      simp [Outcome.events, hget, Item.response, hk, ctx, hread]
    · have hresume : resume S.flags x.op.coro (σ.coro x.op.coro).ctx (σ.coro x.op.coro).pc p.msg
          buf = some (.send ctx .get_value (get_value_request S.flags x.op.coro ctx buf)) := by
        simp [resume, hget, hreply, ctx, hread, habsent]
      refine h.client_send hsound htake henc hrest hresume rfl
        (by simp only [Item.next, hk, habsent, if_false]) rfl (by simp) hlong hfp (by simp)
        (encodes_get_value buf hlong hfp hread) ?_
      simp [Outcome.events, hget, Item.response, hk, ctx, hread]
  | logReply =>
    rw [hk] at hpc hcode
    have hget : (σ.coro x.op.coro).pc = .get_value := (Option.some.inj hpc).symm
    obtain ⟨ctx, hreply, hmagic⟩ : ∃ ctx, get_value_reply (σ.coro x.op.coro).ctx p.msg = some ctx ∧
        ctx.magic = (σ.coro x.op.coro).ctx.magic := by
      simp only [get_value_reply, hcode, Kind.code, ne_eq, not_true_eq_false, if_false]
      split_ifs
      · exact ⟨_, rfl, rfl⟩
      · exact ⟨_, rfl, rfl⟩
    have hresume : resume S.flags x.op.coro (σ.coro x.op.coro).ctx (σ.coro x.op.coro).pc p.msg
        buf = some (.done ctx) := by
      simp [resume, hget, hreply]
    refine h.client_done hsound htake henc hrest hresume hmagic (by simp [Item.next, hk]) ?_
    simp [Outcome.events, hget, Item.response, hk]
  | probe =>
    rw [hk] at hpc hcode
    have hcheck : (σ.coro x.op.coro).pc = .check_req_cnt := (Option.some.inj hpc).symm
    have hresume : resume S.flags x.op.coro (σ.coro x.op.coro).ctx (σ.coro x.op.coro).pc p.msg
        buf = some (.done (σ.coro x.op.coro).ctx) := by
      simp [resume, hcheck, check_req_cnt_reply, hcode, Kind.code]
    refine h.client_done hsound htake henc hrest hresume rfl (by simp [Item.next, hk]) ?_
    simp [Outcome.events, hcheck, Item.response, hk]
  | _ => simp [Placed, Item.home, hk] at hplaced

/-! ### Steps and runs -/

/-- The step of the protocol that stands for a step of the system. The end of a poll without a batch
is not seen by the protocol. -/
def ActsAs (S : Setup) : Label → Action → Prop
  | .start .., .start | .probe .., .start | .flush _, .flush => True
  | .switch p, .move ℓ x =>
    Encodes S p x ∧ (ℓ = .up ∨ (∃ t, ℓ = .dnOut t) ∨ ∃ t, ℓ = .ixOut t)
  | .data t p, .move ℓ x => Encodes S p x ∧ ℓ = .dnIn t
  | .index t p, .move ℓ x | .collect t p, .move ℓ x => Encodes S p x ∧ ℓ = .ixIn t
  | .client p, .move ℓ x => Encodes S p x ∧ ℓ = x.home
  | _, _ => False

/-- Every step of the system is a step of the protocol, or the protocol does not see it. -/
theorem Refines.step (hrange : S.flags.InRange) (hsound : π.Sound (layout S) D) (h : Refines S σ π)
    {label : Label} (hgrants : Grants S D σ label) (hstep : Step S σ label σ') :
    ∃ π', ((∃ t, label = .keep t ∧ σ' = σ.keepStep t ∧ π' = π) ∨
      ∃ action, ActsAs S label action ∧ PStep (layout S) D π action π') ∧ Refines S σ' π' := by
  cases hstep with
  | start buf userbuf hcoro hidle hk =>
    obtain ⟨π', hpstep, hrefines⟩ := h.start buf userbuf hcoro hidle hk
    exact ⟨π', Or.inr ⟨.start, trivial, hpstep⟩, hrefines⟩
  | probe buf hcoro hidle hk =>
    obtain ⟨π', hpstep, hrefines⟩ := h.probe buf hcoro hidle hk
    exact ⟨π', Or.inr ⟨.start, trivial, hpstep⟩, hrefines⟩
  | switchUp htake =>
    obtain ⟨x, rest', htake', ⟨-, henc⟩, hrest⟩ := htake.forall₂ linkRel_loc h.net
    obtain ⟨π', hpstep, hrefines⟩ :=
      h.switch hrange hsound hgrants htake' (Or.inl rfl) henc hrest
    exact ⟨π', Or.inr ⟨.move .up x, ⟨henc, Or.inl rfl⟩, hpstep⟩, hrefines⟩
  | switchData htake =>
    obtain ⟨x, rest', htake', ⟨-, henc⟩, hrest⟩ := htake.forall₂ linkRel_loc h.net
    obtain ⟨π', hpstep, hrefines⟩ := h.switch hrange hsound hgrants htake'.take
      (Or.inr ⟨htake', Or.inl ⟨_, rfl⟩⟩) henc hrest
    exact ⟨π', Or.inr ⟨.move (.dnOut _) x, ⟨henc, Or.inr (Or.inl ⟨_, rfl⟩)⟩, hpstep⟩, hrefines⟩
  | switchIndex htake =>
    obtain ⟨x, rest', htake', ⟨-, henc⟩, hrest⟩ := htake.forall₂ linkRel_loc h.net
    obtain ⟨π', hpstep, hrefines⟩ := h.switch hrange hsound hgrants htake'.take
      (Or.inr ⟨htake', Or.inr ⟨_, rfl⟩⟩) henc hrest
    exact ⟨π', Or.inr ⟨.move (.ixOut _) x, ⟨henc, Or.inr (Or.inr ⟨_, rfl⟩)⟩, hpstep⟩, hrefines⟩
  | data buf htake =>
    obtain ⟨x, rest', htake', ⟨-, henc⟩, hrest⟩ := htake.forall₂ linkRel_loc h.net
    obtain ⟨π', hpstep, hrefines⟩ := h.data hrange hsound hgrants buf htake' henc hrest
    exact ⟨π', Or.inr ⟨.move (.dnIn _) x, ⟨henc, rfl⟩, hpstep⟩, hrefines⟩
  | index buf _ htake =>
    obtain ⟨x, rest', htake', ⟨-, henc⟩, hrest⟩ := htake.forall₂ linkRel_loc h.net
    obtain ⟨π', hpstep, hrefines⟩ := h.serve hsound buf htake' henc hrest
    exact ⟨π', Or.inr ⟨.move (.ixIn _) x, ⟨henc, rfl⟩, hpstep⟩, hrefines⟩
  | collect _ htake _ =>
    obtain ⟨x, rest', htake', ⟨-, henc⟩, hrest⟩ := htake.forall₂ linkRel_loc h.net
    obtain ⟨π', hpstep, hrefines⟩ := h.collect hsound htake' henc hrest
    exact ⟨π', Or.inr ⟨.move (.ixIn _) x, ⟨henc, rfl⟩, hpstep⟩, hrefines⟩
  | keep =>
    exact ⟨π, Or.inl ⟨_, rfl, rfl, rfl⟩, h.net, h.slot, h.seq, h.magic, h.waits, h.tss, h.index,
      h.hist, h.failed⟩
  | flush _ _ hprepared hsort =>
    obtain ⟨π', hpstep, hrefines⟩ := h.flush hsound hprepared hsort
    exact ⟨π', Or.inr ⟨.flush, trivial, hpstep⟩, hrefines⟩
  | client buf htake =>
    obtain ⟨x, rest', htake', ⟨-, henc⟩, hrest⟩ := htake.forall₂ linkRel_loc h.net
    have hplaced := hsound.placed _ _ htake'.mem
    have hhome := hplaced.home_of_down
    obtain ⟨rfl, rfl⟩ : _ = x.op.coro.server_id ∧ _ = x.op.coro.thread_id := by
      simpa [Item.home] using hhome
    obtain ⟨π', hpstep, hrefines⟩ := h.client hsound htake' henc hrest buf
    exact ⟨π', Or.inr ⟨.move x.home x, ⟨henc, rfl⟩, hpstep⟩, hrefines⟩

/-- Every reachable state of the system refines a reachable state of the protocol. -/
theorem refines_of_reachable (hrange : S.flags.InRange) {ok : State → Label → Prop}
    (hok : ∀ σ label, S.Reachable ok σ → ok σ label → Grants S D σ label) (h : S.Reachable ok σ) :
    ∃ π, PReachable (layout S) D π ∧ Refines S σ π :=
  h.simulates (Refines.initial S) fun τ label _ a hσ hreach href hl hstep ↦ by
    obtain ⟨a', haction, hrefines⟩ :=
      href.step hrange (PReachable.sound hreach) (hok _ _ hσ hl) hstep
    refine ⟨a', ?_, hrefines⟩
    rcases haction with ⟨-, -, -, rfl⟩ | ⟨action, -, hpstep⟩
    · exact Or.inl rfl
    · exact Or.inr ⟨action, hpstep⟩

end SwitchDelta.Protocol
