import SwitchDelta.Protocol.Linearizability

/-!
# The first writer holds the slot

With `p4_fw.p4` a slot keeps its entry until the `ReplySwitch` of the entry is back. A write of the same
key that comes to the switch in the meantime is refused, and its client takes it to the index node. The
update comes there behind the copy of the entry, and the reply to it behind the `ReplySwitch`. So when
the client learns that its write is complete, the older entry is gone (`p4_fw_linearizable`): this is
what keeps a read that finds the older entry from coming after a completed newer write.
-/

set_option autoImplicit false
set_option relaxedAutoImplicit false

namespace SwitchDelta.Protocol

open Foundation Kv Switch

/-! ### The line at the index thread -/

/-- In the line, the copy or the `ReplySwitch` of write `o` is ahead of the update of write `w`. -/
def AheadOf (o w : OpId) (line : List Item) : Prop :=
  ∃ before after, line = before ++ after ∧
    (∃ y ∈ before, (y.kind = .copy ∨ y.kind = .replySwitch) ∧ y.op = o) ∧
    ∀ z ∈ before, z.kind = .updateReq ∨ z.kind = .updateReply → z.op ≠ w

/-- While the entry of write `o` is in the slot, write `w` is behind it. -/
structure KeyState.Behind (v : KeyState) (o w : OpId) : Prop where
  known : ∃ e ∈ v.hist, e.op = o
  early : ∀ x ∈ v.early, x.op ≠ o
  line : ∀ log, v.entry = some (o, log) → AheadOf o w (v.outbox ++ v.waiting)
  late : ∀ log, v.entry = some (o, log) → ∀ x ∈ v.late, x.kind = .updateReply → x.op ≠ w

section Line

variable {o w : OpId} {line line' rest : List Item} {x : Item}

theorem AheadOf.append (h : AheadOf o w line) (new : List Item) : AheadOf o w (line ++ new) := by
  obtain ⟨before, after, rfl, hahead⟩ := h
  exact ⟨before, after ++ new, List.append_assoc _ _ _, hahead⟩

/-- The item in front may go, if it is not the one of write `o`. -/
theorem AheadOf.tail (h : AheadOf o w (x :: rest))
    (hx : ¬ ((x.kind = .copy ∨ x.kind = .replySwitch) ∧ x.op = o)) :
    AheadOf o w rest ∧ (x.kind = .updateReply → x.op ≠ w) := by
  obtain ⟨before, after, hline, ⟨y, hy, hyo⟩, hbefore⟩ := h
  cases before with
  | nil => exact absurd hy List.not_mem_nil
  | cons z before =>
    obtain ⟨rfl, rfl⟩ := List.cons.inj hline
    refine ⟨⟨before, after, rfl, ⟨y, ?_, hyo⟩, fun z hz ↦ hbefore z (List.mem_cons_of_mem _ hz)⟩,
      fun hkind ↦ hbefore x List.mem_cons_self (Or.inr hkind)⟩
    rcases List.mem_cons.mp hy with rfl | hy
    · exact absurd hyo hx
    · exact hy

/-- The item is still there, or its reply is. -/
def IsReplyOf (x y : Item) : Prop := y = x ∨ ∃ index, y = x.reply index

theorem IsReplyOf.op_eq {y : Item} (h : IsReplyOf x y) : y.op = x.op := by
  rcases h with rfl | ⟨index, rfl⟩
  · rfl
  · exact Item.reply_op

/-- Replies stay in the places of their requests. -/
theorem AheadOf.replies (h : AheadOf o w line) (hline : List.Forall₂ IsReplyOf line line') :
    AheadOf o w line' := by
  obtain ⟨before, after, rfl, ⟨y, hy, hkind, hop⟩, hbefore⟩ := h
  obtain ⟨before', after', hrel, -, rfl⟩ := exists_append_of_forall₂ hline
  refine ⟨before', after', rfl, ?_, fun z hz hzkind ↦ ?_⟩
  · obtain ⟨y', hy', hreply⟩ := exists_right_of_forall₂ hrel hy
    refine ⟨y', hy', ?_, hreply.op_eq.trans hop⟩
    rcases hreply with rfl | ⟨index, rfl⟩
    · exact hkind
    · rcases hkind with hkind | hkind <;> simp [Item.reply, hkind]
  · obtain ⟨z₀, hz₀, hreply⟩ := exists_left_of_forall₂ hrel hz
    rw [hreply.op_eq]
    refine hbefore z₀ hz₀ ?_
    rcases hreply with rfl | ⟨index, rfl⟩
    · exact hzkind
    · unfold Item.reply at hzkind
      split at hzkind <;> simp_all

theorem isReplyOf_refl (l : List Item) : List.Forall₂ IsReplyOf l l :=
  List.forall₂_same.mpr fun _ _ ↦ Or.inl rfl

theorem isReplyOf_map (l : List Item) (index : KvKeyType → UInt64) :
    List.Forall₂ IsReplyOf l (l.map (Item.reply index)) :=
  List.forall₂_map_right_iff.mpr (List.forall₂_same.mpr fun _ _ ↦ Or.inr ⟨index, rfl⟩)

end Line

/-! ### The write behind the entry -/

section Behind

variable {ordered : Prop} {v v' : KeyState} {o w : OpId} {x : Item}

theorem KeyState.Within.behind (hwithin : v'.Within v) (h : v.Behind o w) : v'.Behind o w where
  known := hwithin.hist ▸ h.known
  early x hx := h.early x (hwithin.early hx)
  line := by
    rw [hwithin.entry, hwithin.outbox, hwithin.waiting]
    exact h.line
  late log hentry x hx := h.late log (hwithin.entry ▸ hentry) x (hwithin.late hx)

/-- The update of a write that is refused now comes to the index thread behind the copy of the entry. -/
theorem Inv.behind_entry {T : Type*} [LinearOrder T] [OrderBot T] {g : Tags T} (h : Inv ordered v g)
    {log : UInt64} (hentry : v.entry = some (o, log)) (hx : x ∈ v.early)
    (houtbox : ∀ z ∈ v.outbox, z.kind ≠ .updateReq) : v.Behind o x.op := by
  obtain ⟨hwrite, hassign, hplace⟩ := h.entry _ hentry
  have hfresh {z : Item} (hz : z.op ∈ g.writes) : z.op ≠ x.op :=
    ne_of_mem_of_not_mem hz (h.early x hx)
  refine ⟨⟨_, hassign, rfl⟩, fun y hy ↦ (ne_of_mem_of_not_mem hwrite (h.early y hy)).symm,
    fun _ _ ↦ ⟨_, [], (List.append_nil _).symm, ?_, fun z hz hkind ↦ ?_⟩, fun _ _ y hy hkind ↦ ?_⟩
  · rcases hplace with ⟨y, hy, hkind, hwrite⟩ | ⟨y, hy, hkind, hwrite⟩
    · exact ⟨y, List.mem_append_right _ hy, Or.inl hkind, congrArg Prod.fst hwrite⟩
    · exact ⟨y, List.mem_append_left _ hy, Or.inr hkind, congrArg Prod.fst hwrite⟩
  · rcases List.mem_append.mp hz with hz | hz
    · have hreply := hkind.resolve_left (houtbox z hz)
      exact hfresh ((h.outbox z hz).write (Or.inr (Or.inl hreply))).1
    · rcases hkind with hkind | hkind
      · exact ((h.slow z hz hkind).2.2 x hx).symm
      · rcases h.atIndex z hz with hz | hz | hz <;> simp [hz] at hkind
  · exact hfresh ((h.late y hy).write (Or.inr (Or.inl hkind))).1

/-- The write stays behind the entry. -/
theorem KeyState.Behind.step (h : v.Behind o w) (hstep : KStep ordered v v') : v'.Behind o w := by
  have hfilter {y : Item} : ∀ z ∈ {z ∈ v.early | z.op ≠ y.op}, z.op ≠ o :=
    fun z hz ↦ h.early z hz.1
  have hknown (events : List (Event OpId UInt64)) : ∃ e ∈ v.hist ++ events, e.op = o :=
    h.known.imp fun _ he ↦ ⟨List.mem_append_left _ he.1, he.2⟩
  -- the line when a request comes to the index thread
  have harrives {y : Item} {log : UInt64} (hentry : v.entry = some (o, log)) :
      AheadOf o w (v.outbox ++ (v.batch ++ (v.inbox ++ [y]))) := by
    have hline := (h.line log hentry).append [y]
    rwa [KeyState.waiting, List.append_assoc, List.append_assoc] at hline
  cases hstep with
  | other hwithin => exact hwithin.behind h
  | @start x e _ hfresh _ _ _ _ hwithin =>
    refine hwithin.behind ⟨hknown _, ?_, h.line, h.late⟩
    rintro y (rfl | hy)
    · obtain ⟨e', he', hop⟩ := h.known
      rw [← hop]
      exact (hfresh e' he').symm
    · exact h.early y hy
  | append hx _ _ _ _ hop _ hwithin =>
    refine hwithin.behind ⟨hknown _, ?_, h.line, h.late⟩
    rintro z (rfl | hz)
    · rw [hop]
      exact h.early _ hx
    · exact h.early z hz
  | @refused x hx _ hwithin =>
    refine hwithin.behind ⟨h.known, ?_, h.line, h.late⟩
    rintro z (rfl | hz)
    · exact h.early x hx
    · exact h.early z hz
  | @install x hx _ _ _ hwithin =>
    have hother (log : UInt64) : some x.write ≠ some (o, log) := fun heq ↦
      h.early x hx (congrArg Prod.fst (Option.some.inj heq))
    exact hwithin.behind ⟨h.known, hfilter, fun log hentry ↦ absurd hentry (hother log),
      fun log hentry ↦ absurd hentry (hother log)⟩
  | update _ _ _ hwithin =>
    exact hwithin.behind ⟨h.known, hfilter, fun _ hentry ↦ harrives hentry, h.late⟩
  | read _ _ _ hwithin =>
    exact hwithin.behind ⟨h.known, h.early, fun _ hentry ↦ harrives hentry, h.late⟩
  | hit _ _ _ hwithin =>
    refine hwithin.behind ⟨h.known, h.early, h.line, fun log hentry y hy hkind ↦ ?_⟩
    rcases hy with rfl | hy
    · cases hkind
    · exact h.late log hentry y hy hkind
  | @serve x rest index hbatch hinbox _ hwithin =>
    refine hwithin.behind ⟨h.known, h.early, fun log hentry ↦ ?_, h.late⟩
    have hline := h.line log hentry
    rw [KeyState.waiting, hbatch, hinbox] at hline
    refine hline.replies ?_
    change List.Forall₂ IsReplyOf (v.outbox ++ ([x] ++ rest)) _
    rw [KeyState.waiting, ← List.append_assoc]
    refine List.rel_append (List.rel_append (isReplyOf_refl _) ?_) ?_
    · exact isReplyOf_map [x] fun _ ↦ index
    · rw [hbatch]
      exact isReplyOf_refl _
  | @collect x rest hinbox hwithin =>
    refine hwithin.behind ⟨h.known, h.early, fun log hentry ↦ ?_, h.late⟩
    have hline := h.line log hentry
    rw [KeyState.waiting, hinbox] at hline
    simpa [KeyState.waiting] using hline
  | @flush index _ hwithin =>
    refine hwithin.behind ⟨h.known, h.early, fun log hentry ↦ ?_, h.late⟩
    refine (h.line log hentry).replies ?_
    rw [KeyState.waiting, KeyState.waiting, ← List.append_assoc]
    exact List.rel_append (List.rel_append (isReplyOf_refl _) (isReplyOf_map _ _))
      (isReplyOf_refl _)
  | clear _ _ _ hwithin =>
    exact hwithin.behind ⟨h.known, h.early, (fun _ hentry ↦ by cases hentry),
      (fun _ hentry ↦ by cases hentry)⟩
  | @keep x rest houtbox _ hne hwithin =>
    refine hwithin.behind ⟨h.known, h.early, fun log hentry ↦ ?_, h.late⟩
    have hline := h.line log hentry
    rw [houtbox] at hline
    exact (hline.tail fun hx ↦ hne log (hx.2 ▸ hentry)).1
  | @reply x rest houtbox hkind hwithin =>
    have htail (log : UInt64) (hentry : v.entry = some (o, log)) := by
      have hline := h.line log hentry
      rw [houtbox] at hline
      exact hline.tail fun hx ↦ by
        rcases hkind with hkind | hkind <;> rcases hx.1 with hx | hx <;> simp [hkind] at hx
    refine hwithin.behind ⟨h.known, h.early, fun log hentry ↦ (htail log hentry).1,
      fun log hentry y hy hykind ↦ ?_⟩
    rcases hy with rfl | hy
    · exact (htail log hentry).2 hykind
    · exact h.late log hentry y hy hykind
  | respond _ _ _ hwithin =>
    exact hwithin.behind ⟨hknown _, h.early, h.line, h.late⟩

end Behind

/-! ### A refused write -/

section Refused

variable {S : Setup} {M : Layout} {D : Discipline} {σ σ' : State} {π π' : PState} {action : Action}
  {w : OpId} {p : Packet}

/-- The append of write `w` is over, and its reply has been refused: no message of it is an append, the
answer of the switch, or a reply that has not passed the switch. -/
structure PState.Refused (π : PState) (w : OpId) : Prop where
  known : w.seq ≤ π.seq w.coro
  items : ∀ ℓ x, (ℓ, x) ∈ π.net → x.op = w →
    x.kind ≠ .appendReq ∧ x.kind ≠ .answer ∧ (x.kind = .appendReply → ℓ = x.home)

/-- A refused write takes the slow way. -/
theorem PState.Refused.step (h : π.Refused w) (hsound : π.Sound M D)
    (hstep : PStep M D π action π') : π'.Refused w := by
  refine ⟨h.known.trans (hstep.seq_le _), fun ℓ y hy hop ↦ ?_⟩
  have hrest {ℓ₀ : Loc} {x : Item} {rest : List (Loc × Item)} (htake : Take π.net ℓ₀ x rest)
      (hmem : (ℓ, y) ∈ rest) := h.items ℓ y (htake.mem_of_mem hmem) hop
  -- the new items of a move are of the write whose item is taken
  have hmove {ℓ₀ : Loc} {x : Item} {rest new : List (Loc × Item)} (htake : Take π.net ℓ₀ x rest)
      (hmem : (ℓ, y) ∈ rest ++ new) (hnew : ∀ q ∈ new, q.2.op = x.op ∧
        (x.kind ≠ .appendReq → x.kind ≠ .answer → (x.kind = .appendReply → ℓ₀ = x.home) →
          q.2.kind ≠ .appendReq ∧ q.2.kind ≠ .answer ∧ q.2.kind ≠ .appendReply)) :
      y.kind ≠ .appendReq ∧ y.kind ≠ .answer ∧ (y.kind = .appendReply → ℓ = y.home) := by
    rcases List.mem_append.mp hmem with hmem | hmem
    · exact hrest htake hmem
    · obtain ⟨hsame, hkind⟩ := hnew _ hmem
      obtain ⟨hreq, hanswer, hreply⟩ := h.items ℓ₀ x htake.mem (hsame.symm.trans hop)
      obtain ⟨hreq', hanswer', hreply'⟩ := hkind hreq hanswer hreply
      exact ⟨hreq', hanswer', fun hkind ↦ absurd hkind hreply'⟩
  have hindex {x : Item} (index : KvKeyType → UInt64) (hx : x.kind.AtIndex) :
      (x.reply index).kind ≠ .appendReq ∧ (x.reply index).kind ≠ .answer ∧
        (x.reply index).kind ≠ .appendReply := by
    rcases hx with hx | hx | hx <;> simp [Item.reply, hx]
  cases hstep with
  | write | read =>
    rcases List.mem_append.mp hy with hy | hy
    · exact h.items ℓ y hy hop
    · obtain ⟨-, rfl⟩ := Prod.mk.inj (List.mem_singleton.mp hy)
      have hknown := h.known
      rw [← hop] at hknown
      exact absurd hknown (by simp)
  | probe =>
    rcases List.mem_append.mp hy with hy | hy
    · exact h.items ℓ y hy hop
    · obtain ⟨-, rfl⟩ := Prod.mk.inj (List.mem_singleton.mp hy)
      simp
  | passUp htake hpasses =>
    refine hmove htake hy fun q hq ↦ ?_
    obtain rfl := List.mem_singleton.mp hq
    refine ⟨rfl, fun hreq hanswer _ ↦ ⟨hreq, hanswer, ?_⟩⟩
    cases hpasses with
    | appendReq hkind | readLog hkind | probe hkind | updateReq hkind | readReq hkind =>
      simp [hkind]
  | passOut _ htake hpasses =>
    refine hmove htake.take hy fun q hq ↦ ?_
    obtain rfl := List.mem_singleton.mp hq
    refine ⟨rfl, fun hreq hanswer hreply ↦ ⟨hreq, hanswer, fun hkind ↦ ?_⟩⟩
    have hhome := hreply hkind
    cases hpasses with
    | appendReply => simp [Item.home] at hhome
    | logReply hk | updateReply hk | readReply hk =>
      rw [hk] at hkind
      cases hkind
    | _ => simp [Item.home] at hhome
  | lose htake => exact hrest htake hy
  | install htake hkind =>
    refine hmove htake.take hy fun q hq ↦ ⟨?_, fun _ _ hreply ↦ ?_⟩
    · rcases List.mem_pair.mp hq with rfl | rfl <;> rfl
    · exact absurd (hreply hkind) (by simp [Item.home])
  | hit htake => exact hmove htake hy (by simp)
  | clear htake | keep htake => exact hrest htake.take hy
  | append htake hkind =>
    refine hmove htake hy fun q hq ↦ ⟨?_, fun hreq _ _ ↦ absurd hkind hreq⟩
    rw [List.mem_singleton.mp hq]
  | serveLog htake => exact hmove htake hy (by simp)
  | serve htake hkind =>
    refine hmove htake.take hy fun q hq ↦ ?_
    rw [List.mem_singleton.mp hq]
    exact ⟨Item.reply_op, fun _ _ _ ↦ hindex _ hkind⟩
  | collect htake hkind =>
    refine hmove htake.take hy fun q hq ↦ ?_
    rw [List.mem_singleton.mp hq]
    refine ⟨rfl, fun hreq hanswer _ ↦ ⟨hreq, hanswer, ?_⟩⟩
    rcases hkind with hkind | hkind | hkind <;> simp [hkind]
  | flush =>
    rcases List.mem_append.mp hy with hy | hy
    · exact h.items ℓ y (List.mem_of_mem_filter hy) hop
    · obtain ⟨x, hx, heq⟩ := List.mem_map.mp hy
      obtain ⟨-, rfl⟩ := Prod.mk.inj heq
      obtain ⟨hreq, hanswer, hreply⟩ :=
        hindex _ (Placed.atIndex (Or.inr (hsound.placed _ _ (mem_queue.mp hx))))
      exact ⟨hreq, hanswer, fun hkind ↦ absurd hkind hreply⟩
  | finish htake => exact hrest htake hy
  | goOn htake hnext =>
    refine hmove htake hy fun q hq ↦ ?_
    rw [List.mem_singleton.mp hq]
    refine ⟨Item.next_op hnext, fun _ _ _ ↦ ?_⟩
    rcases Item.next_eq_some hnext with ⟨-, rfl⟩ | ⟨-, -, rfl⟩ <;> simp

/-- When the reply to an append passes the switch without being installed, its write is refused. -/
theorem PState.Sound.refused (hsound : π.Sound M D) {ℓ : Loc} {x : Item}
    {rest : List (Loc × Item)} (htake : Take π.net ℓ x rest) (hkind : x.kind = .appendReply)
    (hnet : π'.net = rest ++ [(x.home, x)]) (hseq : π'.seq = π.seq) : π'.Refused x.op := by
  have hrec := hsound.recorded _ _ htake.mem
  simp only [Recorded, hkind] at hrec
  refine ⟨hseq ▸ hsound.hist_seq _ hrec.1, fun ℓ' y hy hop ↦ ?_⟩
  rw [hnet] at hy
  rcases List.mem_append.mp hy with hy | hy
  · have hnone := hsound.pc_eq_none_of_take htake (by simp [hkind, Kind.pc]) hy (by rw [hop])
    cases hykind : y.kind <;> simp [hykind, Kind.pc] at hnone ⊢
  · obtain ⟨rfl, rfl⟩ := Prod.mk.inj (List.mem_singleton.mp hy)
    simp [hkind]

/-- A delivery is of an item on a link to its client, and adds the response that it is. -/
theorem PStep.hist_of_home {ℓ : Loc} {x : Item} (hstep : PStep M D π (.move ℓ x) π')
    (hℓ : ℓ = x.home) : (ℓ, x) ∈ π.net ∧ π'.hist = π.hist ++ x.response := by
  cases hstep with
  | finish htake | goOn htake => exact ⟨htake.mem, rfl⟩
  | passOut _ _ hpasses => cases hpasses <;> simp [Item.home] at hℓ
  | _ => simp [Item.home] at hℓ

/-! ### The switch program -/

/-- The reply to an append leaves an occupied slot as it is. -/
theorem owner_of_occupied (hprogram : S.program = .p4_fw) (hrefines : Refines S σ π) {x : Item}
    (henc : Encodes S p x) (hkind : x.kind = .appendReply) {w₀ : OpId}
    (howner : σ.owner (parse p.msg).key = some w₀) (hstep : Step S σ (.switch p) σ') :
    σ'.owner = σ.owner := by
  have hlo : (σ.regs.key_check (parse p.msg).key).lo ≠ 0 := by
    have hentry := hrefines.slot (parse p.msg).key
    rw [Ne, hentry.lo_eq_zero_iff]
    intro hnone
    rw [hnone] at hentry
    rw [hentry.2] at howner
    cases howner
  have hop : (parse p.msg).op = .kEnumAppendReply := by
    rw [show (parse p.msg).op = x.kind.code from henc.code, hkind, Kind.code]
  have hq : Forwards σ.regs (parse p.msg) (ingress S.program (parse_kvmsg σ.regs (parse p.msg))) := by
    rcases ingress_cases S.program σ.regs henc.key32_ne_zero with
      ⟨-, haccepts, -⟩ | ⟨hclear, -⟩ | ⟨hlookup, -, -⟩ | ⟨-, -, -, hq⟩
    · rw [hprogram] at haccepts
      exact absurd haccepts hlo
    · exact absurd (hop.symm.trans hclear.2) (by simp)
    · exact absurd (hop.symm.trans hlookup.2) (by simp)
    · exact hq
  have hnext {rest : List (Loc × Packet)} : (σ.switchStep S p rest).owner = σ.owner := by
    change nextOwner σ.owner (parse p.msg) _ p.op = σ.owner
    rw [nextOwner, hq.mcast, if_neg (by simp), hq.key_check, if_neg hlo]
  cases hstep with
  | switchUp | switchData | switchIndex => exact hnext

/-- A write that finds its slot occupied by an older write of its key is refused, and stays behind the
entry. -/
theorem exists_refused (hrange : S.flags.InRange) (hprogram : S.program = .p4_fw)
    (hunbatched : S.batching = false) (hdvd : S.flags.mn_thread.toNat ∣ 65536)
    (hapart : KeysApart S) (h : S.Reachable DistinctIds σ) (hstep : Step S σ (.switch p) σ')
    (hop : p.msg.rpc_header.op = .kEnumAppendReply) {w₀ : OpId}
    (howner : σ.owner (parse p.msg).key = some w₀) (hkey : w₀.key = p.op.key) :
    ∃ π', Refines S σ' π' ∧ π'.Sound (layout S) clearsOwn ∧ π'.Refused p.op ∧
      p.op.key ∈ S.key_space ∧ (view (layout S) p.op.key π').Behind w₀ p.op := by
  obtain ⟨-, ℓ₀, rest₀, htake₀⟩ := Step.switch_regs hstep
  -- the key is in use, so the operations on it are ordered
  have hmem : p.op.key ∈ S.key_space := by
    obtain ⟨π, hreach, hrefines⟩ :=
      refines_of_reachable hrange (fun σ label _ _ ↦ grants_unrestricted S σ label) h
    obtain ⟨x, hx, henc⟩ := hrefines.exists_item htake₀.mem
    rw [henc.op]
    exact hreach.sound.item_key _ _ hx
  obtain ⟨π, hrefines, hsound, g, hinv⟩ := exists_ordered hrange hunbatched hdvd hapart hmem h
  have hgrants : Grants S clearsOwn σ (.switch p) := by
    refine ⟨fun hfalse ↦ hfalse.elim, fun _ q w hq hclear _ _ ↦ ?_, fun _ _ _ _ ↦ trivial⟩
    obtain rfl := Label.switch.inj hq
    exact absurd (hop.symm.trans hclear.2) (by simp)
  obtain ⟨π', haction, hrefines'⟩ := hrefines.step hrange hsound hgrants hstep
  obtain ⟨ℓ, x, ⟨henc, hℓ⟩, hpstep⟩ : ∃ ℓ x, ActsAs S (.switch p) (.move ℓ x) ∧
      PStep (layout S) clearsOwn π (.move ℓ x) π' := by
    rcases haction with ⟨t, hkeep, -⟩ | ⟨action, hacts, hpstep⟩
    · cases hkeep
    · cases action with
      | move ℓ x => exact ⟨ℓ, x, hacts, hpstep⟩
      | start | flush => exact hacts.elim
  have hkind : x.kind = .appendReply := by
    have hcode := henc.code
    rw [hop] at hcode
    cases hk : x.kind <;> rw [hk] at hcode <;> cases hcode
  have hslot := henc.parse_key (by simp [hkind])
  -- the entry is that of the older write
  obtain ⟨log, hentry⟩ : ∃ log, (view (layout S) p.op.key π).entry = some (w₀, log) := by
    have hsame := (hrefines.slot (parse p.msg).key).owner_eq
    rw [howner] at hsame
    obtain ⟨⟨w, log⟩, hw, rfl⟩ := Option.map_eq_some_iff.mp hsame.symm
    rw [hslot, ← henc.op] at hw
    exact ⟨log, view_entry.mpr ⟨hw, hkey⟩⟩
  have hearly {ℓ : Loc} (hx : (ℓ, x) ∈ π.net) : x ∈ earlyOf p.op.key π.net :=
    ⟨by rw [henc.op], ℓ, hx, Or.inr (Or.inl hkind)⟩
  have hempty : (view (layout S) p.op.key π).batch = [] :=
    hrefines.batch_eq_nil (net_ne_ixBatch hunbatched h)
  have hbehind {ℓ : Loc} (hx : (ℓ, x) ∈ π.net) :
      (view (layout S) p.op.key π').Behind w₀ x.op := by
    have hkstep : KStep False (view (layout S) p.op.key π) (view (layout S) p.op.key π') :=
      hpstep.view (layout_separates hdvd hapart) trivial hmem hsound False.elim (Or.inl hempty)
    refine KeyState.Behind.step ?_ hkstep
    refine hinv.behind_entry hentry (hearly hx) fun z hz hzkind ↦ ?_
    have hplaced := hsound.placed _ _ (mem_boxOf.mp hz).1
    simp [Placed, hzkind] at hplaced
  have hsound' := hsound.step hpstep
  refine ⟨π', hrefines', hsound', ?_⟩
  rw [henc.op] at hmem ⊢
  rw [henc.op] at hbehind
  cases hpstep with
  | passOut _ htake hpasses =>
    cases hpasses with
    | appendReply => exact ⟨hsound.refused htake.take hkind rfl rfl, hmem, hbehind htake.take.mem⟩
    | logReply hk | updateReply hk | readReply hk =>
      rw [hkind] at hk
      cases hk
    | appendReq | readLog | probe | updateReq | readReq => exact absurd rfl ‹Loc.up ≠ Loc.up›
  | @install _ t rest htake =>
    -- an installed write would own its slot, which still belongs to the older one
    have hnew := (hrefines'.slot ((layout S).slot x.op.key)).owner_eq
    rw [owner_of_occupied hprogram hrefines henc hkind howner hstep, ← hslot, howner] at hnew
    change some w₀ = (Function.update π.slot _ (some (x.op, x.log)) _).map Prod.fst at hnew
    rw [hslot, Function.update_self] at hnew
    have hwrite := hinv.entry_mem _ hentry
    rw [Option.some.inj hnew] at hwrite
    exact absurd hwrite (hinv.early x (hearly htake.take.mem))
  | passUp _ hpasses =>
    cases hpasses with
    | appendReq hk | readLog hk | probe hk | updateReq hk | readReq hk =>
      rw [hkind] at hk
      cases hk
  | lose _ hk | hit _ hk | clear _ hk | keep _ hk | append _ hk | serveLog _ hk =>
    rw [hkind] at hk
    cases hk
  | serve _ hk | collect _ hk =>
    rcases hk with hk | hk | hk <;> rw [hkind] at hk <;> cases hk
  | finish | goOn =>
    rcases hℓ with hℓ | ⟨t, hℓ⟩ | ⟨t, hℓ⟩ <;> simp [Item.home] at hℓ

/-- With `p4_fw.p4`, the writes of a key and the reads of its index entry are linearizable, and a write
that found its slot occupied by an older write of its key completes through the index, after the older
entry has been cleared. -/
theorem p4_fw_linearizable (hrange : S.flags.InRange) (hprogram : S.program = .p4_fw)
    (hunbatched : S.batching = false) (hdvd : S.flags.mn_thread.toNat ∣ 65536)
    (hapart : KeysApart S) :
    (∀ σ k, S.Reachable DistinctIds σ → k ∈ S.key_space → Linearizable 0 (σ.history k)) ∧
      ∀ σ p σ' w₀, S.Reachable DistinctIds σ → Step S σ (.switch p) σ' →
        p.msg.rpc_header.op = .kEnumAppendReply → σ.owner (parse p.msg).key = some w₀ →
        w₀.key = p.op.key →
        ∀ τ q τ' v, Foundation.Reachable σ' (Step S) DistinctIds τ → Step S τ (.client q) τ' →
          τ'.hist = τ.hist ++ [.respondWrite p.op v] →
          q.msg.rpc_header.op = .kEnumUpdateIndexReply ∧ ∀ s, τ.owner s ≠ some w₀ := by
  refine ⟨fun σ k h hk ↦ ?_, fun σ p σ' w₀ h hstep hop howner hkey τ q τ' v hτ hstep' hdone ↦ ?_⟩
  · obtain ⟨π, hrefines, -, hordered⟩ := exists_ordered hrange hunbatched hdvd hapart hk h
    rw [State.history, hrefines.hist]
    exact hordered.linearizable
  obtain ⟨π₀, hrefines₀, hsound₀, hrefused₀, hmem, hbehind₀⟩ :=
    exists_refused hrange hprogram hunbatched hdvd hapart h hstep hop howner hkey
  have hσ' : S.Reachable (fun _ _ ↦ True) σ' :=
    (h.mono fun _ _ _ ↦ trivial).step trivial hstep
  have hrun : Foundation.Reachable σ' (Step S)
      (fun τ label ↦ DistinctIds τ label ∧ ∀ q ∈ τ.net, ∀ t, q.1 ≠ .ixBatch t) τ :=
    hτ.strengthen fun τ label hτ hok ↦
      ⟨hok, net_ne_ixBatch hunbatched (hσ'.trans (hτ.mono fun _ _ _ ↦ trivial))⟩
  obtain ⟨π, hrefines, hsound, hrefused, hbehind⟩ := Refines.run_of_grants hrange
    (fun _ π ↦ π.Refused p.op ∧ (view (layout S) p.op.key π).Behind w₀ p.op) hrefines₀ hsound₀
    ⟨hrefused₀, hbehind₀⟩ (fun _ _ _ _ _ _ hok hst ↦ hok.1.grants hst)
    (fun _ _ _ _ _ _ href hsd hR hok _ _ hpst _ ↦ ⟨hR.1.step hsd hpst,
      hR.2.step (hpst.view (layout_separates hdvd hapart) trivial hmem hsd False.elim
        (Or.inl (href.batch_eq_nil hok.2)))⟩)
    (fun _ _ _ hR ↦ hR) hrun
  -- the step that completes the write delivers the reply to its update
  have hgrants : Grants S clearsOwn τ (.client q) :=
    ⟨False.elim, (fun _ _ _ hq ↦ by cases hq), fun _ _ _ _ ↦ trivial⟩
  obtain ⟨π', haction, hrefines'⟩ := hrefines.step hrange hsound hgrants hstep'
  obtain ⟨ℓ, x, ⟨henc, hℓ⟩, hpstep⟩ : ∃ ℓ x, ActsAs S (.client q) (.move ℓ x) ∧
      PStep (layout S) clearsOwn π (.move ℓ x) π' := by
    rcases haction with ⟨t, hkeep, -⟩ | ⟨action, hacts, hpstep⟩
    · cases hkeep
    · cases action with
      | move ℓ x => exact ⟨ℓ, x, hacts, hpstep⟩
      | start | flush => exact hacts.elim
  obtain ⟨hx, hhist⟩ := hpstep.hist_of_home hℓ
  have hresponse : x.response = [.respondWrite p.op v] := by
    rw [← hrefines'.hist, ← hrefines.hist, hdone] at hhist
    exact (List.append_cancel_left hhist).symm
  have hxop : x.op = p.op := by
    have hevent := Item.response_op (x := x) (e := .respondWrite p.op v) (by simp [hresponse])
    exact hevent.symm
  have hxkind : x.kind = .updateReply := by
    have hanswer := (hrefused.items ℓ x hx hxop).2.1
    unfold Item.response at hresponse
    cases hk : x.kind with
    | updateReply => rfl
    | answer => exact absurd hk hanswer
    | _ =>
      rw [hk] at hresponse
      cases hresponse
  refine ⟨by rw [henc.code, hxkind, Kind.code], fun s hs ↦ ?_⟩
  have howner' := (hrefines.slot s).owner_eq
  rw [hs] at howner'
  obtain ⟨⟨w, log⟩, hslot, rfl⟩ := Option.map_eq_some_iff.mp howner'.symm
  obtain ⟨rfl, -, -⟩ := hsound.slot_owner s w log hslot
  have hlate : x ∈ lateOf p.op.key π.net :=
    ⟨by rw [hxop], ℓ, hx, Or.inr (Or.inr ⟨hℓ, Or.inl hxkind⟩)⟩
  exact hbehind.late log (view_entry.mpr ⟨hkey ▸ hslot, hkey⟩) x hlate hxkind hxop

/-- The setup with one key, and the other switch program. -/
def oneKeyFirstWriter : Setup := { oneKey with program := .p4_fw }

/-- A write that is installed, and another one that comes to the switch while the first is there. -/
def occupiedMoves : List Move :=
  [.start ⟨2, 0, 0⟩ .kEnumW 65536, .deliver 0, .deliver 0, .deliver 0, .deliver 1,
    .start ⟨2, 0, 1⟩ .kEnumW 65536, .deliver 1, .deliver 1]

/-- The way of the second write to the index and back. -/
def slowWayMoves : List Move :=
  [.deliver 1, .deliver 1, .deliver 0, .deliver 1, .deliver 0, .deliver 0]

/-- A run in which a write is refused and completes. -/
theorem exists_occupiedRun : ∃ σ p σ' τ q τ',
    execAll oneKeyFirstWriter isEarlyWrite (.initial oneKeyFirstWriter) occupiedMoves = some σ ∧
    exec oneKeyFirstWriter σ (.deliver 1) = some (.switch p, σ') ∧
    execAll oneKeyFirstWriter isEarlyWrite σ' slowWayMoves = some τ ∧
    exec oneKeyFirstWriter τ (.deliver 0) = some (.client q, τ') ∧
    p.msg.rpc_header.op = .kEnumAppendReply ∧ p.op = ⟨⟨2, 0, 1⟩, 1, 65536⟩ ∧
    σ.owner (parse p.msg).key = some ⟨⟨2, 0, 0⟩, 1, 65536⟩ ∧
    τ'.hist = τ.hist ++ [.respondWrite p.op 1] := by
  refine ⟨_, _, _, _, _, _, rfl, rfl, rfl, rfl, ?_, ?_, ?_, ?_⟩ <;> decide +kernel

theorem p4_fw_linearizable_oneKey : ∃ σ p σ' τ q τ' w₀,
    oneKeyFirstWriter.Reachable DistinctIds σ ∧ Step oneKeyFirstWriter σ (.switch p) σ' ∧
      σ.owner (parse p.msg).key = some w₀ ∧ Step oneKeyFirstWriter τ (.client q) τ' ∧
      τ'.hist = τ.hist ++ [.respondWrite p.op 1] ∧ Linearizable 0 (σ.history 65536) ∧
      q.msg.rpc_header.op = .kEnumUpdateIndexReply ∧ ∀ s, τ.owner s ≠ some w₀ := by
  obtain ⟨σ, p, σ', τ, q, τ', hexec, hlast, hexec', hlast', hop, hpop, howner, hdone⟩ :=
    exists_occupiedRun
  have hrange : oneKeyFirstWriter.flags.InRange :=
    ⟨by decide, by decide, by decide, by decide, by decide, by decide, by decide, by decide⟩
  have hfirst := execAll_reachable earlyWrites_of_check Reachable.init hexec
  have hfirst' := hfirst.step (fun c k hlabel ↦ by cases hlabel) (exec_step hlast)
  have hreach := distinctIds_of_earlyWrites hrange Reachable.init hfirst
  have hreach' := distinctIds_of_earlyWrites hrange hfirst'
    (execAll_reachable earlyWrites_of_check Reachable.init hexec')
  obtain ⟨hlinearizable, hcleared⟩ := p4_fw_linearizable hrange rfl rfl
    (by simp [oneKeyFirstWriter, oneKey]) (by simp [KeysApart, oneKeyFirstWriter, oneKey])
  exact ⟨σ, p, σ', τ, q, τ', _, hreach, exec_step hlast, howner, exec_step hlast', hdone,
    hlinearizable σ 65536 hreach (by simp [oneKeyFirstWriter, oneKey]),
    hcleared σ p σ' _ hreach (exec_step hlast) hop howner (by rw [hpop]) τ q τ' 1 hreach'
      (exec_step hlast') hdone⟩

end Refused

end SwitchDelta.Protocol
