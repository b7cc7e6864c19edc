import SwitchDelta.Kv.Execution
import SwitchDelta.Protocol.Backlog

/-!
# The names of writes on the wire

The switch clears an entry when the `rpc_id` of a `ReplySwitch` is that of the entry. The `rpc_id` is
`kv_g_id`, `kv_c_id` and `magic`; the first two name the coroutine and the last is to tell its writes
apart. The client counts its operations with the sixteen bits of `app_ctx.magic`, but `magic` has eight
of them on the wire, and a write is done for the client long before its `ReplySwitch` is back at the
switch. So two writes of a coroutine may have one name.

`rpc_ids_differ` says when they do not: if each write starts while the outstanding ones of its
coroutine are at other places modulo 256 in the round of `app_ctx.magic`, all names on the wire are
different, and a `ReplySwitch` clears no entry but that of its own write. At most 254 operations after
an outstanding write are always at other places (`not_modEq_place`).
-/

set_option autoImplicit false
set_option relaxedAutoImplicit false

namespace SwitchDelta.Protocol

open Foundation Kv Switch

variable {S : Setup} {D : Discipline} {M : Layout} {σ σ' : State} {π π' : PState} {action : Action}
  {label : Label} {w w' : OpId}

/-! ### The round of the magic number -/

/-- The place of an operation in the round of `app_ctx.magic`, which has 65535 numbers and skips
zero. -/
def place (S : Setup) (c : CoroId) (n : ℕ) : ℕ := ((S.ctx₀ c).magic.toNat + n - 1) % 65535

theorem toNat_next_magic (m : UInt16) : (next_magic m).toNat = m.toNat % 65535 + 1 := by
  have hlt := m.toNat_lt
  have hzero : m + 1 = 0 ↔ m.toNat = 65535 := by
    rw [← UInt16.toNat_inj, UInt16.toNat_add]
    simp only [UInt16.reduceToNat]
    omega
  unfold next_magic
  split_ifs with h
  · rw [hzero.mp h]
    rfl
  · rw [hzero] at h
    rw [UInt16.toNat_add]
    simp only [UInt16.reduceToNat]
    omega

/-- The number of an operation is that of its place in the round. -/
theorem toNat_magicOf {o : OpId} (hpos : 0 < o.seq) :
    (magicOf S o).toNat = place S o.coro o.seq + 1 := by
  obtain ⟨c, n, k⟩ := o
  change 0 < n at hpos
  change (next_magic^[n] (S.ctx₀ c).magic).toNat = place S c n + 1
  induction n, hpos using Nat.le_induction with
  | base => exact toNat_next_magic _
  | succ n hn ih =>
    rw [Function.iterate_succ_apply', toNat_next_magic, ih]
    unfold place
    omega

/-- Two operations with at most 254 from one to the other are at other places modulo 256. -/
theorem not_modEq_place (c : CoroId) {n n' : ℕ} (hpos : 0 < n) (hlt : n < n') (hle : n' ≤ n + 254) :
    ¬ place S c n ≡ place S c n' [MOD 256] := by
  obtain ⟨d, rfl⟩ := Nat.exists_eq_add_of_le hlt.le
  -- the round may end between the two, and then one number is skipped
  have hplace : place S c (n + d) = place S c n + d ∨
      place S c (n + d) + 65535 = place S c n + d := by
    unfold place
    omega
  unfold Nat.ModEq
  omega

/-- The server and thread number of a client thread are in its `kv_g_id`. -/
theorem compute_gid_inj (hrange : S.flags.InRange) {c c' : CoroId} (hc : S.flags.HasCoro c)
    (hc' : S.flags.HasCoro c')
    (h : compute_gid c.server_id c.thread_id = compute_gid c'.server_id c'.thread_id) :
    c.server_id = c'.server_id ∧ c.thread_id = c'.thread_id := by
  have hthread {c : CoroId} (hc : S.flags.HasCoro c) :
      c.server_id.toNat ≤ 4 ∧ c.thread_id.toNat < 48 := by
    obtain ⟨hserver, hlt, -⟩ := hc
    rw [UInt32.lt_iff_toNat_lt, UInt8.toNat_toUInt32] at hlt
    have hle : S.flags.c_thread.toNat ≤ 48 := UInt32.le_iff_toNat_le.mp hrange.c_le
    rcases hserver with h | h | h <;> rw [h] at hlt ⊢
    · exact ⟨by decide, lt_of_lt_of_le hlt (show (1 : UInt32).toNat ≤ 48 by decide)⟩
    · exact ⟨by decide, lt_of_lt_of_le hlt hle⟩
    · exact ⟨by decide, lt_of_lt_of_le hlt hle⟩
  have hgid {c : CoroId} (hc : S.flags.HasCoro c) :
      (compute_gid c.server_id c.thread_id).toNat = c.server_id.toNat * 48 + c.thread_id.toNat := by
    have hbound := hthread hc
    simp only [compute_gid, kConfigMaxThreadCnt, UInt16.toNat_add, UInt16.toNat_mul,
      UInt8.toNat_toUInt16, UInt16.reduceToNat]
    omega
  have heq := congrArg UInt16.toNat h
  rw [hgid hc, hgid hc'] at heq
  have hbound := hthread hc
  have hbound' := hthread hc'
  constructor <;> apply UInt8.toNat_inj.mp <;> omega

/-- Two writes have one name exactly when they are of one coroutine and at one place modulo 256. -/
theorem rpcId_eq_iff (hrange : S.flags.InRange) (hw : S.flags.HasCoro w.coro)
    (hw' : S.flags.HasCoro w'.coro) (hpos : 0 < w.seq) (hpos' : 0 < w'.seq) :
    rpcId S w = rpcId S w' ↔
      w.coro = w'.coro ∧ place S w.coro w.seq ≡ place S w.coro w'.seq [MOD 256] := by
  have hbyte : (magicOf S w).toUInt8 = (magicOf S w').toUInt8 ↔
      place S w.coro w.seq ≡ place S w'.coro w'.seq [MOD 256] := by
    rw [← UInt8.toNat_inj, UInt16.toNat_toUInt8, UInt16.toNat_toUInt8, toNat_magicOf hpos,
      toNat_magicOf hpos']
    exact ⟨fun h ↦ Nat.ModEq.add_right_cancel' 1 h, fun h ↦ h.add_right 1⟩
  rw [rpcId, rpcId, rpcIdOfBytes_inj, hbyte]
  constructor
  · rintro ⟨hgid, hcoro, hplace⟩
    obtain ⟨hserver, hthread⟩ := compute_gid_inj hrange hw hw' hgid
    have hsame : w.coro = w'.coro := by
      rw [show w.coro = ⟨w.coro.server_id, w.coro.thread_id, w.coro.coro_id⟩ from rfl, hserver,
        hthread, hcoro]
    rw [← hsame] at hplace
    exact ⟨hsame, hplace⟩
  · rintro ⟨hsame, hplace⟩
    rw [hsame] at hplace ⊢
    exact ⟨rfl, rfl, hplace⟩

/-! ### Outstanding writes -/

/-- The kinds of messages of a write before its `ReplySwitch` has been processed. -/
def idKinds : List Kind := [.appendReq, .appendReply, .copy, .answer, .replySwitch]

/-- The write has such a message, or an entry. -/
def PState.Outstanding (π : PState) (w : OpId) : Prop :=
  (∃ ℓ x, (ℓ, x) ∈ π.net ∧ x.op = w ∧ x.kind ∈ idKinds) ∨ ∃ s log, π.slot s = some (w, log)

/-- Only a new write becomes outstanding. -/
theorem PStep.outstanding (hsound : π.Sound M D) (hstep : PStep M D π action π')
    (h : π'.Outstanding w) : π.Outstanding w ∨ π'.hist = π.hist ++ [.invokeWrite w] := by
  have hnet {rest new : List (Loc × Item)} {ℓ : Loc} {x y : Item} (hy : (ℓ, y) ∈ rest ++ new)
      (hrest : rest ⊆ π.net) (hop : y.op = w) (hkind : y.kind ∈ idKinds)
      (hx : ∃ ℓ, (ℓ, x) ∈ π.net) (hnew : ∀ q ∈ new, q.2.op = x.op ∧
        (q.2.kind ∈ idKinds → x.kind ∈ idKinds)) : π.Outstanding w := by
    rcases List.mem_append.mp hy with hold | hmem
    · exact Or.inl ⟨ℓ, y, hrest hold, hop, hkind⟩
    · obtain ⟨hsame, himp⟩ := hnew _ hmem
      obtain ⟨ℓ₀, hx⟩ := hx
      exact Or.inl ⟨ℓ₀, x, hx, hsame.symm.trans hop, himp hkind⟩
  have hreply {x : Item} {index : KvKeyType → UInt64} (hx : x.kind.AtIndex) :
      (x.reply index).kind ∈ idKinds → x.kind ∈ idKinds := by
    rcases hx with hx | hx | hx <;> simp [Item.reply, hx, idKinds]
  rcases h with ⟨ℓ, y, hy, hop, hkind⟩ | ⟨s, log, hs⟩
  · cases hstep with
    | write =>
      rcases List.mem_append.mp hy with hold | hmem
      · exact Or.inl (Or.inl ⟨ℓ, y, hold, hop, hkind⟩)
      · obtain ⟨-, rfl⟩ := Prod.mk.inj (List.mem_singleton.mp hmem)
        exact Or.inr (by rw [← hop])
    | read | probe =>
      rcases List.mem_append.mp hy with hold | hmem
      · exact Or.inl (Or.inl ⟨ℓ, y, hold, hop, hkind⟩)
      · obtain ⟨-, rfl⟩ := Prod.mk.inj (List.mem_singleton.mp hmem)
        simp [idKinds] at hkind
    | passUp htake | hit htake | append htake | serveLog htake =>
      exact Or.inl (hnet hy (fun _ ↦ htake.mem_of_mem) hop hkind ⟨_, htake.mem⟩
        (by simp [idKinds, *]))
    | passOut _ htake | collect htake | install htake =>
      exact Or.inl (hnet hy (fun _ ↦ htake.take.mem_of_mem) hop hkind ⟨_, htake.take.mem⟩
        (by simp [idKinds, *]))
    | lose htake | finish htake =>
      exact Or.inl (Or.inl ⟨ℓ, y, htake.mem_of_mem hy, hop, hkind⟩)
    | clear htake | keep htake =>
      exact Or.inl (Or.inl ⟨ℓ, y, htake.take.mem_of_mem hy, hop, hkind⟩)
    | serve htake hx =>
      refine Or.inl (hnet hy (fun _ ↦ htake.take.mem_of_mem) hop hkind ⟨_, htake.take.mem⟩ ?_)
      intro q hq
      rw [List.mem_singleton.mp hq]
      exact ⟨Item.reply_op, hreply hx⟩
    | flush =>
      rcases List.mem_append.mp hy with hold | hmem
      · exact Or.inl (Or.inl ⟨ℓ, y, List.mem_of_mem_filter hold, hop, hkind⟩)
      · obtain ⟨x, hx, heq⟩ := List.mem_map.mp hmem
        obtain ⟨-, rfl⟩ := Prod.mk.inj heq
        have hplaced := Placed.atIndex (Or.inr (hsound.placed _ _ (mem_queue.mp hx)))
        exact Or.inl (Or.inl ⟨_, x, mem_queue.mp hx, Item.reply_op.symm.trans hop,
          hreply hplaced hkind⟩)
    | goOn htake hnext =>
      refine Or.inl (hnet hy (fun _ ↦ htake.mem_of_mem) hop hkind ⟨_, htake.mem⟩ ?_)
      rcases Item.next_eq_some hnext with ⟨-, rfl⟩ | ⟨-, -, rfl⟩ <;> simp [idKinds]
  · cases hstep with
    | @install x t rest htake hkind =>
      refine Or.inl ?_
      by_cases heq : s = M.slot x.op.key
      · subst heq
        obtain ⟨hop, -⟩ : x.op = w ∧ x.log = log := by simpa using hs
        exact Or.inl ⟨_, x, htake.take.mem, hop, by simp [hkind, idKinds]⟩
      · change Function.update π.slot _ _ s = _ at hs
        rw [Function.update_of_ne heq] at hs
        exact Or.inr ⟨s, log, hs⟩
    | @clear x =>
      change Function.update π.slot (M.slot x.op.key) none s = some (w, log) at hs
      by_cases heq : s = M.slot x.op.key
      · rw [heq, Function.update_self] at hs
        cases hs
      · rw [Function.update_of_ne heq] at hs
        exact Or.inl (Or.inr ⟨s, log, hs⟩)
    | _ => exact Or.inl (Or.inr ⟨s, log, hs⟩)

/-- The operation codes of these messages. -/
def idCodes : List RpcType :=
  [.kEnumAppendReq, .kEnumAppendReply, .kEnumMultiCastPkt, .ReplySwitch]

/-- The write has a message with one of these codes on a link, or an entry of the switch. -/
def Outstanding (σ : State) (w : OpId) : Prop :=
  (∃ q ∈ σ.net, q.2.op = w ∧ q.2.msg.rpc_header.op ∈ idCodes) ∨ ∃ s, σ.owner s = some w

theorem Kind.code_mem_idCodes {kind : Kind} : kind.code ∈ idCodes ↔ kind ∈ idKinds := by
  cases kind <;> simp [Kind.code, idCodes, idKinds]

theorem Refines.outstanding_iff (h : Refines S σ π) : Outstanding σ w ↔ π.Outstanding w := by
  unfold Outstanding PState.Outstanding
  refine or_congr ⟨?_, ?_⟩ ⟨?_, ?_⟩
  · rintro ⟨⟨ℓ, p⟩, hp, rfl, hcode⟩
    obtain ⟨x, hx, henc⟩ := h.exists_item hp
    exact ⟨ℓ, x, hx, henc.op.symm, Kind.code_mem_idCodes.mp (henc.code ▸ hcode)⟩
  · rintro ⟨ℓ, x, hx, rfl, hkind⟩
    obtain ⟨⟨ℓ', p⟩, hp, -, henc⟩ := exists_left_of_forall₂ h.net hx
    exact ⟨_, hp, henc.op, henc.code ▸ Kind.code_mem_idCodes.mpr hkind⟩
  · rintro ⟨s, hs⟩
    have howner := (h.slot s).owner_eq
    rw [hs] at howner
    obtain ⟨⟨w', log⟩, hslot, rfl⟩ := Option.map_eq_some_iff.mp howner.symm
    exact ⟨s, log, hslot⟩
  · rintro ⟨s, log, hslot⟩
    have howner := (h.slot s).owner_eq
    rw [hslot] at howner
    exact ⟨s, howner⟩

theorem Outcome.events_ne (o : Outcome) (op : OpId) (pc : Pc) :
    Outcome.events op pc o ≠ [.invokeWrite w] := by
  cases o <;> cases pc <;> simp [Outcome.events]

/-- Only the start of a write adds its invocation to the history. -/
theorem Step.start_of_invokeWrite (hstep : Step S σ label σ')
    (hhist : σ'.hist = σ.hist ++ [.invokeWrite w]) :
    ∃ c k, label = .start c .kEnumW k ∧ w = ⟨c, (σ.coro c).seq + 1, k⟩ := by
  have hnone {events : List (Event OpId UInt64)} (hevents : σ'.hist = σ.hist ++ events) :
      events = [.invokeWrite w] := List.append_cancel_left (hevents.symm.trans hhist)
  cases hstep with
  | @start c test_type k =>
    have hevent := List.singleton_inj.mp (hnone rfl)
    cases test_type with
    | kEnumR => cases hevent
    | kEnumW => exact ⟨c, k, rfl, (Event.invokeWrite.inj hevent).symm⟩
  | probe | switchUp | switchData | switchIndex | keep | flush =>
    exact absurd (hnone (List.append_nil _).symm) (List.cons_ne_nil _ _).symm
  | data =>
    unfold State.dataStep at hnone
    split at hnone
    · exact absurd (hnone (List.append_nil _).symm) (List.cons_ne_nil _ _).symm
    · have hevent := hnone rfl
      split_ifs at hevent
      · cases List.singleton_inj.mp hevent
  | index =>
    unfold State.indexStep at hnone
    split at hnone <;>
      exact absurd (hnone (List.append_nil _).symm) (List.cons_ne_nil _ _).symm
  | collect =>
    unfold State.collectStep at hnone
    split_ifs at hnone <;>
      exact absurd (hnone (List.append_nil _).symm) (List.cons_ne_nil _ _).symm
  | client =>
    unfold State.clientStep at hnone
    dsimp only at hnone
    split at hnone
    · exact absurd (hnone (List.append_nil _).symm) (List.cons_ne_nil _ _).symm
    · exact absurd (hnone rfl) (Outcome.events_ne _ _ _)
    · exact absurd (hnone rfl) (Outcome.events_ne _ _ _)

/-! ### Names -/

/-- A write starts while the outstanding ones of its coroutine are at other places modulo 256. -/
def StartsApart (S : Setup) (σ : State) (label : Label) : Prop :=
  ∀ c k, label = .start c .kEnumW k → ∀ w, Outstanding σ w → w.coro = c →
    ¬ place S c w.seq ≡ place S c ((σ.coro c).seq + 1) [MOD 256]

/-- The outstanding writes of a coroutine are operations of it, at different places modulo 256. -/
structure NamesApart (S : Setup) (π : PState) : Prop where
  hasCoro : ∀ w, π.Outstanding w → S.flags.HasCoro w.coro
  pos : ∀ w, π.Outstanding w → 0 < w.seq
  le : ∀ w, π.Outstanding w → w.seq ≤ π.seq w.coro
  apart : ∀ w w', π.Outstanding w → π.Outstanding w' → w ≠ w' → w.coro = w'.coro →
    ¬ place S w.coro w.seq ≡ place S w.coro w'.seq [MOD 256]

theorem not_outstanding_initial (w : OpId) : ¬ PState.initial.Outstanding w := by
  rintro (⟨ℓ, x, hx, -⟩ | ⟨s, log, hs⟩)
  · exact absurd hx List.not_mem_nil
  · cases hs

theorem NamesApart.initial (S : Setup) : NamesApart S .initial where
  hasCoro w h := absurd h (not_outstanding_initial w)
  pos w h := absurd h (not_outstanding_initial w)
  le w h := absurd h (not_outstanding_initial w)
  apart w _ h := absurd h (not_outstanding_initial w)

theorem NamesApart.step (h : NamesApart S π) (hrefines : Refines S σ π)
    (hsound : π.Sound (layout S) D) (hok : StartsApart S σ label) (hstep : Step S σ label σ')
    (hpstep : PStep (layout S) D π action π') (hrefines' : Refines S σ' π') : NamesApart S π' := by
  -- an outstanding write was outstanding or has just started
  have hcases {w : OpId} (hw : π'.Outstanding w) : π.Outstanding w ∨
      (π'.hist = π.hist ++ [.invokeWrite w] ∧ S.flags.HasCoro w.coro ∧
        w.seq = π.seq w.coro + 1 ∧ π'.seq w.coro = π.seq w.coro + 1 ∧
        ∀ w', π.Outstanding w' → w'.coro = w.coro →
          ¬ place S w.coro w'.seq ≡ place S w.coro w.seq [MOD 256]) := by
    refine (hpstep.outstanding hsound hw).imp_right fun hhist ↦ ⟨hhist, ?_⟩
    rw [← hrefines.hist, ← hrefines'.hist] at hhist
    obtain ⟨c, k, rfl, rfl⟩ := Step.start_of_invokeWrite hstep hhist
    cases hstep with
    | start buf userbuf hcoro =>
      refine ⟨hcoro, by rw [hrefines.seq], ?_, fun w' hw' hsame ↦ ?_⟩
      · rw [← hrefines'.seq, ← hrefines.seq]
        simp [State.startStep]
      · exact hok c k rfl w' (hrefines.outstanding_iff.mpr hw') hsame
  refine ⟨fun w hw ↦ ?_, fun w hw ↦ ?_, fun w hw ↦ ?_, fun w w' hw hw' hne hsame ↦ ?_⟩
  · rcases hcases hw with hold | ⟨-, hcoro, -⟩
    · exact h.hasCoro w hold
    · exact hcoro
  · rcases hcases hw with hold | ⟨-, -, hseq, -⟩
    · exact h.pos w hold
    · omega
  · rcases hcases hw with hold | ⟨-, -, hseq, hseq', -⟩
    · exact (h.le w hold).trans (hpstep.seq_le _)
    · omega
  · rcases hcases hw with hold | ⟨hhist, -, -, -, hother⟩ <;>
      rcases hcases hw' with hold' | ⟨hhist', -, -, -, hother'⟩
    · exact h.apart w w' hold hold' hne hsame
    · rw [hsame]
      exact hother' w hold hsame
    · exact fun hmod ↦ hother w' hold' hsame.symm hmod.symm
    · have hevent := List.append_cancel_left (hhist.symm.trans hhist')
      exact absurd (Event.invokeWrite.inj (List.singleton_inj.mp hevent)) hne

/-- In runs whose writes start apart from the outstanding ones, the names of those stay apart. -/
theorem exists_namesApart (hrange : S.flags.InRange) (h : S.Reachable (StartsApart S) σ) :
    ∃ π, Refines S σ π ∧ π.Sound (layout S) unrestricted ∧ NamesApart S π :=
  Refines.run hrange (fun _ π ↦ NamesApart S π)
    (Refines.initial S) (PState.Sound.initial _ _) (NamesApart.initial S)
    (fun _ _ _ _ _ _ href hsd hR hok hst hpst href' ↦ hR.step href hsd hok hst hpst href')
    (fun _ _ _ hR ↦ hR) h

/-- A write is among the first 255 operations of its coroutine. -/
def EarlyWrites (σ : State) (label : Label) : Prop :=
  ∀ c k, label = .start c .kEnumW k → (σ.coro c).seq < 255

/-- Early writes start apart from the outstanding ones. -/
theorem startsApart_of_earlyWrites (hrange : S.flags.InRange) (h : S.Reachable EarlyWrites σ) :
    S.Reachable (StartsApart S) σ := by
  induction h with
  | init => exact Reachable.init
  | step _ hok hstep ih =>
    refine ih.step (fun c k hlabel w hw hcoro ↦ ?_) hstep
    obtain ⟨π, hrefines, -, hnames⟩ := exists_namesApart hrange ih
    have hout := hrefines.outstanding_iff.mp hw
    have hle := hnames.le w hout
    rw [hcoro, ← hrefines.seq] at hle
    have hpos := hnames.pos w hout
    have hearly := hok c k hlabel
    exact not_modEq_place c hpos (by omega) (by omega)

/-- The check of `EarlyWrites`. -/
def isEarlyWrite (σ : State) : Label → Bool
  | .start c .kEnumW _ => (σ.coro c).seq < 255
  | _ => true

theorem earlyWrites_of_check (σ : State) (label : Label) (h : isEarlyWrite σ label = true) :
    EarlyWrites σ label := by
  rintro c k rfl
  exact of_decide_eq_true h

/-- The write has this `rpc_id` in an `AppendReply`, a `ReplySwitch` or an entry. -/
def OnWire (σ : State) (w : OpId) (id : UInt32) : Prop :=
  (∃ q ∈ σ.net, q.2.op = w ∧ (q.2.msg.rpc_header.op = .kEnumAppendReply ∨
    q.2.msg.rpc_header.op = .ReplySwitch) ∧ (parse q.2.msg).rpc_id = id) ∨
    ∃ s, σ.owner s = some w ∧ (σ.regs.key_check s).hi = id

/-- A write on the wire is outstanding, under its name. -/
theorem Refines.onWire (h : Refines S σ π) {id : UInt32} (hw : OnWire σ w id) :
    π.Outstanding w ∧ id = rpcId S w := by
  rcases hw with ⟨⟨ℓ, p⟩, hp, rfl, hcode, rfl⟩ | ⟨s, hs, rfl⟩
  · obtain ⟨x, hx, henc⟩ := h.exists_item hp
    have hkind : x.kind = .appendReply ∨ x.kind = .replySwitch := by
      rw [henc.code] at hcode
      rcases hcode with hcode | hcode <;> cases hk : x.kind <;> rw [hk] at hcode <;>
        simp [Kind.code] at hcode ⊢
    refine ⟨Or.inl ⟨ℓ, x, hx, henc.op.symm, ?_⟩, ?_⟩
    · rcases hkind with hkind | hkind <;> simp [hkind, idKinds]
    · rw [henc.parse_rpc_id (by rcases hkind with hkind | hkind <;> simp [hkind]), henc.op]
  · have hentry := h.slot s
    have howner := hentry.owner_eq
    rw [hs] at howner
    obtain ⟨⟨w', log⟩, hslot, rfl⟩ := Option.map_eq_some_iff.mp howner.symm
    rw [hslot] at hentry
    exact ⟨Or.inr ⟨s, log, hslot⟩, congrArg KeyCheck.hi hentry.2.2.1⟩

theorem NamesApart.rpcId_ne (h : NamesApart S π) (hrange : S.flags.InRange)
    (hw : π.Outstanding w) (hw' : π.Outstanding w') (hne : w ≠ w') : rpcId S w ≠ rpcId S w' := by
  rw [Ne, rpcId_eq_iff hrange (h.hasCoro w hw) (h.hasCoro w' hw') (h.pos w hw) (h.pos w' hw')]
  rintro ⟨hsame, hmod⟩
  exact h.apart w w' hw hw' hne hsame hmod

/-- The protocol in which a `ReplySwitch` clears its own entry only. -/
def clearsOwn : Discipline :=
  ⟨False, True, fun _ ↦ True⟩

theorem Encodes.kind_of_replySwitch {p : Packet} {x : Item} (henc : Encodes S p x)
    (hop : p.msg.rpc_header.op = .ReplySwitch) : x.kind = .replySwitch := by
  have hcode := henc.code
  rw [hop] at hcode
  cases hk : x.kind <;> rw [hk] at hcode <;> cases hcode

/-- A `ReplySwitch` that clears only its own entry leaves those of other writes. -/
theorem PStep.slot_of_replySwitch {ℓ : Loc} {x : Item} (hstep : PStep M D π (.move ℓ x) π')
    (hown : D.clearOwn) (hkind : x.kind = .replySwitch) {s : UInt16} {log : UInt64}
    (hslot : π.slot s = some (w, log)) (hne : w ≠ x.op) : π'.slot s = some (w, log) := by
  cases hstep with
  | install _ hk => simp [hk] at hkind
  | clear _ _ hclear =>
    change Function.update π.slot (M.slot x.op.key) none s = _
    by_cases hs : s = M.slot x.op.key
    · subst hs
      exact absurd (hclear hown w log hslot) hne
    · rwa [Function.update_of_ne hs]
  | _ => exact hslot

/-- Where each write starts apart from the outstanding ones of its coroutine, all writes on the wire
have different names, and a `ReplySwitch` leaves the entries of other writes alone. -/
theorem rpc_ids_differ (hrange : S.flags.InRange) (h : S.Reachable (StartsApart S) σ) :
    (∀ w w' id id', OnWire σ w id → OnWire σ w' id' → w ≠ w' → id ≠ id') ∧
      ∀ p σ', Step S σ (.switch p) σ' → p.msg.rpc_header.op = .ReplySwitch →
        ∀ s w, σ.owner s = some w → w ≠ p.op →
          σ'.owner s = some w ∧ σ'.regs.key_check s = σ.regs.key_check s := by
  obtain ⟨π, hrefines, hsound, hnames⟩ := exists_namesApart hrange h
  refine ⟨fun w w' id id' hw hw' hne ↦ ?_, fun p σ' hstep hop s w hs hne ↦ ?_⟩
  · obtain ⟨hout, rfl⟩ := hrefines.onWire hw
    obtain ⟨hout', rfl⟩ := hrefines.onWire hw'
    exact hnames.rpcId_ne hrange hout hout' hne
  · have hgrants : Grants S clearsOwn σ (.switch p) := by
      refine ⟨fun hfalse ↦ hfalse.elim, fun _ q u hq hclear hu hhi ↦ ?_, fun _ _ hq ↦ by cases hq⟩
      obtain rfl := Label.switch.inj hq
      by_contra hdiffer
      obtain ⟨-, ℓ, rest, htake⟩ := Step.switch_regs hstep
      have hwire : OnWire σ p.op (parse p.msg).rpc_id :=
        Or.inl ⟨_, htake.mem, rfl, Or.inr hop, rfl⟩
      obtain ⟨hout, hid⟩ := hrefines.onWire hwire
      obtain ⟨hout', hid'⟩ := hrefines.onWire (w := u) (Or.inr ⟨_, hu, hhi⟩)
      exact hnames.rpcId_ne hrange hout' hout hdiffer (hid'.symm.trans hid)
    have hsound' : π.Sound (layout S) clearsOwn :=
      ⟨hsound.tokens, hsound.placed, hsound.recorded, hsound.item_key, hsound.item_coro,
        hsound.slot_owner, hsound.hist_seq, hsound.item_log, hsound.slot_log, hsound.index_log⟩
    obtain ⟨π', haction, hrefines'⟩ := hrefines.step hrange hsound' hgrants hstep
    -- the entry stays in the protocol, and its registers are determined by it
    have hentry := hrefines.slot s
    have howner := hentry.owner_eq
    rw [hs] at howner
    obtain ⟨⟨w', log⟩, hslot, rfl⟩ := Option.map_eq_some_iff.mp howner.symm
    have hslot' : π'.slot s = some (w', log) := by
      rcases haction with ⟨t, hkeep, -⟩ | ⟨action, hacts, hpstep⟩
      · cases hkeep
      · cases action with
        | move ℓ x =>
          obtain ⟨henc, -⟩ := hacts
          rw [henc.op] at hne
          exact hpstep.slot_of_replySwitch trivial (henc.kind_of_replySwitch hop) hslot hne
        | start => exact hacts.elim
        | flush => exact hacts.elim
    have hentry' := hrefines'.slot s
    rw [hslot] at hentry
    rw [hslot'] at hentry'
    exact ⟨hentry'.2.1, hentry'.2.2.1.trans hentry.2.2.1.symm⟩

/-- A write whose copy is on its way to the index node, and the next write of its coroutine at the data
node. -/
def twoWritesMoves : List Move :=
  [.start ⟨2, 0, 0⟩ .kEnumW 65536, .deliver 0, .deliver 0, .deliver 0, .deliver 1,
    .start ⟨2, 0, 0⟩ .kEnumW 65536, .deliver 1, .deliver 1]

/-- Two writes of a coroutine are on the wire, one with its entry and one with its reply. -/
theorem rpc_ids_differ_two_writes : ∃ σ w w' id id', oneKey.Reachable (StartsApart oneKey) σ ∧
    w.coro = w'.coro ∧ OnWire σ w id ∧ OnWire σ w' id' ∧ w ≠ w' ∧ id ≠ id' := by
  have hmoves : ∃ σ, execAll oneKey isEarlyWrite (State.initial oneKey) twoWritesMoves = some σ ∧
      σ.owner 0 = some ⟨⟨2, 0, 0⟩, 1, 65536⟩ ∧ ∃ q ∈ σ.net, q.2.op = ⟨⟨2, 0, 0⟩, 2, 65536⟩ ∧
        q.2.msg.rpc_header.op = .kEnumAppendReply :=
    ⟨_, rfl, by decide +kernel, by decide +kernel⟩
  obtain ⟨σ, hexec, howner, q, hq, hop, hcode⟩ := hmoves
  have hrange : oneKey.flags.InRange :=
    ⟨by decide, by decide, by decide, by decide, by decide, by decide, by decide, by decide⟩
  have hreach := startsApart_of_earlyWrites hrange
    (execAll_reachable earlyWrites_of_check Reachable.init hexec)
  have hfirst : OnWire σ ⟨⟨2, 0, 0⟩, 1, 65536⟩ _ := Or.inr ⟨0, howner, rfl⟩
  have hsecond : OnWire σ ⟨⟨2, 0, 0⟩, 2, 65536⟩ _ := Or.inl ⟨q, hq, hop, Or.inl hcode, rfl⟩
  have hne : (⟨⟨2, 0, 0⟩, 1, 65536⟩ : OpId) ≠ ⟨⟨2, 0, 0⟩, 2, 65536⟩ := by decide
  exact ⟨σ, ⟨⟨2, 0, 0⟩, 1, 65536⟩, ⟨⟨2, 0, 0⟩, 2, 65536⟩, _, _, hreach, rfl, hfirst, hsecond, hne,
    (rpc_ids_differ hrange hreach).1 _ _ _ _ hfirst hsecond hne⟩

/-- A write whose copy waits at the index node, 255 reads that find its entry, a write that replaces
the entry, and the copy of the first write at the index thread. -/
def sameNameMoves : List Move :=
  [.start ⟨2, 0, 0⟩ .kEnumW 65536, .deliver 0, .deliver 0, .deliver 0, .deliver 1] ++
    (List.replicate 255 [.start ⟨2, 0, 0⟩ .kEnumR 65536, .deliver 1, .deliver 1, .deliver 1,
      .deliver 1, .deliver 1, .deliver 1]).flatten ++
    [.start ⟨2, 0, 0⟩ .kEnumW 65536, .deliver 1, .deliver 1, .deliver 1, .deliver 0]

/-- The switch next processes a `ReplySwitch` that clears the entry of another write. -/
def clearsForeign (σ : State) : Bool :=
  match exec oneKey σ (.deliver 2) with
  | some (.switch p, σ') =>
    p.msg.rpc_header.op = .ReplySwitch ∧ (σ.owner 0).isSome ∧ σ.owner 0 ≠ some p.op ∧
      σ'.owner 0 = none ∧ (σ.regs.key_check 0).hi = (parse p.msg).rpc_id
  | _ => false

theorem any_clearsForeign : (execAll oneKey (fun _ _ ↦ true) (State.initial oneKey)
    sameNameMoves).any clearsForeign = true := by
  decide +kernel

/-- Two outstanding writes have one name on the wire, and the `ReplySwitch` of the first one clears
the entry of the second one. -/
theorem rpc_ids_repeat : ∃ σ p σ' w id, oneKey.Reachable (fun _ _ ↦ True) σ ∧
    Step oneKey σ (.switch p) σ' ∧ p.msg.rpc_header.op = .ReplySwitch ∧ w ≠ p.op ∧
    OnWire σ p.op id ∧ OnWire σ w id ∧ σ.owner 0 = some w ∧ σ'.owner 0 = none := by
  obtain ⟨σ, hexec, hclears⟩ := (Option.any_eq_true _ _).mp any_clearsForeign
  unfold clearsForeign at hclears
  split at hclears
  · next p σ' hlast =>
    obtain ⟨hop, howner, hne, hcleared, hid⟩ := of_decide_eq_true hclears
    obtain ⟨w, hw⟩ := Option.isSome_iff_exists.mp howner
    have hstep := exec_step hlast
    obtain ⟨-, ℓ, rest, htake⟩ := Step.switch_regs hstep
    refine ⟨σ, p, σ', w, _, execAll_reachable (fun _ _ _ ↦ trivial) Reachable.init hexec, hstep,
      hop, fun heq ↦ hne (heq ▸ hw), Or.inl ⟨_, htake.mem, rfl, Or.inr hop, rfl⟩,
      Or.inr ⟨0, hw, hid⟩, hw, hcleared⟩
  · cases hclears

end SwitchDelta.Protocol
