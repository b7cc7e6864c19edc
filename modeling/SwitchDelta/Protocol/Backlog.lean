import SwitchDelta.Kv.Execution
import SwitchDelta.Protocol.Clock

/-!
# The backlog counters of the switch

`counter_table` adds one for an `AppendReq` and takes one off for a `ReplySwitch` and for an
`UpdateIndexReply`. A write sends one `AppendReq`, and comes back through the switch either as the
`ReplySwitch` of its copy or, when it was not installed, as the reply to its `put_index`. In between
exactly one of its messages stands for it, on whatever link it is, and this is the invariant: each
write that was counted up is counted down or has one pending message.

The scripts install entries for the ports `0` to `7`, while the port of index thread `t` is
`256 * (t + 1)`. The results are about any port that has entries, in the register of the switch that
its entries work on.
-/

set_option autoImplicit false
set_option relaxedAutoImplicit false

namespace SwitchDelta.Protocol

open Foundation Kv Switch

/-! ### Pending messages -/

/-- The message stands for a write between the two times it is counted. -/
def isPending : Loc → Kind → Bool
  | .up, .appendReq => false
  | .down .., .updateReply => false
  | _, .appendReq | _, .appendReply | _, .copy | _, .replySwitch | _, .updateReq
  | _, .updateReply => true
  | _, _ => false

/-- The message is a write that has not been counted. -/
def isWaiting : Loc → Kind → Bool
  | .up, .appendReq => true
  | _, _ => false

/-- The number of pending messages of an operation. -/
def pendingCount (net : List (Loc × Item)) (o : OpId) : ℕ :=
  net.countP fun p ↦ isPending p.1 p.2.kind && decide (p.2.op = o)

/-- The number of messages of an operation that were not counted. -/
def waitingCount (net : List (Loc × Item)) (o : OpId) : ℕ :=
  net.countP fun p ↦ isWaiting p.1 p.2.kind && decide (p.2.op = o)

/-- The step counts a write up. -/
def Action.adds (o : OpId) : Action → ℕ
  | .move .up x => if x.kind = .appendReq ∧ x.op = o then 1 else 0
  | _ => 0

/-- The step counts a write down. -/
def Action.subtracts (o : OpId) : Action → ℕ
  | .move (.ixOut _) x =>
    if (x.kind = .replySwitch ∨ x.kind = .updateReply) ∧ x.op = o then 1 else 0
  | _ => 0

variable {M : Layout} {D : Discipline} {π π' : PState} {action : Action}

theorem tally_move {f : Loc × Item → Bool} {net rest new : List (Loc × Item)} {ℓ : Loc} {x : Item}
    (htake : Take net ℓ x rest) {up down : ℕ}
    (h : new.countP f + down = (if f (ℓ, x) then 1 else 0) + up) :
    (rest ++ new).countP f + down = net.countP f + up := by
  rw [List.countP_append, htake.countP f]
  omega

theorem tally_gone {f : Loc × Item → Bool} {net rest : List (Loc × Item)} {ℓ : Loc} {x : Item}
    (htake : Take net ℓ x rest) {up down : ℕ} (h : down = (if f (ℓ, x) then 1 else 0) + up) :
    rest.countP f + down = net.countP f + up := by
  rw [htake.countP f]
  omega

theorem Passes.pendingCount {ℓ ℓ' : Loc} {x : Item} (h : Passes M D π ℓ x ℓ') (o : OpId) :
    pendingCount [(ℓ', x)] o + (Action.move ℓ x).subtracts o =
      (if isPending ℓ x.kind && decide (x.op = o) then 1 else 0) + (Action.move ℓ x).adds o := by
  cases h with
  | appendReq hkind | probe hkind | updateReq hkind | readReq hkind | appendReply hkind
  | logReply hkind | updateReply hkind | readReply hkind | readLog hkind =>
    simp [Protocol.pendingCount, List.countP_cons, hkind, isPending, Action.adds, Action.subtracts,
      Item.home]

/-- The replies to a batch count like the batch. -/
theorem tally_flush {f : Loc × Item → Bool} {net : List (Loc × Item)} {t : UInt8}
    {index : KvKeyType → UInt64}
    (h : ∀ x, (.ixBatch t, x) ∈ net → f (.ixOut t, x.reply index) = f (.ixBatch t, x)) :
    List.countP f (net.filter (fun p ↦ p.1 ≠ .ixBatch t) ++
      (queue net (.ixBatch t)).map fun x ↦ (.ixOut t, x.reply index)) = net.countP f := by
  rw [List.countP_append, List.countP_map, ← countP_filter_add_queue net (.ixBatch t) f]
  congr 1
  refine List.countP_congr fun x hx ↦ ?_
  rw [Function.comp_apply, h x (mem_queue.mp hx)]

/-- A step that counts a write up makes it pending, and one that counts it down ends that. -/
theorem PStep.pendingCount (hsound : π.Sound M D) (hstep : PStep M D π action π') (o : OpId) :
    pendingCount π'.net o + action.subtracts o = pendingCount π.net o + action.adds o := by
  cases hstep with
  | write | read | probe =>
    simp [Protocol.pendingCount, isPending, Action.adds, Action.subtracts]
  | passUp htake hpass => exact tally_move htake (hpass.pendingCount o)
  | passOut _ htake hpass => exact tally_move htake.take (hpass.pendingCount o)
  | lose htake hkind =>
    exact tally_gone htake (by simp [hkind, isPending, Action.adds, Action.subtracts])
  | install htake hkind =>
    exact tally_move htake.take
      (by simp [List.countP_cons, hkind, isPending, Action.adds, Action.subtracts])
  | hit htake hkind =>
    exact tally_move htake (by simp [hkind, isPending, Action.adds, Action.subtracts])
  | clear htake hkind | keep htake hkind =>
    exact tally_gone htake.take (by simp [hkind, isPending, Action.adds, Action.subtracts])
  | append htake hkind | serveLog htake hkind =>
    exact tally_move htake
      (by simp [List.countP_cons, hkind, isPending, Action.adds, Action.subtracts])
  | serve htake hkind | collect htake hkind =>
    refine tally_move htake.take ?_
    rcases hkind with hkind | hkind | hkind <;>
      simp [List.countP_cons, hkind, isPending, Action.adds, Action.subtracts, Item.reply]
  | flush =>
    refine tally_flush fun x hx ↦ ?_
    rcases Placed.atIndex (Or.inr (hsound.placed _ _ hx)) with hkind | hkind | hkind <;>
      simp [hkind, isPending, Item.reply]
  | @finish x rest htake hnext =>
    refine tally_gone htake ?_
    have hhome := hsound.placed _ _ htake.mem
    cases hk : x.kind <;>
      simp_all [Placed, Item.home, isPending, Action.adds, Action.subtracts, Item.next]
  | goOn htake hnext =>
    refine tally_move htake ?_
    rcases Item.next_eq_some hnext with ⟨hkind, rfl⟩ | ⟨hkind | hkind, -, rfl⟩ <;>
      simp [List.countP_cons, hkind, isPending, Action.adds, Action.subtracts, Item.home]

/-- A coroutine does not go back to an earlier operation. -/
theorem PStep.seq_le (hstep : PStep M D π action π') (c : CoroId) : π.seq c ≤ π'.seq c := by
  cases hstep with
  | @write c' | @read c' =>
    by_cases hc : c = c'
    · subst hc
      simp
    · simp [Function.update_of_ne hc]
  | _ => exact le_rfl

/-- A step that counts a write up takes it from those that wait, and only a new write joins them. -/
theorem PStep.waitingCount (hstep : PStep M D π action π') (o : OpId) :
    ∃ new, waitingCount π'.net o + action.adds o = waitingCount π.net o + new ∧
      (new = 0 ∨ new = 1 ∧ π.seq o.coro < o.seq ∧ o.seq ≤ π'.seq o.coro) := by
  cases hstep with
  | @write c k =>
    by_cases ho : (⟨c, π.seq c + 1, k⟩ : OpId) = o
    · subst ho
      refine ⟨1, ?_, Or.inr ⟨rfl, by simp, by simp⟩⟩
      simp [Protocol.waitingCount, isWaiting, Action.adds]
    · refine ⟨0, ?_, Or.inl rfl⟩
      simp [Protocol.waitingCount, isWaiting, Action.adds, ho]
  | read | probe => exact ⟨0, by simp [Protocol.waitingCount, isWaiting, Action.adds], Or.inl rfl⟩
  | passUp htake hpass =>
    refine ⟨0, tally_move htake ?_, Or.inl rfl⟩
    cases hpass <;> simp [*, isWaiting, Action.adds, Item.home]
  | passOut hne htake hpass =>
    refine ⟨0, tally_move htake.take ?_, Or.inl rfl⟩
    cases hpass <;> simp [*, isWaiting, Action.adds, Item.home]
  | lose htake hkind => exact ⟨0, tally_gone htake (by simp [hkind, isWaiting, Action.adds]), Or.inl rfl⟩
  | install htake => exact ⟨0, tally_move htake.take (by simp [isWaiting, Action.adds]), Or.inl rfl⟩
  | hit htake hkind =>
    exact ⟨0, tally_move htake (by simp [hkind, isWaiting, Action.adds]), Or.inl rfl⟩
  | clear htake | keep htake =>
    exact ⟨0, tally_gone htake.take (by simp [isWaiting, Action.adds]), Or.inl rfl⟩
  | append htake | serveLog htake =>
    exact ⟨0, tally_move htake (by simp [isWaiting, Action.adds]), Or.inl rfl⟩
  | serve htake | collect htake =>
    exact ⟨0, tally_move htake.take (by simp [isWaiting, Action.adds]), Or.inl rfl⟩
  | flush => exact ⟨0, tally_flush fun x hx ↦ by simp [isWaiting], Or.inl rfl⟩
  | finish htake hnext =>
    exact ⟨0, tally_gone htake (by simp [isWaiting, Action.adds, Item.home]), Or.inl rfl⟩
  | goOn htake hnext =>
    refine ⟨0, tally_move htake ?_, Or.inl rfl⟩
    rcases Item.next_eq_some hnext with ⟨hkind, rfl⟩ | ⟨hkind | hkind, -, rfl⟩ <;>
      simp [isWaiting, Action.adds, Item.home]

/-! ### Runs of the system -/

/-- The packets that the switch has processed in a run. -/
def switched (run : List Label) : List Packet :=
  run.filterMap fun
    | .switch p => some p
    | _ => none

/-- The operations of the packets with a certain operation code that the switch has processed. -/
def opsOf (run : List Label) (codes : List RpcType) : List OpId :=
  ((switched run).filter fun p ↦ p.msg.rpc_header.op ∈ codes).map Packet.op

/-- The operation codes that `counter_table` counts up. -/
def upCodes : List RpcType := [.kEnumAppendReq]

/-- The operation codes that `counter_table` counts down. -/
def downCodes : List RpcType := [.ReplySwitch, .kEnumUpdateIndexReply]

/-- Each write that was counted up was counted down or has one pending message, and no write is
counted up twice. -/
structure Accounts (run : List Label) (π : PState) : Prop where
  pending : ∀ o, (opsOf run upCodes).count o = (opsOf run downCodes).count o + pendingCount π.net o
  once : ∀ o, (opsOf run upCodes).count o + waitingCount π.net o ≤ 1
  seq : ∀ o, 0 < (opsOf run upCodes).count o + waitingCount π.net o → o.seq ≤ π.seq o.coro

theorem Accounts.initial : Accounts [] .initial :=
  ⟨fun _ ↦ rfl, fun _ ↦ Nat.zero_le 1, fun _ h ↦ absurd h (lt_irrefl 0)⟩

theorem Accounts.step {run run' : List Label} (h : Accounts run π) (hsound : π.Sound M D)
    (hstep : PStep M D π action π')
    (hup : ∀ o, (opsOf run' upCodes).count o = (opsOf run upCodes).count o + action.adds o)
    (hdown : ∀ o,
      (opsOf run' downCodes).count o = (opsOf run downCodes).count o + action.subtracts o) :
    Accounts run' π' where
  pending o := by
    have hpending := hstep.pendingCount hsound o
    have hold := h.pending o
    rw [hup, hdown]
    omega
  once o := by
    obtain ⟨new, hwaiting, rfl | ⟨rfl, hlt, -⟩⟩ := hstep.waitingCount o
    · have hold := h.once o
      rw [hup]
      omega
    · -- a new operation was not counted
      have hold : (opsOf run upCodes).count o + waitingCount π.net o = 0 := by
        by_contra hne
        exact absurd (h.seq o (Nat.pos_of_ne_zero hne)) (not_le.mpr hlt)
      rw [hup]
      omega
  seq o hpos := by
    obtain ⟨new, hwaiting, rfl | ⟨rfl, -, hle⟩⟩ := hstep.waitingCount o
    · rw [hup] at hpos
      exact (h.seq o (by omega)).trans (hstep.seq_le o.coro)
    · exact hle

/-- The step is the switch processing a packet of the operation with one of the codes. -/
def counts (codes : List RpcType) (o : OpId) : Label → ℕ
  | .switch p => if p.msg.rpc_header.op ∈ codes ∧ p.op = o then 1 else 0
  | _ => 0

theorem count_opsOf_snoc (run : List Label) (label : Label) (codes : List RpcType) (o : OpId) :
    (opsOf (run ++ [label]) codes).count o = (opsOf run codes).count o + counts codes o label := by
  rw [opsOf, switched, List.filterMap_append, List.filter_append, List.map_append,
    List.count_append]
  congr 1
  cases label with
  | switch p =>
    by_cases hcode : p.msg.rpc_header.op ∈ codes
    · simp [counts, hcode, List.count_singleton]
    · simp [counts, hcode]
  | _ => simp [counts]

theorem PStep.mem_of_move {ℓ : Loc} {x : Item} (hstep : PStep M D π (.move ℓ x) π') :
    (ℓ, x) ∈ π.net := by
  cases hstep with
  | passUp htake | lose htake | hit htake | append htake | serveLog htake | finish htake
  | goOn htake => exact htake.mem
  | passOut _ htake => exact htake.take.mem
  | install htake | clear htake | keep htake | serve htake | collect htake =>
    exact htake.take.mem

variable {S : Setup} {σ σ' : State}

/-- The counted packets are the counted items. -/
theorem ActsAs.counts {label : Label} (h : ActsAs S label action) (hsound : π.Sound M D)
    (hstep : PStep M D π action π') (o : OpId) :
    counts upCodes o label = action.adds o ∧ counts downCodes o label = action.subtracts o := by
  cases action with
  | start => cases label <;> simp_all [ActsAs, Protocol.counts, Action.adds, Action.subtracts]
  | flush => cases label <;> simp_all [ActsAs, Protocol.counts, Action.adds, Action.subtracts]
  | move ℓ x =>
    have hplaced := hsound.placed _ _ hstep.mem_of_move
    cases label with
    | switch p =>
      obtain ⟨henc, hℓ⟩ := h
      simp only [Protocol.counts, henc.code, henc.op]
      rcases hℓ with rfl | ⟨t, rfl⟩ | ⟨t, rfl⟩ <;> cases hkind : x.kind <;>
        simp_all [Placed, Item.home, Kind.code, upCodes, downCodes, Action.adds, Action.subtracts]
    | data t p | index t p | collect t p =>
      obtain ⟨-, rfl⟩ := h
      exact ⟨rfl, rfl⟩
    | client p =>
      obtain ⟨-, rfl⟩ := h
      exact ⟨rfl, rfl⟩
    | start | probe | keep | flush => exact h.elim

/-- The books are kept in every run. -/
theorem exists_accounts (hrange : S.flags.InRange) {run : List Label}
    (h : Run (State.initial S) (Step S) run σ) :
    ∃ π, Refines S σ π ∧ π.Sound (layout S) unrestricted ∧ Accounts run π := by
  induction h with
  | nil => exact ⟨_, Refines.initial S, PState.Sound.initial _ _, Accounts.initial⟩
  | @snoc run σ σ' label _ hstep ih =>
    obtain ⟨π, hrefines, hsound, haccounts⟩ := ih
    obtain ⟨π', haction, hrefines'⟩ :=
      hrefines.step hrange hsound (grants_unrestricted S σ label) hstep
    rcases haction with ⟨t, rfl, -, rfl⟩ | ⟨action, hacts, hpstep⟩
    · refine ⟨π', hrefines', hsound, ?_⟩
      have hcount (codes : List RpcType) (o : OpId) :
          (opsOf (run ++ [.keep t]) codes).count o = (opsOf run codes).count o :=
        count_opsOf_snoc run _ codes o
      exact ⟨fun o ↦ by rw [hcount, hcount]; exact haccounts.pending o,
        fun o ↦ by rw [hcount]; exact haccounts.once o,
        fun o ↦ by rw [hcount]; exact haccounts.seq o⟩
    · refine ⟨π', hrefines', hsound.step hpstep, haccounts.step hsound hpstep ?_ ?_⟩
      · exact fun o ↦ by rw [count_opsOf_snoc, (hacts.counts hsound hpstep o).1]
      · exact fun o ↦ by rw [count_opsOf_snoc, (hacts.counts hsound hpstep o).2]

/-! ### The counters -/

/-- The writes with index port `i` among the packets with certain operation codes. -/
def writesAt (i : UInt16) (run : List Label) (codes : List RpcType) : List OpId :=
  ((switched run).filter fun p ↦
    p.msg.rpc_header.op ∈ codes ∧ (parse p.msg).index_port = i).map Packet.op

theorem writesAt_snoc_switch (i : UInt16) (run : List Label) (p : Packet) (codes : List RpcType) :
    UInt16.ofNat (writesAt i (run ++ [.switch p]) codes).length =
      UInt16.ofNat (writesAt i run codes).length +
        if (parse p.msg).op ∈ codes ∧ (parse p.msg).index_port = i then 1 else 0 := by
  have hop : (parse p.msg).op = p.msg.rpc_header.op := rfl
  unfold writesAt switched
  by_cases hp : p.msg.rpc_header.op ∈ codes ∧ (parse p.msg).index_port = i
  · simp [hop, hp]
  · simp [hop, hp]

theorem writesAt_snoc_of_ne {label : Label} (i : UInt16) (run : List Label) (codes : List RpcType)
    (h : ∀ p, label ≠ .switch p) : writesAt i (run ++ [label]) codes = writesAt i run codes := by
  cases label with
  | switch p => exact absurd rfl (h p)
  | _ => simp [writesAt, switched]

/-- No step changes the entries of `counter_table`. -/
theorem counter_entries_of_run {run : List Label} (h : Run (State.initial S) (Step S) run σ) :
    σ.regs.counter_entries = S.counter_entries := by
  induction h with
  | nil => rfl
  | @snoc run σ σ' label _ hstep ih =>
    by_cases hswitch : ∃ p, label = .switch p
    · obtain ⟨p, rfl⟩ := hswitch
      rw [(Step.switch_regs hstep).1, ingress_counter_entries, ih]
    · rw [Step.regs_eq hstep fun p hp ↦ hswitch ⟨p, hp⟩, ih]

/-- The register of a port with entries is the number of packets that count up at this port less that
of the packets that count down, as far as 16 bits tell. -/
theorem index_counter_of_run {run : List Label} (h : Run (State.initial S) (Step S) run σ)
    {i id : UInt16} (hentry : S.counter_entries.id i = some id) :
    σ.regs.index_counter id = UInt16.ofNat (writesAt i run upCodes).length -
      UInt16.ofNat (writesAt i run downCodes).length := by
  induction h with
  | nil => simp [State.initial, Registers.initial, writesAt, switched]
  | @snoc run σ σ' label hrun hstep ih =>
    by_cases hswitch : ∃ p, label = .switch p
    · obtain ⟨p, rfl⟩ := hswitch
      have hcount := ingress_index_counter S.program (parse p.msg)
        ((congrArg (CounterEntries.id · i) (counter_entries_of_run hrun)).trans hentry)
      have hup : (parse p.msg).CountsUp i ↔
          (parse p.msg).op ∈ upCodes ∧ (parse p.msg).index_port = i := by
        simp [Kvmsg.CountsUp, upCodes]
      have hdown : (parse p.msg).CountsDown i ↔
          (parse p.msg).op ∈ downCodes ∧ (parse p.msg).index_port = i := by
        simp [Kvmsg.CountsDown, downCodes]
      rw [(Step.switch_regs hstep).1, hcount, ih, writesAt_snoc_switch, writesAt_snoc_switch,
        if_congr hup rfl rfl, if_congr hdown rfl rfl]
      grind
    · have hne (p : Packet) (hp : label = .switch p) : False := hswitch ⟨p, hp⟩
      rw [Step.regs_eq hstep hne, ih, writesAt_snoc_of_ne i run _ hne,
        writesAt_snoc_of_ne i run _ hne]

/-- The operation codes of the messages of a write. -/
def writeCodes : List RpcType :=
  [.kEnumAppendReq, .kEnumAppendReply, .kEnumMultiCastPkt, .ReplySwitch, .kEnumUpdateIndexReq,
    .kEnumUpdateIndexReply]

/-- The messages of a write all carry index port `i` when one of them does. -/
def Carries (i : UInt16) (run : List Label) : Prop :=
  ∀ p ∈ switched run, ∀ p' ∈ switched run, p.op = p'.op → p.msg.rpc_header.op ∈ writeCodes →
    p'.msg.rpc_header.op ∈ writeCodes → (parse p.msg).index_port = i →
    (parse p'.msg).index_port = i

instance (i : UInt16) (run : List Label) : Decidable (Carries i run) :=
  inferInstanceAs (Decidable (∀ p ∈ switched run, ∀ p' ∈ switched run, p.op = p'.op →
    p.msg.rpc_header.op ∈ writeCodes → p'.msg.rpc_header.op ∈ writeCodes →
    (parse p.msg).index_port = i → (parse p'.msg).index_port = i))

theorem writesAt_sublist (i : UInt16) (run : List Label) (codes : List RpcType) :
    (writesAt i run codes).Sublist (opsOf run codes) :=
  (List.monotone_filter_right _ fun p hp ↦ by simp_all).map _

theorem mem_writesAt {i : UInt16} {run : List Label} {codes : List RpcType} {o : OpId} :
    o ∈ writesAt i run codes ↔ ∃ p ∈ switched run, p.msg.rpc_header.op ∈ codes ∧
      (parse p.msg).index_port = i ∧ p.op = o := by
  simp [writesAt, and_assoc]

/-- A write that one message counts at a port is counted there by the other as well. -/
theorem Carries.mem_writesAt {i : UInt16} {run : List Label} (h : Carries i run)
    {codes codes' : List RpcType} (hcodes : codes ⊆ writeCodes) (hcodes' : codes' ⊆ writeCodes)
    {o : OpId} (ho : o ∈ writesAt i run codes) (hcount : 0 < (opsOf run codes').count o) :
    o ∈ writesAt i run codes' := by
  obtain ⟨p, hp, hcode, hport, hop⟩ := Protocol.mem_writesAt.mp ho
  have hmem := List.count_pos_iff.mp hcount
  simp only [opsOf, List.mem_map, List.mem_filter, decide_eq_true_eq] at hmem
  obtain ⟨p', ⟨hp', hcode'⟩, hop'⟩ := hmem
  exact Protocol.mem_writesAt.mpr ⟨p', hp', hcode',
    h p hp p' hp' (hop.trans hop'.symm) (hcodes hcode) (hcodes' hcode') hport, hop'⟩

/-- At every moment of a run the counter of a port that has entries and that the messages of its writes
carry unchanged is the number of its writes whose `AppendReq` has passed the switch less that of those
whose `ReplySwitch` or `UpdateIndexReply` has. Each write is counted once up and once down. -/
theorem backlog_counter_law (hrange : S.flags.InRange) {run : List Label}
    (hrun : Run (State.initial S) (Step S) run σ) {i id : UInt16}
    (hentry : S.counter_entries.id i = some id) (hcarries : Carries i run) :
    let up := writesAt i run upCodes
    let down := writesAt i run downCodes
    up.Nodup ∧ down.Nodup ∧ down ⊆ up ∧ down.length ≤ up.length ∧
      σ.regs.index_counter id = UInt16.ofNat (up.length - down.length) ∧
      (up.length - down.length < 65536 →
        (σ.regs.index_counter id).toNat = up.length - down.length) ∧
      (σ.net = [] → up.Perm down) := by
  intro up down
  obtain ⟨π, hrefines, hsound, haccounts⟩ := exists_accounts hrange hrun
  have hup : up.Nodup := by
    refine List.Nodup.sublist (writesAt_sublist i run upCodes)
      (List.nodup_iff_count_le_one.mpr fun o ↦ ?_)
    exact (Nat.le_add_right _ _).trans (haccounts.once o)
  have hdown : down.Nodup := by
    refine List.Nodup.sublist (writesAt_sublist i run downCodes)
      (List.nodup_iff_count_le_one.mpr fun o ↦ ?_)
    have hpending := haccounts.pending o
    have honce := haccounts.once o
    omega
  have hsubset : down ⊆ up := by
    intro o ho
    refine hcarries.mem_writesAt (by decide) (by decide) ho ?_
    have hpos : 0 < (opsOf run downCodes).count o :=
      List.count_pos_iff.mpr ((writesAt_sublist i run downCodes).subset ho)
    have hpending := haccounts.pending o
    omega
  have hle : down.length ≤ up.length := (hdown.subperm hsubset).length_le
  have hcounter : σ.regs.index_counter id = UInt16.ofNat (up.length - down.length) := by
    rw [index_counter_of_run hrun hentry, UInt16.ofNat_sub hle]
  refine ⟨hup, hdown, hsubset, hle, hcounter, fun hlt ↦ ?_, fun hnet ↦ ?_⟩
  · rw [hcounter, UInt16.toNat_ofNat_of_lt' hlt]
  · refine (List.perm_ext_iff_of_nodup hup hdown).mpr fun o ↦ ⟨fun ho ↦ ?_, fun ho ↦ hsubset ho⟩
    refine hcarries.mem_writesAt (by decide) (by decide) ho ?_
    have hpos : 0 < (opsOf run upCodes).count o :=
      List.count_pos_iff.mpr ((writesAt_sublist i run upCodes).subset ho)
    have hempty : π.net = [] := by
      have hforall := hrefines.net
      rw [hnet, List.forall₂_nil_left_iff] at hforall
      exact hforall
    have hpending := haccounts.pending o
    rw [hempty] at hpending
    rwa [hpending, show pendingCount [] o = 0 from rfl, add_zero] at hpos

/-- The port of index thread 0 counts in instance 0. -/
def threadZeroId (port : UInt16) : Option UInt16 :=
  if port = 256 then some 0 else none

theorem threadZeroId_eq_some {port i : UInt16} :
    threadZeroId port = some i ↔ port = 256 ∧ i = 0 := by
  unfold threadZeroId
  split_ifs with hport <;> simp [hport, eq_comm]

theorem threadZeroId_lt {port i : UInt16} (h : threadZeroId port = some i) : i < 48 := by
  obtain ⟨-, rfl⟩ := threadZeroId_eq_some.mp h
  decide

theorem threadZeroId_inj {port port' i : UInt16} (h : threadZeroId port = some i)
    (h' : threadZeroId port' = some i) : port = port' :=
  (threadZeroId_eq_some.mp h).1.trans (threadZeroId_eq_some.mp h').1.symm

/-- Two keys with one switch key and different fingerprints, at one data thread and one index thread
whose port is counted. -/
def countedKeys : Setup where
  flags := ⟨1, 1, 1, 3, 4, 4, true, false, 16⟩
  program := .overwrite
  batching := false
  key_space := [262144, 327680]
  ctx₀ := oneKey.ctx₀
  counter_entries := ⟨threadZeroId, threadZeroId_lt, threadZeroId_inj⟩

/-- Two writes at once, until the switch has the `ReplySwitch` of the first: the second one found the
slot taken and is on its way to the client with its `UpdateIndexReply`. -/
def fastAndSlowMoves : List Move :=
  [.start ⟨2, 0, 0⟩ .kEnumW 262144, .start ⟨2, 0, 1⟩ .kEnumW 327680, .deliver 0, .deliver 0, .deliver 0,
    .deliver 0, .deliver 0, .deliver 0, .deliver 2, .deliver 2, .deliver 0, .deliver 0, .deliver 0,
    .deliver 0]

/-- The counter is one when the fast write has been counted down, and both are when nothing is left. -/
theorem backlog_counter_law_two_writes :
    (∃ run σ, Run (State.initial countedKeys) (Step countedKeys) run σ ∧
      (writesAt 256 run upCodes).length = 2 ∧ (σ.regs.index_counter 0).toNat = 1) ∧
    ∃ run σ, Run (State.initial countedKeys) (Step countedKeys) run σ ∧
      (writesAt 256 run upCodes).length = 2 ∧
      (writesAt 256 run upCodes).Perm (writesAt 256 run downCodes) := by
  have hrange : countedKeys.flags.InRange :=
    ⟨by decide, by decide, by decide, by decide, by decide, by decide, by decide, by decide⟩
  have hrun (moves : List Move) (left : ℕ)
      (hcheck : ((execLabels countedKeys (State.initial countedKeys) moves).map fun result ↦
        decide ((writesAt 256 result.1 upCodes).length = 2 ∧ result.2.net.length = left ∧
          (writesAt 256 result.1 downCodes).length + left = 2 ∧ Carries 256 result.1)) =
        some true) :
      ∃ run σ, Run (State.initial countedKeys) (Step countedKeys) run σ ∧
        (writesAt 256 run upCodes).length = 2 ∧ σ.net.length = left ∧
          (writesAt 256 run downCodes).length + left = 2 ∧ Carries 256 run := by
    obtain ⟨⟨run, σ⟩, hexec, hdecide⟩ := Option.map_eq_some_iff.mp hcheck
    exact ⟨run, σ, execLabels_run Run.nil hexec, of_decide_eq_true hdecide⟩
  constructor
  · obtain ⟨run, σ, hrun, hup, -, hdown, hcarries⟩ := hrun fastAndSlowMoves 1 (by decide +kernel)
    obtain ⟨-, -, -, -, -, hcount, -⟩ :=
      @backlog_counter_law countedKeys σ hrange run hrun 256 0 rfl hcarries
    exact ⟨run, σ, hrun, hup, by rw [hcount (by omega)]; omega⟩
  · obtain ⟨run, σ, hrun, hup, hnet, -, hcarries⟩ :=
      hrun (fastAndSlowMoves ++ [.deliver 0, .deliver 0]) 0 (by decide +kernel)
    obtain ⟨-, -, -, -, -, -, hperm⟩ :=
      @backlog_counter_law countedKeys σ hrange run hrun 256 0 rfl hcarries
    exact ⟨run, σ, hrun, hup, hperm (List.length_eq_zero_iff.mp hnet)⟩

end SwitchDelta.Protocol
