import SwitchDelta.Kv.Execution
import SwitchDelta.Kv.LogId
import SwitchDelta.Protocol.Refinement

/-!
# One reply for each request

`run_client_CPC` resumes a coroutine on any packet that carries its number, so a coroutine is in
step with its requests only if each request brings exactly one packet. `State.OneReply` says so for a
state: requests sent, packets delivered and packets on the way add up for every coroutine, packets
arrive at the thread that asked, none of them is a `ReplySwitch`, and no assertion has failed.
`State.Settles` adds that packets do arrive: they never run out of steps before the links are empty,
and they cannot move forever.

Both hold in every run when the log positions that the data node hands out name data threads
(`Flags.LogsRouted`). `compute_log_id` places the records of a thread at multiples of
`FLAGS_keyspace`, but the log of a thread has `FLAGS_logspace` records. With a log longer than the
key space, `logid_2_threadid` may name a thread that does not exist, the `kEnumReadLog` is sent to a
port that nobody listens on, and the coroutine waits forever (`lost_readLog`).
-/

set_option autoImplicit false
set_option relaxedAutoImplicit false

namespace SwitchDelta.Protocol

open Foundation Kv Switch

/-! ### Messages run out of steps -/

/-- The number of steps that a message has before it, with those of the messages it causes. -/
def work : Loc → Kind → ℕ
  | .up, .appendReq | .up, .readReq => 9
  | .up, .updateReq => 5
  | .up, .readLog => 4
  | .up, .probe => 2
  | .dnIn _, .appendReq => 8
  | .dnIn _, .readLog => 3
  | .dnOut _, .appendReply => 7
  | .dnOut _, .logReply => 2
  | .ixIn _, .readReq => 8
  | .ixIn _, .updateReq => 4
  | .ixIn _, .copy => 3
  | .ixBatch _, .readReq => 7
  | .ixBatch _, .updateReq => 3
  | .ixBatch _, .copy => 2
  | .ixOut _, .readReply => 6
  | .ixOut _, .updateReply => 2
  | .ixOut _, .replySwitch => 1
  | .down _ _, .appendReply => 6
  | .down _ _, .readHit | .down _ _, .readReply => 5
  | .down _ _, .updateReply | .down _ _, .answer | .down _ _, .logReply | .down _ _, .probe => 1
  | _, _ => 0

/-- The work of all messages. -/
def netWork (net : List (Loc × Item)) : ℕ :=
  (net.map fun p ↦ work p.1 p.2.kind).sum

theorem netWork_append (net net' : List (Loc × Item)) :
    netWork (net ++ net') = netWork net + netWork net' := by
  simp [netWork]

theorem netWork_take {net rest : List (Loc × Item)} {ℓ : Loc} {x : Item}
    (h : Take net ℓ x rest) : netWork net = work ℓ x.kind + netWork rest := by
  obtain ⟨before, after, rfl, rfl⟩ := h
  simp only [netWork, List.map_append, List.map_cons, List.sum_append, List.sum_cons]
  omega

variable {M : Layout} {D : Discipline} {π π' : PState}

theorem Passes.work_lt {ℓ ℓ' : Loc} {x : Item} (h : Passes M D π ℓ x ℓ') :
    work ℓ' x.kind < work ℓ x.kind := by
  cases h with
  | appendReq hkind | probe hkind | updateReq hkind | logReply hkind | updateReply hkind
  | readReply hkind => simp [hkind, work, Item.home]
  | readLog hkind | readReq hkind | appendReply hkind => simp [hkind, work, Item.home]

/-- A message that moves on has less work before it. -/
theorem PStep.netWork_lt (hsound : π.Sound M D) {ℓ : Loc} {y : Item}
    (hstep : PStep M D π (.move ℓ y) π') : netWork π'.net < netWork π.net := by
  have hmove {ℓ : Loc} {x : Item} {rest new : List (Loc × Item)} (htake : Take π.net ℓ x rest)
      (hlt : netWork new < work ℓ x.kind) : netWork (rest ++ new) < netWork π.net := by
    rw [netWork_append, netWork_take htake]
    omega
  have hgone {ℓ : Loc} {x : Item} {rest : List (Loc × Item)} (htake : Take π.net ℓ x rest)
      (hpos : 0 < work ℓ x.kind) : netWork rest < netWork π.net := by
    rw [netWork_take htake]
    omega
  cases hstep with
  | passUp htake hpass => exact hmove htake (by simpa [netWork] using hpass.work_lt)
  | passOut hne htake hpass => exact hmove htake.take (by simpa [netWork] using hpass.work_lt)
  | lose htake hkind => exact hgone htake (by simp [hkind, work])
  | install htake hkind => exact hmove htake.take (by simp [netWork, work, hkind, Item.home])
  | hit htake hkind => exact hmove htake (by simp [netWork, work, hkind, Item.home])
  | clear htake hkind => exact hgone htake.take (by simp [hkind, work])
  | keep htake hkind => exact hgone htake.take (by simp [hkind, work])
  | append htake hkind => exact hmove htake (by simp [netWork, work, hkind])
  | serveLog htake hkind => exact hmove htake (by simp [netWork, work, hkind])
  | serve htake hkind =>
    refine hmove htake.take ?_
    rcases hkind with hkind | hkind | hkind <;> simp [netWork, work, hkind, Item.reply]
  | collect htake hkind =>
    refine hmove htake.take ?_
    rcases hkind with hkind | hkind | hkind <;> simp [netWork, work, hkind]
  | finish htake hnext =>
    refine hgone htake ?_
    have hhome := hsound.placed _ _ htake.mem
    clear hmove hgone
    cases hk : y.kind <;> simp_all [Placed, Item.home, work]
  | goOn htake hnext =>
    refine hmove htake ?_
    rcases Item.next_eq_some hnext with ⟨hkind, rfl⟩ | ⟨hkind | hkind, -, rfl⟩ <;>
      simp [netWork, work, hkind, Item.home]

/-! ### Packets on the way to a coroutine -/

/-- The link into an index thread, or the array of its batch. -/
def isIndexLink : Loc → Bool
  | .ixIn _ | .ixBatch _ => true
  | _ => false

/-- The packet is a request of the coroutine or the reply to one: its copy at the index node and a
`ReplySwitch` are not. -/
def IsOnTheWay (c : CoroId) (p : Loc × Packet) : Prop :=
  (⟨p.2.msg.rpc_header.src_s_id, p.2.msg.rpc_header.src_t_id, p.2.msg.rpc_header.src_c_id⟩ :
    CoroId) = c ∧ p.2.msg.rpc_header.op ≠ .ReplySwitch ∧
    ¬ (p.2.msg.rpc_header.op = .kEnumMultiCastPkt ∧ isIndexLink p.1 = true)

instance (c : CoroId) (p : Loc × Packet) : Decidable (IsOnTheWay c p) :=
  inferInstanceAs (Decidable (_ ∧ _ ∧ _))

/-- The packets on the way to a coroutine. -/
def onTheWay (σ : State) (c : CoroId) : List (Loc × Packet) :=
  σ.net.filter fun p ↦ IsOnTheWay c p

/-- Requests and replies are in step. -/
structure OneReply (σ : State) : Prop where
  not_failed : σ.failed = false
  sent_eq : ∀ c, (σ.coro c).sent = (σ.coro c).delivered + (onTheWay σ c).length
  waiting : ∀ c, (onTheWay σ c).length = if (σ.coro c).pc = .idle then 0 else 1
  down : ∀ server_id thread_id p, (.down server_id thread_id, p) ∈ σ.net →
    p.msg.rpc_header.op ≠ .ReplySwitch ∧ p.msg.rpc_header.src_s_id = server_id ∧
      p.msg.rpc_header.src_t_id = thread_id

/-- A packet is processed by a node or the switch. -/
def Moves : Label → Prop
  | .switch _ | .data .. | .index .. | .collect .. | .client _ => True
  | _ => False

/-- Packets move until the links are empty, and not forever. -/
def Settles (S : Setup) (σ : State) : Prop :=
  (σ.net ≠ [] → ∃ label σ', Moves label ∧ Step S σ label σ') ∧
    ∀ run : ℕ → State, run 0 = σ →
      ¬ ∀ n, ∃ label, Moves label ∧ Step S (run n) label (run (n + 1))

/-- The log positions that the data node hands out name data threads. -/
def LogsRouted (f : Flags) : Prop :=
  ∀ (t : UInt8) (pos : UInt64), t.toUInt32 < f.dn_thread → pos < f.logspace →
    (logid_2_threadid f (compute_log_id f pos.toUInt32 t.toUInt32)).toUInt8.toUInt32 < f.dn_thread

variable {S : Setup} {σ σ' : State}

/-- The packets on the way to a coroutine carry its tokens. -/
theorem length_onTheWay (hnet : List.Forall₂ (LinkRel S) σ.net π.net)
    (hplaced : ∀ ℓ x, (ℓ, x) ∈ π.net → Placed M ℓ x) (c : CoroId) :
    (onTheWay σ c).length = (tokens π.net c).length := by
  unfold onTheWay
  generalize σ.net = net at hnet
  generalize π.net = net' at hnet hplaced
  induction hnet with
  | nil => rfl
  | @cons p q net net' hhead _ ih =>
    obtain ⟨ℓ, p⟩ := p
    obtain ⟨ℓ', x⟩ := q
    obtain ⟨rfl, henc⟩ : ℓ = ℓ' ∧ Encodes S p x := hhead
    have ih := ih fun ℓ y hy ↦ hplaced ℓ y (List.mem_cons_of_mem _ hy)
    have hx := hplaced ℓ x List.mem_cons_self
    have hsrc : (⟨p.msg.rpc_header.src_s_id, p.msg.rpc_header.src_t_id,
        p.msg.rpc_header.src_c_id⟩ : CoroId) = x.op.coro := by
      rw [henc.src_s_id, henc.src_t_id, henc.src_c_id]
    have htoken : IsOnTheWay c (ℓ, p) ↔ x.kind.pc ≠ none ∧ x.op.coro = c := by
      unfold IsOnTheWay
      simp only [hsrc, henc.code]
      rw [and_comm]
      refine and_congr_left fun _ ↦ ?_
      cases hk : x.kind <;> simp_all [Placed, Kind.code, Kind.pc, Item.home, isIndexLink]
      rcases hx with rfl | rfl <;> simp
    by_cases hway : IsOnTheWay c (ℓ, p)
    · obtain ⟨hpc, hcoro⟩ := htoken.mp hway
      rw [List.filter_cons_of_pos (by simpa using hway), tokens_cons_self hpc hcoro,
        List.length_cons, List.length_cons, ih]
    · rw [List.filter_cons_of_neg (by simpa using hway), tokens_cons_of_not, ih]
      rw [htoken, not_and_or, not_not] at hway
      exact hway

/-- Without a lost record, the invariants of the protocol say that requests and replies are in
step. -/
theorem Refines.oneReply (h : Refines S σ π) (hsound : π.Sound (layout S) D)
    (hlossless : ¬ Lossy (layout S) D) : OneReply σ := by
  have hcount (c : CoroId) :
      (onTheWay σ c).length = if (σ.coro c).pc = .idle then 0 else 1 := by
    rw [length_onTheWay h.net hsound.placed]
    have hwaits := h.waits c
    have htokens := hsound.tokens c
    cases hphase : π.phase c with
    | none =>
      rw [hphase] at hwaits htokens
      rw [if_pos hwaits.1, show tokens π.net c = [] from htokens]
      rfl
    | some w =>
      rw [hphase] at hwaits htokens
      rw [if_neg (hwaits.1 ▸ hwaits.2.1)]
      rcases htokens with ⟨x, hx, -⟩ | ⟨hlossy, -⟩
      · rw [hx]
        rfl
      · exact absurd hlossy hlossless
  refine ⟨h.failed, fun c ↦ ?_, hcount, fun s t p hp ↦ ?_⟩
  · rw [hcount c]
    have hwaits := h.waits c
    cases hphase : π.phase c with
    | none =>
      rw [hphase] at hwaits
      rw [if_pos hwaits.1, hwaits.2]
      rfl
    | some w =>
      rw [hphase] at hwaits
      rw [if_neg (hwaits.1 ▸ hwaits.2.1), hwaits.2.2.1]
  · obtain ⟨x, hx, henc⟩ := h.exists_item hp
    have hplaced := hsound.placed _ _ hx
    have hhome := hplaced.home_of_down
    simp only [Item.home, Loc.down.injEq] at hhome
    refine ⟨?_, henc.src_s_id.trans hhome.1.symm, henc.src_t_id.trans hhome.2.symm⟩
    rw [henc.code]
    cases hk : x.kind <;> simp_all [Kind.code, Placed]

/-! ### The logs of the data threads -/

theorem data_process_msg_pos {f : Flags} {t : UInt8} {st st' : DataState}
    {req buf reply : RawKvMsg} (h : data_process_msg f t st req buf = some (st', reply))
    (hpos : 0 < f.logspace) (hlt : st.kv.pos < f.logspace) : st'.kv.pos < f.logspace := by
  unfold data_process_msg at h
  split at h
  · obtain ⟨rfl, -⟩ := Prod.mk.inj (Option.some.inj h)
    exact hlt
  · obtain ⟨rfl, -⟩ := Prod.mk.inj (Option.some.inj h)
    exact UInt64.mod_lt _ hpos
  · exact absurd h (by simp)

/-- Only a data thread changes its log. -/
theorem Step.kv_eq {label : Label} (hstep : Step S σ label σ') (hlabel : ∀ t p, label ≠ .data t p) :
    σ'.kv = σ.kv := by
  cases hstep with
  | data => exact absurd rfl (hlabel _ _)
  | index =>
    unfold State.indexStep
    split <;> rfl
  | collect =>
    unfold State.collectStep
    split_ifs <;> rfl
  | client =>
    unfold State.clientStep
    dsimp only
    split <;> rfl
  | _ => rfl

/-- The log of a thread stays within `FLAGS_logspace`. -/
theorem pos_lt_logspace (hrange : S.flags.InRange) {ok : State → Label → Prop}
    (h : S.Reachable ok σ) (t : UInt8) : (σ.kv t).pos < S.flags.logspace := by
  refine h.invariant (fun σ ↦ ∀ t, (σ.kv t).pos < S.flags.logspace) ?_ ?_ t
  · exact fun _ ↦ hrange.logspace_pos
  · intro σ label σ' _ hinv _ hstep t
    by_cases hlabel : ∃ t p, label = .data t p
    · obtain ⟨t', p, rfl⟩ := hlabel
      cases hstep with
      | data buf _ =>
        unfold State.dataStep
        split
        · exact hinv t
        · rename_i st reply hprocess
          by_cases ht : t = t'
          · subst ht
            simpa using data_process_msg_pos hprocess hrange.logspace_pos (hinv t)
          · simpa [Function.update_of_ne ht] using hinv t
    · rw [Step.kv_eq hstep fun t' p hp ↦ hlabel ⟨t', p, hp⟩]
      exact hinv t

/-- The protocol in which the data node hands out the positions of existing threads. -/
def routed (S : Setup) : Discipline :=
  ⟨False, False, fun log ↦ (layout S).logThread log ≠ none⟩

theorem not_lossy_routed (hrange : S.flags.InRange) : ¬ Lossy (layout S) (routed S) := by
  rintro ⟨log, rfl | hlog, hnone⟩
  · have hzero : (logid_2_threadid S.flags (0 : UInt64).toUInt32).toUInt8 = 0 := by
      simp [logid_2_threadid]
    simp only [layout, hzero] at hnone
    rw [if_pos (by exact hrange.dn_pos)] at hnone
    exact absurd hnone (by simp)
  · exact hlog hnone

theorem grants_routed (hrange : S.flags.InRange) (hlogs : LogsRouted S.flags)
    {ok : State → Label → Prop} (h : S.Reachable ok σ) (label : Label) :
    Grants S (routed S) σ label where
  refuse := fun hfalse ↦ hfalse.elim
  clear := fun hfalse ↦ hfalse.elim
  log := fun t p _ ht ↦ by
    have hlt := hlogs t (σ.kv t).pos ht (pos_lt_logspace hrange h t)
    simp only [routed, layout, UInt32.toUInt32_toUInt64]
    rw [if_pos hlt]
    simp

/-! ### Packets keep moving -/

theorem linkTo_ne_ixBatch (server_id t t' : UInt8) : linkTo server_id t ≠ .ixBatch t' := by
  unfold linkTo
  split_ifs <;> simp

theorem switchOutputs_ne_ixBatch {f : Flags} {q : Pipe} {p : Packet} {out : Loc × Packet}
    (h : out ∈ switchOutputs f q p) (t : UInt8) : out.1 ≠ .ixBatch t := by
  obtain ⟨copy, -, hcopy⟩ := List.mem_filterMap.mp h
  simp only [Option.bind_eq_bind, Option.bind_eq_some_iff, Option.pure_def,
    Option.some.injEq] at hcopy
  obtain ⟨server_id, -, t', -, rfl⟩ := hcopy
  exact linkTo_ne_ixBatch server_id t' t

/-- The unbatched index node keeps no batch. -/
theorem net_ne_ixBatch (hunbatched : S.batching = false) {ok : State → Label → Prop}
    (h : S.Reachable ok σ) : ∀ q ∈ σ.net, ∀ t, q.1 ≠ .ixBatch t := by
  refine h.invariant (fun σ ↦ ∀ q ∈ σ.net, ∀ t, q.1 ≠ .ixBatch t) (by simp [State.initial]) ?_
  intro σ label σ' _ hinv _ hstep
  have hrest {ℓ : Loc} {p : Packet} {rest : List (Loc × Packet)} (htake : Take σ.net ℓ p rest) :
      ∀ q ∈ rest, ∀ t, q.1 ≠ .ixBatch t := fun q hq ↦ hinv q (htake.mem_of_mem hq)
  have hnew {net : List (Loc × Packet)} {ℓ : Loc} {p : Packet}
      (hnet : ∀ q ∈ net, ∀ t, q.1 ≠ .ixBatch t) (hℓ : ∀ t, ℓ ≠ .ixBatch t) :
      ∀ q ∈ net ++ [(ℓ, p)], ∀ t, q.1 ≠ .ixBatch t := by
    intro q hq
    rcases List.mem_append.mp hq with hq | hq
    · exact hnet q hq
    · obtain rfl := List.mem_singleton.mp hq
      exact hℓ
  have hswitch {ℓ : Loc} {p : Packet} {rest : List (Loc × Packet)} (htake : Take σ.net ℓ p rest) :
      ∀ q ∈ (σ.switchStep S p rest).net, ∀ t, q.1 ≠ .ixBatch t := by
    intro q hq
    rcases List.mem_append.mp hq with hq | hq
    · exact hrest htake q hq
    · exact switchOutputs_ne_ixBatch hq
  cases hstep with
  | start => exact hnew hinv (by simp)
  | probe => exact hnew hinv (by simp)
  | switchUp htake => exact hswitch htake
  | switchData htake => exact hswitch htake.take
  | switchIndex htake => exact hswitch htake.take
  | data buf htake =>
    unfold State.dataStep
    split
    · exact hrest htake
    · exact hnew (hrest htake) (by simp)
  | index buf _ htake =>
    unfold State.indexStep
    split
    · exact hrest htake.take
    · exact hnew (hrest htake.take) (by simp)
  | collect hbatching => exact absurd hbatching (by simp [hunbatched])
  | keep hbatching => exact absurd hbatching (by simp [hunbatched])
  | flush hbatching => exact absurd hbatching (by simp [hunbatched])
  | client buf htake =>
    unfold State.clientStep
    dsimp only
    split
    · exact hrest htake
    · exact hrest htake
    · exact hnew (hrest htake) (by simp)

/-- While a packet is on a link, one can be processed. -/
theorem exists_move (hunbatched : S.batching = false) (hbatch : ∀ q ∈ σ.net, ∀ t, q.1 ≠ .ixBatch t)
    (hnet : σ.net ≠ []) : ∃ label σ', Moves label ∧ Step S σ label σ' := by
  obtain ⟨⟨ℓ, p⟩, rest, hcons⟩ := List.exists_cons_of_ne_nil hnet
  have hfirst : TakeFirst σ.net ℓ p rest := ⟨[], rest, hcons, rfl, by simp⟩
  cases ℓ with
  | up => exact ⟨.switch p, _, trivial, Step.switchUp hfirst.take⟩
  | dnIn t => exact ⟨.data t p, _, trivial, Step.data .cleared hfirst.take⟩
  | dnOut t => exact ⟨.switch p, _, trivial, Step.switchData hfirst⟩
  | ixIn t => exact ⟨.index t p, _, trivial, Step.index .cleared hunbatched hfirst⟩
  | ixBatch t => exact absurd rfl (hbatch _ (hcons ▸ List.mem_cons_self) t)
  | ixOut t => exact ⟨.switch p, _, trivial, Step.switchIndex hfirst⟩
  | down s t => exact ⟨.client p, _, trivial, Step.client .cleared hfirst.take⟩

theorem ActsAs.of_moves {label : Label} {action : Action} (hmoves : Moves label)
    (hacts : ActsAs S label action) : ∃ ℓ x, action = .move ℓ x := by
  cases action with
  | move ℓ x => exact ⟨ℓ, x, rfl⟩
  | _ => cases label <;> simp_all [Moves, ActsAs]

/-- Packets cannot move forever. -/
theorem not_moves_forever (hrange : S.flags.InRange) (hlogs : LogsRouted S.flags)
    {ok : State → Label → Prop} (hok : ∀ σ label, ok σ label) (run : ℕ → State)
    (hreach : S.Reachable ok (run 0)) (href : Refines S (run 0) π)
    (hsound : π.Sound (layout S) (routed S)) :
    ¬ ∀ n, ∃ label, Moves label ∧ Step S (run n) label (run (n + 1)) := by
  intro hrun
  induction hwork : netWork π.net using Nat.strong_induction_on generalizing π run with
  | _ n ih =>
    obtain ⟨label, hmoves, hstep⟩ := hrun 0
    obtain ⟨π', haction, hrefines⟩ :=
      href.step hrange hsound (grants_routed hrange hlogs hreach label) hstep
    rcases haction with ⟨t, rfl, -, -⟩ | ⟨action, hacts, hpstep⟩
    · exact hmoves.elim
    · obtain ⟨ℓ, x, rfl⟩ := hacts.of_moves hmoves
      have hlt := PStep.netWork_lt hsound hpstep
      exact ih _ (hwork ▸ hlt) (fun n ↦ run (n + 1)) (hreach.step (hok _ _) hstep) hrefines
        (hsound.step hpstep) (fun n ↦ hrun (n + 1)) rfl

/-- In every run in which the data node hands out only log positions of existing threads, each
request brings exactly one packet to the coroutine that sent it, and no assertion fails. -/
theorem one_reply_per_request (hrange : S.flags.InRange) (hlogs : LogsRouted S.flags)
    (h : S.Reachable (fun _ _ ↦ True) σ) :
    OneReply σ ∧ (S.batching = false → Settles S σ) := by
  obtain ⟨π, hreach, hrefines⟩ := refines_of_reachable hrange
    (fun _ label hσ _ ↦ grants_routed hrange hlogs hσ label) h
  have hsound := hreach.sound
  refine ⟨hrefines.oneReply hsound (not_lossy_routed hrange), fun hunbatched ↦ ⟨fun hnet ↦ ?_, ?_⟩⟩
  · exact exists_move hunbatched (net_ne_ixBatch hunbatched h) hnet
  · rintro run rfl
    exact not_moves_forever hrange hlogs (fun _ _ ↦ trivial) run h hrefines hsound

/-- Logs within the key space are routed, when all log positions fit in 32 bits. -/
theorem logsRouted_of_le {f : Flags} (hle : f.logspace ≤ f.keyspace)
    (hfit : f.dn_thread.toNat * f.keyspace.toNat ≤ 2 ^ 32) : LogsRouted f := by
  intro t pos ht hpos
  have htn : t.toNat < f.dn_thread.toNat := by
    rw [UInt32.lt_iff_toNat_lt, UInt8.toNat_toUInt32] at ht
    exact ht
  have hposn : pos.toNat < f.keyspace.toNat :=
    (UInt64.lt_iff_toNat_lt.mp hpos).trans_le (UInt64.le_iff_toNat_le.mp hle)
  have hmul : (t.toNat + 1) * f.keyspace.toNat ≤ f.dn_thread.toNat * f.keyspace.toNat :=
    Nat.mul_le_mul_right _ htn
  rw [Nat.add_mul, Nat.one_mul] at hmul
  have ht8 := t.toNat_lt
  rw [UInt32.lt_iff_toNat_lt, UInt8.toNat_toUInt32, UInt32.toNat_toUInt8,
    logid_2_threadid_compute hposn (by omega)]
  omega

/-- A setup whose logs are as long as its key space. -/
def shortLogs : Setup where
  flags := ⟨1, 1, 1, 3, 2, 2, true, false, 16⟩
  program := .overwrite
  batching := false
  key_space := [65536]
  ctx₀ := fun _ ↦ ⟨0, 0, 0, 0, false, false, 0⟩

/-- Two writes, of which the first one is installed and handled by the index node, and a read that finds it
in the switch and asks for its record. -/
def foundReadMoves : List Move :=
  [.start ⟨2, 0, 0⟩ .kEnumW 65536, .deliver 0, .start ⟨2, 0, 1⟩ .kEnumW 65536, .deliver 1, .deliver 0,
    .deliver 0, .deliver 0, .deliver 1, .deliver 1, .start ⟨2, 0, 2⟩ .kEnumR 65536, .deliver 2,
    .deliver 2, .deliver 2]

/-- The second write and the read wait, each for its packet. -/
theorem one_reply_per_request_shortLogs : ∃ σ, shortLogs.Reachable (fun _ _ ↦ True) σ ∧
    (σ.coro ⟨2, 0, 0⟩).pc = .idle ∧ (σ.coro ⟨2, 0, 1⟩).pc = .put_value ∧
    (σ.coro ⟨2, 0, 2⟩).pc = .get_value ∧ (σ.coro ⟨2, 0, 2⟩).sent = 2 ∧ OneReply σ ∧
    Settles shortLogs σ := by
  have hsome : ((execAll shortLogs (fun _ _ ↦ true) (State.initial shortLogs) foundReadMoves).map
      fun σ ↦ decide ((σ.coro ⟨2, 0, 0⟩).pc = .idle ∧ (σ.coro ⟨2, 0, 1⟩).pc = .put_value ∧
        (σ.coro ⟨2, 0, 2⟩).pc = .get_value ∧ (σ.coro ⟨2, 0, 2⟩).sent = 2)) = some true := by
    decide +kernel
  obtain ⟨σ, hexec, hdecide⟩ := Option.map_eq_some_iff.mp hsome
  obtain ⟨hidle, hwrite, hread, hsent⟩ := of_decide_eq_true hdecide
  have hreach : shortLogs.Reachable (fun _ _ ↦ True) σ :=
    execAll_reachable (fun _ _ _ ↦ trivial) Reachable.init hexec
  have hresult := one_reply_per_request
    ⟨by decide, by decide, by decide, by decide, by decide, by decide, by decide, by decide⟩
    (logsRouted_of_le (by decide) (by decide)) hreach
  exact ⟨σ, hreach, hidle, hwrite, hread, hsent, hresult.1, hresult.2 rfl⟩

/-- A setup whose logs are longer than its key space. -/
def longLogs : Setup where
  flags := ⟨1, 1, 1, 3, 1, 2, true, false, 16⟩
  program := .overwrite
  batching := false
  key_space := [65536]
  ctx₀ := fun _ ↦ ⟨0, 0, 0, 0, false, false, 0⟩

/-- Two writes reach the log of the only data thread, the switch installs the second one, which has
log position one, and a read finds it there. The read of the log is sent to thread one. -/
def lostReadMoves : List Move :=
  [.start ⟨2, 0, 0⟩ .kEnumW 65536, .deliver 0, .deliver 0,
    .start ⟨2, 0, 1⟩ .kEnumW 65536, .deliver 1, .deliver 1, .deliver 0, .deliver 0,
    .start ⟨2, 0, 2⟩ .kEnumR 65536, .deliver 4, .deliver 4, .deliver 4]

/-- A `kEnumReadLog` is lost: its coroutine waits and no packet is on the way to it. -/
theorem lost_readLog : ∃ σ, longLogs.Reachable (fun _ _ ↦ True) σ ∧ ¬ OneReply σ := by
  have hrun : ∃ σ, execAll longLogs (fun _ _ ↦ true) (State.initial longLogs) lostReadMoves =
      some σ ∧ (σ.coro ⟨2, 0, 2⟩).pc ≠ .idle ∧ (onTheWay σ ⟨2, 0, 2⟩).length = 0 := by
    have hsome : ((execAll longLogs (fun _ _ ↦ true) (State.initial longLogs) lostReadMoves).map
        fun σ ↦ decide ((σ.coro ⟨2, 0, 2⟩).pc ≠ .idle ∧ (onTheWay σ ⟨2, 0, 2⟩).length = 0)) =
        some true := by
      decide +kernel
    obtain ⟨σ, hσ, hdecide⟩ := Option.map_eq_some_iff.mp hsome
    exact ⟨σ, hσ, of_decide_eq_true hdecide⟩
  obtain ⟨σ, hexec, hwaiting, hnone⟩ := hrun
  refine ⟨σ, execAll_reachable (fun _ _ _ ↦ trivial) Reachable.init hexec, fun hone ↦ ?_⟩
  have hcount := hone.waiting ⟨2, 0, 2⟩
  rw [hnone, if_neg hwaiting] at hcount
  exact absurd hcount (by simp)

end SwitchDelta.Protocol
