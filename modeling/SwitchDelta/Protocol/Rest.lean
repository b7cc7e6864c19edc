import SwitchDelta.Protocol.Linearizability
import SwitchDelta.Foundation.Eventually

/-!
# When no operation starts any more

Packets move until the links are empty. With the unbatched index server this takes finitely many
steps, whatever their order, and then nothing is left of the operations but their effect
(`comes_to_rest`): every operation has responded, no slot of the switch holds an entry, and the index
of each key has a write that no other one follows.

With batches, an index thread may wait for more requests. `comes_to_wait` says what it waits with:
copies of writes that are complete, and nothing that a client waits for. This is for a
`FLAGS_batch_size` up to 82, with which the thread never waits for a send buffer (`hasBuffer_of_le`).
-/

set_option autoImplicit false
set_option relaxedAutoImplicit false

namespace SwitchDelta.Protocol

open Foundation Kv Switch

variable {S : Setup} {M : Layout} {D : Discipline} {σ σ' : State} {π π' : PState} {action : Action}
  {label : Label} {k : KvKeyType}

/-! ### Operations without a response -/

/-- The coroutine is in a function that ends with the response of the operation. -/
def Waiting.Awaits (w : Waiting) (o : OpId) : Prop :=
  w.op = o ∧ w.pc ≠ .get_value ∧ w.pc ≠ .check_req_cnt

/-- Every operation that has been invoked has responded, or its coroutine waits for it. -/
def PState.Answers (π : PState) : Prop :=
  ∀ o, Invoked π.hist o → Responded π.hist o ∨ ∃ w, π.phase o.coro = some w ∧ w.Awaits o

theorem PState.Answers.initial : PState.initial.Answers := by
  rintro o ⟨e, he, -⟩
  cases he

/-- A coroutine that was idle starts. -/
theorem PState.Answers.begin (h : π.Answers) {c : CoroId} {w : Waiting}
    {events : List (Event OpId UInt64)} (hidle : π.phase c = none)
    (hevents : ∀ e ∈ events, ∀ o, e.invoked = some o → o.coro = c ∧ w.Awaits o)
    (hphase : π'.phase = Function.update π.phase c (some w)) (hhist : π'.hist = π.hist ++ events) :
    π'.Answers := by
  rintro o ⟨e, he, ho⟩
  rw [hhist] at he ⊢
  rcases List.mem_append.mp he with he | he
  · rcases h o ⟨e, he, ho⟩ with ⟨e', he', ho'⟩ | ⟨w', hw', hawaits⟩
    · exact Or.inl ⟨e', List.mem_append_left _ he', ho'⟩
    · have hne : o.coro ≠ c := by
        rintro rfl
        rw [hidle] at hw'
        cases hw'
      exact Or.inr ⟨w', by rw [hphase, Function.update_of_ne hne, hw'], hawaits⟩
  · obtain ⟨hcoro, hawaits⟩ := hevents e he o ho
    exact Or.inr ⟨w, by rw [hphase, hcoro, Function.update_self], hawaits⟩

/-- A coroutine that is resumed has its response, or waits on for it. -/
theorem PState.Answers.deliver (h : π.Answers) (hsound : π.Sound M D) {ℓ : Loc} {x : Item}
    {rest : List (Loc × Item)} {next : Option Waiting} (htake : Take π.net ℓ x rest)
    (hpc : x.kind.pc ≠ none)
    (hnext : Responded x.response x.op ∨ x.kind.pc = some .get_value ∨
      x.kind.pc = some .check_req_cnt ∨ ∃ w, next = some w ∧ w.Awaits x.op)
    (hphase : π'.phase = Function.update π.phase x.op.coro next)
    (hhist : π'.hist = π.hist ++ x.response) : π'.Answers := by
  rintro o ⟨e, he, ho⟩
  rw [hhist] at he ⊢
  rcases List.mem_append.mp he with he | he
  · rcases h o ⟨e, he, ho⟩ with ⟨e', he', ho'⟩ | ⟨w', hw', hawaits⟩
    · exact Or.inl ⟨e', List.mem_append_left _ he', ho'⟩
    · by_cases hcoro : o.coro = x.op.coro
      · -- the item is the token of the operation
        obtain ⟨-, w, hw, hkind, hop, -⟩ := tokens_take_self htake hpc (hsound.tokens x.op.coro)
        obtain rfl : w' = w := Option.some.inj (hw'.symm.trans (hcoro ▸ hw))
        obtain rfl : x.op = o := hop.trans hawaits.1
        rcases hnext with ⟨e', he', ho'⟩ | hvalue | hprobe | ⟨w, rfl, hw⟩
        · exact Or.inl ⟨e', List.mem_append_right _ he', ho'⟩
        · exact absurd (Option.some.inj (hkind.symm.trans hvalue)) hawaits.2.1
        · exact absurd (Option.some.inj (hkind.symm.trans hprobe)) hawaits.2.2
        · exact Or.inr ⟨w, by rw [hphase, Function.update_self], hw⟩
      · exact Or.inr ⟨w', by rw [hphase, Function.update_of_ne hcoro, hw'], hawaits⟩
  · have hnone : e.invoked = none := by
      unfold Item.response at he
      split at he <;> simp_all [Event.invoked]
    rw [hnone] at ho
    cases ho

theorem PState.Answers.step (h : π.Answers) (hsound : π.Sound M D) (hstep : PStep M D π action π') :
    π'.Answers := by
  cases hstep with
  | write _ hidle =>
    refine h.begin hidle (fun e he o ho ↦ ?_) rfl rfl
    obtain rfl := List.mem_singleton.mp he
    obtain rfl := Option.some.inj ho
    exact ⟨rfl, rfl, by simp, by simp⟩
  | read _ hidle =>
    refine h.begin hidle (fun e he o ho ↦ ?_) rfl rfl
    obtain rfl := List.mem_singleton.mp he
    obtain rfl := Option.some.inj ho
    exact ⟨rfl, rfl, by simp, by simp⟩
  | probe _ hidle =>
    refine h.begin hidle (fun e he ↦ ?_) rfl (List.append_nil _).symm
    exact absurd he List.not_mem_nil
  | append =>
    rintro o ⟨e, he, ho⟩
    rcases List.mem_append.mp he with he | he
    · rcases h o ⟨e, he, ho⟩ with ⟨e', he', ho'⟩ | hwaits
      · exact Or.inl ⟨e', List.mem_append_left _ he', ho'⟩
      · exact Or.inr hwaits
    · obtain rfl := List.mem_singleton.mp he
      cases ho
  | @finish x _ htake hnone =>
    have hpc := (hsound.placed _ _ htake.mem).pc_ne_none_of_home
    refine h.deliver hsound htake hpc ?_ rfl rfl
    have hplaced := hsound.placed _ _ htake.mem
    cases hkind : x.kind <;>
      simp_all [Placed, Item.home, Item.next, Item.response, Responded, Event.responded, Kind.pc]
  | @goOn x y _ _ htake hsome hypc =>
    have hpc := (hsound.placed _ _ htake.mem).pc_ne_none_of_home
    refine h.deliver hsound htake hpc ?_ rfl rfl
    rcases Item.next_eq_some hsome with ⟨hkind, rfl⟩ | ⟨hkind | hkind, -, rfl⟩
    · obtain rfl := Option.some.inj hypc
      exact Or.inr (Or.inr (Or.inr ⟨_, rfl, rfl, by simp, by simp⟩))
    · exact Or.inl (by simp [Item.response, hkind, Responded, Event.responded])
    · exact Or.inl (by simp [Item.response, hkind, Responded, Event.responded])
  | _ => exact h

theorem PReachable.answers (h : PReachable M D π) : π.Answers := by
  suffices hboth : π.Sound M D ∧ π.Answers from hboth.2
  induction h with
  | refl => exact ⟨PState.Sound.initial M D, PState.Answers.initial⟩
  | tail _ hstep ih =>
    obtain ⟨action, hstep⟩ := hstep
    exact ⟨ih.1.step hstep, ih.2.step ih.1 hstep⟩

/-- When every coroutine is idle, every operation has responded. -/
theorem PState.Answers.responded (h : π.Answers) (hidle : ∀ c, π.phase c = none) {o : OpId}
    (ho : Invoked π.hist o) : Responded π.hist o := by
  refine (h o ho).resolve_right ?_
  rintro ⟨w, hw, -⟩
  rw [hidle] at hw
  cases hw

/-! ### Rest -/

/-- A node or the switch processes a packet. -/
def PacketStep (S : Setup) (σ σ' : State) : Prop :=
  ∃ label, Moves label ∧ Step S σ label σ'

/-- The index of a key has the log position of a write that no write of the key follows, or the initial
one if there is no write. -/
def HasLastWrite (σ : State) (k : KvKeyType) : Prop :=
  ∃ log, σ.index k = some log ∧
    ((log = 0 ∧ ∀ w v, .assign w v ∉ σ.history k) ∨
      ∃ w, .assign w log ∈ σ.history k ∧
        ∀ w' v, .assign w' v ∈ σ.history k → ¬ Precedes (σ.history k) w w')

/-- Nothing is left of the operations but their effect. -/
structure AtRest (S : Setup) (σ : State) : Prop where
  net : σ.net = []
  idle : ∀ c, (σ.coro c).pc = .idle
  answered : ∀ o, Invoked σ.hist o → Responded σ.hist o
  free : ∀ s, (σ.regs.key_check s).lo = 0
  index : ∀ k ∈ S.key_space, HasLastWrite σ k

/-- Without an entry in the slot and with all operations complete, the index has a last write. -/
theorem Inv.last_write {T : Type*} [LinearOrder T] [OrderBot T] {ordered : Prop} {v : KeyState}
    {g : Tags T} (h : Inv ordered v g) (hentry : v.entry = none)
    (hanswered : ∀ o, Invoked v.hist o → Responded v.hist o) :
    (v.index = 0 ∧ ∀ w log, .assign w log ∉ v.hist) ∨
      ∃ w, .assign w v.index ∈ v.hist ∧
        ∀ w' log, .assign w' log ∈ v.hist → ¬ Precedes v.hist w w' := by
  have hle {w : OpId} {log : UInt64} (hw : .assign w log ∈ v.hist) :
      g.floor w < g.tag w ∧ g.tag w ≤ g.top := by
    have hinvoked := h.tagged.assign_invoked w log hw
    have hresponded : Responded v.hist w := hanswered w ⟨_, hinvoked, rfl⟩
    have hmem : w ∈ g.writes := by
      obtain ⟨e, he, hew⟩ := hresponded
      cases e with
      | respondWrite o u =>
        obtain rfl := Option.some.inj hew
        exact (h.tagged.written o u he).1
      | respondRead o u =>
        obtain rfl := Option.some.inj hew
        exact absurd hinvoked (h.tagged.read_ne_write o (h.tagged.returned o u he).1)
      | _ => cases hew
    have hdone := h.done_le
    rw [hentry] at hdone
    exact ⟨h.tagged.write_floor w hmem, (h.tagged.responded_done w hresponded).trans hdone⟩
  rcases h.index with ⟨htop, hzero⟩ | ⟨w, -, htag, hassign⟩
  · refine Or.inl ⟨hzero, fun w log hw ↦ ?_⟩
    obtain ⟨hlt, htag⟩ := hle hw
    exact not_lt_bot (hlt.trans_le (htag.trans_eq htop))
  · refine Or.inr ⟨w, hassign, fun w' log hw' hprecedes ↦ ?_⟩
    obtain ⟨hlt, hle'⟩ := hle hw'
    have hfloor := h.tagged.precedes_floor w w' hprecedes
    exact absurd (hfloor.trans_lt (hlt.trans_le (hle'.trans_eq htag.symm))) (lt_irrefl _)

/-- Without packets, the view of a key has none. -/
theorem view_of_nil (hnet : π.net = []) :
    (view M k π).waiting = [] ∧ (view M k π).outbox = [] := by
  simp [view, KeyState.waiting, boxOf, hnet, queue]

/-- When the links of the unbatched system are empty, it is at rest. -/
theorem atRest_of_empty (hrange : S.flags.InRange) (hunbatched : S.batching = false)
    (hdvd : S.flags.mn_thread.toNat ∣ 65536) (hapart : KeysApart S) (hlogs : LogsRouted S.flags)
    (h : S.Reachable (StartsApart S) σ) (hnet : σ.net = []) : AtRest S σ := by
  obtain ⟨π, hreach, hrefines⟩ := refines_of_reachable hrange
    (fun _ label hσ _ ↦ grants_routed hrange hlogs hσ label) h
  have hreply := hrefines.oneReply hreach.sound (not_lossy_routed hrange)
  have hidle (c : CoroId) : (σ.coro c).pc = .idle := by
    have hcount := hreply.waiting c
    by_contra hbusy
    simp [onTheWay, hnet, hbusy] at hcount
  have hanswered (o : OpId) (ho : Invoked σ.hist o) : Responded σ.hist o := by
    rw [hrefines.hist] at ho ⊢
    exact hreach.answers.responded (fun c ↦ hrefines.phase_eq_none (hidle c)) ho
  have hdistinct : S.Reachable DistinctIds σ :=
    h.strengthen fun _ label hτ _ ↦ DistinctIds.of_startsApart hrange hτ label
  -- what the invariant of a key says about its view
  have hkey {k : KvKeyType} (hk : k ∈ S.key_space) : ∃ π' g, Refines S σ π' ∧
      Inv (T := ℚ≥0) False (view (layout S) k π') g ∧ (view (layout S) k π').entry = none := by
    obtain ⟨π', hrefines', -, g, hinv⟩ := exists_ordered hrange hunbatched hdvd hapart hk hdistinct
    have hnet' : π'.net = [] := List.forall₂_nil_left_iff.mp (hnet ▸ hrefines'.net)
    obtain ⟨hwaiting, houtbox⟩ := view_of_nil (M := layout S) (k := k) hnet'
    refine ⟨π', g, hrefines', hinv, Option.eq_none_iff_forall_not_mem.mpr fun e he ↦ ?_⟩
    obtain ⟨-, -, ⟨x, hx, -⟩ | ⟨x, hx, -⟩⟩ := hinv.entry e he
    · simp [hwaiting] at hx
    · simp [houtbox] at hx
  refine ⟨hnet, hidle, hanswered, fun s ↦ ?_, fun k hk ↦ ?_⟩
  · cases hslot : π.slot s with
    | none => exact (hslot ▸ hrefines.slot s : EntryRel S _ _ _ _ none).1
    | some e =>
      obtain ⟨w, log⟩ := e
      obtain ⟨rfl, hw, -⟩ := hreach.sound.slot_owner s w log hslot
      obtain ⟨π', g, hrefines', -, hentry⟩ := hkey hw
      have howner := (hrefines.slot ((layout S).slot w.key)).owner_eq
      rw [hslot, (hrefines'.slot ((layout S).slot w.key)).owner_eq] at howner
      obtain ⟨⟨w', log'⟩, hslot', rfl⟩ := Option.map_eq_some_iff.mp howner
      simp [view, hslot'] at hentry
  · obtain ⟨π', g, hrefines', hinv, hentry⟩ := hkey hk
    have hhist : (view (layout S) k π').hist = σ.history k := by
      rw [State.history, hrefines'.hist]
      rfl
    refine ⟨π'.index k, (hrefines'.index k hk).1, ?_⟩
    have hlast := hinv.last_write hentry fun o ho ↦ ?_
    · rwa [hhist] at hlast
    · rw [hhist] at ho ⊢
      obtain ⟨e, he, heo⟩ := ho
      obtain ⟨hmem, hek⟩ := List.mem_filter.mp he
      obtain ⟨e', he', heo'⟩ := hanswered o ⟨e, hmem, heo⟩
      have hop : e.op = o := by
        cases e <;> simp_all [Event.invoked, Event.op]
      refine ⟨e', List.mem_filter.mpr ⟨he', ?_⟩, heo'⟩
      rw [Event.op_eq_of_responded heo', ← hop]
      exact hek

/-- From every reachable state of the unbatched system, the packets on the links are processed in
finitely many steps, in whatever order, and then the system is at rest. -/
theorem comes_to_rest (hrange : S.flags.InRange) (hunbatched : S.batching = false)
    (hdvd : S.flags.mn_thread.toNat ∣ 65536) (hapart : KeysApart S) (hlogs : LogsRouted S.flags)
    (h : S.Reachable (StartsApart S) σ) : Eventually (PacketStep S) (AtRest S) σ := by
  obtain ⟨π, hreach, hrefines⟩ := refines_of_reachable hrange
    (fun _ label hσ _ ↦ grants_routed hrange hlogs hσ label) h
  have hsound := hreach.sound
  clear hreach
  induction hwork : netWork π.net using Nat.strong_induction_on generalizing σ π with
  | _ n ih =>
    by_cases hnet : σ.net = []
    · exact .done (atRest_of_empty hrange hunbatched hdvd hapart hlogs h hnet)
    · obtain ⟨label, σ', hmoves, hstep⟩ :=
        exists_move hunbatched (net_ne_ixBatch hunbatched h) hnet
      refine .next ⟨σ', label, hmoves, hstep⟩ fun σ₁ ⟨label₁, hmoves₁, hstep₁⟩ ↦ ?_
      have hok : StartsApart S σ label₁ := by
        rintro c k rfl
        exact hmoves₁.elim
      obtain ⟨π₁, haction, hrefines₁⟩ :=
        hrefines.step hrange hsound (grants_routed hrange hlogs h label₁) hstep₁
      rcases haction with ⟨t, rfl, -, -⟩ | ⟨action, hacts, hpstep⟩
      · exact hmoves₁.elim
      · obtain ⟨ℓ, x, rfl⟩ := hacts.of_moves hmoves₁
        exact ih _ (hwork ▸ hpstep.netWork_lt hsound) (h.step hok hstep₁) _ hrefines₁
          (hsound.step hpstep) rfl

theorem oneKey_inRange : oneKey.flags.InRange :=
  ⟨by decide, by decide, by decide, by decide, by decide, by decide, by decide, by decide⟩

theorem logsRouted_oneKey : LogsRouted oneKey.flags :=
  logsRouted_of_le (by decide) (by decide)

/-- One write is complete, the next one waits for its client, its copy is on the way to the index node, and
a read that found its entry waits for the record. -/
theorem comes_to_rest_write_and_read : ∃ σ, oneKey.Reachable (StartsApart oneKey) σ ∧
    σ.net.length = 3 ∧ (σ.coro ⟨2, 0, 0⟩).pc = .get_value ∧ (σ.coro ⟨2, 0, 1⟩).pc = .put_value ∧
    Eventually (PacketStep oneKey) (AtRest oneKey) σ := by
  have hrun : ∃ σ, execAll oneKey isEarlyWrite (State.initial oneKey) writeWriteReadMoves = some σ ∧
      σ.net.length = 3 ∧ (σ.coro ⟨2, 0, 0⟩).pc = .get_value ∧
      (σ.coro ⟨2, 0, 1⟩).pc = .put_value :=
    ⟨_, rfl, by decide +kernel, by decide +kernel, by decide +kernel⟩
  obtain ⟨σ, hexec, hnet, hread, hwrite⟩ := hrun
  have hreach := startsApart_of_earlyWrites oneKey_inRange
    (execAll_reachable earlyWrites_of_check Reachable.init hexec)
  exact ⟨σ, hreach, hnet, hread, hwrite, comes_to_rest oneKey_inRange rfl (by simp [oneKey])
    (by simp [KeysApart, oneKey]) logsRouted_oneKey hreach⟩

/-! ### Waiting with batches -/

/-- The batched system works: a packet is processed, or a batch or a poll that is not empty ends. -/
def Works (σ : State) : Label → Prop
  | .flush t => queue σ.net (.ixBatch t) ≠ [] ∨ 0 < (σ.poll t).polled
  | .keep t => 0 < (σ.poll t).polled
  | label => Moves label

def WorkStep (S : Setup) (σ σ' : State) : Prop :=
  ∃ label, Works σ label ∧ Step S σ label σ'

/-- Nothing is left of the operations but copies of writes, in batches that wait for more requests. -/
structure OnlyCopiesWait (S : Setup) (σ : State) : Prop where
  idle : ∀ c, (σ.coro c).pc = .idle
  answered : ∀ o, Invoked σ.hist o → Responded σ.hist o
  copies : ∀ q ∈ σ.net, q.2.msg.rpc_header.op = .kEnumMultiCastPkt ∧
    ∃ t, q.1 = .ixBatch t ∧ σ.KeepsPolling S t

/-- After a batch is answered, its requests are gone, and its replies are posted. -/
theorem mem_flushStep {t : UInt8} {replies : List RawKvMsg} {sorted : List BatchEntry} {ℓ : Loc}
    {q : Packet} (hq : (ℓ, q) ∈ (σ.flushStep t replies sorted).net) :
    ((ℓ, q) ∈ σ.net ∧ ℓ ≠ .ixBatch t) ∨ ℓ = .ixOut t := by
  rcases List.mem_append.mp hq with hmem | hmem
  · obtain ⟨hmem, hℓ⟩ := List.mem_filter.mp hmem
    exact Or.inl ⟨hmem, of_decide_eq_true hℓ⟩
  · rw [← List.map_uncurry_zip_eq_zipWith] at hmem
    obtain ⟨pair, -, heq⟩ := List.mem_map.mp hmem
    exact Or.inr (Prod.mk.inj heq).1.symm

/-- The batch that is answered is empty afterwards, and the others stay. -/
theorem queue_flushStep {t t' : UInt8} {replies : List RawKvMsg} {sorted : List BatchEntry} :
    queue (σ.flushStep t' replies sorted).net (.ixBatch t) =
      if t = t' then [] else queue σ.net (.ixBatch t) := by
  have hposted (batch : List Packet) (answers : List RawKvMsg) :
      ∀ r ∈ batch.zipWith
        (fun p reply ↦ (Loc.ixOut t', (⟨reply_port p.msg, reply, p.op⟩ : Packet))) answers,
        r.1 ≠ .ixBatch t := by
    intro r hr
    rw [← List.map_uncurry_zip_eq_zipWith] at hr
    obtain ⟨_, -, rfl⟩ := List.mem_map.mp hr
    change Loc.ixOut t' ≠ .ixBatch t
    simp
  unfold State.flushStep
  rw [queue_append, queue_eq_nil_of_forall_ne (hposted _ _), List.append_nil, queue_filter_ne]
  simp only [Loc.ixBatch.injEq]

/-- A step leaves a batch alone, unless a request is collected into it or it is answered. -/
theorem Step.batch_queue (t : UInt8) (hstep : Step S σ label σ') :
    queue σ'.net (.ixBatch t) = queue σ.net (.ixBatch t) ∨
      (∃ q, label = .collect t q ∧
        queue σ'.net (.ixBatch t) = queue σ.net (.ixBatch t) ++ [q]) ∨
      label = .flush t ∧ queue σ'.net (.ixBatch t) = [] := by
  have hnew {net new : List (Loc × Packet)} (hnew : ∀ r ∈ new, r.1 ≠ .ixBatch t) :
      queue (net ++ new) (.ixBatch t) = queue net (.ixBatch t) := by
    rw [queue_append, queue_eq_nil_of_forall_ne hnew, List.append_nil]
  have hone {ℓ : Loc} {p : Packet} (hℓ : ℓ ≠ .ixBatch t) : ∀ r ∈ [(ℓ, p)], r.1 ≠ .ixBatch t :=
    fun r hr ↦ List.mem_singleton.mp hr ▸ hℓ
  have hmove {ℓ : Loc} {p : Packet} {rest new : List (Loc × Packet)} (htake : Take σ.net ℓ p rest)
      (hℓ : ℓ ≠ .ixBatch t) (hother : ∀ r ∈ new, r.1 ≠ .ixBatch t) :
      queue (rest ++ new) (.ixBatch t) = queue σ.net (.ixBatch t) :=
    (hnew hother).trans (htake.queue_of_ne hℓ)
  cases hstep with
  | start | probe => exact Or.inl (hnew (hone (by simp)))
  | switchUp htake =>
    exact Or.inl (hmove htake (by simp) fun _ hr ↦ switchOutputs_ne_ixBatch hr t)
  | switchData htake | switchIndex htake =>
    exact Or.inl (hmove htake.take (by simp) fun _ hr ↦ switchOutputs_ne_ixBatch hr t)
  | data buf htake =>
    unfold State.dataStep
    split
    · exact Or.inl (htake.queue_of_ne (by simp))
    · exact Or.inl (hmove htake (by simp) (hone (by simp)))
  | index buf _ htake =>
    unfold State.indexStep
    split
    · exact Or.inl (htake.take.queue_of_ne (by simp))
    · exact Or.inl (hmove htake.take (by simp) (hone (by simp)))
  | @collect t' p rest _ htake =>
    have hrest : queue rest (.ixBatch t) = queue σ.net (.ixBatch t) :=
      htake.take.queue_of_ne (by simp)
    unfold State.collectStep
    split_ifs
    · exact Or.inl hrest
    · by_cases ht : t' = t
      · subst ht
        refine Or.inr (Or.inl ⟨p, rfl, ?_⟩)
        rw [queue_append, hrest, queue_cons_self, queue_nil]
      · exact Or.inl (hmove htake.take (by simp) (hone fun heq ↦ ht (Loc.ixBatch.inj heq)))
  | keep => exact Or.inl rfl
  | @flush t' =>
    by_cases ht : t = t'
    · exact Or.inr (Or.inr ⟨by rw [ht], by rw [queue_flushStep, if_pos ht]⟩)
    · exact Or.inl (by rw [queue_flushStep, if_neg ht])
  | client buf htake =>
    unfold State.clientStep
    dsimp only
    split
    · exact Or.inl (htake.queue_of_ne (by simp))
    · exact Or.inl (htake.queue_of_ne (by simp))
    · exact Or.inl (hmove htake (by simp) (hone (by simp)))

/-- What a batch got in a step was polled in it. -/
theorem Step.batch_origin {t : UInt8} {q : Packet} (hstep : Step S σ label σ')
    (hq : (.ixBatch t, q) ∈ σ'.net) : (.ixBatch t, q) ∈ σ.net ∨ label = .collect t q := by
  rw [← mem_queue] at hq ⊢
  rcases Step.batch_queue t hstep with hsame | ⟨p, hlabel, hqueue⟩ | ⟨-, hnil⟩
  · exact Or.inl (hsame ▸ hq)
  · rw [hqueue, List.mem_append, List.mem_singleton] at hq
    rcases hq with hq | rfl
    · exact Or.inl hq
    · exact Or.inr hlabel
  · rw [hnil] at hq
    cases hq

/-- The polls of other threads go on as they are. -/
theorem Step.poll_eq {t : UInt8} (hstep : Step S σ label σ') (hcollect : ∀ p, label ≠ .collect t p)
    (hkeep : label ≠ .keep t) (hflush : label ≠ .flush t) : σ'.poll t = σ.poll t := by
  cases hstep with
  | start | probe | switchUp | switchData | switchIndex => rfl
  | data => unfold State.dataStep; split <;> rfl
  | index => unfold State.indexStep; split <;> rfl
  | @collect t' p =>
    have hne : t ≠ t' := fun heq ↦ hcollect p (by rw [heq])
    unfold State.collectStep
    split_ifs
    · rfl
    · exact Function.update_of_ne hne _ _
  | @keep t' => exact Function.update_of_ne (fun heq ↦ hkeep (by rw [heq])) _ _
  | @flush t' => exact Function.update_of_ne (fun heq ↦ hflush (by rw [heq])) _ _
  | client =>
    unfold State.clientStep
    dsimp only
    split <;> rfl

/-- A batch with a request that a client waits for is not kept for another poll. -/
theorem onpath_of_batch {ok : State → Label → Prop} (h : S.Reachable ok σ) {t : UInt8} {p : Packet}
    (hp : (.ixBatch t, p) ∈ σ.net) (honpath : onpath p.msg = true) : (σ.poll t).onpath = true := by
  induction h with
  | init => cases hp
  | @step σ σ' label _ _ hstep ih =>
    by_cases hcollect : ∃ q, label = .collect t q
    · obtain ⟨q, rfl⟩ := hcollect
      cases hstep with
      | collect =>
        have horigin := Step.batch_origin (Step.collect ‹_› ‹_› ‹_› ‹_›) hp
        unfold State.collectStep at hp ⊢
        split_ifs at hp ⊢ with hop
        · rcases horigin with hmem | heq
          · exact ih hmem
          · obtain rfl := (Label.collect.inj heq).2
            simp [onpath] at honpath
            rcases honpath with hcode | hcode <;> simp [hcode, batch_reply_op] at hop
        · simp only [Function.update_self, Bool.or_eq_true]
          rcases horigin with hmem | heq
          · exact Or.inl (ih hmem)
          · obtain rfl := (Label.collect.inj heq).2
            exact Or.inr honpath
    have hmem : (.ixBatch t, p) ∈ σ.net := (Step.batch_origin hstep hp).resolve_right fun heq ↦
      hcollect ⟨p, heq⟩
    by_cases hkeep : label = .keep t
    · subst hkeep
      cases hstep with
      | keep _ hkeeps => exact absurd (ih hmem) (by simp [hkeeps.2.1])
    by_cases hflush : label = .flush t
    · subst hflush
      cases hstep with
      | flush => exact absurd rfl ((mem_flushStep hp).resolve_right (by simp)).2
    · rw [Step.poll_eq hstep (fun q heq ↦ hcollect ⟨q, heq⟩) hkeep hflush]
      exact ih hmem

/-- In every reachable state, fewer than `kMaxSignal` replies are behind the last signalled one, and a
batch has what the polls before this one left of it and the requests of this one. -/
theorem batch_length_le {ok : State → Label → Prop} (h : S.Reachable ok σ) (t : UInt8) :
    (σ.poll t).behind < kMaxSignal ∧
      (queue σ.net (.ixBatch t)).length ≤ S.flags.batch_size.toNat - 1 + (σ.poll t).polled := by
  induction h with
  | init => exact ⟨Nat.zero_lt_succ _, Nat.zero_le _⟩
  | @step σ σ' label _ _ hstep ih =>
    obtain ⟨hbehind, hlength⟩ := ih
    by_cases hcollect : ∃ q, label = .collect t q
    · obtain ⟨q, rfl⟩ := hcollect
      cases hstep with
      | @collect _ _ rest _ htake =>
        have hrest : queue rest (.ixBatch t) = queue σ.net (.ixBatch t) :=
          htake.take.queue_of_ne (by simp)
        unfold State.collectStep
        split_ifs
        · exact ⟨hbehind, hrest ▸ hlength⟩
        · simp only [Function.update_self, queue_append, hrest, queue_cons_self, queue_nil,
            List.length_append, List.length_singleton]
          exact ⟨hbehind, by omega⟩
    by_cases hkeep : label = .keep t
    · subst hkeep
      cases hstep with
      | keep _ hkeeps =>
        simp only [State.keepStep, Function.update_self]
        exact ⟨hbehind, by have hlt := hkeeps.1; omega⟩
    by_cases hflush : label = .flush t
    · subst hflush
      cases hstep with
      | flush =>
        rw [queue_flushStep, if_pos rfl]
        simp only [State.flushStep, Function.update_self]
        exact ⟨Nat.mod_lt _ (by decide), Nat.zero_le _⟩
    · have hqueue : queue σ'.net (.ixBatch t) = queue σ.net (.ixBatch t) :=
        (Step.batch_queue t hstep).resolve_right fun hother ↦ hother.elim
          (fun hq ↦ hcollect (hq.imp fun _ h ↦ h.1)) fun h ↦ hflush h.1
      rw [Step.poll_eq hstep (fun q heq ↦ hcollect ⟨q, heq⟩) hkeep hflush, hqueue]
      exact ⟨hbehind, hlength⟩

/-- With `FLAGS_batch_size` up to 82, a batch of a full poll and the replies behind the last signalled one
fit the ring, and the thread always gets a buffer. -/
theorem hasBuffer_of_le {ok : State → Label → Prop} (hsize : S.flags.batch_size.toNat ≤ 82)
    (h : S.Reachable ok σ) {t : UInt8} (hpolled : (σ.poll t).polled < kMaxWcCnt) :
    σ.HasBuffer t := by
  obtain ⟨hbehind, hlength⟩ := batch_length_le h t
  unfold State.HasBuffer kStaticSendBuf kMaxSignal kMaxWcCnt at *
  omega

/-- Requests that index threads handle can be prepared. -/
theorem exists_prepared {requests : List RawKvMsg}
    (h : ∀ req ∈ requests, batch_reply_op req.rpc_header.op ≠ none) :
    ∃ replies, Prepared requests replies := by
  induction requests with
  | nil => exact ⟨[], List.Forall₂.nil⟩
  | cons req requests ih =>
    obtain ⟨replies, hreplies⟩ := ih fun r hr ↦ h r (List.mem_cons_of_mem _ hr)
    obtain ⟨op, hop⟩ := Option.ne_none_iff_exists'.mp (h req List.mem_cons_self)
    exact ⟨_, List.Forall₂.cons ⟨.cleared, by rw [batch_reply, hop, Option.map_some]⟩ hreplies⟩

/-- A poll that does not go on ends with its batch. -/
theorem exists_flush (hbatching : S.batching = true) (hrefines : Refines S σ π)
    (hsound : π.Sound (layout S) D) {t : UInt8} (hkeeps : ¬ σ.KeepsPolling S t) :
    ∃ σ', Step S σ (.flush t) σ' := by
  have hrequest : ∀ req ∈ (queue σ.net (.ixBatch t)).map Packet.msg,
      batch_reply_op req.rpc_header.op ≠ none := by
    intro req hreq
    obtain ⟨p, hp, rfl⟩ := List.mem_map.mp hreq
    obtain ⟨x, hx, henc⟩ := hrefines.exists_item (mem_queue.mp hp)
    rw [henc.code]
    rcases Placed.atIndex (Or.inr (hsound.placed _ _ hx)) with hkind | hkind | hkind <;>
      simp [hkind, Kind.code, batch_reply_op]
  obtain ⟨replies, hprepared⟩ := exists_prepared hrequest
  obtain ⟨sorted, hsort⟩ := exists_stdSort (batchEntries replies)
  exact ⟨_, Step.flush hbatching hkeeps hprepared hsort⟩

/-- Where no work is left, every poll has ended. -/
theorem polled_eq_zero_of_no_work (hbatching : S.batching = true) (hrefines : Refines S σ π)
    (hsound : π.Sound (layout S) D) (hnone : ∀ σ', ¬ WorkStep S σ σ') (t : UInt8) :
    (σ.poll t).polled = 0 := by
  by_contra hpos
  by_cases hkeeps : σ.KeepsPolling S t
  · exact hnone _ ⟨.keep t, Nat.pos_of_ne_zero hpos, Step.keep hbatching hkeeps⟩
  · obtain ⟨σ', hstep⟩ := exists_flush hbatching hrefines hsound hkeeps
    exact hnone σ' ⟨.flush t, Or.inr (Nat.pos_of_ne_zero hpos), hstep⟩

/-- Where no work is left, a packet is in a batch that waits for more requests. -/
theorem exists_keepsPolling_of_no_work (hbatching : S.batching = true) (hrefines : Refines S σ π)
    (hsound : π.Sound (layout S) D) (hsize : S.flags.batch_size.toNat ≤ 82)
    {ok : State → Label → Prop} (h : S.Reachable ok σ) (hnone : ∀ σ', ¬ WorkStep S σ σ')
    {q : Loc × Packet} (hq : q ∈ σ.net) : ∃ t, q.1 = .ixBatch t ∧ σ.KeepsPolling S t := by
  have hmove {label : Label} {σ' : State} (hstep : Step S σ label σ') : ¬ Works σ label :=
    fun hworks ↦ hnone σ' ⟨label, hworks, hstep⟩
  obtain ⟨ℓ, p⟩ := q
  obtain ⟨y, rest, hfirst⟩ := exists_takeFirst hq
  cases ℓ with
  | up => exact (hmove (Step.switchUp hfirst.take) trivial).elim
  | dnIn => exact (hmove (Step.data .cleared hfirst.take) trivial).elim
  | dnOut => exact (hmove (Step.switchData hfirst) trivial).elim
  | ixIn t =>
    have hpolled : (σ.poll t).polled < kMaxWcCnt := by
      simp [polled_eq_zero_of_no_work hbatching hrefines hsound hnone t, kMaxWcCnt]
    have hbuffer := hasBuffer_of_le hsize h hpolled
    exact (hmove (Step.collect hbatching hfirst hpolled hbuffer) trivial).elim
  | ixOut => exact (hmove (Step.switchIndex hfirst) trivial).elim
  | down => exact (hmove (Step.client .cleared hfirst.take) trivial).elim
  | ixBatch t =>
    refine ⟨t, rfl, ?_⟩
    by_contra hflushes
    obtain ⟨σ', hstep⟩ := exists_flush hbatching hrefines hsound hflushes
    exact hmove hstep (Or.inl (List.ne_nil_of_mem (mem_queue.mpr hq)))

/-- A batch that waits for more requests has copies only: a request that a client waits for ends the
poll. -/
theorem code_of_keepsPolling (hrefines : Refines S σ π) (hsound : π.Sound (layout S) D)
    {ok : State → Label → Prop} (h : S.Reachable ok σ) {t : UInt8} (hkeeps : σ.KeepsPolling S t)
    {p : Packet} (hp : (.ixBatch t, p) ∈ σ.net) : p.msg.rpc_header.op = .kEnumMultiCastPkt := by
  have hoff : onpath p.msg = false :=
    Bool.eq_false_iff.mpr fun honpath ↦ by
      simpa [hkeeps.2.1] using onpath_of_batch h hp honpath
  obtain ⟨x, hx, henc⟩ := hrefines.exists_item hp
  rw [onpath, henc.code] at hoff
  rw [henc.code]
  rcases Placed.atIndex (Or.inr (hsound.placed _ _ hx)) with hkind | hkind | hkind <;>
    simp_all [Kind.code]

/-- The batched system works until only copies wait. -/
theorem onlyCopiesWait_of_no_work (hbatching : S.batching = true) (hrefines : Refines S σ π)
    (hsound : π.Sound (layout S) D) (hlossless : ¬ Lossy (layout S) D) (hanswers : π.Answers)
    (hsize : S.flags.batch_size.toNat ≤ 82) {ok : State → Label → Prop} (h : S.Reachable ok σ)
    (hnone : ∀ σ', ¬ WorkStep S σ σ') : OnlyCopiesWait S σ := by
  have hcopies : ∀ q ∈ σ.net, q.2.msg.rpc_header.op = .kEnumMultiCastPkt ∧
      ∃ t, q.1 = .ixBatch t ∧ σ.KeepsPolling S t := by
    rintro ⟨ℓ, p⟩ hp
    obtain ⟨t, hℓ, hkeeps⟩ :=
      exists_keepsPolling_of_no_work hbatching hrefines hsound hsize h hnone hp
    dsimp only at hℓ
    subst hℓ
    exact ⟨code_of_keepsPolling hrefines hsound h hkeeps hp, t, rfl, hkeeps⟩
  have hreply := hrefines.oneReply hsound hlossless
  have hidle (c : CoroId) : (σ.coro c).pc = .idle := by
    have hcount := hreply.waiting c
    have hnil : onTheWay σ c = [] := List.filter_eq_nil_iff.mpr fun q hq ↦ by
      obtain ⟨hop, t, hℓ, -⟩ := hcopies q hq
      simp [IsOnTheWay, hop, hℓ, isIndexLink]
    rw [hnil] at hcount
    by_contra hbusy
    simp [hbusy] at hcount
  refine ⟨hidle, fun o ho ↦ ?_, hcopies⟩
  rw [hrefines.hist] at ho ⊢
  exact hanswers.responded (fun c ↦ hrefines.phase_eq_none (hidle c)) ho

/-! ### The work of a batch -/

/-- Answering a batch leaves less work, if the batch has a request, and other links alone. -/
theorem PStep.netWork_flush (hsound : π.Sound M D) (hstep : PStep M D π .flush π') :
    ∃ t, netWork π'.net + (queue π.net (.ixBatch t)).length = netWork π.net ∧
      ∀ ℓ x, (ℓ, x) ∈ π.net → ℓ ≠ .ixBatch t → (ℓ, x) ∈ π'.net := by
  cases hstep with
  | @flush t index =>
  refine ⟨t, ?_, fun ℓ x hx hℓ ↦ List.mem_append_left _ (List.mem_filter.mpr ⟨hx, by simpa using hℓ⟩)⟩
  have hreply {x : Item} (hx : x.kind.AtIndex) :
      work (.ixOut t) (x.reply index).kind + 1 = work (.ixBatch t) x.kind := by
    rcases hx with hkind | hkind | hkind <;> simp [Item.reply, hkind, work]
  have hplaced := hsound.placed
  dsimp only
  generalize π.net = net at hplaced
  rw [netWork_append]
  induction net with
  | nil => rfl
  | cons p net ih =>
    obtain ⟨ℓ, x⟩ := p
    have hih := ih fun ℓ' y hy ↦ hplaced ℓ' y (List.mem_cons_of_mem _ hy)
    by_cases hℓ : ℓ = .ixBatch t
    · subst hℓ
      have hx := hreply (Placed.atIndex (Or.inr (hplaced _ x List.mem_cons_self)))
      simp only [queue_cons_self, List.map_cons, List.length_cons, netWork, List.sum_cons,
        List.filter_cons, ne_eq, not_true_eq_false, decide_false, Bool.false_eq_true,
        if_false] at hih ⊢
      omega
    · simp only [queue_cons_of_ne hℓ, netWork, List.map_cons, List.sum_cons, List.filter_cons,
        ne_eq, hℓ, not_false_eq_true, decide_true, if_true] at hih ⊢
      omega

/-- The number of requests of the polls that are going on. -/
def polledCount (σ : State) : ℕ :=
  ∑ t : UInt8, (σ.poll t).polled

theorem polledCount_lt {t : UInt8} (hpos : 0 < (σ.poll t).polled) {onpath : Bool} {behind : ℕ}
    (hpoll : σ'.poll = Function.update σ.poll t ⟨onpath, 0, behind⟩) :
    polledCount σ' < polledCount σ := by
  refine Finset.sum_lt_sum (fun i _ ↦ ?_) ⟨t, Finset.mem_univ t, ?_⟩
  · rw [hpoll]
    by_cases hi : i = t
    · rw [hi, Function.update_self]
      exact Nat.zero_le _
    · rw [Function.update_of_ne hi]
  · rw [hpoll, Function.update_self]
    exact hpos

/-- The end of a batch or poll that is not empty leaves less work, or fewer polled requests. -/
theorem work_flush {t : UInt8} (hrefines : Refines S σ π) (hsound : π.Sound M D)
    (hrefines' : Refines S σ' π') (hworks : Works σ (.flush t)) (hstep : Step S σ (.flush t) σ')
    (hpstep : PStep M D π .flush π') : netWork π'.net < netWork π.net ∨
      netWork π'.net = netWork π.net ∧ polledCount σ' < polledCount σ := by
  obtain ⟨t', hcount, hother⟩ := hpstep.netWork_flush hsound
  by_cases hempty : queue π.net (.ixBatch t') = []
  · rw [hempty, List.length_nil, Nat.add_zero] at hcount
    cases hstep with
    | flush =>
      have hpos : 0 < (σ.poll t).polled := by
        refine hworks.resolve_left fun hne ↦ ?_
        -- a request of the batch is still there, for the protocol answered another batch
        obtain ⟨p, hp⟩ := List.exists_mem_of_ne_nil _ hne
        obtain ⟨x, hx, -⟩ := hrefines.exists_item (mem_queue.mp hp)
        have ht : Loc.ixBatch t ≠ .ixBatch t' := by
          rintro heq
          rw [heq] at hx
          exact List.not_mem_nil (hempty ▸ mem_queue.mpr hx)
        obtain ⟨⟨ℓ, q⟩, hq, hℓ, -⟩ := exists_left_of_forall₂ hrefines'.net (hother _ x hx ht)
        obtain rfl : ℓ = .ixBatch t := hℓ
        exact absurd rfl ((mem_flushStep hq).resolve_right (by simp)).2
      exact Or.inr ⟨hcount, polledCount_lt hpos rfl⟩
  · have hlength := List.length_pos_iff.mpr hempty
    exact Or.inl (by omega)

/-- From every reachable state of the batched system, if its batches fit the send rings, the work that
there is ends after finitely many steps, in whatever order, and then only copies of complete writes wait
in batches. -/
theorem comes_to_wait (hrange : S.flags.InRange) (hbatching : S.batching = true)
    (hsize : S.flags.batch_size.toNat ≤ 82) (hlogs : LogsRouted S.flags)
    (h : S.Reachable (fun _ _ ↦ True) σ) : Eventually (WorkStep S) (OnlyCopiesWait S) σ := by
  obtain ⟨π, hreach, hrefines⟩ := refines_of_reachable hrange
    (fun _ label hσ _ ↦ grants_routed hrange hlogs hσ label) h
  have hsound := hreach.sound
  have hanswers := hreach.answers
  clear hreach
  induction hwork : netWork π.net using Nat.strong_induction_on generalizing σ π with
  | _ n ih =>
    -- the polls end, as long as nothing else happens
    induction hpolled : polledCount σ using Nat.strong_induction_on generalizing σ π with
    | _ m ihpoll =>
      by_cases hsome : ∃ σ', WorkStep S σ σ'
      · refine .next hsome fun σ₁ ⟨label, hworks, hstep⟩ ↦ ?_
        obtain ⟨π₁, haction, hrefines₁⟩ :=
          hrefines.step hrange hsound (grants_routed hrange hlogs h label) hstep
        have hnext := h.step trivial hstep
        rcases haction with ⟨t, rfl, rfl, rfl⟩ | ⟨action, hacts, hpstep⟩
        · exact ihpoll _ (hpolled ▸ polledCount_lt hworks rfl) hnext _ hrefines₁ hsound hanswers
            hwork rfl
        · have hsound₁ := hsound.step hpstep
          have hanswers₁ := hanswers.step hsound hpstep
          have hless (hlt : netWork π₁.net < netWork π.net) :
              Eventually (WorkStep S) (OnlyCopiesWait S) σ₁ :=
            ih _ (hwork ▸ hlt) hnext _ hrefines₁ hsound₁ hanswers₁ rfl
          cases action with
          | start => cases label <;> first | exact hworks.elim | exact hacts.elim
          | move ℓ x => exact hless (hpstep.netWork_lt hsound)
          | flush =>
            cases label with
            | flush t =>
              rcases work_flush hrefines hsound hrefines₁ hworks hstep hpstep with
                hlt | ⟨heq, hlt⟩
              · exact hless hlt
              · exact ihpoll _ (hpolled ▸ hlt) hnext _ hrefines₁ hsound₁ hanswers₁
                  (heq.trans hwork) rfl
            | _ => cases hacts
      · have hnone : ∀ σ', ¬ WorkStep S σ σ' := fun σ' hstep ↦ hsome ⟨σ', hstep⟩
        exact .done (onlyCopiesWait_of_no_work hbatching hrefines hsound (not_lossy_routed hrange) hanswers
          hsize h hnone)

/-- One key, at a batching index server. -/
def oneBatchedKey : Setup where
  flags := { oneKey.flags with batch := true }
  program := .overwrite
  batching := true
  key_space := [65536]
  ctx₀ := oneKey.ctx₀

theorem oneBatchedKey_inRange : oneBatchedKey.flags.InRange :=
  ⟨by decide, by decide, by decide, by decide, by decide, by decide, by decide, by decide⟩

/-- A write whose copy stays in a batch, a write whose copy joins it, and a read that finds the entry. -/
def twoCopiesMoves : List Move :=
  [.start ⟨2, 0, 0⟩ .kEnumW 65536, .deliver 0, .deliver 0, .deliver 0, .deliver 1, .deliver 0, .keep 0,
    .start ⟨2, 0, 1⟩ .kEnumW 65536, .deliver 1, .deliver 1, .deliver 1,
    .start ⟨2, 0, 0⟩ .kEnumR 65536, .deliver 3, .deliver 1]

/-- Two copies are in a batch, and the replies to a write and to a read are on their way. -/
theorem comes_to_wait_two_copies : ∃ σ, oneBatchedKey.Reachable (fun _ _ ↦ True) σ ∧
    (queue σ.net (.ixBatch 0)).length = 2 ∧ (σ.coro ⟨2, 0, 0⟩).pc = .get_index ∧
    (σ.coro ⟨2, 0, 1⟩).pc = .put_value ∧
    Eventually (WorkStep oneBatchedKey) (OnlyCopiesWait oneBatchedKey) σ := by
  have hsome : ((execAll oneBatchedKey (fun _ _ ↦ true) (State.initial oneBatchedKey)
      twoCopiesMoves).map fun σ ↦ decide ((queue σ.net (.ixBatch 0)).length = 2 ∧
        (σ.coro ⟨2, 0, 0⟩).pc = .get_index ∧ (σ.coro ⟨2, 0, 1⟩).pc = .put_value)) = some true := by
    decide +kernel
  obtain ⟨σ, hexec, hdecide⟩ := Option.map_eq_some_iff.mp hsome
  obtain ⟨hbatch, hread, hwrite⟩ := of_decide_eq_true hdecide
  have hreach : oneBatchedKey.Reachable (fun _ _ ↦ True) σ :=
    execAll_reachable (fun _ _ _ ↦ trivial) Reachable.init hexec
  exact ⟨σ, hreach, hbatch, hread, hwrite, comes_to_wait oneBatchedKey_inRange rfl (by decide)
    (logsRouted_of_le (by decide) (by decide)) hreach⟩

end SwitchDelta.Protocol
