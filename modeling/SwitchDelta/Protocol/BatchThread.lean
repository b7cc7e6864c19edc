import SwitchDelta.Protocol.Rest

/-!
# The index thread and its send ring

In the system, an index thread with batches has the requests of its batch on a link of their own and no
send buffers. `SendRing` has the loop of the thread with its ring. `LoopStep` lets the loop take the
place of one index thread: it takes its requests from the link of the thread, and the replies that it
posts and the index that it writes are those of the system.

`loop_refines_thread` says that a run of this is a run of the system, as long as no batch takes more
requests than the ring has slots. So what is proved of all runs of the system holds of the loop over its
ring. `Serves.hasBuffer_iff` shows that the system lets the thread wait when the ring makes it wait.
-/

set_option autoImplicit false
set_option relaxedAutoImplicit false

namespace SwitchDelta.Protocol

open Foundation Kv Switch

variable {S : Setup} {σ σ' : State} {t : UInt8} {st st' : BatchState}

/-- The loop of index thread `t` is in the state of that thread. -/
structure Serves (σ : State) (t : UInt8) (st : BatchState) : Prop where
  aligned : st.Aligned
  requests : st.requests = (queue σ.net (.ixBatch t)).map Packet.msg
  index : st.index = σ.index
  onpath : st.onpath = (σ.poll t).onpath
  polled : st.polled = (σ.poll t).polled
  behind : st.posted.length % kMaxSignal = (σ.poll t).behind

/-- The replies that the loop posts are put on the link of its thread, for the requests that it had
taken, and the index is what it has written. -/
def postStep (σ : State) (t : UInt8) (st st' : BatchState) : State where
  __ := σ
  net := σ.net.filter (fun p ↦ p.1 ≠ .ixBatch t) ++
    (queue σ.net (.ixBatch t)).zipWith
      (fun p reply ↦ (Loc.ixOut t, ⟨reply_port p.msg, reply, p.op⟩))
      ((st'.posted.drop st.posted.length).map Posted.reply)
  index := st'.index
  poll := Function.update σ.poll t ⟨st'.onpath, st'.polled, st'.posted.length % kMaxSignal⟩

/-- The steps of the system with the loop as its index thread `t`. -/
inductive LoopStep (S : Setup) (t : UInt8) : State × BatchState → Label → State × BatchState → Prop
  | collect {σ : State} {st st' : BatchState} {p : Packet} {rest : List (Loc × Packet)} :
      TakeFirst σ.net (.ixIn t) p rest → BatchStep S.flags st (.collect p.msg) st' →
      LoopStep S t (σ, st) (.collect t p) (σ.collectStep t p rest, st')
  | keep {σ : State} {st st' : BatchState} : BatchStep S.flags st .keep st' →
      LoopStep S t (σ, st) (.keep t) (σ.keepStep t, st')
  | flush {σ : State} {st st' : BatchState} : BatchStep S.flags st .flush st' →
      LoopStep S t (σ, st) (.flush t) (postStep σ t st st', st')
  | other {σ σ' : State} {st : BatchState} {label : Label} : Step S σ label σ' →
      (∀ p, label ≠ .collect t p) → label ≠ .keep t → label ≠ .flush t →
      LoopStep S t (σ, st) label (σ', { st with index := σ'.index })

/-! ### The steps of the loop -/

theorem Serves.initial (S : Setup) (t : UInt8) {buf : List RawKvMsg}
    (hbuf : buf.length = kStaticSendBuf) :
    Serves (.initial S) t (.init buf (State.initial S).index) :=
  ⟨.init hbuf _, rfl, rfl, rfl, rfl, rfl⟩

theorem Serves.length (h : Serves σ t st) :
    (queue σ.net (.ixBatch t)).length = st.requests.length := by
  rw [h.requests, List.length_map]

/-- The thread of the system has a buffer exactly when the ring gives one at once. -/
theorem Serves.hasBuffer_iff (h : Serves σ t st) (hroom : st.requests.length < kStaticSendBuf) :
    σ.HasBuffer t ↔ st.ring.get_send_msg_sg.isSome := by
  rw [SendRing.get_send_msg_sg_isSome_iff h.aligned.ring, h.aligned.behind, h.aligned.pending,
    State.HasBuffer, ← h.behind, h.length]
  omega

theorem Serves.keepsPolling_iff (h : Serves σ t st) :
    σ.KeepsPolling S t ↔ st.Keeps S.flags := by
  rw [State.KeepsPolling, BatchState.Keeps, h.length, ← h.aligned.length, h.onpath]

/-- A request that the loop takes into the array. -/
theorem Serves.collect (h : Serves σ t st) (hbatching : S.batching = true)
    (hroom : st.requests.length < kStaticSendBuf) (hpolled : st.polled < kMaxWcCnt) {p : Packet}
    {rest : List (Loc × Packet)} (htake : TakeFirst σ.net (.ixIn t) p rest)
    (hcollect : st.collect p.msg = some st') :
    Step S σ (.collect t p) (σ.collectStep t p rest) ∧ Serves (σ.collectStep t p rest) t st' := by
  have hstep : Step S σ (.collect t p) (σ.collectStep t p rest) := by
    obtain ⟨early, ring, -, -, hget, -⟩ := BatchState.collect_eq_some hcollect
    exact Step.collect hbatching htake (h.polled ▸ hpolled)
      ((h.hasBuffer_iff hroom).mpr (Option.isSome_iff_exists.mpr ⟨_, hget⟩))
  obtain ⟨haligned, hposted, -⟩ := h.aligned.collect (fun hfull ↦ by omega) hcollect
  obtain ⟨_, _, buf, reply, -, hreply, hst⟩ := BatchState.collect_eq_some hcollect
  have hop : batch_reply_op p.msg.rpc_header.op ≠ none := fun hnone ↦ by
    rw [batch_reply, hnone] at hreply
    cases hreply
  have hbatch : queue rest (.ixBatch t) = queue σ.net (.ixBatch t) :=
    htake.take.queue_of_ne (by simp)
  have hbehind : st'.posted.length % kMaxSignal = (σ.poll t).behind := by rw [hposted, h.behind]
  refine ⟨hstep, ?_⟩
  unfold State.collectStep
  rw [if_neg hop]
  refine ⟨haligned, ?_, ?_, ?_, ?_, ?_⟩
  · rw [hst, queue_append, hbatch, queue_cons_self, queue_nil, List.map_append, ← h.requests]
    rfl
  · rw [hst]
    exact h.index
  · simp only [hst, Function.update_self, h.onpath]
  · simp only [hst, Function.update_self, h.polled]
  · simp only [Function.update_self]
    exact hbehind

/-- A poll after which the loop goes on. -/
theorem Serves.keep (h : Serves σ t st) (hbatching : S.batching = true) (hkeeps : st.Keeps S.flags) :
    Step S σ (.keep t) (σ.keepStep t) ∧
      Serves (σ.keepStep t) t { st with onpath := false, polled := 0 } := by
  have haligned := h.aligned
  refine ⟨Step.keep hbatching (h.keepsPolling_iff.mpr hkeeps), ⟨haligned.ring, haligned.behind,
    haligned.pending, haligned.length, haligned.replies⟩, h.requests, h.index, ?_, ?_, ?_⟩
  · simp [State.keepStep]
  · simp [State.keepStep]
  · simpa [State.keepStep] using h.behind

/-- What the loop posts for its batch is what the thread of the system puts on its link. -/
theorem Serves.postStep_eq (h : Serves σ t st) {sorted : List BatchEntry}
    (hsort : StdSort st.batch sorted) : postStep σ t st (st.flush sorted) =
      σ.flushStep t st.ring.prepared (sorted.map st.ring.inPlace) := by
  have hindex := h.aligned.flush_index hsort
  have hposted := h.aligned.flush_posted hsort
  have hlength : (Kv.apply_batch st.index st.ring.prepared
      (sorted.map st.ring.inPlace)).replies.length = (queue σ.net (.ixBatch t)).length := by
    rw [apply_batch_replies st.index (h.aligned.sort_inPlace hsort), List.length_map,
      h.aligned.ring.prepared_length, h.aligned.pending, h.length]
  rw [postStep, State.flushStep, hindex, hposted, List.drop_left, List.map_map,
    List.length_append, List.length_map, hlength, ← Nat.mod_add_mod, h.behind, h.index]
  congr
  exact List.map_id _

/-- A batch that the loop applies and answers. -/
theorem Serves.flush (h : Serves σ t st) (hbatching : S.batching = true)
    {sorted : List BatchEntry} (hkeeps : ¬ st.Keeps S.flags) (hsort : StdSort st.batch sorted) :
    Step S σ (.flush t) (postStep σ t st (st.flush sorted)) ∧
      Serves (postStep σ t st (st.flush sorted)) t (st.flush sorted) := by
  have hprepared : Prepared ((queue σ.net (.ixBatch t)).map Packet.msg) st.ring.prepared :=
    h.requests ▸ h.aligned.prepared
  have hstep : Step S σ (.flush t) (postStep σ t st (st.flush sorted)) := by
    rw [h.postStep_eq hsort]
    exact Step.flush hbatching (mt h.keepsPolling_iff.mp hkeeps) hprepared
      (h.aligned.sort_inPlace hsort)
  refine ⟨hstep, h.aligned.flush hsort, ?_, rfl, ?_, ?_, ?_⟩
  · rw [h.postStep_eq hsort, queue_flushStep, if_pos rfl]
    rfl
  · simp [postStep]
  · simp [postStep]
  · simp [postStep]

/-- The other steps of the system leave the thread alone, up to the index, which the other index threads
write too. -/
theorem Serves.other (h : Serves σ t st) {label : Label} (hstep : Step S σ label σ')
    (hcollect : ∀ p, label ≠ .collect t p) (hkeep : label ≠ .keep t) (hflush : label ≠ .flush t) :
    Serves σ' t { st with index := σ'.index } := by
  have haligned := h.aligned
  have hpoll := Step.poll_eq hstep hcollect hkeep hflush
  have hqueue : queue σ'.net (.ixBatch t) = queue σ.net (.ixBatch t) :=
    (Step.batch_queue t hstep).resolve_right fun hother ↦ hother.elim
      (fun hq ↦ hq.elim fun q hlabel ↦ hcollect q hlabel.1) fun hlabel ↦ hflush hlabel.1
  exact ⟨⟨haligned.ring, haligned.behind, haligned.pending, haligned.length, haligned.replies⟩,
    hqueue ▸ h.requests, rfl, hpoll ▸ h.onpath, hpoll ▸ h.polled, hpoll ▸ h.behind⟩

/-! ### Runs -/

/-- Whatever the loop does, the thread of the system can do. -/
theorem Serves.step (h : Serves σ t st) (hbatching : S.batching = true)
    (hroom : st.polled < kMaxWcCnt → st.requests.length < kStaticSendBuf) {label : Label}
    (hstep : LoopStep S t (σ, st) label (σ', st')) : Step S σ label σ' ∧ Serves σ' t st' := by
  cases hstep with
  | collect htake hcollect =>
    cases hcollect with
    | collect hpolled hcollect => exact h.collect hbatching (hroom hpolled) hpolled htake hcollect
  | keep hkeep =>
    cases hkeep with
    | keep hkeeps => exact h.keep hbatching hkeeps
  | flush hflush =>
    cases hflush with
    | flush hkeeps hsort => exact h.flush hbatching hkeeps hsort
  | other hstep hcollect hkeep hflush => exact ⟨hstep, h.other hstep hcollect hkeep hflush⟩

theorem LoopStep.bounded {label : Label} (hstep : LoopStep S t (σ, st) label (σ', st'))
    (h : st.Bounded S.flags) : st'.Bounded S.flags := by
  cases hstep with
  | collect _ hstep => exact h.step hstep
  | keep hstep => exact h.step hstep
  | flush hstep => exact h.step hstep
  | other => exact h

/-- A run of the system with the loop as one of its index threads is a run of the system, in which the
thread is in the state of the loop. -/
theorem loop_refines_thread (hbatching : S.batching = true)
    (hsize : S.flags.batch_size.toNat + kMaxWcCnt ≤ kStaticSendBuf + 1) {buf : List RawKvMsg}
    (hbuf : buf.length = kStaticSendBuf) {ok : State → Label → Prop} {x : State × BatchState}
    (hrun : Reachable (State.initial S, .init buf (State.initial S).index) (LoopStep S t)
      (fun x label ↦ ok x.1 label) x) :
    Reachable (.initial S) (Step S) ok x.1 ∧ Serves x.1 t x.2 := by
  have hinv := hrun.invariant (fun x ↦ Reachable (.initial S) (Step S) ok x.1 ∧ Serves x.1 t x.2 ∧
    BatchState.Bounded S.flags x.2) ⟨.init, .initial S t hbuf, rfl, Nat.zero_le _⟩
    fun x label x' _ hx hok hstep ↦ ?_
  · exact ⟨hinv.1, hinv.2.1⟩
  · obtain ⟨hreach, hserves, hbounded⟩ := hx
    have hnext := hserves.step hbatching (hbounded.requests_length_lt hsize) hstep
    exact ⟨hreach.step hok hnext.1, hnext.2, hstep.bounded hbounded⟩

end SwitchDelta.Protocol
