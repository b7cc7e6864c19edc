import SwitchDelta.Kv.SendRing

/-!
# Passes of the batching index server

What `server_batch_CPC` makes of the requests it polls, with the ring of send buffers. A batch that
fits the ring leaves the newest update of each key in the index and answers its reads with the result.
Over a run of such batches, the last batch with an update of a key decides (`index_after_all_arrivals`).

A longer batch does not fit. Either the replies behind the last signalled send leave no buffer, and the
thread waits for a completion that never comes. Or nothing is behind it, the ring posts the replies of
the batch before they are processed, and the replies to the later requests take their buffers: what the
first requests asked for is not in any buffer when the batch is applied. `server_batch_pass` says that
this is the exact limit, and `overfull_batch_loses_update` has a batch of 129 fast writes that a thread
with `FLAGS_batch_size` 128 collects in nine polls and whose first write is never applied.
-/

set_option autoImplicit false
set_option relaxedAutoImplicit false

namespace SwitchDelta.Kv

/-! ### Runs of batches -/

section BatchRun

variable {f : Flags} {start st : BatchState} {arrivals : List RawKvMsg}
  {batches : List (List RawKvMsg)}

/-- No request is lost or applied twice: the applied batches and the array together are the
arrivals. -/
theorem BatchRun.flatten_eq (h : BatchRun f start arrivals batches st) (hstart : start.requests = []) :
    arrivals = batches.flatten ++ st.requests := by
  induction h with
  | nil => simp [hstart]
  | collect _ hstep ih =>
    cases hstep with
    | collect _ hcollect =>
      obtain ⟨-, -, -, -, -, -, rfl⟩ := BatchState.collect_eq_some hcollect
      simp [ih]
  | keep _ hstep ih =>
    cases hstep with
    | keep => exact ih
  | flush _ hstep ih =>
    cases hstep with
    | flush => simp [ih, BatchState.flush]

theorem BatchRun.length_eq (h : BatchRun f start arrivals batches st)
    (hstart : start.batch.length = start.requests.length) :
    st.batch.length = st.requests.length := by
  induction h with
  | nil => exact hstart
  | collect _ hstep ih =>
    cases hstep with
    | collect _ hcollect =>
      obtain ⟨-, -, -, -, -, -, rfl⟩ := BatchState.collect_eq_some hcollect
      simp [ih]
  | keep _ hstep ih =>
    cases hstep with
    | keep => exact ih
  | flush _ hstep =>
    cases hstep with
    | flush => rfl

/-- As long as no batch is longer than the ring, the ring holds the replies to the batch. -/
theorem BatchRun.aligned (h : BatchRun f start arrivals batches st) (hstart : start.Aligned)
    (hbatches : ∀ batch ∈ batches, batch.length ≤ kStaticSendBuf)
    (hlength : st.requests.length ≤ kStaticSendBuf) : st.Aligned := by
  induction h with
  | nil => exact hstart
  | collect _ hstep ih =>
    cases hstep with
    | collect _ hcollect =>
      have hcollected := hcollect
      obtain ⟨_, _, _, _, -, -, rfl⟩ := BatchState.collect_eq_some hcollected
      rw [List.length_append, List.length_singleton] at hlength
      exact ((ih hbatches (by omega)).collect (fun hfull ↦ by omega) hcollect).1
  | keep _ hstep ih =>
    cases hstep with
    | keep =>
      have haligned := ih hbatches hlength
      exact ⟨haligned.ring, haligned.behind, haligned.pending, haligned.length, haligned.replies⟩
  | flush _ hstep ih =>
    cases hstep with
    | flush _ hsort =>
      exact (ih (fun batch hbatch ↦ hbatches batch (List.mem_append_left _ hbatch))
        (hbatches _ (by simp))).flush hsort

/-- The newest update in the last batch with an update of the key. -/
theorem BatchRun.index_eq {k : KvKeyType} (h : BatchRun f start arrivals batches st)
    (hstart : start.Aligned) (hempty : start.requests = []) (hk : k ≠ 0)
    (hbatches : ∀ batch ∈ batches, batch.length ≤ kStaticSendBuf)
    (hstamped : ∀ req ∈ arrivals, Stamped req) :
    ((∀ batch ∈ batches, ∀ req ∈ batch, req.IsIndexWrite → req.long_key ≠ k) ∧
        st.index k = start.index k) ∨
      ∃ earlier batch later newest, batches = earlier ++ batch :: later ∧
        NewestIn batch k newest ∧ st.index k = some newest.log_id ∧
        ∀ other ∈ later, ∀ req ∈ other, req.IsIndexWrite → req.long_key ≠ k := by
  induction h with
  | nil => exact Or.inl ⟨by simp, rfl⟩
  | collect _ hstep ih =>
    cases hstep with
    | collect _ hcollect =>
      obtain ⟨-, -, -, -, -, -, rfl⟩ := BatchState.collect_eq_some hcollect
      exact ih hbatches fun req hreq ↦ hstamped req (List.mem_append_left _ hreq)
  | keep _ hstep ih =>
    cases hstep with
    | keep => exact ih hbatches hstamped
  | @flush arrivals batches st _ hrun hstep ih =>
    cases hstep with
    | @flush sorted _ hsort =>
      have hearlier : ∀ batch ∈ batches, batch.length ≤ kStaticSendBuf :=
        fun batch hbatch ↦ hbatches batch (List.mem_append_left _ hbatch)
      have haligned := hrun.aligned hstart hearlier (hbatches _ (by simp))
      have hrequests : ∀ req ∈ st.requests, Stamped req := fun req hreq ↦
        hstamped req (hrun.flatten_eq hempty ▸ List.mem_append_right _ hreq)
      rw [haligned.flush_index hsort]
      rcases apply_batch_requests st.index haligned.prepared (haligned.sort_inPlace hsort) hk
          hrequests with ⟨hnone, hsame⟩ | ⟨newest, hnewest, hindex⟩
      · rcases ih hearlier hstamped with
          ⟨hnever, hstart⟩ | ⟨earlier, batch, later, newest, rfl, hnewest, hindex, hlater⟩
        · refine Or.inl ⟨fun b hb ↦ ?_, hsame.trans hstart⟩
          rcases List.mem_append.mp hb with hb | hb
          · exact hnever b hb
          · exact List.mem_singleton.mp hb ▸ hnone
        · refine Or.inr ⟨earlier, batch, later ++ [st.requests], newest, by simp, hnewest,
            hsame.trans hindex, fun b hb ↦ ?_⟩
          rcases List.mem_append.mp hb with hb | hb
          · exact hlater b hb
          · exact List.mem_singleton.mp hb ▸ hnone
      · exact Or.inr ⟨batches, st.requests, [], newest, rfl, hnewest, hindex, by simp⟩

end BatchRun

/-- The index of a key once every update has been handled. Without batching it is the log position
of the last update that arrived; with batches that fit the ring, that of the newest update in the last
batch that has an update of the key. -/
theorem index_after_all_arrivals (f : Flags) (start : Index) (k : KvKeyType) (hk : k ≠ 0) :
    (∀ (arrivals : List (RawKvMsg × RawKvMsg)) (index : Index),
      run_server_CPC start arrivals = some index →
        index k =
          match ((arrivals.map Prod.fst).filter
            fun req ↦ req.IsIndexWrite ∧ req.long_key = k).getLast? with
          | none => start k
          | some last => some last.log_id) ∧
    ∀ (buf arrivals : List RawKvMsg) (batches : List (List RawKvMsg)) (st : BatchState),
      buf.length = kStaticSendBuf → BatchRun f (BatchState.init buf start) arrivals batches st →
      st.batch = [] → (∀ batch ∈ batches, batch.length ≤ kStaticSendBuf) →
      (∀ req ∈ arrivals, Stamped req) →
      arrivals = batches.flatten ∧
        (((∀ req ∈ arrivals, req.IsIndexWrite → req.long_key ≠ k) ∧ st.index k = start k) ∨
          ∃ earlier batch later newest, batches = earlier ++ batch :: later ∧
            NewestIn batch k newest ∧ st.index k = some newest.log_id ∧
            ∀ req ∈ later.flatten, req.IsIndexWrite → req.long_key ≠ k) := by
  refine ⟨fun arrivals index hrun ↦ run_server_CPC_index hrun k,
    fun buf arrivals batches st hbuf hrun hempty hbatches hstamped ↦ ?_⟩
  have hflatten : arrivals = batches.flatten := by
    have hlength := hrun.length_eq rfl
    rw [hempty, List.length_nil] at hlength
    rw [hrun.flatten_eq rfl, List.eq_nil_of_length_eq_zero hlength.symm, List.append_nil]
  refine ⟨hflatten, ?_⟩
  rcases hrun.index_eq (.init hbuf start) rfl hk hbatches hstamped with
    ⟨hnever, hstart⟩ | ⟨earlier, batch, later, newest, hsplit, hnewest, hindex, hlater⟩
  · refine Or.inl ⟨fun req hreq ↦ ?_, hstart⟩
    rw [hflatten] at hreq
    obtain ⟨batch, hbatch, hmem⟩ := List.mem_flatten.mp hreq
    exact hnever batch hbatch req hmem
  · refine Or.inr ⟨earlier, batch, later, newest, hsplit, hnewest, hindex, fun req hreq ↦ ?_⟩
    obtain ⟨other, hother, hmem⟩ := List.mem_flatten.mp hreq
    exact hlater other hother req hmem

/-- A poll at whose end the batch is applied, with one way to sort it. -/
def servePoll (f : Flags) (st : BatchState) (poll : List RawKvMsg) : Option BatchState :=
  (poll.foldlM BatchState.collect st).bind fun st ↦
    let sorted := st.batch.insertionSort fun x y ↦ ¬ y.lt x
    if ¬ (st.batch.length < f.batch_size.toNat ∧ st.onpath = false ∧ f.batch = true) ∧
        StdSort st.batch sorted then
      some (st.flush sorted)
    else none

/-- Requests that are collected join the array, and the index stays as it is. -/
theorem foldlM_collect {st st' : BatchState} {poll : List RawKvMsg}
    (h : poll.foldlM BatchState.collect st = some st') :
    st'.requests = st.requests ++ poll ∧ st'.index = st.index := by
  induction poll generalizing st with
  | nil =>
    obtain rfl := Option.some.inj h
    exact ⟨(List.append_nil _).symm, rfl⟩
  | cons req poll ih =>
    obtain ⟨next, hnext, hrest⟩ := Option.bind_eq_some_iff.mp h
    obtain ⟨hrequests, hindex⟩ := ih hrest
    obtain ⟨_, _, _, _, -, -, rfl⟩ := BatchState.collect_eq_some hnext
    exact ⟨by rw [hrequests, List.append_assoc, List.singleton_append], hindex⟩

theorem BatchRun.servePoll {f : Flags} {start st st' : BatchState} {arrivals poll : List RawKvMsg}
    {batches : List (List RawKvMsg)} (h : BatchRun f start arrivals batches st)
    (hlength : st.polled + poll.length ≤ kMaxWcCnt) (hpoll : servePoll f st poll = some st') :
    BatchRun f start (arrivals ++ poll) (batches ++ [st.requests ++ poll]) st' ∧
      st'.polled = 0 ∧ st'.batch = [] ∧ st'.requests = [] := by
  obtain ⟨collected, hcollected, hserve⟩ := Option.bind_eq_some_iff.mp hpoll
  obtain ⟨⟨hkeeps, hsort⟩, hsome⟩ := Option.ite_none_right_eq_some.mp hserve
  obtain rfl := Option.some.inj hsome
  have hrun := (h.poll hlength hcollected).flush (.flush hkeeps hsort)
  rw [(foldlM_collect hcollected).1] at hrun
  exact ⟨hrun, rfl, rfl, rfl⟩

/-- The fast write and the older slow one in batches of their own: the older one stays, for it came
last. -/
theorem index_after_all_arrivals_two_batches :
    ∃ st, BatchRun (batchFlags 1) (freshServer fun _ ↦ some 0) [newerFastWrite, olderSlowWrite]
        [[newerFastWrite], [olderSlowWrite]] st ∧ st.index 5 = some olderSlowWrite.log_id := by
  obtain ⟨st₂, hsome⟩ := Option.isSome_iff_exists.mp
    (show ((servePoll (batchFlags 1) (freshServer fun _ ↦ some 0) [newerFastWrite]).bind
      fun st ↦ servePoll (batchFlags 1) st [olderSlowWrite]).isSome by decide +kernel)
  obtain ⟨st₁, hst₁, hst₂⟩ := Option.bind_eq_some_iff.mp hsome
  obtain ⟨hrun₁, hpolled, -, hrequests⟩ := BatchRun.nil.servePoll (by decide) hst₁
  obtain ⟨hrun, -, hempty, -⟩ := hrun₁.servePoll (by rw [hpolled]; decide) hst₂
  rw [hrequests] at hrun
  refine ⟨st₂, hrun, ?_⟩
  have hstamped : ∀ req ∈ [newerFastWrite, olderSlowWrite], Stamped req := by
    simp only [List.mem_cons, List.not_mem_nil, or_false, forall_eq_or_imp, forall_eq, Stamped]
    decide
  obtain ⟨-, hresult⟩ := (index_after_all_arrivals (batchFlags 1) (fun _ ↦ some 0) 5 (by decide)).2
    _ _ [[newerFastWrite], [olderSlowWrite]] st₂ (by simp) hrun hempty
    (by simp [kStaticSendBuf, kMaxSignal]) hstamped
  rcases hresult with ⟨hnever, -⟩ | ⟨earlier, batch, later, newest, hsplit, hnewest, hindex, hlater⟩
  · exact absurd rfl (hnever newerFastWrite (by simp) (by decide))
  · -- the batch of the slow write is the last one with an update of the key
    have hbatch : batch = [olderSlowWrite] := by
      rcases List.append_eq_cons_iff.mp hsplit.symm with ⟨-, hcons⟩ | ⟨rest, -, hrest⟩
      · obtain ⟨-, rfl⟩ := List.cons.inj hcons
        exact absurd rfl (hlater olderSlowWrite (by simp) (by decide))
      · rcases List.append_eq_cons_iff.mp hrest.symm with ⟨-, hcons⟩ | ⟨rest', -, hrest'⟩
        · exact (List.cons.inj hcons).1
        · simp at hrest'
    obtain ⟨hmem, -⟩ := hnewest
    rw [hbatch, List.mem_singleton] at hmem
    rw [hindex, hmem]

/-! ### One pass -/

/-- What a pass should make of the index `start` and of its requests: the newest update of each key
wins, the other keys stay, and the reads are answered with the result. -/
structure PassResult (start : Index) (requests : List RawKvMsg) (index : Index)
    (replies : List RawKvMsg) : Prop where
  newest : ∀ update ∈ requests, update.IsIndexWrite →
    (∀ req ∈ requests, req.IsIndexWrite → req.long_key = update.long_key →
      timestampValue req.timestamp ≤ timestampValue update.timestamp) →
    index update.long_key = some update.log_id
  others : ∀ k, (∀ req ∈ requests, req.IsIndexWrite → req.long_key ≠ k) → index k = start k
  reads : ∀ (i : ℕ) (request : RawKvMsg), requests[i]? = some request →
    request.rpc_header.op = .kEnumReadIndexReq →
    ∃ reply, replies[i]? = some reply ∧ reply.rpc_header.op = .kEnumReadIndexReply ∧
      (reply.key = 0xFFFFFFFF ↔ index request.long_key = none) ∧
      ∀ v, index request.long_key = some v → reply.log_id = v.toUInt32.toUInt64 ∧
        ((start request.long_key = some v → v.toNat < 2 ^ 32) → reply.log_id = v)

/-- The server collects the requests, and however it sorts the array (`exists_stdSort`), the pass has
the right result. -/
def BatchState.PassCorrect (st : BatchState) (requests : List RawKvMsg) : Prop :=
  ∃ collected, requests.foldlM BatchState.collect st = some collected ∧
    ∀ sorted, StdSort collected.batch sorted →
      PassResult st.index requests (collected.flush sorted).index
        (((collected.flush sorted).posted.drop st.posted.length).map Posted.reply)

/-- A batch whose replies have buffers of their own is processed correctly. -/
theorem BatchRequests.passResult {requests replies : List RawKvMsg} {sorted : List BatchEntry}
    (hbatch : BatchRequests requests) (index : Index) (hprepared : Prepared requests replies)
    (hsort : StdSort (batchEntries replies) sorted) :
    PassResult index requests (apply_batch index replies sorted).index
      (apply_batch index replies sorted).replies where
  newest _ hmem hupdate hnewest :=
    hbatch.index_of_newest index hprepared hsort hmem hupdate hnewest
  others _ hnone := hprepared.index_of_no_update index hnone
  reads _ _ hrequest hread := hbatch.read_reply index hprepared hsort hrequest hread

/-- The ring has a buffer for the next request as long as the batch and the replies behind the last
signalled one leave room. -/
theorem BatchState.Aligned.exists_collect {st : BatchState} (h : st.Aligned) {req : RawKvMsg}
    (hop : req.IsIndexWrite ∨ req.rpc_header.op = .kEnumReadIndexReq)
    (hroom : st.posted.length % kMaxSignal + st.requests.length < kStaticSendBuf) :
    ∃ st', st.collect req = some st' := by
  have hsome : st.ring.get_send_msg_sg.isSome := by
    rw [SendRing.get_send_msg_sg_isSome_iff h.ring, h.behind, h.pending]
    exact Or.inl hroom
  obtain ⟨⟨early, ring⟩, hget⟩ := Option.isSome_iff_exists.mp hsome
  obtain ⟨hring, -⟩ := SendRing.waitForSlot_ok h.ring hget
  have hpos : ring.send_buf_pos < ring.buf.length := by
    rw [hring.pos, hring.length]
    exact ring.slot_lt _
  obtain ⟨reply, hreply⟩ := exists_batch_reply ring.buf[ring.send_buf_pos] hop
  unfold BatchState.collect
  rw [hget]
  dsimp only
  rw [List.getElem?_eq_getElem hpos]
  dsimp only
  rw [hreply]
  exact ⟨_, rfl⟩

/-- A batch that fits the ring is collected. -/
theorem BatchState.Aligned.exists_foldlM {st : BatchState} {requests : List RawKvMsg}
    (h : st.Aligned)
    (hop : ∀ req ∈ requests, req.IsIndexWrite ∨ req.rpc_header.op = .kEnumReadIndexReq)
    (hroom : st.posted.length % kMaxSignal + st.requests.length + requests.length ≤
      kStaticSendBuf) :
    ∃ collected, requests.foldlM BatchState.collect st = some collected ∧ collected.Aligned ∧
      collected.posted = st.posted := by
  induction requests generalizing st with
  | nil => exact ⟨st, rfl, h, rfl⟩
  | cons req requests ih =>
    rw [List.length_cons] at hroom
    obtain ⟨next, hnext⟩ := h.exists_collect (hop req List.mem_cons_self) (by omega)
    obtain ⟨haligned, hposted, -⟩ := h.collect (fun hfull ↦ by omega) hnext
    obtain ⟨_, _, _, _, -, -, hstate⟩ := BatchState.collect_eq_some hnext
    have hlength : next.requests.length = st.requests.length + 1 := by
      rw [hstate, List.length_append, List.length_singleton]
    obtain ⟨collected, hcollected, hresult, hsame⟩ := ih haligned
      (fun r hr ↦ hop r (List.mem_cons_of_mem _ hr)) (by rw [hposted, hlength]; omega)
    refine ⟨collected, ?_, hresult, hsame.trans hposted⟩
    rw [List.foldlM_cons, hnext]
    exact hcollected

/-- A batch that fits the ring is processed correctly. -/
theorem BatchState.Aligned.passCorrect {st : BatchState} {requests : List RawKvMsg}
    (h : st.Aligned) (hempty : st.requests = []) (hbatch : BatchRequests requests)
    (hroom : st.posted.length % kMaxSignal + requests.length ≤ kStaticSendBuf) :
    st.PassCorrect requests := by
  obtain ⟨collected, hcollected, haligned, hposted⟩ :=
    h.exists_foldlM hbatch.op (by rw [hempty]; exact hroom)
  obtain ⟨hrequests, hindex⟩ := foldlM_collect hcollected
  rw [hempty, List.nil_append] at hrequests
  refine ⟨collected, hcollected, fun sorted hsort ↦ ?_⟩
  have hresult := hbatch.passResult collected.index (hrequests ▸ haligned.prepared)
    (haligned.sort_inPlace hsort)
  rw [← haligned.flush_index hsort] at hresult
  have hreplies (replies : List RawKvMsg) (index : Index) (batch : List RawKvMsg) :
      (replies.map fun reply ↦ (⟨reply, index, batch⟩ : Posted)).map Posted.reply = replies := by
    rw [List.map_map]
    exact List.map_id _
  rwa [haligned.flush_posted hsort, hposted, List.drop_left, hreplies, ← hindex]

/-- What every run keeps: the books of the ring, and an empty ring behind an empty array. -/
structure BatchState.Booked (st : BatchState) : Prop where
  ring : st.ring.Ok
  behind : st.ring.send_cnt_bf_signal = st.posted.length % kMaxSignal
  empty : st.batch = [] → st.requests = [] ∧ st.ring.send_pending_cnt = 0

theorem BatchState.Booked.aligned {st : BatchState} (h : st.Booked) (hempty : st.batch = []) :
    st.Aligned := by
  obtain ⟨hrequests, hpending⟩ := h.empty hempty
  exact ⟨h.ring, h.behind, by rw [hpending, hrequests]; rfl, by rw [hempty, hrequests]; rfl,
    by simp [hrequests]⟩

/-- What a request that is collected does to the ring, early post or not. -/
theorem SendRing.Ok.collect {st st' : BatchState} {req : RawKvMsg} (hok : st.ring.Ok)
    (h : st.collect req = some st') :
    st'.ring.Ok ∧ ∃ buf reply, batch_reply req buf = some reply ∧
      st'.ring.buf = st.ring.buf.set st.ring.send_buf_pos reply ∧
      st'.ring.send_buf_pos = (st.ring.send_buf_pos + 1) % kStaticSendBuf := by
  obtain ⟨early, ring, buf, reply, hget, hreply, rfl⟩ := BatchState.collect_eq_some h
  obtain ⟨hring, hlt, hbuf, hpos, -⟩ := SendRing.waitForSlot_ok hok hget
  exact ⟨hring.append hlt reply, buf, reply, hreply, by rw [← hbuf, ← hpos]; rfl,
    by rw [← hpos]; rfl⟩

theorem BatchState.Booked.step {f : Flags} {st st' : BatchState} {label : BatchLabel}
    (h : st.Booked) (hstep : BatchStep f st label st') : st'.Booked := by
  cases hstep with
  | collect _ hcollect =>
    obtain ⟨hring, -⟩ := h.ring.collect hcollect
    obtain ⟨early, ring, buf, reply, hget, -, rfl⟩ := BatchState.collect_eq_some hcollect
    obtain ⟨-, -, -, -, hbehind⟩ := SendRing.waitForSlot_ok h.ring hget
    refine ⟨hring, ?_, fun hempty ↦ absurd hempty (by simp)⟩
    rw [List.length_append, List.length_map]
    change ring.send_cnt_bf_signal = _
    rw [hbehind, h.behind, Nat.mod_add_mod]
  | keep => exact ⟨h.ring, h.behind, h.empty⟩
  | @flush sorted =>
    have happly := h.ring.apply_batch st.index sorted
    obtain ⟨hprepared, hring, hzero, hbehind⟩ := happly.post
    refine ⟨hring, hbehind.trans ?_, fun _ ↦ ⟨rfl, hzero⟩⟩
    change (st.ring.send_cnt_bf_signal + st.ring.send_pending_cnt) % kMaxSignal =
      (st.posted ++ List.map _ (SendRing.post_appended_smsg _).1).length % kMaxSignal
    rw [List.length_append, List.length_map, hprepared, happly.prepared_length, h.behind,
      Nat.mod_add_mod]

/-- A thread on which replies wait behind the last signalled one never gets more buffers than the ring
has left. -/
theorem BatchState.Aligned.room_of_foldlM {st collected : BatchState} {requests : List RawKvMsg}
    (h : st.Aligned) (hbehind : st.posted.length % kMaxSignal ≠ 0)
    (hroom : st.posted.length % kMaxSignal + st.requests.length ≤ kStaticSendBuf)
    (hcollected : requests.foldlM BatchState.collect st = some collected) :
    st.posted.length % kMaxSignal + st.requests.length + requests.length ≤ kStaticSendBuf := by
  induction requests generalizing st with
  | nil => exact hroom
  | cons req requests ih =>
    obtain ⟨next, hnext, hrest⟩ := Option.bind_eq_some_iff.mp hcollected
    have hlt : st.posted.length % kMaxSignal + st.requests.length < kStaticSendBuf := by
      obtain ⟨early, ring, -, -, hget, -⟩ := BatchState.collect_eq_some hnext
      have hsome : st.ring.get_send_msg_sg.isSome := Option.isSome_iff_exists.mpr ⟨_, hget⟩
      rw [SendRing.get_send_msg_sg_isSome_iff h.ring, h.behind, h.pending] at hsome
      exact hsome.resolve_right hbehind
    obtain ⟨haligned, hposted, -⟩ := h.collect (fun hfull ↦ by omega) hnext
    obtain ⟨_, _, _, _, -, -, hstate⟩ := BatchState.collect_eq_some hnext
    have hlength : next.requests.length = st.requests.length + 1 := by
      rw [hstate, List.length_append, List.length_singleton]
    have hnextroom := ih haligned (by rw [hposted]; exact hbehind)
      (by rw [hposted, hlength]; omega) hrest
    rw [hposted, hlength] at hnextroom
    rw [List.length_cons]
    omega

/-- Reads that are collected take the slots one after the other, whatever is in them. -/
theorem slots_of_foldlM_reads {st collected : BatchState} {read : RawKvMsg} {m : ℕ}
    (hok : st.ring.Ok) (hread : ¬ read.IsIndexWrite)
    (h : (List.replicate m read).foldlM BatchState.collect st = some collected) :
    collected.ring.Ok ∧
      collected.ring.send_buf_pos = (st.ring.send_buf_pos + m) % kStaticSendBuf ∧
      ∀ i < m, ∃ reply, collected.ring.buf[(st.ring.send_buf_pos + i) % kStaticSendBuf]? =
        some reply ∧ ¬ reply.IsUpdate := by
  have hpos : st.ring.send_buf_pos < kStaticSendBuf := by
    rw [hok.pos]
    exact st.ring.slot_lt _
  induction m generalizing collected with
  | zero =>
    obtain rfl := Option.some.inj h
    exact ⟨hok, (Nat.mod_eq_of_lt hpos).symm, fun i hi ↦ absurd hi (Nat.not_lt_zero i)⟩
  | succ m ih =>
    rw [List.replicate_succ', List.foldlM_append] at h
    obtain ⟨before, hbefore, hlast⟩ := Option.bind_eq_some_iff.mp h
    rw [List.foldlM_cons] at hlast
    obtain ⟨after, hafter, hsome⟩ := Option.bind_eq_some_iff.mp hlast
    obtain rfl := Option.some.inj hsome
    obtain ⟨hring, hsecond, hslots⟩ := ih hbefore
    obtain ⟨hring', buf, reply, hreply, hbuf, hnext⟩ := hring.collect hafter
    have hnot : ¬ reply.IsUpdate := mt (batch_reply_fields hreply).1.mp hread
    have hslot : (st.ring.send_buf_pos + m) % kStaticSendBuf < before.ring.buf.length := by
      rw [hring.length]
      exact Nat.mod_lt _ (by decide)
    refine ⟨hring', ?_, fun i hi ↦ ?_⟩
    · rw [hnext, hsecond, Nat.mod_add_mod, Nat.add_assoc]
    · rw [hbuf, hsecond]
      by_cases hsame : (st.ring.send_buf_pos + i) % kStaticSendBuf =
          (st.ring.send_buf_pos + m) % kStaticSendBuf
      · rw [hsame, List.getElem?_set_self hslot]
        exact ⟨reply, rfl, hnot⟩
      · rw [List.getElem?_set_ne (Ne.symm hsame)]
        refine hslots i ?_
        rcases Nat.lt_succ_iff_lt_or_eq.mp hi with hlt | rfl
        · exact hlt
        · exact absurd rfl hsame

/-- A fast write of key `1` and reads of key `2` behind it. -/
def writeThenReads (log_id : UInt64) (reads : ℕ) : List RawKvMsg :=
  batchRequest .kEnumMultiCastPkt 1 log_id 1 ::
    List.replicate reads (batchRequest .kEnumReadIndexReq 2 0 0)

theorem writeThenReads_requests {log_id : UInt64} (hlog : log_id.toNat < 2 ^ 32) (reads : ℕ) :
    BatchRequests (writeThenReads log_id reads) := by
  have hreads : ∀ req ∈ List.replicate reads (batchRequest .kEnumReadIndexReq 2 0 0),
      req = batchRequest .kEnumReadIndexReq 2 0 0 := fun req hreq ↦ List.eq_of_mem_replicate hreq
  have hread : ¬ (batchRequest .kEnumReadIndexReq 2 0 0).IsIndexWrite := by decide
  have hcases {P : RawKvMsg → Prop} (hwrite : P (batchRequest .kEnumMultiCastPkt 1 log_id 1))
      (hrest : P (batchRequest .kEnumReadIndexReq 2 0 0)) :
      ∀ req ∈ writeThenReads log_id reads, P req := by
    intro req hreq
    rcases List.mem_cons.mp hreq with rfl | hreq
    · exact hwrite
    · rwa [hreads req hreq]
  refine ⟨hcases (Or.inl (Or.inl rfl)) (Or.inr rfl),
    hcases (show (1 : UInt64) ≠ 0 by decide) (show (2 : UInt64) ≠ 0 by decide),
    hcases (fun _ ↦ hlog) (fun h ↦ absurd h hread),
    hcases (fun _ ↦ show bswap32 1 ≠ 0 by decide) (fun h ↦ absurd h hread), ?_,
    hcases (fun h ↦ absurd h (show RpcType.kEnumMultiCastPkt ≠ .kEnumReadIndexReq by decide))
      (fun _ ↦ rfl),
    hcases (fun _ ↦ rfl) (fun _ ↦ rfl)⟩
  refine List.pairwise_cons.mpr ⟨fun req hreq _ hwrite ↦ ?_, List.pairwise_replicate.mpr
    (Or.inr fun hwrite ↦ absurd hwrite hread)⟩
  rw [hreads req hreq] at hwrite
  exact absurd hwrite hread

/-- An update that is in no buffer when the batch is applied is lost. -/
theorem BatchState.not_passCorrect {st : BatchState} {requests : List RawKvMsg} {update : RawKvMsg}
    (hmem : update ∈ requests) (hupdate : update.IsIndexWrite)
    (hnewest : ∀ req ∈ requests, req.IsIndexWrite → req.long_key = update.long_key →
      timestampValue req.timestamp ≤ timestampValue update.timestamp)
    (hold : st.index update.long_key ≠ some update.log_id)
    (hlost : ∀ collected, requests.foldlM BatchState.collect st = some collected →
      ∀ reply ∈ collected.ring.buf, reply.IsUpdate → reply.long_key ≠ update.long_key) :
    ¬ st.PassCorrect requests := by
  rintro ⟨collected, hcollected, hpass⟩
  obtain ⟨sorted, hsort⟩ := exists_stdSort collected.batch
  have hnew := (hpass sorted hsort).newest update hmem hupdate hnewest
  have hsame : (collected.flush sorted).index update.long_key = collected.index update.long_key :=
    foldl_apply_entry_index sorted (hlost collected hcollected)
  rw [(foldlM_collect hcollected).2] at hsame
  exact hold (hsame.symm.trans hnew)

/-- Behind a fast write, so many reads that they take all slots: the write is in no buffer when the
batch is applied. -/
theorem not_passCorrect_writeThenReads {st : BatchState} (hok : st.ring.Ok) {log_id : UInt64}
    (hold : st.index 1 ≠ some log_id) {reads : ℕ} (hreads : kStaticSendBuf ≤ reads) :
    ¬ st.PassCorrect (writeThenReads log_id reads) := by
  refine BatchState.not_passCorrect
    (show batchRequest .kEnumMultiCastPkt 1 log_id 1 ∈ _ from List.mem_cons_self) (Or.inl rfl)
    (fun req hreq hwrite _ ↦ ?_) hold fun collected hcollected reply hreply hupdate ↦ ?_
  · rcases List.mem_cons.mp hreq with rfl | hreq
    · exact le_rfl
    · rw [List.eq_of_mem_replicate hreq] at hwrite
      exact absurd hwrite (by decide)
  · obtain ⟨next, hnext, hrest⟩ := Option.bind_eq_some_iff.mp hcollected
    obtain ⟨hring, -⟩ := hok.collect hnext
    obtain ⟨hring', -, hslots⟩ := slots_of_foldlM_reads hring (by decide) hrest
    have hpos : next.ring.send_buf_pos < kStaticSendBuf := by
      rw [hring.pos]
      exact next.ring.slot_lt _
    obtain ⟨addr, haddr, rfl⟩ := List.getElem_of_mem hreply
    rw [hring'.length] at haddr
    obtain ⟨other, hother, hnot⟩ := hslots
      ((addr + (kStaticSendBuf - next.ring.send_buf_pos)) % kStaticSendBuf)
      (lt_of_lt_of_le (Nat.mod_lt _ (by decide)) hreads)
    have hslot : (next.ring.send_buf_pos +
        (addr + (kStaticSendBuf - next.ring.send_buf_pos)) % kStaticSendBuf) % kStaticSendBuf =
        addr := by
      unfold kStaticSendBuf kMaxSignal at *
      omega
    rw [hslot] at hother
    obtain ⟨_, heq⟩ := List.getElem?_eq_some_iff.mp hother
    exact absurd (heq ▸ hupdate) hnot

/-- From every state of a run in which the array is empty, all batches of `n` requests are processed
correctly exactly when they fit the ring with the replies behind the last signalled one: each updated
key has the log id of its newest update, the other keys keep theirs, and the reads are answered with
the result. -/
theorem server_batch_pass (f : Flags) {buf : List RawKvMsg} (hbuf : buf.length = kStaticSendBuf)
    (index : Index) {st : BatchState}
    (hst : Foundation.Reachable (BatchState.init buf index) (BatchStep f) (fun _ _ ↦ True) st)
    (hempty : st.batch = []) (n : ℕ) :
    (∀ requests, BatchRequests requests → requests.length = n → st.PassCorrect requests) ↔
      st.posted.length % kMaxSignal + n ≤ kStaticSendBuf := by
  have hbooked : st.Booked := hst.invariant BatchState.Booked
    ⟨SendRing.init_ok hbuf, rfl, fun _ ↦ ⟨rfl, rfl⟩⟩ fun _ _ _ _ h _ hstep ↦ h.step hstep
  have haligned := hbooked.aligned hempty
  have hnone := (hbooked.empty hempty).1
  constructor
  · intro hpass
    by_contra hfull
    obtain ⟨reads, rfl⟩ : ∃ reads, n = reads + 1 := by
      refine Nat.exists_eq_add_one.mpr (Nat.pos_of_ne_zero ?_)
      rintro rfl
      have hlt := Nat.mod_lt st.posted.length (show 0 < kMaxSignal by decide)
      unfold kStaticSendBuf at hfull
      omega
    obtain ⟨log_id, hlog, hold⟩ : ∃ log_id : UInt64, log_id.toNat < 2 ^ 32 ∧
        st.index 1 ≠ some log_id := by
      by_cases hone : st.index 1 = some 1
      · exact ⟨2, by decide, by rw [hone]; decide⟩
      · exact ⟨1, by decide, hone⟩
    have hcorrect := hpass _ (writeThenReads_requests hlog reads) (by simp [writeThenReads])
    by_cases hlong : kStaticSendBuf ≤ reads
    · exact not_passCorrect_writeThenReads hbooked.ring hold hlong hcorrect
    · -- a batch that is not longer than the ring does not get its last buffer
      obtain ⟨collected, hcollected, -⟩ := hcorrect
      have hlength : (writeThenReads log_id reads).length = reads + 1 := by simp [writeThenReads]
      have hroom := haligned.room_of_foldlM (by omega) (by
        have hlt := Nat.mod_lt st.posted.length (show 0 < kMaxSignal by decide)
        rw [hnone, List.length_nil]
        unfold kStaticSendBuf
        omega) hcollected
      rw [hnone, List.length_nil, hlength] at hroom
      omega
  · rintro hroom requests hbatch rfl
    exact haligned.passCorrect hnone hbatch hroom

/-- A read and two fast writes of key `5`. -/
def mixedBatch : List RawKvMsg :=
  [batchRequest .kEnumReadIndexReq 5 0 0, batchRequest .kEnumMultiCastPkt 5 40 4,
    batchRequest .kEnumMultiCastPkt 5 30 3]

/-- After a batch of two the thread has room for batches of `126` requests, such as the mixed one, and
not for `127`. -/
theorem server_batch_pass_after_two :
    ∃ st, BatchRun (batchFlags 2) (freshServer fun _ ↦ some 0) [newerFastWrite, olderSlowWrite]
        [[newerFastWrite, olderSlowWrite]] st ∧ st.posted.length = 2 ∧ st.PassCorrect mixedBatch ∧
      (∀ requests, BatchRequests requests → requests.length = 126 → st.PassCorrect requests) ∧
      ¬ ∀ requests, BatchRequests requests → requests.length = 127 → st.PassCorrect requests := by
  obtain ⟨st, hst, hposted⟩ : ∃ st, servePoll (batchFlags 2) (freshServer fun _ ↦ some 0)
      [newerFastWrite, olderSlowWrite] = some st ∧ st.posted.length = 2 := by
    have hsome : (servePoll (batchFlags 2) (freshServer fun _ ↦ some 0)
        [newerFastWrite, olderSlowWrite]).map (fun st ↦ st.posted.length) = some 2 := by
      decide +kernel
    exact Option.map_eq_some_iff.mp hsome
  obtain ⟨hrun, -, hempty, -⟩ := BatchRun.nil.servePoll (by decide) hst
  have hpass (n : ℕ) := server_batch_pass (batchFlags 2) (List.length_replicate ..) _ hrun.reachable
    hempty n
  refine ⟨st, hrun, hposted, (hpass 3).mpr (by rw [hposted]; decide) mixedBatch ?_ rfl,
    (hpass 126).mpr (by rw [hposted]; decide), fun h ↦ ?_⟩
  · constructor
    all_goals simp only [mixedBatch, List.mem_cons, List.not_mem_nil, or_false, forall_eq_or_imp,
      forall_eq, List.pairwise_cons, List.Pairwise.nil, and_true, IsEmpty.forall_iff, implies_true]
    all_goals decide
  · have hroom := (hpass 127).mp h
    rw [hposted] at hroom
    exact absurd hroom (by decide)

/-- A fast write of key `1` and as many of key `2` as the ring has slots. -/
def overfullBatch : List RawKvMsg :=
  batchRequest .kEnumMultiCastPkt 1 7 1 ::
    (List.range kStaticSendBuf).map fun i ↦
      batchRequest .kEnumMultiCastPkt 2 (UInt64.ofNat i) (UInt32.ofNat (i + 2))

/-- The polls of the first `127` requests, after each of which the array stays. -/
def overfullPolls : List (List RawKvMsg) :=
  (List.range 8).map fun i ↦ ((overfullBatch.take 127).drop (kMaxWcCnt * i)).take kMaxWcCnt

/-- No buffer has a reply of the key. -/
def BatchState.Lacks (st : BatchState) (k : KvKeyType) : Prop :=
  ∀ reply ∈ st.ring.buf, reply.long_key ≠ k

instance (st : BatchState) (k : KvKeyType) : Decidable (st.Lacks k) :=
  inferInstanceAs (Decidable (∀ reply ∈ st.ring.buf, reply.long_key ≠ k))

theorem overfullBatch_requests : BatchRequests overfullBatch := by
  have hall : (∀ req ∈ overfullBatch, req.IsIndexWrite ∧ req.long_key ≠ 0 ∧
      req.log_id.toNat < 2 ^ 32 ∧ req.timestamp ≠ 0 ∧ req.rpc_header.op ≠ .kEnumReadIndexReq) ∧
      (overfullBatch.map RawKvMsg.timestamp).Nodup := by
    decide +kernel
  obtain ⟨hall, hdistinct⟩ := hall
  have hread {P : Prop} (req : RawKvMsg) (hreq : req ∈ overfullBatch)
      (hop : req.rpc_header.op = .kEnumReadIndexReq) : P := absurd hop (hall req hreq).2.2.2.2
  exact ⟨fun req hreq ↦ Or.inl (hall req hreq).1, fun req hreq ↦ (hall req hreq).2.1,
    fun req hreq _ ↦ (hall req hreq).2.2.1, fun req hreq _ ↦ (hall req hreq).2.2.2.1,
    (List.pairwise_map.mp hdistinct).imp fun hne _ _ _ ↦ hne,
    fun req hreq ↦ hread req hreq, fun req hreq ↦ hread req hreq⟩

/-- A fresh thread that may keep `127` requests gets `129` fast writes. It collects them all, and
however it sorts the array, the first one is not applied. -/
theorem overfull_batch_loses_update :
    BatchRequests overfullBatch ∧ ¬ (freshServer fun _ ↦ none).PassCorrect overfullBatch ∧
      ∃ st, BatchRun (batchFlags 128) (freshServer fun _ ↦ none) overfullBatch [] st ∧
        ¬ st.Keeps (batchFlags 128) ∧ ∀ sorted, (st.flush sorted).index 1 = none := by
  refine ⟨overfullBatch_requests, BatchState.not_passCorrect
    (show batchRequest .kEnumMultiCastPkt 1 7 1 ∈ overfullBatch from List.mem_cons_self)
    (Or.inl rfl) ?_ (Option.some_ne_none _).symm fun collected hcollected reply hreply _ ↦ ?_, ?_⟩
  · have hkeys : ∀ req ∈ overfullBatch.tail, req.long_key ≠ 1 := by decide +kernel
    intro req hreq _ hkey
    rcases List.mem_cons.mp hreq with rfl | hreq
    · exact le_rfl
    · exact absurd hkey (hkeys req hreq)
  · have hlost : ((overfullBatch.foldlM BatchState.collect (freshServer fun _ ↦ none)).all
        fun st ↦ decide (st.Lacks 1)) = true := by
      decide +kernel
    rw [hcollected] at hlost
    exact of_decide_eq_true hlost reply hreply
  · obtain ⟨st, hst, hcheck⟩ : ∃ st,
        ((keepPolls (batchFlags 128) (freshServer fun _ ↦ none) overfullPolls).bind fun kept ↦
          (overfullBatch.drop 127).foldlM BatchState.collect kept) = some st ∧
          decide (st.Lacks 1 ∧ 128 ≤ st.batch.length ∧ st.index 1 = none) = true := by
      have hsome :
          (((keepPolls (batchFlags 128) (freshServer fun _ ↦ none) overfullPolls).bind fun kept ↦
            (overfullBatch.drop 127).foldlM BatchState.collect kept).map fun st ↦
              decide (st.Lacks 1 ∧ 128 ≤ st.batch.length ∧ st.index 1 = none)) = some true := by
        decide +kernel
      exact Option.map_eq_some_iff.mp hsome
    obtain ⟨hlost, hlength, hindex⟩ := of_decide_eq_true hcheck
    obtain ⟨kept, hkept, hlast⟩ := Option.bind_eq_some_iff.mp hst
    obtain ⟨hrun, hpolled⟩ := BatchRun.nil.keepPolls rfl (fun poll hpoll ↦ by
      obtain ⟨i, -, rfl⟩ := List.mem_map.mp hpoll
      exact List.length_take_le _ _) hkept
    have hrun := hrun.poll (by rw [hpolled]; decide) hlast
    rw [List.nil_append, show overfullPolls.flatten ++ overfullBatch.drop 127 = overfullBatch by
      decide +kernel] at hrun
    refine ⟨st, hrun, fun hkeeps ↦ Nat.not_lt.mpr hlength hkeeps.1, fun sorted ↦ ?_⟩
    rw [← hindex]
    exact foldl_apply_entry_index sorted fun reply hreply _ ↦ hlost reply hreply

end SwitchDelta.Kv
