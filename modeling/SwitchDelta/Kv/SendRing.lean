import SwitchDelta.Kv.Convergence
import SwitchDelta.Foundation.Transition

/-!
# The send ring of the batching index server

`server_batch_CPC` prepares each reply in a slot of a ring of `kStaticSendBuf` send buffers and posts
the prepared replies after the batch has been applied. When the ring is full, `get_send_msg_sg` waits
for completions, and if nothing is on its way it posts the prepared replies itself. Only every
`kMaxSignal`-th send is signalled, so the completions of the last sends of a batch never come, and a
thread that waits for them waits forever.

`acks_follow_application` says when no reply to an update is handed to the NIC before the index holds
the update or a newer one of the batch: the updates have nonzero keys, some update of a key is newer
than the reads of the key, two updates of a key have different timestamps, and no batch takes more
requests than the ring has slots while the number of replies posted before is a multiple of
`kMaxSignal`. `acks_without_application` shows the two ways in which the source breaks this: a key
that is zero is never written, because `last_key` starts as zero, and the request after the last slot
of the ring posts a whole batch that has not been applied.

A batch that fits the ring is applied and answered as if each reply had a buffer of its own
(`BatchState.Aligned.flush_index`, `BatchState.Aligned.flush_posted`), which is how `BatchServer` has it.
-/

set_option autoImplicit false
set_option relaxedAutoImplicit false

namespace SwitchDelta.Kv

/-! ### The ring -/

/-- `kMaxSignal`: each send of this number is signalled. -/
def kMaxSignal : ℕ := 32

/-- `QPInfo::kStaticSendBuf`. -/
def kStaticSendBuf : ℕ := kMaxSignal * 4

/-- The sending side of `QPInfo`. The list `signals` has the `signal_cnt` of the signalled sends whose
completion has not been polled. At most `kStaticSendBuf / kMaxSignal` of them are on their way, which
is less than the length of the completion queue, so `check_signal` does nothing. -/
structure SendRing where
  buf : List RawKvMsg
  send_buf_pos : ℕ
  send_begin_id : ℕ
  send_pending_cnt : ℕ
  send_counter : ℕ
  send_cnt_bf_signal : ℕ
  signals : List ℕ

/-- A ring with nothing in it, whose buffers have any content. -/
def SendRing.init (buf : List RawKvMsg) : SendRing :=
  ⟨buf, 0, 0, 0, 0, 0, []⟩

/-- The slot of the `i`-th prepared reply. -/
def SendRing.slot (r : SendRing) (i : ℕ) : ℕ :=
  (r.send_begin_id + i) % kStaticSendBuf

/-- The replies that wait to be posted. -/
def SendRing.prepared (r : SendRing) : List RawKvMsg :=
  (List.range r.send_pending_cnt).filterMap fun i ↦ r.buf[r.slot i]?

/-- One send in `generate_and_issue_batch`: `send_cnt_bf_signal` and the signals. -/
def issueSend (st : ℕ × List ℕ) : ℕ × List ℕ :=
  if st.1 + 1 = kMaxSignal then (0, st.2 ++ [st.1 + 1]) else (st.1 + 1, st.2)

/-- `post_appended_smsg`: the replies handed to the NIC and the ring after it. -/
def SendRing.post_appended_smsg (r : SendRing) : List RawKvMsg × SendRing :=
  if r.send_pending_cnt = 0 then ([], r)
  else
    let issued := issueSend^[r.send_pending_cnt] (r.send_cnt_bf_signal, r.signals)
    (r.prepared,
      { r with
        send_begin_id := r.send_buf_pos
        send_pending_cnt := 0
        send_counter := r.send_counter + r.send_pending_cnt
        send_cnt_bf_signal := issued.1
        signals := issued.2 })

/-- The loop of `get_send_msg_sg`, with at most `fuel` rounds. The result is `none` while the thread
waits for a completion that does not come. -/
def SendRing.waitForSlot : ℕ → SendRing → Option (List RawKvMsg × SendRing)
  | 0, _ => none
  | fuel + 1, r =>
    if r.send_counter + r.send_pending_cnt < kStaticSendBuf then some ([], r)
    else
      let (posted, r) := if r.send_counter = 0 then r.post_appended_smsg else ([], r)
      match r.signals with
      | [] => none
      | signal_cnt :: signals =>
        (waitForSlot fuel
          { r with send_counter := r.send_counter - signal_cnt, signals := signals }).map
          fun result ↦ (posted ++ result.1, result.2)

/-- `get_send_msg_sg`. Each round polls one completion, and a post brings those of one ring, of which
the first makes room: the rounds are enough, see `SendRing.get_send_msg_sg_isSome_iff`. -/
def SendRing.get_send_msg_sg (r : SendRing) : Option (List RawKvMsg × SendRing) :=
  r.waitForSlot (r.signals.length + 3)

/-- The bookkeeping of the ring: what is not accounted for by a signal is behind the last one. -/
structure SendRing.Ok (r : SendRing) : Prop where
  length : r.buf.length = kStaticSendBuf
  pos : r.send_buf_pos = r.slot r.send_pending_cnt
  pending : r.send_pending_cnt ≤ kStaticSendBuf
  signals : ∀ signal_cnt ∈ r.signals, signal_cnt = kMaxSignal
  counter : r.send_counter = r.send_cnt_bf_signal + kMaxSignal * r.signals.length
  behind : r.send_cnt_bf_signal < kMaxSignal

theorem SendRing.init_ok {buf : List RawKvMsg} (hlength : buf.length = kStaticSendBuf) :
    (SendRing.init buf).Ok :=
  ⟨hlength, rfl, Nat.zero_le _, by simp [SendRing.init], rfl, Nat.zero_lt_succ _⟩

/-- A number of sends: each full group of `kMaxSignal` has brought a signal. -/
theorem issueSend_iterate {bf : ℕ} (hbf : bf < kMaxSignal) (signals : List ℕ) (n : ℕ) :
    issueSend^[n] (bf, signals) =
      ((bf + n) % kMaxSignal, signals ++ List.replicate ((bf + n) / kMaxSignal) kMaxSignal) := by
  induction n with
  | zero => simp [Nat.mod_eq_of_lt hbf, Nat.div_eq_of_lt hbf]
  | succ n ih =>
    rw [Function.iterate_succ_apply', ih, issueSend]
    dsimp only
    have hpos : 0 < kMaxSignal := by decide
    have hlt := Nat.mod_lt (bf + n) hpos
    split_ifs with hfull
    · have hmod : (bf + (n + 1)) % kMaxSignal = 0 := by unfold kMaxSignal at *; omega
      have hdiv : (bf + (n + 1)) / kMaxSignal = (bf + n) / kMaxSignal + 1 := by
        unfold kMaxSignal at *; omega
      rw [hmod, hdiv, hfull, List.replicate_succ', List.append_assoc]
    · have hmod : (bf + (n + 1)) % kMaxSignal = (bf + n) % kMaxSignal + 1 := by
        unfold kMaxSignal at *; omega
      have hdiv : (bf + (n + 1)) / kMaxSignal = (bf + n) / kMaxSignal := by
        unfold kMaxSignal at *; omega
      rw [hmod, hdiv]

theorem SendRing.slot_lt (r : SendRing) (i : ℕ) : r.slot i < kStaticSendBuf :=
  Nat.mod_lt _ (by decide)

theorem SendRing.slot_inj {r : SendRing} {i j : ℕ} (hi : i < kStaticSendBuf)
    (hj : j < kStaticSendBuf) : r.slot i = r.slot j ↔ i = j := by
  unfold SendRing.slot kStaticSendBuf kMaxSignal at *
  omega

theorem SendRing.Ok.prepared_length {r : SendRing} (hok : r.Ok) :
    r.prepared.length = r.send_pending_cnt := by
  unfold SendRing.prepared
  rw [List.length_filterMap_eq_countP, List.countP_eq_length.mpr, List.length_range]
  intro i _
  rw [List.getElem?_eq_getElem (hok.length ▸ r.slot_lt i)]
  rfl

/-- The replies that wait are in the slots from `send_begin_id` on. -/
theorem SendRing.Ok.getElem?_prepared {r : SendRing} (hok : r.Ok) {i : ℕ}
    (hi : i < r.send_pending_cnt) : r.prepared[i]? = r.buf[r.slot i]? := by
  have hbuf (j : ℕ) : ∃ reply, r.buf[r.slot j]? = some reply :=
    ⟨_, List.getElem?_eq_getElem (hok.length ▸ r.slot_lt j)⟩
  choose reply hreply using hbuf
  have hmap : r.prepared = (List.range r.send_pending_cnt).map reply := by
    unfold SendRing.prepared
    simp only [hreply]
    exact congrFun List.filterMap_eq_map' _
  rw [hmap, List.getElem?_map, List.getElem?_range hi, hreply]
  rfl

/-- A post leaves the buffers and the next one alone. -/
theorem SendRing.post_same (r : SendRing) : r.post_appended_smsg.2.buf = r.buf ∧
    r.post_appended_smsg.2.send_buf_pos = r.send_buf_pos := by
  unfold SendRing.post_appended_smsg
  split_ifs <;> exact ⟨rfl, rfl⟩

/-- A post hands over the prepared replies and keeps the books. -/
theorem SendRing.Ok.post {r : SendRing} (hok : r.Ok) :
    r.post_appended_smsg.1 = r.prepared ∧ r.post_appended_smsg.2.Ok ∧
      r.post_appended_smsg.2.send_pending_cnt = 0 ∧
      r.post_appended_smsg.2.send_cnt_bf_signal =
        (r.send_cnt_bf_signal + r.send_pending_cnt) % kMaxSignal := by
  unfold SendRing.post_appended_smsg
  split_ifs with hzero
  · refine ⟨by simp [SendRing.prepared, hzero], hok, hzero, ?_⟩
    rw [hzero, Nat.add_zero, Nat.mod_eq_of_lt hok.behind]
  · rw [issueSend_iterate hok.behind]
    have hpos : r.send_buf_pos < kStaticSendBuf := by
      rw [hok.pos]
      exact Nat.mod_lt _ (by decide)
    refine ⟨rfl, ⟨hok.length, ?_, Nat.zero_le _, ?_, ?_, Nat.mod_lt _ (by decide)⟩, rfl, rfl⟩
    · exact (Nat.mod_eq_of_lt hpos).symm
    · intro signal_cnt hmem
      rcases List.mem_append.mp hmem with hmem | hmem
      · exact hok.signals _ hmem
      · exact List.eq_of_mem_replicate hmem
    · have hcounter := hok.counter
      simp only [List.length_append, List.length_replicate]
      unfold kMaxSignal at *
      omega

/-- A completion that is polled. -/
theorem SendRing.Ok.poll {r : SendRing} (hok : r.Ok) {signal_cnt : ℕ} {signals : List ℕ}
    (hsignals : r.signals = signal_cnt :: signals) :
    SendRing.Ok { r with send_counter := r.send_counter - signal_cnt, signals := signals } := by
  have hcnt : signal_cnt = kMaxSignal := hok.signals _ (by simp [hsignals])
  refine ⟨hok.length, hok.pos, hok.pending, fun c hc ↦ hok.signals c (by simp [hsignals, hc]), ?_,
    hok.behind⟩
  have hcounter := hok.counter
  rw [hsignals, List.length_cons] at hcounter
  change r.send_counter - signal_cnt = r.send_cnt_bf_signal + kMaxSignal * signals.length
  rw [hcounter, hcnt, Nat.mul_succ]
  omega

/-- After the wait there is a free slot, and the buffers are what they were. -/
theorem SendRing.waitForSlot_ok {fuel : ℕ} {r r' : SendRing} {posted : List RawKvMsg} (hok : r.Ok)
    (h : r.waitForSlot fuel = some (posted, r')) :
    r'.Ok ∧ r'.send_pending_cnt < kStaticSendBuf ∧ r'.buf = r.buf ∧
      r'.send_buf_pos = r.send_buf_pos ∧
      r'.send_cnt_bf_signal = (r.send_cnt_bf_signal + posted.length) % kMaxSignal := by
  induction fuel generalizing r posted with
  | zero => simp [SendRing.waitForSlot] at h
  | succ fuel ih =>
    rw [SendRing.waitForSlot] at h
    split_ifs at h with hfree hcounter
    · obtain ⟨rfl, rfl⟩ := Prod.mk.inj (Option.some.inj h)
      exact ⟨hok, by omega, rfl, rfl, (Nat.mod_eq_of_lt hok.behind).symm⟩
    · -- the prepared replies are posted first
      obtain ⟨hprepared, hok', -, hbehind⟩ := hok.post
      obtain ⟨hbuf, hpos⟩ := r.post_same
      cases hsignals : r.post_appended_smsg.2.signals with
      | nil => simp [hsignals] at h
      | cons signal_cnt signals =>
        simp only [hsignals, Option.map_eq_some_iff, Prod.mk.injEq] at h
        obtain ⟨⟨rest, r''⟩, hrest, rfl, rfl⟩ := h
        obtain ⟨hok'', hlt, hbuf', hpos', hbehind'⟩ := ih (hok'.poll hsignals) hrest
        refine ⟨hok'', hlt, hbuf'.trans hbuf, hpos'.trans hpos, hbehind'.trans ?_⟩
        rw [List.length_append, hprepared, hok.prepared_length]
        dsimp only
        rw [hbehind, Nat.mod_add_mod, Nat.add_assoc]
    · cases hsignals : r.signals with
      | nil => simp [hsignals] at h
      | cons signal_cnt signals =>
        simp only [hsignals, List.nil_append, Prod.mk.eta, Option.map_id'] at h
        have hrest := ih (hok.poll hsignals) h
        exact hrest

/-- Unless a whole ring of replies is prepared behind a signalled send, the wait for a slot posts
nothing. -/
theorem SendRing.waitForSlot_of_room {fuel : ℕ} {r r' : SendRing} {posted : List RawKvMsg}
    (hok : r.Ok) (hroom : ¬ (r.send_pending_cnt = kStaticSendBuf ∧ r.send_cnt_bf_signal = 0))
    (h : r.waitForSlot fuel = some (posted, r')) :
    posted = [] ∧ r'.Ok ∧ r'.send_pending_cnt < kStaticSendBuf ∧
      r' = { r with send_counter := r'.send_counter, signals := r'.signals } := by
  induction fuel generalizing r posted with
  | zero => simp [SendRing.waitForSlot] at h
  | succ fuel ih =>
    rw [SendRing.waitForSlot] at h
    split_ifs at h with hfree hcounter
    · obtain ⟨rfl, rfl⟩ := Prod.mk.inj (Option.some.inj h)
      exact ⟨rfl, hok, by omega, rfl⟩
    · -- nothing is on its way, so the ring is full of prepared replies
      refine absurd ⟨?_, ?_⟩ hroom
      · have hle := hok.pending
        omega
      · have hzero := hok.counter
        omega
    · cases hsignals : r.signals with
      | nil => simp [hsignals] at h
      | cons signal_cnt signals =>
        simp only [hsignals, List.nil_append, Prod.mk.eta, Option.map_id'] at h
        obtain ⟨hposted, hok', hlt, hsame⟩ := ih (hok.poll hsignals) hroom h
        exact ⟨hposted, hok', hlt, hsame⟩

theorem SendRing.waitForSlot_isSome_iff {fuel : ℕ} {r : SendRing} (hok : r.Ok)
    (hfuel : r.signals.length + 3 ≤ fuel) :
    (r.waitForSlot fuel).isSome ↔
      r.send_cnt_bf_signal + r.send_pending_cnt < kStaticSendBuf ∨ r.send_cnt_bf_signal = 0 := by
  induction fuel generalizing r with
  | zero => omega
  | succ fuel ih =>
    have hcounter := hok.counter
    have hle := hok.pending
    rw [SendRing.waitForSlot]
    split_ifs with hfree hzero
    · simp only [Option.isSome_some, true_iff]
      omega
    · -- the post brings the signals of a whole ring, and the first completion makes room
      have hbf : r.send_cnt_bf_signal = 0 := by omega
      have hpending : r.send_pending_cnt = kStaticSendBuf := by omega
      have hne : r.send_pending_cnt ≠ 0 := by rw [hpending]; decide
      have hlen : r.signals = [] := by
        refine List.eq_nil_of_length_eq_zero ?_
        unfold kMaxSignal at hcounter
        omega
      have hpost : r.post_appended_smsg = (r.prepared,
          { r with
            send_begin_id := r.send_buf_pos
            send_pending_cnt := 0
            send_counter := kStaticSendBuf
            send_cnt_bf_signal := 0
            signals := [kMaxSignal, kMaxSignal, kMaxSignal, kMaxSignal] }) := by
        rw [SendRing.post_appended_smsg, if_neg hne, issueSend_iterate hok.behind, hlen, hbf,
          hpending, hzero]
        rfl
      obtain ⟨n, rfl⟩ : ∃ n, fuel = n + 1 := ⟨fuel - 1, by omega⟩
      simp only [hpost, Option.isSome_map]
      rw [SendRing.waitForSlot,
        if_pos (show kStaticSendBuf - kMaxSignal + 0 < kStaticSendBuf by decide)]
      simp [hbf]
    · cases hsignals : r.signals with
      | nil =>
        rw [hsignals, List.length_nil, Nat.mul_zero, Nat.add_zero] at hcounter
        simp only [hsignals, Option.isSome_none, Bool.false_eq_true, false_iff, not_or]
        rw [← hcounter]
        exact ⟨hfree, hzero⟩
      | cons signal_cnt signals =>
        rw [hsignals, List.length_cons] at hfuel
        simp only [hsignals, Option.isSome_map]
        exact ih (hok.poll hsignals) (by dsimp only; omega)

/-- The thread gets a slot exactly when the sends behind the last signal leave room for the prepared
replies, or there are none of them. Otherwise it waits for a completion that never comes. -/
theorem SendRing.get_send_msg_sg_isSome_iff {r : SendRing} (hok : r.Ok) :
    r.get_send_msg_sg.isSome ↔
      r.send_cnt_bf_signal + r.send_pending_cnt < kStaticSendBuf ∨ r.send_cnt_bf_signal = 0 :=
  SendRing.waitForSlot_isSome_iff hok le_rfl

/-! ### The server loop over the ring -/

/-- A reply that was handed to the NIC, with the index at that time and the requests of the batch that
was in the array. -/
structure Posted where
  reply : RawKvMsg
  index : Index
  batch : List RawKvMsg

/-- The variables of `server_batch_CPC`. The requests behind the array and the replies handed to the
NIC so far are recorded. -/
structure BatchState where
  ring : SendRing
  batch : List BatchEntry
  index : Index
  onpath : Bool
  polled : ℕ
  requests : List RawKvMsg
  posted : List Posted

/-- The state before the first poll. -/
def BatchState.init (buf : List RawKvMsg) (index : Index) : BatchState :=
  ⟨SendRing.init buf, [], index, false, 0, [], []⟩

/-- The prepared reply is put into its slot and appended to the ring. -/
def SendRing.append (r : SendRing) (reply : RawKvMsg) : SendRing :=
  { r with
    buf := r.buf.set r.send_buf_pos reply
    send_buf_pos := (r.send_buf_pos + 1) % kStaticSendBuf
    send_pending_cnt := r.send_pending_cnt + 1 }

/-- The body of the poll loop for one request. `modify_smsg_size` and `modify_smsg_dst_port` ask for
the slot again and find it free. -/
def BatchState.collect (st : BatchState) (req : RawKvMsg) : Option BatchState :=
  match st.ring.get_send_msg_sg with
  | none => none
  | some (early, ring) =>
    match ring.buf[ring.send_buf_pos]? with
    | none => none
    | some buf =>
      match batch_reply req buf with
      | none => none
      | some reply =>
        some
          { ring := ring.append reply
            batch := st.batch ++ [batchEntryOf ring.send_buf_pos reply]
            index := st.index
            onpath := st.onpath || Kv.onpath req
            polled := st.polled + 1
            requests := st.requests ++ [req]
            posted := st.posted ++ early.map fun reply ↦ ⟨reply, st.index, st.requests⟩ }

/-- What a request that is collected leaves behind. -/
theorem BatchState.collect_eq_some {st st' : BatchState} {req : RawKvMsg}
    (h : st.collect req = some st') :
    ∃ early ring buf reply, st.ring.get_send_msg_sg = some (early, ring) ∧
      batch_reply req buf = some reply ∧
      st' =
        { ring := ring.append reply
          batch := st.batch ++ [batchEntryOf ring.send_buf_pos reply]
          index := st.index
          onpath := st.onpath || Kv.onpath req
          polled := st.polled + 1
          requests := st.requests ++ [req]
          posted := st.posted ++ early.map fun reply ↦ ⟨reply, st.index, st.requests⟩ } := by
  unfold BatchState.collect at h
  cases hget : st.ring.get_send_msg_sg with
  | none => simp [hget] at h
  | some result =>
    obtain ⟨early, ring⟩ := result
    cases hbuf : ring.buf[ring.send_buf_pos]? with
    | none => simp [hget, hbuf] at h
    | some buf =>
      cases hreply : batch_reply req buf with
      | none => simp [hget, hbuf, hreply] at h
      | some reply =>
        simp only [hget, hbuf, hreply, Option.some.injEq] at h
        exact ⟨early, ring, buf, reply, rfl, hreply, h.symm⟩

/-- The end of a poll at which the batch stays in the array. -/
def BatchState.Keeps (f : Flags) (st : BatchState) : Prop :=
  st.batch.length < f.batch_size.toNat ∧ st.onpath = false ∧ f.batch = true

/-- The end of a poll at which the batch is applied and its replies are posted. -/
def BatchState.flush (st : BatchState) (sorted : List BatchEntry) : BatchState :=
  let result := apply_batch st.index st.ring.buf sorted
  let post := { st.ring with buf := result.replies }.post_appended_smsg
  { ring := post.2
    batch := []
    index := result.index
    onpath := false
    polled := 0
    requests := []
    posted := st.posted ++ post.1.map fun reply ↦ ⟨reply, result.index, st.requests⟩ }

/-- What the server does in a step. -/
inductive BatchLabel
  | collect (req : RawKvMsg)
  | keep
  | flush

/-- One step of `server_batch_CPC`: a request of a poll, or the end of a poll. -/
inductive BatchStep (f : Flags) : BatchState → BatchLabel → BatchState → Prop
  | collect {st st' : BatchState} {req : RawKvMsg} :
      st.polled < kMaxWcCnt → st.collect req = some st' → BatchStep f st (.collect req) st'
  | keep {st : BatchState} :
      st.Keeps f → BatchStep f st .keep { st with onpath := false, polled := 0 }
  | flush {st : BatchState} {sorted : List BatchEntry} :
      ¬ st.Keeps f → StdSort st.batch sorted → BatchStep f st .flush (st.flush sorted)

/-! ### Acknowledgements -/

/-- The index holds the update that a reply acknowledges, or a newer one of the batch. -/
def Posted.Acknowledges (p : Posted) : Prop :=
  p.reply.IsUpdate →
    p.index p.reply.long_key = some p.reply.log_id ∨
      ∃ req ∈ p.batch, req.IsIndexWrite ∧ req.long_key = p.reply.long_key ∧
        timestampValue p.reply.timestamp < timestampValue req.timestamp ∧
        p.index p.reply.long_key = some req.log_id

/-- A batch whose updates the apply loop does not lose: no key is zero, the reads of a key that has
updates are older than one of them, and updates of a key with one timestamp are the same. -/
structure Orderly (batch : List RawKvMsg) : Prop where
  key_ne_zero : ∀ req ∈ batch, req.IsIndexWrite → req.long_key ≠ 0
  read_older : ∀ read ∈ batch, ¬ read.IsIndexWrite → ∀ req ∈ batch, req.IsIndexWrite →
    req.long_key = read.long_key → ∃ newer ∈ batch, newer.IsIndexWrite ∧
      newer.long_key = read.long_key ∧
      timestampValue read.timestamp < timestampValue newer.timestamp
  distinct : ∀ req ∈ batch, req.IsIndexWrite → ∀ req' ∈ batch, req'.IsIndexWrite →
    req.long_key = req'.long_key → timestampValue req.timestamp = timestampValue req'.timestamp →
    req.log_id = req'.log_id

/-- The steps in which the source keeps its promise: a batch that is applied is orderly, and no
request comes to a batch that fills the ring behind a signalled send. -/
def KeepsOrder (st : BatchState) : BatchLabel → Prop
  | .collect _ => ¬ (st.requests.length = kStaticSendBuf ∧ kMaxSignal ∣ st.posted.length)
  | .keep => True
  | .flush => Orderly st.requests

/-- Between two steps, the array and the ring hold the replies to the requests of the batch, in the
order of arrival. -/
structure BatchState.Aligned (st : BatchState) : Prop where
  ring : st.ring.Ok
  behind : st.ring.send_cnt_bf_signal = st.posted.length % kMaxSignal
  pending : st.ring.send_pending_cnt = st.requests.length
  length : st.batch.length = st.requests.length
  replies : ∀ (i : ℕ) (req : RawKvMsg), st.requests[i]? = some req → ∃ buf reply,
    batch_reply req buf = some reply ∧ st.ring.buf[st.ring.slot i]? = some reply ∧
      st.batch[i]? = some (batchEntryOf (st.ring.slot i) reply)

/-- The array is aligned, and every reply that was posted acknowledges an update that the index
held. -/
structure BatchState.Sound (st : BatchState) : Prop extends st.Aligned where
  acks : ∀ p ∈ st.posted, p.Acknowledges

theorem BatchState.Aligned.init {buf : List RawKvMsg} (hlength : buf.length = kStaticSendBuf)
    (index : Index) : (BatchState.init buf index).Aligned where
  ring := SendRing.init_ok hlength
  behind := rfl
  pending := rfl
  length := rfl
  replies := by simp [BatchState.init]

theorem BatchState.Sound.init {buf : List RawKvMsg} (hlength : buf.length = kStaticSendBuf)
    (index : Index) : (BatchState.init buf index).Sound :=
  ⟨.init hlength index, by simp [BatchState.init]⟩

/-- A reply that is appended to a ring with a free slot. -/
theorem SendRing.Ok.append {r : SendRing} (hok : r.Ok) (hlt : r.send_pending_cnt < kStaticSendBuf)
    (reply : RawKvMsg) : (r.append reply).Ok := by
  refine ⟨by simp [SendRing.append, hok.length], ?_, hlt, hok.signals, hok.counter, hok.behind⟩
  have hpos := hok.pos
  simp only [SendRing.append, SendRing.slot] at hpos ⊢
  rw [hpos, Nat.mod_add_mod, Nat.add_assoc]

/-- The other prepared replies stay in their slots. -/
theorem SendRing.append_buf {r : SendRing} (hok : r.Ok) (hlt : r.send_pending_cnt < kStaticSendBuf)
    (reply : RawKvMsg) {i : ℕ} (hi : i ≤ r.send_pending_cnt) :
    (r.append reply).buf[(r.append reply).slot i]? =
      if i = r.send_pending_cnt then some reply else r.buf[r.slot i]? := by
  have hslot : (r.append reply).slot i = r.slot i := rfl
  have hbuf : (r.append reply).buf = r.buf.set (r.slot r.send_pending_cnt) reply := by
    rw [SendRing.append, hok.pos]
  rw [hslot, hbuf]
  split_ifs with heq
  · rw [heq]
    exact List.getElem?_set_self (hok.length ▸ r.slot_lt _)
  · refine List.getElem?_set_ne fun hsame ↦ heq ?_
    exact ((SendRing.slot_inj hlt (lt_of_le_of_lt hi hlt)).mp hsame).symm

/-- A request that comes while the ring has room joins the array, and nothing is posted. -/
theorem BatchState.Aligned.collect {st st' : BatchState} {req : RawKvMsg} (h : st.Aligned)
    (hok : ¬ (st.requests.length = kStaticSendBuf ∧ kMaxSignal ∣ st.posted.length))
    (hcollect : st.collect req = some st') :
    st'.Aligned ∧ st'.posted = st.posted ∧ st'.requests.length ≤ kStaticSendBuf := by
  have hroom : ¬ (st.ring.send_pending_cnt = kStaticSendBuf ∧ st.ring.send_cnt_bf_signal = 0) := by
    rw [h.pending, h.behind, ← Nat.dvd_iff_mod_eq_zero]
    exact hok
  obtain ⟨early, ring, buf, reply, hget, hreply, rfl⟩ := BatchState.collect_eq_some hcollect
  obtain ⟨rfl, hring, hlt, hsame⟩ := SendRing.waitForSlot_of_room h.ring hroom hget
  have hpending : ring.send_pending_cnt = st.requests.length := by rw [hsame, ← h.pending]
  have hslot (i : ℕ) : ring.slot i = st.ring.slot i := by rw [hsame]; rfl
  have hold : ring.buf = st.ring.buf := by rw [hsame]
  refine ⟨⟨hring.append hlt reply, ?_, ?_, ?_, fun i r hr ↦ ?_⟩, by simp, ?_⟩
  · have hbehind : ring.send_cnt_bf_signal = st.ring.send_cnt_bf_signal := by rw [hsame]
    simpa [SendRing.append, hbehind] using h.behind
  · simp [SendRing.append, hpending]
  · simp [h.length]
  · have hi : i ≤ ring.send_pending_cnt := by
      have hi' := (List.getElem?_eq_some_iff.mp hr).1
      simp only [List.length_append, List.length_singleton] at hi'
      omega
    rw [SendRing.append_buf hring hlt reply hi]
    have happend : (ring.append reply).slot i = st.ring.slot i := hslot i
    split_ifs with hlast
    · subst hlast
      rw [hpending, List.getElem?_concat_length] at hr
      obtain rfl := Option.some.inj hr
      refine ⟨buf, reply, hreply, rfl, ?_⟩
      rw [hpending, ← h.length, List.getElem?_concat_length, hring.pos, hpending, h.length]
      rfl
    · rw [List.getElem?_append_left (by omega)] at hr
      obtain ⟨buf', reply', hreply', hbuf', hbatch'⟩ := h.replies i r hr
      refine ⟨buf', reply', hreply', ?_, ?_⟩
      · rw [hslot, hold]
        exact hbuf'
      · rw [happend, List.getElem?_append_left (by rw [h.length]; omega)]
        exact hbatch'
  · rw [List.length_append, List.length_singleton, ← hpending]
    exact hlt

theorem BatchState.Sound.collect {st st' : BatchState} {req : RawKvMsg} (h : st.Sound)
    (hok : KeepsOrder st (.collect req)) (hcollect : st.collect req = some st') : st'.Sound := by
  obtain ⟨haligned, hposted, -⟩ := h.toAligned.collect hok hcollect
  exact ⟨haligned, hposted ▸ h.acks⟩

/-- The place in the batch of a slot. -/
def SendRing.unslot (r : SendRing) (addr : ℕ) : ℕ :=
  (addr + (kStaticSendBuf - r.send_begin_id % kStaticSendBuf)) % kStaticSendBuf

theorem SendRing.unslot_slot (r : SendRing) {i : ℕ} (hi : i < kStaticSendBuf) :
    r.unslot (r.slot i) = i := by
  unfold SendRing.unslot SendRing.slot kStaticSendBuf kMaxSignal at *
  omega

/-- An array entry whose reply is at its place in the batch instead of its slot. -/
def SendRing.inPlace (r : SendRing) (entry : BatchEntry) : BatchEntry :=
  { entry with reply_addr := r.unslot entry.reply_addr }

/-- The apply loop writes into the buffers only. -/
theorem SendRing.Ok.apply_batch {r : SendRing} (hok : r.Ok) (index : Index)
    (sorted : List BatchEntry) :
    SendRing.Ok { r with buf := (Kv.apply_batch index r.buf sorted).replies } :=
  ⟨(foldl_apply_entry_length sorted _).trans hok.length, hok.pos, hok.pending, hok.signals,
    hok.counter, hok.behind⟩

section Flush

variable {st : BatchState} {sorted : List BatchEntry} (h : st.Aligned)
  (hsort : StdSort st.batch sorted)

include h

theorem BatchState.Aligned.length_le : st.requests.length ≤ kStaticSendBuf := by
  rw [← h.pending]
  exact h.ring.pending

/-- The entries of the array, each with its request and its reply. -/
theorem BatchState.Aligned.exists_request {entry : BatchEntry} (hentry : entry ∈ st.batch) :
    ∃ i req buf reply, st.requests[i]? = some req ∧ batch_reply req buf = some reply ∧
      st.ring.buf[st.ring.slot i]? = some reply ∧ entry = batchEntryOf (st.ring.slot i) reply := by
  obtain ⟨i, hi⟩ := List.mem_iff_getElem?.mp hentry
  have hlt := (List.getElem?_eq_some_iff.mp hi).1
  obtain ⟨buf, reply, hreply, hbuf, hbatch⟩ :=
    h.replies i _ (List.getElem?_eq_getElem (h.length ▸ hlt))
  exact ⟨i, _, buf, reply, List.getElem?_eq_getElem _, hreply, hbuf,
    Option.some.inj (hi.symm.trans hbatch)⟩

theorem BatchState.Aligned.describes : Describes st.batch st.ring.buf := by
  intro entry hentry
  obtain ⟨i, req, buf, reply, -, -, hbuf, rfl⟩ := h.exists_request hentry
  exact ⟨reply, hbuf, rfl⟩

/-- The addresses in the array are the first slots from `send_begin_id` on. -/
theorem BatchState.Aligned.addr_eq :
    st.batch.map BatchEntry.reply_addr = (List.range st.requests.length).map st.ring.slot := by
  apply List.ext_getElem?
  intro i
  by_cases hi : i < st.requests.length
  · obtain ⟨buf, reply, -, -, hbatch⟩ := h.replies i _ (List.getElem?_eq_getElem hi)
    simp [hbatch, batchEntryOf, hi]
  · simp [hi, h.length]

/-- The prepared replies are those to the requests. -/
theorem BatchState.Aligned.prepared : Prepared st.requests st.ring.prepared := by
  have hlength : st.ring.prepared.length = st.requests.length := by
    rw [h.ring.prepared_length, h.pending]
  refine List.forall₂_iff_get.mpr ⟨hlength.symm, fun i hi hi' ↦ ?_⟩
  obtain ⟨buf, reply, hreply, hbuf, -⟩ := h.replies i _ (List.getElem?_eq_getElem hi)
  have hplace := h.ring.getElem?_prepared (h.pending.symm ▸ hi)
  rw [hbuf, List.getElem?_eq_getElem hi', Option.some.injEq] at hplace
  exact ⟨buf, by rw [List.get_eq_getElem, List.get_eq_getElem, hplace]; exact hreply⟩

/-- In its places, the array is that of the prepared replies. -/
theorem BatchState.Aligned.batch_inPlace :
    st.batch.map st.ring.inPlace = batchEntries st.ring.prepared := by
  apply List.ext_getElem?
  intro i
  have hle := h.length_le
  by_cases hi : i < st.requests.length
  · obtain ⟨buf, reply, -, hbuf, hbatch⟩ := h.replies i _ (List.getElem?_eq_getElem hi)
    have hplace := h.ring.getElem?_prepared (h.pending.symm ▸ hi)
    simp [batchEntries, hbatch, hplace, hbuf, SendRing.inPlace, batchEntryOf,
      st.ring.unslot_slot (hi.trans_le hle)]
  · have hnone : st.ring.prepared[i]? = none := by
      rw [List.getElem?_eq_none_iff, h.ring.prepared_length, h.pending]
      omega
    simp [batchEntries, hnone, hi, h.length]

include hsort

theorem BatchState.Aligned.sort_inPlace :
    StdSort (batchEntries st.ring.prepared) (sorted.map st.ring.inPlace) :=
  ⟨h.batch_inPlace ▸ hsort.1.map _, List.pairwise_map.mpr hsort.2⟩

theorem BatchState.Aligned.addr_mem {addr : ℕ} :
    addr ∈ sorted.map BatchEntry.reply_addr ↔ ∃ i < st.requests.length, st.ring.slot i = addr := by
  rw [(hsort.1.map _).mem_iff, h.addr_eq]
  simp

/-- What the apply loop leaves behind: the index, and in each slot of the batch its reply for that
index. -/
theorem BatchState.Aligned.apply_batch :
    (Kv.apply_batch st.index st.ring.buf sorted).index =
        (applyIndexes (st.index, 0) (orderedReplies st.ring.buf sorted)).1 ∧
      ∀ addr, (Kv.apply_batch st.index st.ring.buf sorted).replies[addr]? =
        if addr ∈ sorted.map BatchEntry.reply_addr then
          (st.ring.buf[addr]?).map
            (apply_reply (Kv.apply_batch st.index st.ring.buf sorted).index)
        else st.ring.buf[addr]? := by
  refine foldl_apply_entry sorted ⟨st.index, st.ring.buf, 0⟩ ?_ (fun entry hentry ↦ ?_)
    ((h.describes.ordered_pairwise hsort).imp fun h ↦ h.key_le)
  · rw [(hsort.1.map _).nodup_iff, h.addr_eq]
    refine List.Nodup.map_on (fun i hi j hj hij ↦ ?_) List.nodup_range
    have hle := h.length_le
    rw [List.mem_range] at hi hj
    exact (SendRing.slot_inj (by omega) (by omega)).mp hij
  · obtain ⟨i, -, hi⟩ := (h.addr_mem hsort).mp (List.mem_map_of_mem hentry)
    rw [← hi]
    exact h.ring.length ▸ st.ring.slot_lt i

/-- The loop meets the same replies in the slots and in their places. -/
theorem BatchState.Aligned.ordered_inPlace :
    orderedReplies st.ring.prepared (sorted.map st.ring.inPlace) =
      orderedReplies st.ring.buf sorted := by
  unfold orderedReplies
  rw [List.filterMap_map]
  refine List.filterMap_congr fun entry hentry ↦ ?_
  obtain ⟨i, hi, haddr⟩ := (h.addr_mem hsort).mp (List.mem_map_of_mem hentry)
  rw [Function.comp_apply, SendRing.inPlace, ← haddr,
    st.ring.unslot_slot (hi.trans_le h.length_le)]
  exact h.ring.getElem?_prepared (h.pending ▸ hi)

/-- The index after a batch, as if each reply had a buffer of its own. -/
theorem BatchState.Aligned.flush_index : (st.flush sorted).index =
    (Kv.apply_batch st.index st.ring.prepared (sorted.map st.ring.inPlace)).index := by
  rw [(apply_batch_spec st.index (h.sort_inPlace hsort)).1, h.ordered_inPlace hsort]
  exact (h.apply_batch hsort).1

/-- A batch that fits the ring is applied and answered as if each reply had a buffer of its own. -/
theorem BatchState.Aligned.flush_posted : (st.flush sorted).posted = st.posted ++
    (Kv.apply_batch st.index st.ring.prepared (sorted.map st.ring.inPlace)).replies.map
      fun reply ↦ ⟨reply, (st.flush sorted).index, st.requests⟩ := by
  have hring := h.ring.apply_batch st.index sorted
  refine congrArg (fun replies ↦ st.posted ++ List.map _ replies) ?_
  rw [hring.post.1, apply_batch_replies st.index (h.sort_inPlace hsort), ← h.flush_index hsort]
  apply List.ext_getElem?
  intro i
  by_cases hi : i < st.requests.length
  · have hpending : i < st.ring.send_pending_cnt := h.pending ▸ hi
    rw [hring.getElem?_prepared hpending, List.getElem?_map, h.ring.getElem?_prepared hpending]
    exact ((h.apply_batch hsort).2 _).trans
      (if_pos ((h.addr_mem hsort).mpr ⟨i, hi, rfl⟩))
  · have hpending : st.ring.send_pending_cnt ≤ i := by rw [h.pending]; omega
    rw [List.getElem?_eq_none (hring.prepared_length.trans_le hpending), List.getElem?_map,
      List.getElem?_eq_none (h.ring.prepared_length.trans_le hpending), Option.map_none]

theorem BatchState.Aligned.flush : (st.flush sorted).Aligned := by
  obtain ⟨-, hring, hzero, hbehind⟩ := (h.ring.apply_batch st.index sorted).post
  refine ⟨hring, ?_, hzero, rfl, by simp [BatchState.flush]⟩
  have hlength : (st.flush sorted).posted.length = st.posted.length + st.ring.send_pending_cnt := by
    rw [h.flush_posted hsort, List.length_append, List.length_map,
      apply_batch_replies st.index (h.sort_inPlace hsort), List.length_map, h.ring.prepared_length]
  refine hbehind.trans ?_
  rw [hlength]
  change (st.ring.send_cnt_bf_signal + st.ring.send_pending_cnt) % kMaxSignal = _
  rw [h.behind, Nat.mod_add_mod]

end Flush

/-- In an orderly batch, the index after the batch has the update of a request or a newer one. -/
theorem Orderly.index_of_update {requests replies : List RawKvMsg} {sorted : List BatchEntry}
    (horderly : Orderly requests) (index : Index) (hprepared : Prepared requests replies)
    (hsort : StdSort (batchEntries replies) sorted) {req : RawKvMsg} (hreq : req ∈ requests)
    (hwrite : req.IsIndexWrite) :
    ∃ newest ∈ requests, newest.IsIndexWrite ∧ newest.long_key = req.long_key ∧
      timestampValue req.timestamp ≤ timestampValue newest.timestamp ∧
      (Kv.apply_batch index replies sorted).index req.long_key = some newest.log_id := by
  have hordered (r : RawKvMsg) (hr : r ∈ requests) :
      ∃ reply ∈ orderedReplies replies sorted, (reply.IsUpdate ↔ r.IsIndexWrite) ∧
        reply.long_key = r.long_key ∧ reply.log_id = r.log_id ∧ reply.timestamp = r.timestamp := by
    obtain ⟨reply, hreply, buf, hbuf⟩ := hprepared.exists_reply hr
    exact ⟨reply, hsort.mem_ordered.mpr hreply, batch_reply_fields hbuf⟩
  have hrequest (reply : RawKvMsg) (hr : reply ∈ orderedReplies replies sorted) :
      ∃ r ∈ requests, (reply.IsUpdate ↔ r.IsIndexWrite) ∧
        reply.long_key = r.long_key ∧ reply.log_id = r.log_id ∧ reply.timestamp = r.timestamp := by
    obtain ⟨r, hr, buf, hbuf⟩ := hprepared.exists_request (hsort.mem_ordered.mp hr)
    exact ⟨r, hr, batch_reply_fields hbuf⟩
  have hlast : (index, (0 : UInt64)).2 ≠ req.long_key :=
    Ne.symm (horderly.key_ne_zero req hreq hwrite)
  obtain ⟨reply, hreply, hupdate, hkey, -, htime⟩ := hordered req hreq
  obtain ⟨newest, hnewest, hnewestupdate, hnewestkey, hgreatest, hindex⟩ :=
    applyIndexes_newest hlast hsort.ordered_pairwise
      (fun read hread hreadkey hnot ↦ by
        obtain ⟨r, hr, hrupdate, hrkey, -, hrtime⟩ := hrequest read hread
        obtain ⟨newer, hnewer, hnewerwrite, hnewerkey, hlt⟩ :=
          horderly.read_older r hr (mt hrupdate.mpr hnot) req hreq hwrite
            (hreadkey.symm.trans hrkey)
        obtain ⟨update, hup, hupupdate, hupkey, -, huptime⟩ := hordered newer hnewer
        refine ⟨update, hup, hupupdate.mpr hnewerwrite, ?_, ?_⟩
        · rw [hupkey, hnewerkey, ← hrkey, hreadkey]
        · rw [hrtime, huptime]
          exact hlt)
      ⟨reply, hreply, hupdate.mpr hwrite, hkey⟩
  obtain ⟨r, hr, hrupdate, hrkey, hrlog, hrtime⟩ := hrequest newest hnewest
  refine ⟨r, hr, hrupdate.mp hnewestupdate, hrkey.symm.trans hnewestkey, ?_, ?_⟩
  · have hle := hgreatest reply hreply hkey
    rw [htime, hrtime] at hle
    exact hle
  · rw [(apply_batch_spec index hsort).1, hindex, hrlog]

/-- The replies that are posted at the end of a batch acknowledge updates that the index holds. -/
theorem BatchState.Sound.flush {st : BatchState} {sorted : List BatchEntry} (h : st.Sound)
    (hsort : StdSort st.batch sorted) (horderly : Orderly st.requests) : (st.flush sorted).Sound := by
  have haligned := h.toAligned
  refine ⟨haligned.flush hsort, fun p hp ↦ ?_⟩
  have hsort' := haligned.sort_inPlace hsort
  rw [haligned.flush_posted hsort, apply_batch_replies st.index hsort', List.mem_append,
    List.mem_map] at hp
  rcases hp with hp | ⟨posted, hmem, rfl⟩
  · exact h.acks p hp
  · obtain ⟨reply, hreply, rfl⟩ := List.mem_map.mp hmem
    obtain ⟨req, hreq, buf, hbuf⟩ := haligned.prepared.exists_request hreply
    obtain ⟨hupdate, hkey, hlog, htime⟩ := batch_reply_fields hbuf
    obtain ⟨hop, hkey', hlog', htime'⟩ := apply_reply_fields
      (Kv.apply_batch st.index st.ring.prepared (sorted.map st.ring.inPlace)).index reply
    intro hposted
    dsimp only at hposted ⊢
    rw [RawKvMsg.IsUpdate, hop] at hposted
    have hwrite := hupdate.mp hposted
    obtain ⟨newest, hnewest, hnewestwrite, hnewestkey, hle, hindex⟩ :=
      horderly.index_of_update st.index haligned.prepared hsort' hreq hwrite
    rw [hkey', hlog' hposted, htime', hkey, hlog, htime, haligned.flush_index hsort]
    rcases hle.lt_or_eq with hlt | heq
    · exact Or.inr ⟨newest, hnewest, hnewestwrite, hnewestkey, hlt, hindex⟩
    · refine Or.inl ?_
      rw [horderly.distinct req hreq hwrite newest hnewest hnewestwrite hnewestkey.symm heq]
      exact hindex

/-! ### Runs -/

theorem BatchState.Sound.step {f : Flags} {st st' : BatchState} {label : BatchLabel} (h : st.Sound)
    (hok : KeepsOrder st label) (hstep : BatchStep f st label st') : st'.Sound := by
  cases hstep with
  | collect _ hcollect => exact h.collect hok hcollect
  | keep _ => exact ⟨⟨h.ring, h.behind, h.pending, h.length, h.replies⟩, h.acks⟩
  | flush _ hsort => exact h.flush hsort hok

/-- In every run whose steps keep the order, each reply to an update that is handed to the NIC
acknowledges an update that the index holds, or one that a newer update of the batch replaced. -/
theorem acks_follow_application (f : Flags) {buf : List RawKvMsg}
    (hlength : buf.length = kStaticSendBuf) (index : Index) {st : BatchState}
    (hst : Foundation.Reachable (BatchState.init buf index) (BatchStep f) KeepsOrder st) :
    ∀ p ∈ st.posted, p.Acknowledges :=
  (hst.invariant BatchState.Sound (BatchState.Sound.init hlength index)
    fun _ _ _ _ h hok hstep ↦ h.step hok hstep).acks

/-- The requests of a batch are those of earlier polls, fewer than `batch_size`, and those of this
poll. -/
def BatchState.Bounded (f : Flags) (st : BatchState) : Prop :=
  st.batch.length = st.requests.length ∧ st.requests.length ≤ f.batch_size.toNat - 1 + st.polled

theorem BatchState.Bounded.step {f : Flags} {st st' : BatchState} {label : BatchLabel}
    (h : st.Bounded f) (hstep : BatchStep f st label st') : st'.Bounded f := by
  obtain ⟨hlength, hle⟩ := h
  cases hstep with
  | collect _ hcollect =>
    obtain ⟨-, -, -, -, -, -, rfl⟩ := BatchState.collect_eq_some hcollect
    simp only [Bounded, List.length_append, List.length_singleton]
    omega
  | keep hkeeps =>
    refine ⟨hlength, ?_⟩
    have hlt := hkeeps.1
    dsimp only
    omega
  | flush => exact ⟨rfl, Nat.zero_le _⟩

/-- With a batch size for which the ring is longer than a batch and a poll together, the ring always
has room for the next request. -/
theorem BatchState.Bounded.requests_length_lt {f : Flags} {st : BatchState} (h : st.Bounded f)
    (hsize : f.batch_size.toNat + kMaxWcCnt ≤ kStaticSendBuf + 1) (hpolled : st.polled < kMaxWcCnt) :
    st.requests.length < kStaticSendBuf := by
  have hle := h.2
  unfold kStaticSendBuf kMaxSignal kMaxWcCnt at *
  omega

/-- Polls after which the batch stays in the array, one after the other. -/
def keepPolls (f : Flags) (st : BatchState) (polls : List (List RawKvMsg)) : Option BatchState :=
  polls.foldlM (fun st poll ↦ do
    let st ← poll.foldlM BatchState.collect st
    if st.batch.length < f.batch_size.toNat ∧ st.onpath = false ∧ f.batch = true then
      some { st with onpath := false, polled := 0 }
    else none) st

/-- A run of `server_batch_CPC` with the requests that arrived, in order, and those of the batches that
were applied. -/
inductive BatchRun (f : Flags) (start : BatchState) :
    List RawKvMsg → List (List RawKvMsg) → BatchState → Prop
  | nil : BatchRun f start [] [] start
  | collect {arrivals : List RawKvMsg} {batches : List (List RawKvMsg)} {st st' : BatchState}
      {req : RawKvMsg} : BatchRun f start arrivals batches st → BatchStep f st (.collect req) st' →
      BatchRun f start (arrivals ++ [req]) batches st'
  | keep {arrivals : List RawKvMsg} {batches : List (List RawKvMsg)} {st st' : BatchState} :
      BatchRun f start arrivals batches st → BatchStep f st .keep st' →
      BatchRun f start arrivals batches st'
  | flush {arrivals : List RawKvMsg} {batches : List (List RawKvMsg)} {st st' : BatchState} :
      BatchRun f start arrivals batches st → BatchStep f st .flush st' →
      BatchRun f start arrivals (batches ++ [st.requests]) st'

section BatchRun

variable {f : Flags} {start st st' : BatchState} {arrivals : List RawKvMsg}
  {batches : List (List RawKvMsg)}

theorem BatchRun.reachable (h : BatchRun f start arrivals batches st) :
    Foundation.Reachable start (BatchStep f) (fun _ _ ↦ True) st := by
  induction h with
  | nil => exact .init
  | collect _ hstep ih | keep _ hstep ih | flush _ hstep ih => exact ih.step trivial hstep

/-- The requests of a poll arrive one by one. -/
theorem BatchRun.poll {poll : List RawKvMsg} (h : BatchRun f start arrivals batches st)
    (hlength : st.polled + poll.length ≤ kMaxWcCnt)
    (hpoll : poll.foldlM BatchState.collect st = some st') :
    BatchRun f start (arrivals ++ poll) batches st' := by
  induction poll generalizing st arrivals with
  | nil =>
    obtain rfl := Option.some.inj hpoll
    rwa [List.append_nil]
  | cons req poll ih =>
    obtain ⟨next, hnext, hrest⟩ := Option.bind_eq_some_iff.mp hpoll
    rw [List.length_cons] at hlength
    have hpolled : next.polled = st.polled + 1 := by
      obtain ⟨-, -, -, -, -, -, rfl⟩ := BatchState.collect_eq_some hnext
      rfl
    rw [List.append_cons]
    exact ih (h.collect (.collect (by omega) hnext)) (by omega) hrest

theorem BatchRun.keepPolls {polls : List (List RawKvMsg)} (h : BatchRun f start arrivals batches st)
    (hpolled : st.polled = 0) (hlength : ∀ poll ∈ polls, poll.length ≤ kMaxWcCnt)
    (hpolls : keepPolls f st polls = some st') :
    BatchRun f start (arrivals ++ polls.flatten) batches st' ∧ st'.polled = 0 := by
  induction polls generalizing st arrivals with
  | nil =>
    obtain rfl := Option.some.inj hpolls
    exact ⟨by simpa using h, hpolled⟩
  | cons poll polls ih =>
    obtain ⟨next, hnext, hrest⟩ := Option.bind_eq_some_iff.mp hpolls
    obtain ⟨collected, hcollected, hkeep⟩ := Option.bind_eq_some_iff.mp hnext
    have hrun := h.poll
      (by rw [hpolled, Nat.zero_add]; exact hlength poll List.mem_cons_self) hcollected
    obtain ⟨hkeeps, hsome⟩ := Option.ite_none_right_eq_some.mp hkeep
    obtain rfl := Option.some.inj hsome
    rw [List.flatten_cons, ← List.append_assoc]
    exact ih (hrun.keep (.keep hkeeps)) rfl
      (fun p hp ↦ hlength p (List.mem_cons_of_mem _ hp)) hrest

end BatchRun

/-- The flags of an index node with one thread and the given batch size. -/
def batchFlags (batch_size : UInt32) : Flags :=
  ⟨1, 1, 1, 1, 100, 100, true, true, batch_size⟩

/-- A ring whose buffers all hold the same message. -/
def freshServer (index : Index) : BatchState :=
  BatchState.init (List.replicate kStaticSendBuf newerFastWrite) index

/-- A fast and a slow write of one key in a batch. -/
theorem acks_follow_application_two_writes :
    ∃ st, Foundation.Reachable (freshServer fun _ ↦ some 0) (BatchStep (batchFlags 2)) KeepsOrder st ∧
      st.posted ≠ [] ∧ ∀ p ∈ st.posted, p.Acknowledges := by
  obtain ⟨st₁, hst₁, st₂, hst₂, hcheck⟩ : ∃ st₁,
      (freshServer fun _ ↦ some 0).collect newerFastWrite = some st₁ ∧
        ∃ st₂, st₁.collect olderSlowWrite = some st₂ ∧
          (decide (st₁.polled = 1 ∧ st₁.requests.length = 1 ∧ st₂.onpath = true ∧
            st₂.requests = [newerFastWrite, olderSlowWrite] ∧
            StdSort st₂.batch st₂.batch ∧ (st₂.flush st₂.batch).posted.length = 2)) = true := by
    have hsome : (((freshServer fun _ ↦ some 0).collect newerFastWrite).bind fun st₁ ↦
        (st₁.collect olderSlowWrite).map fun st₂ ↦
          decide (st₁.polled = 1 ∧ st₁.requests.length = 1 ∧ st₂.onpath = true ∧
            st₂.requests = [newerFastWrite, olderSlowWrite] ∧
            StdSort st₂.batch st₂.batch ∧ (st₂.flush st₂.batch).posted.length = 2)) = some true := by
      decide +kernel
    obtain ⟨st₁, hst₁, hmap⟩ := Option.bind_eq_some_iff.mp hsome
    exact ⟨st₁, hst₁, Option.map_eq_some_iff.mp hmap⟩
  obtain ⟨hpolled, hlength, honpath, hrequests, hsort, hposted⟩ := of_decide_eq_true hcheck
  have horderly : Orderly st₂.requests := by
    rw [hrequests]
    have hwrites : ∀ req ∈ [newerFastWrite, olderSlowWrite], req.IsIndexWrite ∧ req.long_key ≠ 0 := by
      decide
    have hdistinct : ∀ req ∈ [newerFastWrite, olderSlowWrite],
        ∀ req' ∈ [newerFastWrite, olderSlowWrite],
          timestampValue req.timestamp = timestampValue req'.timestamp → req.log_id = req'.log_id := by
      decide
    exact ⟨fun req hreq _ ↦ (hwrites req hreq).2,
      fun read hread hnot ↦ absurd (hwrites read hread).1 hnot,
      fun req hreq _ req' hreq' _ _ htime ↦ hdistinct req hreq req' hreq' htime⟩
  have hreach : Foundation.Reachable (freshServer fun _ ↦ some 0) (BatchStep (batchFlags 2))
      KeepsOrder (st₂.flush st₂.batch) :=
    ((Foundation.Reachable.init.step (fun hfull ↦ absurd hfull.1 (by decide))
      (.collect (by decide) hst₁)).step (fun hfull ↦ absurd (hlength.symm.trans hfull.1) (by decide))
      (.collect (by rw [hpolled]; decide) hst₂)).step (show KeepsOrder st₂ .flush from horderly)
      (.flush (fun hkeeps ↦ by simp [hkeeps.2.1] at honpath) hsort)
  refine ⟨_, hreach, fun hnil ↦ ?_, acks_follow_application (batchFlags 2) (by simp) _ hreach⟩
  rw [hnil] at hposted
  exact absurd hposted (by decide)

/-- A slow write of key zero. -/
def writeOfZero : RawKvMsg := { olderSlowWrite with long_key := 0 }

/-- The negation of `Posted.Acknowledges`, as a test. -/
def Posted.lacksUpdate (p : Posted) : Bool :=
  decide p.reply.IsUpdate && p.index p.reply.long_key != some p.reply.log_id &&
    p.batch.all fun req ↦ !(decide req.IsIndexWrite && req.long_key == p.reply.long_key &&
      decide (timestampValue p.reply.timestamp < timestampValue req.timestamp) &&
      p.index p.reply.long_key == some req.log_id)

theorem Posted.not_acknowledges {p : Posted} (h : p.lacksUpdate = true) : ¬ p.Acknowledges := by
  simp only [Posted.lacksUpdate, Bool.and_eq_true, decide_eq_true_eq, bne_iff_ne, List.all_eq_true,
    Bool.not_eq_true', Bool.and_eq_false_iff, decide_eq_false_iff_not, beq_eq_false_iff_ne] at h
  obtain ⟨⟨hupdate, hne⟩, hall⟩ := h
  intro hacks
  rcases hacks hupdate with heq | ⟨req, hreq, hwrite, hkey, hlt, hindex⟩
  · exact hne heq
  · rcases hall req hreq with ((hno | hno) | hno) | hno
    · exact hno hwrite
    · exact hno hkey
    · exact hno hlt
    · exact hno hindex

/-- An update of key zero is acknowledged and not applied, and so is a batch of fast writes that fills
the ring when one more request comes. -/
theorem acks_without_application :
    (∃ st, Foundation.Reachable (freshServer fun _ ↦ some 0) (BatchStep (batchFlags 1))
        (fun _ _ ↦ True) st ∧ ∃ p ∈ st.posted, ¬ p.Acknowledges) ∧
      ∃ st, Foundation.Reachable (freshServer fun _ ↦ some 0) (BatchStep (batchFlags 200))
        (fun _ _ ↦ True) st ∧ ∃ p ∈ st.posted, ¬ p.Acknowledges := by
  constructor
  · obtain ⟨st, hst, hposted⟩ : ∃ st, (freshServer fun _ ↦ some 0).collect writeOfZero = some st ∧
        ((st.flush st.batch).posted.any Posted.lacksUpdate && decide (st.onpath = true) &&
          decide (st.batch.length = 1)) = true := by
      have hsome : ((freshServer fun _ ↦ some 0).collect writeOfZero).map (fun st ↦
          (st.flush st.batch).posted.any Posted.lacksUpdate && decide (st.onpath = true) &&
            decide (st.batch.length = 1)) = some true := by
        decide +kernel
      exact Option.map_eq_some_iff.mp hsome
    simp only [Bool.and_eq_true, decide_eq_true_eq] at hposted
    obtain ⟨⟨hlacks, honpath⟩, hone⟩ := hposted
    obtain ⟨p, hp, hlacks⟩ := List.any_eq_true.mp hlacks
    have hsorted : StdSort st.batch st.batch := by
      obtain ⟨entry, hentry⟩ := List.length_eq_one_iff.mp hone
      rw [hentry]
      exact ⟨List.Perm.refl _, List.pairwise_singleton _ _⟩
    refine ⟨st.flush st.batch, ?_, p, hp, Posted.not_acknowledges hlacks⟩
    exact (Foundation.Reachable.init.step trivial (.collect (by decide) hst)).step trivial
      (.flush (fun hkeeps ↦ by simp [hkeeps.2.1] at honpath) hsorted)
  · obtain ⟨st, hst, hposted⟩ : ∃ st, keepPolls (batchFlags 200) (freshServer fun _ ↦ some 0)
        (List.replicate 43 (List.replicate 3 newerFastWrite)) = some st ∧
          st.posted.any Posted.lacksUpdate = true := by
      have hsome : (keepPolls (batchFlags 200) (freshServer fun _ ↦ some 0)
          (List.replicate 43 (List.replicate 3 newerFastWrite))).map
            (fun st ↦ st.posted.any Posted.lacksUpdate) = some true := by
        decide +kernel
      exact Option.map_eq_some_iff.mp hsome
    obtain ⟨p, hp, hlacks⟩ := List.any_eq_true.mp hposted
    refine ⟨st, ?_, p, hp, Posted.not_acknowledges hlacks⟩
    refine (BatchRun.nil.keepPolls rfl (fun poll hpoll ↦ ?_) hst).1.reachable
    rw [List.eq_of_mem_replicate hpoll]
    decide

end SwitchDelta.Kv
