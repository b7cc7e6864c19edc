import SwitchDelta.Kv.BatchServer

/-!
# What the two server loops leave in the index

The index of a key is decided by the order in which the updates of the key reach its index thread.
`run_server_CPC` keeps the last one, whatever its timestamp: nothing in `server_process_msg` compares
timestamps. `server_batch_CPC` compares timestamps inside a batch only: of the updates of a key in one
batch it keeps the one with the greatest timestamp (`apply_batch_requests`).

A slow update that is delayed behind a newer fast one therefore wins when requests are handled one by
one. `BatchRuns` has the result for sequences of batches.
-/

set_option autoImplicit false
set_option relaxedAutoImplicit false

namespace SwitchDelta.Kv

/-! ### One batch -/

/-- Updates carry a timestamp and reads do not: `get_index` sends the timestamp zero, the data node
draws a nonzero one, and `put_index` passes it on. -/
def Stamped (req : RawKvMsg) : Prop :=
  req.IsIndexWrite ↔ timestampValue req.timestamp ≠ 0

/-- The request is the newest update of key `k` in a batch. -/
def NewestIn (batch : List RawKvMsg) (k : KvKeyType) (req : RawKvMsg) : Prop :=
  req ∈ batch ∧ req.IsIndexWrite ∧ req.long_key = k ∧
    ∀ other ∈ batch, other.IsIndexWrite → other.long_key = k →
      timestampValue other.timestamp ≤ timestampValue req.timestamp

/-- One batch, from the requests: the newest update of a key becomes its index. -/
theorem apply_batch_requests (index : Index) {requests replies : List RawKvMsg}
    {sorted : List BatchEntry} {k : KvKeyType} (hprepared : Prepared requests replies)
    (hsort : StdSort (batchEntries replies) sorted) (hk : k ≠ 0)
    (hstamped : ∀ req ∈ requests, Stamped req) :
    (∀ req ∈ requests, req.IsIndexWrite → req.long_key ≠ k) ∧
        (apply_batch index replies sorted).index k = index k ∨
      ∃ newest, NewestIn requests k newest ∧
        (apply_batch index replies sorted).index k = some newest.log_id := by
  by_cases hsome : ∃ req ∈ requests, req.IsIndexWrite ∧ req.long_key = k
  · right
    obtain ⟨req, hreq, hwrite, hkey⟩ := hsome
    obtain ⟨reply, hreply, buf, hbuf⟩ := hprepared.exists_reply hreq
    obtain ⟨hupdate, hlong, -, -⟩ := batch_reply_fields hbuf
    have hstamp : ∀ r ∈ replies, r.long_key = k →
        (r.IsUpdate ↔ timestampValue r.timestamp ≠ 0) := by
      intro r hr _
      obtain ⟨q, hq, buf, hbuf⟩ := hprepared.exists_request hr
      obtain ⟨hupdate, -, -, htime⟩ := batch_reply_fields hbuf
      rw [hupdate, htime]
      exact hstamped q hq
    obtain ⟨newest, hmem, hnewest, hnewestkey, hgreatest, hindex⟩ :=
      apply_batch_index index hsort hk hstamp
        ⟨reply, hreply, hupdate.mpr hwrite, hlong.trans hkey⟩
    obtain ⟨q, hq, buf', hbuf'⟩ := hprepared.exists_request hmem
    obtain ⟨hupdate', hlong', hlog, htime⟩ := batch_reply_fields hbuf'
    refine ⟨q, ⟨hq, hupdate'.mp hnewest, hlong' ▸ hnewestkey, fun other hother howrite hokey ↦ ?_⟩,
      hlog ▸ hindex⟩
    obtain ⟨r, hr, buf'', hbuf''⟩ := hprepared.exists_reply hother
    obtain ⟨hupdate'', hlong'', -, htime''⟩ := batch_reply_fields hbuf''
    rw [← htime, ← htime'']
    exact hgreatest r hr (hupdate''.mpr howrite) (hlong''.trans hokey)
  · left
    push Not at hsome
    exact ⟨hsome, hprepared.index_of_no_update index hsome⟩

/-! ### Requests one by one -/

/-- `run_server_CPC` on the index node: requests one by one, each with its reply buffer. -/
def run_server_CPC (index : Index) (arrivals : List (RawKvMsg × RawKvMsg)) : Option Index :=
  arrivals.foldlM (fun index arrival ↦
    (index_process_msg index arrival.1 arrival.2).map Prod.fst) index

/-- `run_server_CPC`: the last update of a key that arrived, whatever its timestamp. -/
theorem run_server_CPC_index {start index : Index} {arrivals : List (RawKvMsg × RawKvMsg)}
    (hrun : run_server_CPC start arrivals = some index) (k : KvKeyType) :
    index k =
      match ((arrivals.map Prod.fst).filter
        fun req ↦ req.IsIndexWrite ∧ req.long_key = k).getLast? with
      | none => start k
      | some last => some last.log_id := by
  induction arrivals using List.reverseRecOn generalizing index with
  | nil =>
    obtain rfl : start = index := by simpa [run_server_CPC] using hrun
    rfl
  | append_singleton arrivals arrival ih =>
    rw [run_server_CPC, List.foldlM_append] at hrun
    obtain ⟨before, hbefore, hlast⟩ := Option.bind_eq_some_iff.mp hrun
    have hstep : (index_process_msg before arrival.1 arrival.2).map Prod.fst = some index := by
      simpa using hlast
    have ih := ih hbefore
    rw [List.map_append, List.filter_append]
    unfold index_process_msg at hstep
    split at hstep
    · rename_i hop
      obtain rfl : before = index := by simpa using hstep
      simpa [RawKvMsg.IsIndexWrite, hop] using ih
    · rename_i hop
      obtain rfl : before.put_long arrival.1.long_key arrival.1.log_id = index := by
        simpa using hstep
      by_cases hkey : arrival.1.long_key = k
      · subst hkey
        simp [RawKvMsg.IsIndexWrite, hop, Index.put_long]
      · simpa [RawKvMsg.IsIndexWrite, hop, hkey, Index.put_long, Function.update_of_ne,
          Ne.symm hkey] using ih
    · rename_i hop
      obtain rfl : before.put_long arrival.1.long_key arrival.1.log_id = index := by
        simpa using hstep
      by_cases hkey : arrival.1.long_key = k
      · subst hkey
        simp [RawKvMsg.IsIndexWrite, hop, Index.put_long]
      · simpa [RawKvMsg.IsIndexWrite, hop, hkey, Index.put_long, Function.update_of_ne,
          Ne.symm hkey] using ih
    · exact absurd hstep (by simp)

/-- An update of key `5` at the index node, with the given operation, log position and timestamp. -/
def updateOfFive (op : RpcType) (log_id : UInt64) (timestamp : UInt32) : RawKvMsg :=
  ⟨⟨1, 2, 0, 0, op⟩, 0, 5, 96, 0, 1, 0, 0, 0, 1, log_id, 0, 0, 0x0100, 0, 0x0100, 0, timestamp, 5, []⟩

/-- A fast write with timestamp `2`. -/
def newerFastWrite : RawKvMsg := updateOfFive .kEnumMultiCastPkt 20 (bswap32 2)

/-- A slow write with timestamp `1`. -/
def olderSlowWrite : RawKvMsg := updateOfFive .kEnumUpdateIndexReq 10 (bswap32 1)

/-- The two writes one by one: the older one, which came last, stays. -/
theorem run_server_CPC_keeps_older_write :
    ∃ index, run_server_CPC (fun _ ↦ some 0)
        [(newerFastWrite, newerFastWrite), (olderSlowWrite, olderSlowWrite)] = some index ∧
      NewestIn [newerFastWrite, olderSlowWrite] 5 newerFastWrite ∧
      index 5 = some olderSlowWrite.log_id ∧ index 5 ≠ some newerFastWrite.log_id := by
  refine ⟨_, rfl, ?_, rfl, by decide⟩
  refine ⟨by simp, by decide, rfl, ?_⟩
  simp only [List.mem_cons, List.not_mem_nil, or_false, forall_eq_or_imp, forall_eq]
  decide

end SwitchDelta.Kv
