import SwitchDelta.Kv.Server

/-!
# The batching index server

`server_batch_CPC` polls requests into an array, one prepared reply per request. When the array is
long enough, or a poll brought a read or a slow update, it sorts the array by key and, within a key,
by falling timestamp, applies it to the index and posts all replies in the order of arrival. The
apply loop writes the first update of each run of equal keys and skips the others.

`apply_batch_index` says what a batch does to the index of a key: the update with the greatest
timestamp wins, whatever order `std::sort` left equal entries in. `BatchRequests.read_reply` says
what the replies are: a read is answered with the index after the batch.

`std::sort` is any permutation of the array that is sorted by `batchEntry::operator<`.

Here each reply of a batch has a buffer of its own. The source has a ring of 128 buffers, so this is a
batch of at most 128 requests; `SendRing` has the ring itself, for batches of any length.
-/

set_option autoImplicit false
set_option relaxedAutoImplicit false

namespace SwitchDelta.Kv

/-! ### The array -/

/-- `rdma::CQInfo::kMaxWcCnt`, the most requests one poll returns. -/
def kMaxWcCnt : ℕ := 16

/-- `batchEntry`, with the number of its reply buffer in place of the pointer. -/
structure BatchEntry where
  key : UInt64
  timestamp : UInt64
  reply_addr : ℕ
  deriving DecidableEq

/-- `batchEntry::operator<`. -/
def BatchEntry.lt (x y : BatchEntry) : Prop :=
  if x.key = y.key then y.timestamp < x.timestamp else x.key < y.key

instance (x y : BatchEntry) : Decidable (x.lt y) :=
  inferInstanceAs
    (Decidable (if x.key = y.key then y.timestamp < x.timestamp else x.key < y.key))

/-- The operation of the reply to a request, `none` for the `default` case that exits. -/
def batch_reply_op : RpcType → Option RpcType
  | .kEnumReadIndexReq => some .kEnumReadIndexReply
  | .kEnumMultiCastPkt => some .ReplySwitch
  | .kEnumUpdateIndexReq => some .kEnumUpdateIndexReply
  | _ => none

/-- The reply as the poll loop prepares it: a copy of the request up to the key, readdressed. -/
def batch_reply (req buf : RawKvMsg) : Option RawKvMsg :=
  (batch_reply_op req.rpc_header.op).map fun op ↦
    { req with
      rpc_header := { req.rpc_header with op := op, dst_s_id := req.rpc_header.src_s_id }
      route_port := toBigEndian16 (port_id req.rpc_header.src_s_id)
      qp_map := 0
      server_map := 0
      value := buf.value }

/-- The poll loop sets `onpath` for a read and for a slow update. -/
def onpath (req : RawKvMsg) : Bool :=
  req.rpc_header.op == .kEnumReadIndexReq || req.rpc_header.op == .kEnumUpdateIndexReq

/-- The array entry of a prepared reply. -/
def batchEntryOf (reply_addr : ℕ) (reply : RawKvMsg) : BatchEntry :=
  ⟨reply.long_key, (bswap32 reply.timestamp).toUInt64, reply_addr⟩

/-- The array `batch` for the replies prepared so far, each in a buffer of its own. -/
def batchEntries (replies : List RawKvMsg) : List BatchEntry :=
  replies.mapIdx batchEntryOf

theorem BatchEntry.not_lt_iff {x y : BatchEntry} :
    ¬ y.lt x ↔ x.key < y.key ∨ (x.key = y.key ∧ y.timestamp ≤ x.timestamp) := by
  unfold BatchEntry.lt
  simp only [UInt64.le_iff_toNat_le, ← UInt64.toNat_inj, UInt64.lt_iff_toNat_lt]
  split_ifs <;> omega

/-- A possible result of `std::sort(batch, batch + batch_cnt)`. -/
def StdSort (entries sorted : List BatchEntry) : Prop :=
  sorted.Perm entries ∧ sorted.Pairwise fun x y ↦ ¬ y.lt x

instance (entries sorted : List BatchEntry) : Decidable (StdSort entries sorted) :=
  inferInstanceAs (Decidable (_ ∧ _))

/-- The comparison is a strict weak order, so every array can be sorted. -/
theorem exists_stdSort (entries : List BatchEntry) : ∃ sorted, StdSort entries sorted := by
  refine ⟨entries.mergeSort fun x y ↦ decide (¬ y.lt x), List.mergeSort_perm _ _, ?_⟩
  have htrans (x y z : BatchEntry) (hxy : decide (¬ y.lt x) = true)
      (hyz : decide (¬ z.lt y) = true) : decide (¬ z.lt x) = true := by
    simp only [decide_eq_true_iff, BatchEntry.not_lt_iff, UInt64.le_iff_toNat_le,
      ← UInt64.toNat_inj, UInt64.lt_iff_toNat_lt] at hxy hyz ⊢
    omega
  have htotal (x y : BatchEntry) :
      (decide (¬ y.lt x) || decide (¬ x.lt y)) = true := by
    simp only [Bool.or_eq_true, decide_eq_true_iff, BatchEntry.not_lt_iff, UInt64.le_iff_toNat_le,
      ← UInt64.toNat_inj, UInt64.lt_iff_toNat_lt]
    omega
  exact (List.pairwise_mergeSort htrans htotal entries).imp of_decide_eq_true

/-! ### The apply loop -/

/-- The loop variables: the index, the reply buffers and `last_key`. -/
structure ApplyState where
  index : Index
  replies : List RawKvMsg
  last_key : UInt64

/-- A prepared reply to an update. -/
def RawKvMsg.IsUpdate (reply : RawKvMsg) : Prop :=
  reply.rpc_header.op = .ReplySwitch ∨ reply.rpc_header.op = .kEnumUpdateIndexReply

instance (reply : RawKvMsg) : Decidable reply.IsUpdate :=
  inferInstanceAs (Decidable (_ ∨ _))

/-- What the loop writes into a reply buffer, for the index at that time. -/
def apply_reply (index : Index) (reply : RawKvMsg) : RawKvMsg :=
  if reply.rpc_header.op = .kEnumReadIndexReply then
    { reply with
      send_cnt := 0
      key := if index reply.long_key = none then 0xFFFFFFFF else reply.key
      log_id := ((index reply.long_key).getD 0).toUInt32.toUInt64 }
  else { reply with send_cnt := 0 }

/-- What the loop does to the index for a reply, with the key of the entry before it. -/
def apply_index (index : Index) (last_key : UInt64) (reply : RawKvMsg) : Index :=
  if reply.IsUpdate ∧ reply.long_key ≠ last_key then index.put_long reply.long_key reply.log_id
  else index

/-- One round of the apply loop. -/
def apply_entry (st : ApplyState) (entry : BatchEntry) : ApplyState :=
  match st.replies[entry.reply_addr]? with
  | none => st
  | some reply =>
    { index := apply_index st.index st.last_key reply
      replies := st.replies.set entry.reply_addr (apply_reply st.index reply)
      last_key := reply.long_key }

/-- The apply loop over the sorted array. -/
def apply_batch (index : Index) (replies : List RawKvMsg) (sorted : List BatchEntry) :
    ApplyState :=
  sorted.foldl apply_entry ⟨index, replies, 0⟩

/-! ### The index alone -/

/-- The index and `last_key` after the loop, from the replies in the order of the sorted array. -/
def applyIndexes (st : Index × UInt64) (ordered : List RawKvMsg) : Index × UInt64 :=
  ordered.foldl (fun st reply ↦ (apply_index st.1 st.2 reply, reply.long_key)) st

@[simp] theorem applyIndexes_nil (st : Index × UInt64) : applyIndexes st [] = st := rfl

@[simp] theorem applyIndexes_cons (st : Index × UInt64) (reply : RawKvMsg)
    (ordered : List RawKvMsg) :
    applyIndexes st (reply :: ordered) =
      applyIndexes (apply_index st.1 st.2 reply, reply.long_key) ordered := rfl

theorem apply_index_of_ne {index : Index} {last_key k : UInt64} {reply : RawKvMsg}
    (hne : reply.long_key ≠ k) : apply_index index last_key reply k = index k := by
  unfold apply_index Index.put_long
  split_ifs
  · exact Function.update_of_ne (Ne.symm hne) _ _
  · rfl

/-- Replies of other keys leave the index of a key. -/
theorem applyIndexes_of_forall_ne {st : Index × UInt64} {ordered : List RawKvMsg} {k : UInt64}
    (hne : ∀ reply ∈ ordered, reply.long_key ≠ k) : (applyIndexes st ordered).1 k = st.1 k := by
  induction ordered generalizing st with
  | nil => rfl
  | cons reply ordered ih =>
    rw [applyIndexes_cons, ih fun r hr ↦ hne r (List.mem_cons_of_mem _ hr)]
    exact apply_index_of_ne (hne reply List.mem_cons_self)

/-- Whatever the order, the index of a key is the old one or that of an update of the key. -/
theorem applyIndexes_mem (st : Index × UInt64) (ordered : List RawKvMsg) (k : UInt64) :
    (applyIndexes st ordered).1 k = st.1 k ∨
      ∃ reply ∈ ordered, reply.IsUpdate ∧ reply.long_key = k ∧
        (applyIndexes st ordered).1 k = some reply.log_id := by
  induction ordered generalizing st with
  | nil => exact Or.inl rfl
  | cons reply ordered ih =>
    rw [applyIndexes_cons]
    rcases ih (apply_index st.1 st.2 reply, reply.long_key) with hsame | ⟨r, hr, hrest⟩
    · rw [hsame]
      unfold apply_index
      split_ifs with hupdate
      · by_cases hkey : reply.long_key = k
        · refine Or.inr ⟨reply, List.mem_cons_self, hupdate.1, hkey, ?_⟩
          rw [← hkey]
          exact Function.update_self _ _ _
        · exact Or.inl (Function.update_of_ne (Ne.symm hkey) _ _)
      · exact Or.inl rfl
    · exact Or.inr ⟨r, List.mem_cons_of_mem _ hr, hrest⟩

/-- Right after an entry of key `k`, the entries that follow in key order leave its index. -/
theorem applyIndexes_of_last_key {st : Index × UInt64} {ordered : List RawKvMsg} {k : UInt64}
    (hlast : st.2 = k) (hge : ∀ reply ∈ ordered, k ≤ reply.long_key)
    (hsorted : ordered.Pairwise fun x y ↦ x.long_key ≤ y.long_key) :
    (applyIndexes st ordered).1 k = st.1 k := by
  induction ordered generalizing st with
  | nil => rfl
  | cons reply ordered ih =>
    obtain ⟨hhead, htail⟩ := List.pairwise_cons.mp hsorted
    by_cases hkey : reply.long_key = k
    · have hsame : apply_index st.1 st.2 reply = st.1 := by
        unfold apply_index
        rw [if_neg]
        rintro ⟨-, hne⟩
        exact hne (hkey.trans hlast.symm)
      rw [applyIndexes_cons, ih hkey (fun r hr ↦ hge r (List.mem_cons_of_mem _ hr)) htail, hsame]
    · refine applyIndexes_of_forall_ne fun r hr heq ↦ ?_
      rcases List.mem_cons.mp hr with rfl | hr
      · exact hkey heq
      · have hle := hhead r hr
        rw [heq] at hle
        exact hkey (UInt64.le_antisymm hle (hge reply List.mem_cons_self))

/-- In key order, the first entry of a key decides its index. -/
theorem applyIndexes_eq_first {st : Index × UInt64} {ordered : List RawKvMsg} {k : UInt64}
    (hlast : st.2 ≠ k) (hsorted : ordered.Pairwise fun x y ↦ x.long_key ≤ y.long_key) :
    (applyIndexes st ordered).1 k =
      match ordered.find? (fun reply ↦ reply.long_key = k) with
      | none => st.1 k
      | some first => if first.IsUpdate then some first.log_id else st.1 k := by
  induction ordered generalizing st with
  | nil => rfl
  | cons reply ordered ih =>
    obtain ⟨hhead, htail⟩ := List.pairwise_cons.mp hsorted
    rw [applyIndexes_cons]
    by_cases hkey : reply.long_key = k
    · subst hkey
      rw [List.find?_cons_of_pos (by simp), applyIndexes_of_last_key rfl hhead htail]
      unfold apply_index Index.put_long
      by_cases hupdate : reply.IsUpdate
      · simp [hupdate, Ne.symm hlast]
      · simp [hupdate]
    · rw [List.find?_cons_of_neg (by simpa using hkey), ih hkey htail]
      simp only [apply_index_of_ne hkey]

/-! ### Sorted arrays -/

/-- The order in which the loop meets two replies. -/
def SortedBefore (x y : RawKvMsg) : Prop :=
  x.long_key < y.long_key ∨
    (x.long_key = y.long_key ∧ timestampValue y.timestamp ≤ timestampValue x.timestamp)

theorem SortedBefore.key_le {x y : RawKvMsg} (h : SortedBefore x y) : x.long_key ≤ y.long_key :=
  h.elim (fun hlt ↦ UInt64.le_of_lt hlt) fun heq ↦ UInt64.le_of_eq heq.1

theorem sortedBefore_of_not_lt {i j : ℕ} {x y : RawKvMsg}
    (hlt : ¬ (batchEntryOf j y).lt (batchEntryOf i x)) : SortedBefore x y := by
  unfold BatchEntry.lt batchEntryOf at hlt
  dsimp only at hlt
  split_ifs at hlt with hkey
  · refine Or.inr ⟨hkey.symm, ?_⟩
    have hle := UInt64.not_lt.mp hlt
    rw [UInt64.le_iff_toNat_le, UInt32.toNat_toUInt64, UInt32.toNat_toUInt64] at hle
    exact hle
  · rcases UInt64.lt_or_eq_of_le (UInt64.not_lt.mp hlt) with hlt' | heq
    · exact Or.inl hlt'
    · exact absurd heq.symm hkey

/-- In the order of the sorted array, an update with the greatest timestamp of its key becomes the
index, if the reads of the key have smaller timestamps than some update. -/
theorem applyIndexes_newest {st : Index × UInt64} {ordered : List RawKvMsg} {k : UInt64}
    (hlast : st.2 ≠ k) (hsorted : ordered.Pairwise SortedBefore)
    (hreads : ∀ reply ∈ ordered, reply.long_key = k → ¬ reply.IsUpdate →
      ∃ update ∈ ordered, update.IsUpdate ∧ update.long_key = k ∧
        timestampValue reply.timestamp < timestampValue update.timestamp)
    (hsome : ∃ reply ∈ ordered, reply.IsUpdate ∧ reply.long_key = k) :
    ∃ newest ∈ ordered, newest.IsUpdate ∧ newest.long_key = k ∧
      (∀ reply ∈ ordered, reply.long_key = k →
        timestampValue reply.timestamp ≤ timestampValue newest.timestamp) ∧
      (applyIndexes st ordered).1 k = some newest.log_id := by
  obtain ⟨update, hmem, -, hkey⟩ := hsome
  rw [applyIndexes_eq_first hlast (hsorted.imp fun h ↦ h.key_le)]
  cases hfirst : ordered.find? fun reply ↦ reply.long_key = k with
  | none =>
    have hnot := List.find?_eq_none.mp hfirst update hmem
    exact absurd hkey (by simpa using hnot)
  | some first =>
    obtain ⟨hfirstkey, before, after, hsplit, hbefore⟩ := List.find?_eq_some_iff_append.mp hfirst
    have hfirstkey : first.long_key = k := by simpa using hfirstkey
    have hfirstmem : first ∈ ordered := List.mem_of_find?_eq_some hfirst
    -- the first entry of the key precedes the others, so its timestamp is the greatest
    have hgreatest (reply : RawKvMsg) (hreply : reply ∈ ordered) (hreplykey : reply.long_key = k) :
        timestampValue reply.timestamp ≤ timestampValue first.timestamp := by
      rw [hsplit, List.mem_append, List.mem_cons] at hreply
      rcases hreply with hearly | rfl | hlate
      · exact absurd hreplykey (by simpa using hbefore reply hearly)
      · exact le_rfl
      · rw [hsplit] at hsorted
        have hbeforeReply := (List.pairwise_cons.mp (List.pairwise_append.mp hsorted).2.1).1
          reply hlate
        rcases hbeforeReply with hlt | ⟨-, hle⟩
        · exact absurd (hfirstkey.trans hreplykey.symm) (UInt64.ne_of_lt hlt)
        · exact hle
    have hfirstupdate : first.IsUpdate := by
      by_contra hread
      obtain ⟨newer, hnewer, -, hnewerkey, hlt⟩ := hreads first hfirstmem hfirstkey hread
      exact absurd (hgreatest newer hnewer hnewerkey) (Nat.not_le_of_lt hlt)
    exact ⟨first, hfirstmem, hfirstupdate, hfirstkey, hgreatest, if_pos hfirstupdate⟩

/-- The replies in the order of the sorted array. -/
def orderedReplies (replies : List RawKvMsg) (sorted : List BatchEntry) : List RawKvMsg :=
  sorted.filterMap fun entry ↦ replies[entry.reply_addr]?

/-- Each entry of an array describes the reply at its address. -/
def Describes (entries : List BatchEntry) (replies : List RawKvMsg) : Prop :=
  ∀ entry ∈ entries, ∃ reply, replies[entry.reply_addr]? = some reply ∧
    entry = batchEntryOf entry.reply_addr reply

/-- A sorted array brings the replies it describes in their order. -/
theorem Describes.ordered_pairwise {entries sorted : List BatchEntry} {replies : List RawKvMsg}
    (hdescribes : Describes entries replies) (hsort : StdSort entries sorted) :
    (orderedReplies replies sorted).Pairwise SortedBefore := by
  unfold orderedReplies
  rw [List.pairwise_filterMap]
  refine hsort.2.imp_of_mem fun {x y} hx hy hlt r hr r' hr' ↦ ?_
  obtain ⟨rx, hrx, hx'⟩ := hdescribes x (hsort.1.mem_iff.mp hx)
  obtain ⟨ry, hry, hy'⟩ := hdescribes y (hsort.1.mem_iff.mp hy)
  obtain rfl : rx = r := Option.some.inj (hrx.symm.trans hr)
  obtain rfl : ry = r' := Option.some.inj (hry.symm.trans hr')
  rw [hx', hy'] at hlt
  exact sortedBefore_of_not_lt hlt

theorem batchEntries_describes (replies : List RawKvMsg) :
    Describes (batchEntries replies) replies := by
  intro entry hentry
  obtain ⟨i, hi, rfl⟩ := List.mem_mapIdx.mp hentry
  exact ⟨replies[i], List.getElem?_eq_getElem hi, rfl⟩

theorem batchEntryOf_mem {replies : List RawKvMsg} {i : ℕ} (hi : i < replies.length) :
    batchEntryOf i replies[i] ∈ batchEntries replies :=
  List.mem_mapIdx.mpr ⟨i, hi, rfl⟩

theorem batchEntries_addr (replies : List RawKvMsg) :
    (batchEntries replies).map BatchEntry.reply_addr = List.range replies.length := by
  apply List.ext_getElem?
  intro i
  by_cases hi : i < replies.length
  · simp [batchEntries, batchEntryOf, hi]
  · simp [batchEntries, hi]

section Sorted

variable {replies : List RawKvMsg} {sorted : List BatchEntry}
  (hsort : StdSort (batchEntries replies) sorted)

include hsort

theorem StdSort.addr_perm :
    (sorted.map BatchEntry.reply_addr).Perm (List.range replies.length) :=
  batchEntries_addr replies ▸ hsort.1.map _

theorem StdSort.addr_nodup : (sorted.map BatchEntry.reply_addr).Nodup :=
  hsort.addr_perm.nodup_iff.mpr List.nodup_range

theorem StdSort.ordered_pairwise : (orderedReplies replies sorted).Pairwise SortedBefore :=
  (batchEntries_describes replies).ordered_pairwise hsort

theorem StdSort.mem_ordered {reply : RawKvMsg} :
    reply ∈ orderedReplies replies sorted ↔ reply ∈ replies := by
  unfold orderedReplies
  rw [List.mem_filterMap]
  constructor
  · rintro ⟨entry, -, hreply⟩
    exact List.mem_of_getElem? hreply
  · intro hreply
    obtain ⟨i, hi, rfl⟩ := List.getElem_of_mem hreply
    exact ⟨batchEntryOf i replies[i], hsort.1.mem_iff.mpr (batchEntryOf_mem hi),
      List.getElem?_eq_getElem hi⟩

end Sorted

/-! ### The loop over a sorted array -/

/-- The content of a reply depends on the index of its own key only. -/
theorem apply_reply_congr {index index' : Index} {reply : RawKvMsg}
    (h : reply.rpc_header.op = .kEnumReadIndexReply →
      index reply.long_key = index' reply.long_key) :
    apply_reply index reply = apply_reply index' reply := by
  by_cases hop : reply.rpc_header.op = .kEnumReadIndexReply
  · rw [apply_reply, apply_reply, if_pos hop, if_pos hop, h hop]
  · rw [apply_reply, apply_reply, if_neg hop, if_neg hop]

/-- The loop from any of its states: the index follows `applyIndexes`, and the buffers it visits
hold the replies for the final index. -/
theorem foldl_apply_entry (sorted : List BatchEntry) (st : ApplyState)
    (hnodup : (sorted.map BatchEntry.reply_addr).Nodup)
    (hvalid : ∀ entry ∈ sorted, entry.reply_addr < st.replies.length)
    (hordered : (orderedReplies st.replies sorted).Pairwise fun x y ↦ x.long_key ≤ y.long_key) :
    let final := sorted.foldl apply_entry st
    final.index = (applyIndexes (st.index, st.last_key) (orderedReplies st.replies sorted)).1 ∧
      ∀ addr, final.replies[addr]? =
        if addr ∈ sorted.map BatchEntry.reply_addr then
          (st.replies[addr]?).map (apply_reply final.index)
        else st.replies[addr]? := by
  induction sorted generalizing st with
  | nil => simp [orderedReplies]
  | cons entry sorted ih =>
    intro final
    obtain ⟨hfresh, hnodup⟩ := List.nodup_cons.mp (List.map_cons ▸ hnodup)
    have haddr := hvalid entry List.mem_cons_self
    obtain ⟨reply, hreply⟩ : ∃ reply, st.replies[entry.reply_addr]? = some reply :=
      ⟨_, List.getElem?_eq_getElem haddr⟩
    set next : ApplyState := apply_entry st entry with hnext
    have hstep : next = ⟨apply_index st.index st.last_key reply,
        st.replies.set entry.reply_addr (apply_reply st.index reply), reply.long_key⟩ := by
      rw [hnext, apply_entry, hreply]
    -- the remaining entries live at other addresses, so their replies are still the prepared ones
    have hother {addr : ℕ} (hne : addr ≠ entry.reply_addr) :
        next.replies[addr]? = st.replies[addr]? := by
      rw [hstep]
      exact List.getElem?_set_ne (Ne.symm hne)
    have hsame : orderedReplies next.replies sorted = orderedReplies st.replies sorted := by
      refine List.filterMap_congr fun e he ↦ hother ?_
      rintro heq
      exact hfresh (heq ▸ List.mem_map_of_mem he)
    have hcons : orderedReplies st.replies (entry :: sorted) =
        reply :: orderedReplies st.replies sorted := by
      simp [orderedReplies, hreply]
    rw [hcons] at hordered ⊢
    obtain ⟨hhead, htail⟩ := List.pairwise_cons.mp hordered
    have hlength : next.replies.length = st.replies.length := by rw [hstep]; simp
    obtain ⟨hindex, hreplies⟩ := ih next hnodup
      (fun e he ↦ hlength ▸ hvalid e (List.mem_cons_of_mem _ he)) (hsame ▸ htail)
    have hfinal : final = sorted.foldl apply_entry next := rfl
    rw [hsame] at hindex
    have hindex' : final.index = (applyIndexes (st.index, st.last_key)
        (reply :: orderedReplies st.replies sorted)).1 := by
      rw [hfinal, hindex, applyIndexes_cons, hstep]
    refine ⟨hindex', fun addr ↦ ?_⟩
    rw [hfinal, hreplies addr, List.map_cons]
    by_cases hmem : addr ∈ sorted.map BatchEntry.reply_addr
    · have hne : addr ≠ entry.reply_addr := fun heq ↦ hfresh (heq ▸ hmem)
      rw [if_pos hmem, if_pos (List.mem_cons_of_mem _ hmem), hother hne]
    · rw [if_neg hmem]
      by_cases hself : addr = entry.reply_addr
      · -- a read is met after the updates of its key, so it sees the final index
        have hself' : addr ∈ entry.reply_addr :: sorted.map BatchEntry.reply_addr := by
          simp [hself]
        rw [if_pos hself', hself, hstep, hreply, List.getElem?_set_self haddr, Option.map_some]
        refine congrArg some (apply_reply_congr fun hop ↦ ?_)
        have hread : apply_index st.index st.last_key reply = st.index := by
          unfold apply_index RawKvMsg.IsUpdate
          simp [hop]
        rw [← hstep, ← hfinal, hindex', applyIndexes_cons, applyIndexes_of_last_key rfl hhead htail,
          hread]
      · have hnot : addr ∉ entry.reply_addr :: sorted.map BatchEntry.reply_addr := by
          simpa [hself] using hmem
        rw [if_neg hnot, hother hself]

/-- What the apply loop writes into the reply to an update leaves what it acknowledges. -/
theorem apply_reply_fields (index : Index) (reply : RawKvMsg) :
    (apply_reply index reply).rpc_header.op = reply.rpc_header.op ∧
      (apply_reply index reply).long_key = reply.long_key ∧
      (reply.IsUpdate → (apply_reply index reply).log_id = reply.log_id) ∧
      (apply_reply index reply).timestamp = reply.timestamp := by
  unfold apply_reply
  by_cases hread : reply.rpc_header.op = .kEnumReadIndexReply
  · rw [if_pos hread]
    refine ⟨rfl, rfl, fun hupdate ↦ ?_, rfl⟩
    rw [RawKvMsg.IsUpdate, hread] at hupdate
    exact absurd hupdate (by decide)
  · rw [if_neg hread]
    exact ⟨rfl, rfl, fun _ ↦ rfl, rfl⟩

/-- What a round of the loop can do. -/
theorem apply_entry_cases (st : ApplyState) (entry : BatchEntry) :
    apply_entry st entry = st ∨ ∃ reply ∈ st.replies,
      apply_entry st entry = ⟨apply_index st.index st.last_key reply,
        st.replies.set entry.reply_addr (apply_reply st.index reply), reply.long_key⟩ := by
  unfold apply_entry
  cases hreply : st.replies[entry.reply_addr]? with
  | none => exact Or.inl rfl
  | some reply => exact Or.inr ⟨reply, List.mem_of_getElem? hreply, rfl⟩

/-- The loop has as many buffers at its end as at its begin. -/
theorem foldl_apply_entry_length (sorted : List BatchEntry) (st : ApplyState) :
    (sorted.foldl apply_entry st).replies.length = st.replies.length := by
  induction sorted generalizing st with
  | nil => rfl
  | cons entry sorted ih =>
    rw [List.foldl_cons, ih]
    rcases apply_entry_cases st entry with hsame | ⟨reply, -, hnext⟩
    · rw [hsame]
    · rw [hnext, List.length_set]

/-- A key that no buffer has an update for keeps its index, whatever the array is. -/
theorem foldl_apply_entry_index (sorted : List BatchEntry) {st : ApplyState} {k : UInt64}
    (hnone : ∀ reply ∈ st.replies, reply.IsUpdate → reply.long_key ≠ k) :
    (sorted.foldl apply_entry st).index k = st.index k := by
  induction sorted generalizing st with
  | nil => rfl
  | cons entry sorted ih =>
    rw [List.foldl_cons]
    rcases apply_entry_cases st entry with hsame | ⟨reply, hmem, hnext⟩
    · rw [hsame, ih hnone]
    · obtain ⟨hop, hkey, -, -⟩ := apply_reply_fields st.index reply
      rw [hnext, ih fun r hr hupdate ↦ ?_]
      · unfold apply_index
        split_ifs with hwrite
        · exact Function.update_of_ne (Ne.symm (hnone reply hmem hwrite.1)) _ _
        · rfl
      · -- a buffer that was written is for the same key as before
        rcases List.mem_or_eq_of_mem_set hr with hr | rfl
        · exact hnone r hr hupdate
        · rw [RawKvMsg.IsUpdate, hop] at hupdate
          rw [hkey]
          exact hnone reply hmem hupdate

section Batch

variable (index : Index) {replies : List RawKvMsg} {sorted : List BatchEntry}
  (hsort : StdSort (batchEntries replies) sorted)

include hsort

theorem apply_batch_spec :
    (apply_batch index replies sorted).index =
        (applyIndexes (index, 0) (orderedReplies replies sorted)).1 ∧
      (apply_batch index replies sorted).replies =
        replies.map (apply_reply (apply_batch index replies sorted).index) := by
  have hvalid : ∀ entry ∈ sorted, entry.reply_addr < replies.length := fun entry hentry ↦
    List.mem_range.mp (hsort.addr_perm.mem_iff.mp (List.mem_map_of_mem hentry))
  obtain ⟨hindex, hreplies⟩ := foldl_apply_entry sorted ⟨index, replies, 0⟩ hsort.addr_nodup hvalid
    (hsort.ordered_pairwise.imp fun h ↦ h.key_le)
  refine ⟨hindex, List.ext_getElem? fun addr ↦ ?_⟩
  rw [apply_batch, hreplies addr, List.getElem?_map]
  split_ifs with haddr
  · rfl
  · have hlarge : replies.length ≤ addr := by
      by_contra hlt
      exact haddr (hsort.addr_perm.mem_iff.mpr (List.mem_range.mpr (Nat.lt_of_not_le hlt)))
    simp [List.getElem?_eq_none hlarge]

/-- Every buffer holds the reply for the index after the batch. -/
theorem apply_batch_replies :
    (apply_batch index replies sorted).replies =
      replies.map (apply_reply (apply_batch index replies sorted).index) :=
  (apply_batch_spec index hsort).2

/-- The index of a key after the batch is the old one or that of an update of the key. -/
theorem apply_batch_index_mem (k : UInt64) :
    (apply_batch index replies sorted).index k = index k ∨
      ∃ reply ∈ replies, reply.IsUpdate ∧ reply.long_key = k ∧
        (apply_batch index replies sorted).index k = some reply.log_id := by
  rw [(apply_batch_spec index hsort).1]
  refine (applyIndexes_mem _ _ _).imp_right ?_
  rintro ⟨reply, hreply, hrest⟩
  exact ⟨reply, hsort.mem_ordered.mp hreply, hrest⟩

/-- Of the updates of a key in the batch, one with the greatest timestamp becomes its index. Reads
carry the timestamp zero and updates do not, which keeps the reads behind. -/
theorem apply_batch_index {k : UInt64} (hk : k ≠ 0)
    (hstamp : ∀ reply ∈ replies, reply.long_key = k →
      (reply.IsUpdate ↔ timestampValue reply.timestamp ≠ 0))
    (hsome : ∃ reply ∈ replies, reply.IsUpdate ∧ reply.long_key = k) :
    ∃ newest ∈ replies, newest.IsUpdate ∧ newest.long_key = k ∧
      (∀ reply ∈ replies, reply.IsUpdate → reply.long_key = k →
        timestampValue reply.timestamp ≤ timestampValue newest.timestamp) ∧
      (apply_batch index replies sorted).index k = some newest.log_id := by
  obtain ⟨update, hmem, hupdate, hkey⟩ := hsome
  have hmem' := hsort.mem_ordered.mpr hmem
  have hlast : (index, (0 : UInt64)).2 ≠ k := Ne.symm hk
  rw [(apply_batch_spec index hsort).1]
  obtain ⟨newest, hnewest, hnewestupdate, hnewestkey, hgreatest, hindex⟩ :=
    applyIndexes_newest hlast hsort.ordered_pairwise (fun reply hreply hreplykey hread ↦ by
      have hzero : timestampValue reply.timestamp = 0 := by
        by_contra hne
        exact hread ((hstamp reply (hsort.mem_ordered.mp hreply) hreplykey).mpr hne)
      have hpos := (hstamp update hmem hkey).mp hupdate
      exact ⟨update, hmem', hupdate, hkey, by omega⟩) ⟨update, hmem', hupdate, hkey⟩
  exact ⟨newest, hsort.mem_ordered.mp hnewest, hnewestupdate, hnewestkey,
    fun reply hreply _ hreplykey ↦ hgreatest reply (hsort.mem_ordered.mpr hreply) hreplykey, hindex⟩

end Batch

/-! ### Requests and prepared replies -/

/-- A request that writes the index. -/
def RawKvMsg.IsIndexWrite (req : RawKvMsg) : Prop :=
  req.rpc_header.op = .kEnumMultiCastPkt ∨ req.rpc_header.op = .kEnumUpdateIndexReq

instance (req : RawKvMsg) : Decidable req.IsIndexWrite :=
  inferInstanceAs (Decidable (_ ∨ _))

/-- The replies that the poll loop has prepared for the requests of a batch. -/
def Prepared (requests replies : List RawKvMsg) : Prop :=
  List.Forall₂ (fun req reply ↦ ∃ buf, batch_reply req buf = some reply) requests replies

/-- The operation of a prepared reply tells the kind of its request. -/
theorem batch_reply_op_kind {requested op : RpcType} (h : batch_reply_op requested = some op) :
    (op = .ReplySwitch ∨ op = .kEnumUpdateIndexReply ↔
      requested = .kEnumMultiCastPkt ∨ requested = .kEnumUpdateIndexReq) ∧
    (op = .kEnumReadIndexReply ↔ requested = .kEnumReadIndexReq) := by
  cases requested <;>
    simp only [batch_reply_op, Option.some.injEq, reduceCtorEq] at h <;>
    subst h <;> simp

/-- A prepared reply keeps what the apply loop reads from the request. -/
theorem batch_reply_eq_some {req buf reply : RawKvMsg} (h : batch_reply req buf = some reply) :
    reply.long_key = req.long_key ∧ reply.log_id = req.log_id ∧ reply.key = req.key ∧
      reply.timestamp = req.timestamp ∧ (reply.IsUpdate ↔ req.IsIndexWrite) ∧
      (reply.rpc_header.op = .kEnumReadIndexReply ↔ req.rpc_header.op = .kEnumReadIndexReq) := by
  obtain ⟨op, hop, rfl⟩ := Option.map_eq_some_iff.mp h
  exact ⟨rfl, rfl, rfl, rfl, batch_reply_op_kind hop⟩

/-- What the apply loop reads in a reply is what the request carried. -/
theorem batch_reply_fields {req buf reply : RawKvMsg} (hreply : batch_reply req buf = some reply) :
    (reply.IsUpdate ↔ req.IsIndexWrite) ∧ reply.long_key = req.long_key ∧
      reply.log_id = req.log_id ∧ reply.timestamp = req.timestamp := by
  obtain ⟨hkey, hlog, -, htime, hupdate, -⟩ := batch_reply_eq_some hreply
  exact ⟨hupdate, hkey, hlog, htime⟩

section Prepared

variable {requests replies : List RawKvMsg} (hprepared : Prepared requests replies)

include hprepared

/-- The reply at a place of the array is the one to the request at that place. -/
theorem Prepared.getElem? {i : ℕ} {req : RawKvMsg} (hreq : requests[i]? = some req) :
    ∃ reply buf, replies[i]? = some reply ∧ batch_reply req buf = some reply := by
  induction hprepared generalizing i with
  | nil => simp at hreq
  | @cons req' reply requests replies hhead _ ih =>
    cases i with
    | zero =>
      obtain rfl : req' = req := by simpa using hreq
      obtain ⟨buf, hbuf⟩ := hhead
      exact ⟨reply, buf, rfl, hbuf⟩
    | succ i => exact ih (by simpa using hreq)

theorem Prepared.exists_reply {req : RawKvMsg} (hreq : req ∈ requests) :
    ∃ reply ∈ replies, ∃ buf, batch_reply req buf = some reply := by
  obtain ⟨i, hi⟩ := List.mem_iff_getElem?.mp hreq
  obtain ⟨reply, buf, hreply, hbuf⟩ := hprepared.getElem? hi
  exact ⟨reply, List.mem_of_getElem? hreply, buf, hbuf⟩

theorem Prepared.exists_request {reply : RawKvMsg} (hreply : reply ∈ replies) :
    ∃ req ∈ requests, ∃ buf, batch_reply req buf = some reply := by
  induction hprepared with
  | nil => simp at hreply
  | cons hhead _ ih =>
    rcases List.mem_cons.mp hreply with rfl | hreply
    · exact ⟨_, List.mem_cons_self, hhead⟩
    · obtain ⟨req, hmem, hreq⟩ := ih hreply
      exact ⟨req, List.mem_cons_of_mem _ hmem, hreq⟩

end Prepared

/-! ### A pass over requests -/

/-- What the index server may rely on in a batch. The switch and the data nodes hand out log ids of
32 bits and distinct timestamps other than zero; `get_index` sends the timestamp zero and the
fingerprint of its key. -/
structure BatchRequests (requests : List RawKvMsg) : Prop where
  op : ∀ req ∈ requests, req.IsIndexWrite ∨ req.rpc_header.op = .kEnumReadIndexReq
  key_ne_zero : ∀ req ∈ requests, req.long_key ≠ 0
  log_id_lt : ∀ req ∈ requests, req.IsIndexWrite → req.log_id.toNat < 2 ^ 32
  timestamp_ne_zero : ∀ req ∈ requests, req.IsIndexWrite → req.timestamp ≠ 0
  timestamp_distinct : requests.Pairwise fun x y ↦ x.IsIndexWrite → y.IsIndexWrite →
    x.long_key = y.long_key → x.timestamp ≠ y.timestamp
  read_timestamp : ∀ req ∈ requests, req.rpc_header.op = .kEnumReadIndexReq → req.timestamp = 0
  read_key : ∀ req ∈ requests, req.rpc_header.op = .kEnumReadIndexReq →
    req.key = get_fingerprint req.long_key

/-- The three operations of a batch have replies. -/
theorem exists_batch_reply {req : RawKvMsg} (buf : RawKvMsg)
    (hop : req.IsIndexWrite ∨ req.rpc_header.op = .kEnumReadIndexReq) :
    ∃ reply, batch_reply req buf = some reply := by
  rcases hop with (hop | hop) | hop <;> exact ⟨_, by simp only [batch_reply, hop]; rfl⟩

section Pass

variable (index : Index) {requests replies : List RawKvMsg} {sorted : List BatchEntry}
  (hbatch : BatchRequests requests) (hprepared : Prepared requests replies)
  (hsort : StdSort (batchEntries replies) sorted)

include hbatch hprepared

/-- Of the replies, exactly those to updates carry a timestamp. -/
theorem BatchRequests.isUpdate_iff {reply : RawKvMsg} (hreply : reply ∈ replies) :
    reply.IsUpdate ↔ timestampValue reply.timestamp ≠ 0 := by
  obtain ⟨req, hmem, buf, heq⟩ := hprepared.exists_request hreply
  obtain ⟨-, -, -, hstamp, hupdate, -⟩ := batch_reply_eq_some heq
  rw [hupdate, hstamp]
  constructor
  · intro hreq hzero
    exact hbatch.timestamp_ne_zero _ hmem hreq (timestampValue_eq_zero.mp hzero)
  · intro hne
    refine (hbatch.op _ hmem).resolve_right fun hread ↦ hne ?_
    exact timestampValue_eq_zero.mpr (hbatch.read_timestamp _ hmem hread)

include hsort

/-- The update of a key with the greatest timestamp becomes the index of the key. -/
theorem BatchRequests.index_of_newest {update : RawKvMsg} (hmem : update ∈ requests)
    (hupdate : update.IsIndexWrite)
    (hnewest : ∀ req ∈ requests, req.IsIndexWrite → req.long_key = update.long_key →
      timestampValue req.timestamp ≤ timestampValue update.timestamp) :
    (apply_batch index replies sorted).index update.long_key = some update.log_id := by
  obtain ⟨reply, hreply, buf, heq⟩ := hprepared.exists_reply hmem
  obtain ⟨hkey, -, -, hstamp, hkind, -⟩ := batch_reply_eq_some heq
  obtain ⟨first, hfirst, hfirstupdate, hfirstkey, hgreatest, hindex⟩ :=
    apply_batch_index index hsort (hbatch.key_ne_zero _ hmem)
      (fun r hr _ ↦ hbatch.isUpdate_iff hprepared hr) ⟨reply, hreply, hkind.mpr hupdate, hkey⟩
  obtain ⟨winner, hwinner, buf', hwinnereq⟩ := hprepared.exists_request hfirst
  obtain ⟨hwinnerkey, hwinnerid, -, hwinnerstamp, hwinnerkind, -⟩ :=
    batch_reply_eq_some hwinnereq
  have hwinnerupdate := hwinnerkind.mp hfirstupdate
  -- the winner has the same timestamp, so it is the update itself
  have hsame : winner.timestamp = update.timestamp := by
    apply timestampValue_inj.mp
    refine le_antisymm (hnewest _ hwinner hwinnerupdate (hwinnerkey.symm.trans hfirstkey)) ?_
    rw [← hwinnerstamp, ← hstamp]
    exact hgreatest reply hreply (hkind.mpr hupdate) hkey
  have hself : winner = update := by
    by_contra hne
    have hsymm : Std.Symm fun x y : RawKvMsg ↦ x.IsIndexWrite → y.IsIndexWrite →
        x.long_key = y.long_key → x.timestamp ≠ y.timestamp :=
      ⟨fun x y h hy hx hkey ↦ Ne.symm (h hx hy hkey.symm)⟩
    exact hbatch.timestamp_distinct.forall hwinner hmem hne
      hwinnerupdate hupdate (hwinnerkey.symm.trans hfirstkey) hsame
  rw [hindex, hwinnerid, hself]

omit hbatch hsort in
/-- A key that no update of the batch names keeps its index. -/
theorem Prepared.index_of_no_update {k : UInt64}
    (hnone : ∀ req ∈ requests, req.IsIndexWrite → req.long_key ≠ k) :
    (apply_batch index replies sorted).index k = index k := by
  refine foldl_apply_entry_index sorted fun reply hreply hupdate ↦ ?_
  obtain ⟨req, hreq, buf, heq⟩ := hprepared.exists_request hreply
  obtain ⟨hkey, -, -, -, hkind, -⟩ := batch_reply_eq_some heq
  exact hkey ▸ hnone _ hreq (hkind.mp hupdate)

/-- A log id of the index after the batch is below `2 ^ 32` if the old entry of the key was. -/
theorem BatchRequests.index_lt {k v : UInt64} (hold : index k = some v → v.toNat < 2 ^ 32)
    (hindex : (apply_batch index replies sorted).index k = some v) : v.toNat < 2 ^ 32 := by
  rcases apply_batch_index_mem index hsort k with hsame | ⟨reply, hreply, hupdate, -, hnew⟩
  · exact hold (hsame ▸ hindex)
  · obtain ⟨req, hreq, buf, heq⟩ := hprepared.exists_request hreply
    obtain ⟨-, hid, -, -, hkind, -⟩ := batch_reply_eq_some heq
    obtain rfl : reply.log_id = v := Option.some.inj (hnew.symm.trans hindex)
    exact hid ▸ hbatch.log_id_lt _ hreq (hkind.mp hupdate)

/-- A read is answered with the index of its key after the batch. The reply has room for 32 bits of
the log id, and the fingerprint of a key is never `0xFFFFFFFF`. -/
theorem BatchRequests.read_reply {i : ℕ} {request : RawKvMsg}
    (hrequest : requests[i]? = some request) (hread : request.rpc_header.op = .kEnumReadIndexReq) :
    let final := apply_batch index replies sorted
    ∃ reply, final.replies[i]? = some reply ∧
      reply.rpc_header.op = .kEnumReadIndexReply ∧
      (reply.key = 0xFFFFFFFF ↔ final.index request.long_key = none) ∧
      ∀ v, final.index request.long_key = some v →
        reply.log_id = v.toUInt32.toUInt64 ∧
        ((index request.long_key = some v → v.toNat < 2 ^ 32) → reply.log_id = v) := by
  intro final
  obtain ⟨reply, buf, hplace, heq⟩ := hprepared.getElem? hrequest
  obtain ⟨hkey, -, hfingerprint, -, -, hkind⟩ := batch_reply_eq_some heq
  have hop := hkind.mpr hread
  have hmem : request ∈ requests := List.mem_of_getElem? hrequest
  refine ⟨apply_reply final.index reply, ?_, ?_, ?_, fun v hv ↦ ?_⟩
  · rw [apply_batch_replies index hsort, List.getElem?_map, hplace]
    rfl
  · rw [apply_reply, if_pos hop]
    exact hop
  · rw [apply_reply, if_pos hop, ← hkey]
    dsimp only
    split_ifs with habsent
    · exact iff_of_true rfl habsent
    · rw [hfingerprint, hbatch.read_key _ hmem hread]
      exact iff_of_false (get_fingerprint_ne_absent _) habsent
  · have hid : (apply_reply final.index reply).log_id = v.toUInt32.toUInt64 := by
      rw [apply_reply, if_pos hop]
      dsimp only
      rw [hkey, hv, Option.getD_some]
    refine ⟨hid, fun hold ↦ ?_⟩
    have hlt := hbatch.index_lt index hprepared hsort hold hv
    rw [hid]
    apply UInt64.toNat_inj.mp
    rw [UInt32.toNat_toUInt64, UInt64.toNat_toUInt32, Nat.mod_eq_of_lt hlt]

end Pass

/-- A request of the given kind, with the fields that matter to a batch. -/
def batchRequest (op : RpcType) (long_key log_id : UInt64) (stamp : UInt32) : RawKvMsg where
  rpc_header := ⟨1, 2, 0, 0, op⟩
  flag := 0
  switch_key := get_switch_key long_key
  kv_g_id := 0
  kv_c_id := 0
  magic := 1
  server_map := 0
  qp_map := 0
  coro_id := 0
  key := get_fingerprint long_key
  log_id := log_id
  route_port := 0
  route_map := 0
  client_port := 0
  send_cnt := 0
  index_port := 0
  magic_in_switch := 0
  timestamp := bswap32 stamp
  long_key := long_key
  value := []

end SwitchDelta.Kv
