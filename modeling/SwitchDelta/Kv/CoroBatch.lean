import SwitchDelta.Foundation.Coroutine
import SwitchDelta.Kv.BatchServer

/-!
# The batching index server with coroutines

Built with `COMT`, `server_batch_CPC` applies a sorted batch through worker coroutines on a Masstree
whose `insert` and `search` suspend. The first loop starts a worker for every entry whose key differs
from the last one, the second loop resumes the unfinished workers in turn until all are done.

The workers do not read and write what the plain loop does. An insert stores the eight bytes behind
the key of the reply buffer, which the poll loop does not set, where the plain loop stores `log_id`.
A search puts its result behind the key, which is not part of the packet, and leaves `key` and
`log_id` as the request had them.

`coro_batch_spec` gives the result for every way the calls suspend, and `coro_batch_agrees_iff` the
batches on which both builds agree.
-/

set_option autoImplicit false
set_option relaxedAutoImplicit false

namespace SwitchDelta.Kv

open Foundation (Phase Tasks)

/-! ### The worker -/

/-- `*(uint64_t *)reply->get_value_addr()`: the eight bytes behind the key, the lowest first. -/
def RawKvMsg.value_word (msg : RawKvMsg) : UInt64 :=
  (msg.value.take 8).foldr (fun byte word ↦ word <<< 8 + byte.toUInt64) 0

/-- Store a word at `get_value_addr()`. -/
def RawKvMsg.set_value_word (msg : RawKvMsg) (word : UInt64) : RawKvMsg :=
  { msg with
    value := (List.range 8).map (fun i ↦ (word >>> (8 * i).toUInt64).toUInt8) ++
      msg.value.drop 8 }

/-- The calls of the tree that a worker awaits. A search has a pointer to its result. -/
inductive TreeCall
  | insert (key value : UInt64)
  | search (key : UInt64) (reply_addr : ℕ)

/-- What the workers share: the tree and the reply buffers. -/
structure CoroShared where
  tree : Index
  replies : List RawKvMsg

/-- The action of a call. A search that finds nothing leaves its result alone. -/
def TreeCall.perform : TreeCall → CoroShared → CoroShared
  | .insert key value, shared => { shared with tree := shared.tree.put_long key value }
  | .search key reply_addr, shared =>
    match shared.replies[reply_addr]?, shared.tree key with
    | some reply, some value =>
      { shared with replies := shared.replies.set reply_addr (reply.set_value_word value) }
    | _, _ => shared

/-- The call that a worker makes for its entry. -/
def worker_call (entry : BatchEntry) (reply : RawKvMsg) : Option TreeCall :=
  match reply.rpc_header.op with
  | .ReplySwitch => some (.insert entry.key reply.value_word)
  | .kEnumUpdateIndexReply => some (.insert entry.key reply.value_word)
  | .kEnumReadIndexReply => some (.search entry.key entry.reply_addr)
  | _ => none

/-! ### The two loops -/

/-- The workers and the loop variables. A worker is free while `ctx[coro_id].free` holds. -/
structure CoroState where
  tasks : Tasks TreeCall CoroShared
  cnt : ℕ
  last_key : UInt64

/-- Resume a worker for its entry of a new batch. `suspensions` are those of its call. -/
def worker (suspensions : ℕ × ℕ) (tasks : Tasks TreeCall CoroShared) (coro_id : ℕ)
    (entry : BatchEntry) (reply : RawKvMsg) : Tasks TreeCall CoroShared :=
  match worker_call entry reply with
  | none => tasks
  | some call => tasks.proceed TreeCall.perform coro_id call suspensions.1 suspensions.2

/-- One round of the first loop. -/
def start_entry (suspensions : ℕ → ℕ × ℕ) (sorted : List BatchEntry) (st : CoroState) (i : ℕ) :
    CoroState :=
  match sorted[i]? with
  | none => st
  | some entry =>
    match st.tasks.shared.replies[entry.reply_addr]? with
    | none => st
    | some reply =>
      if st.last_key ≠ entry.key ∨ reply.rpc_header.op = .kEnumReadIndexReq then
        let tasks := worker (suspensions i) st.tasks i entry reply
        { tasks := tasks
          cnt := if (tasks.phase i).free then st.cnt + 1 - 1 else st.cnt + 1
          last_key := entry.key }
      else st

/-- The first loop, up to entry `m`. -/
def start_all (suspensions : ℕ → ℕ × ℕ) (index : Index) (replies : List RawKvMsg)
    (sorted : List BatchEntry) (m : ℕ) : CoroState :=
  (List.range m).foldl (start_entry suspensions sorted)
    ⟨⟨fun _ ↦ .idle, ⟨index, replies⟩⟩, 0, 0⟩

/-- One round of the inner `for` of the second loop. -/
def resume_entry (st : CoroState) (i : ℕ) : CoroState :=
  if (st.tasks.phase i).free then st
  else
    let tasks := st.tasks.resume TreeCall.perform i
    { st with
      tasks := tasks
      cnt := if (tasks.phase i).free then st.cnt - 1 else st.cnt }

/-- `while (cnt > 0)`, for at most `fuel` rounds. -/
def resume_all (batch_cnt : ℕ) : ℕ → CoroState → Option CoroState
  | 0, st => if st.cnt = 0 then some st else none
  | fuel + 1, st =>
    if st.cnt = 0 then some st
    else resume_all batch_cnt fuel ((List.range batch_cnt).foldl resume_entry st)

/-- The `COMT` branch on a sorted batch. -/
def coro_batch (suspensions : ℕ → ℕ × ℕ) (fuel : ℕ) (index : Index) (replies : List RawKvMsg)
    (sorted : List BatchEntry) : Option CoroShared :=
  (resume_all sorted.length fuel (start_all suspensions index replies sorted sorted.length)).map
    fun st ↦ st.tasks.shared

/-- What a client reads from a reply packet: the operation, the key and the log id. -/
def RawKvMsg.packet (msg : RawKvMsg) : RpcType × UInt32 × UInt64 :=
  (msg.rpc_header.op, msg.key, msg.log_id)

@[simp] theorem RawKvMsg.packet_set_value_word (msg : RawKvMsg) (word : UInt64) :
    (msg.set_value_word word).packet = msg.packet := rfl

/-- No call changes what is in the packets. -/
theorem TreeCall.perform_packets (call : TreeCall) (shared : CoroShared) :
    (call.perform shared).replies.map RawKvMsg.packet = shared.replies.map RawKvMsg.packet := by
  cases call with
  | insert => rfl
  | search key reply_addr =>
    unfold TreeCall.perform
    dsimp only
    split
    next reply value hreply _ =>
      apply List.ext_getElem?
      intro j
      by_cases hj : reply_addr = j
      · subst hj
        obtain ⟨hlt, rfl⟩ := List.getElem?_eq_some_iff.mp hreply
        simp [hlt]
      · simp [List.getElem?_set_ne hj]
    · rfl

/-! ### The invariant of the two loops -/

/-- Entry `i` is the first of its key, which is not zero. -/
def First (sorted : List BatchEntry) (i : ℕ) (entry : BatchEntry) : Prop :=
  sorted[i]? = some entry ∧ entry.key ≠ 0 ∧
    ∀ j < i, ∀ e, sorted[j]? = some e → e.key ≠ entry.key

theorem First.unique {sorted : List BatchEntry} {i j : ℕ} {x y : BatchEntry}
    (hx : First sorted i x) (hy : First sorted j y) (hkey : x.key = y.key) : i = j := by
  rcases lt_trichotomy i j with hlt | heq | hlt
  · exact absurd hkey (hy.2.2 i hlt x hx.1)
  · exact heq
  · exact absurd hkey.symm (hx.2.2 j hlt y hy.1)

/-- The call that the worker of entry `i` makes, from the prepared replies. -/
def callAt (replies : List RawKvMsg) (sorted : List BatchEntry) (i : ℕ) : Option TreeCall :=
  sorted[i]?.bind fun entry ↦ replies[entry.reply_addr]?.bind (worker_call entry)

/-- Worker `i` is in its call and the tree has not acted yet. -/
def Pending (st : CoroState) (i : ℕ) : Prop :=
  ∃ call before after, st.tasks.phase i = .calling call before after

/-- The number of workers in a call, of the first `m`. -/
def busyCount (m : ℕ) (st : CoroState) : ℕ :=
  (List.range m).countP fun i ↦ !(st.tasks.phase i).free

/-- The loops after the first `m` entries of the array have been looked at: the first entries of
their keys have a worker, and the tree has the inserts of those that are past their action. -/
structure CoroInv (index : Index) (replies : List RawKvMsg) (sorted : List BatchEntry) (m : ℕ)
    (st : CoroState) : Prop where
  busy : ∀ i, (st.tasks.phase i).free = false → i < m ∧ ∃ entry, First sorted i entry
  call : ∀ i call before after, st.tasks.phase i = .calling call before after →
    callAt replies sorted i = some call
  packets : st.tasks.shared.replies.map RawKvMsg.packet = replies.map RawKvMsg.packet
  untouched : ∀ i entry, m ≤ i → sorted[i]? = some entry →
    st.tasks.shared.replies[entry.reply_addr]? = replies[entry.reply_addr]?
  acted : ∀ i entry value, i < m → First sorted i entry →
    callAt replies sorted i = some (.insert entry.key value) → ¬ Pending st i →
    st.tasks.shared.tree entry.key = some value
  kept : ∀ k, (∀ i entry value, i < m → First sorted i entry → entry.key = k →
      callAt replies sorted i = some (.insert k value) → Pending st i) →
    st.tasks.shared.tree k = index k
  cnt : st.cnt = busyCount m st

section Invariant

variable {index : Index} {replies : List RawKvMsg} {sorted : List BatchEntry} {m : ℕ}
  {st : CoroState}

theorem not_pending_of_free {i : ℕ} (h : (st.tasks.phase i).free = true) : ¬ Pending st i := by
  rintro ⟨call, before, after, heq⟩
  rw [heq] at h
  exact Bool.false_ne_true h

/-- Changing the phase of one worker. -/
theorem busyCount_of_ne {st' : CoroState} {i : ℕ} (hi : i < m)
    (hother : ∀ j, j ≠ i → st'.tasks.phase j = st.tasks.phase j) :
    busyCount m st' + (if (st.tasks.phase i).free then 0 else 1) =
      busyCount m st + if (st'.tasks.phase i).free then 0 else 1 := by
  have hsplit (s : CoroState) : busyCount m s =
      (if (s.tasks.phase i).free then 0 else 1) +
        ((List.range m).erase i).countP fun j ↦ !(s.tasks.phase j).free := by
    have hmem : i ∈ List.range m := List.mem_range.mpr hi
    rw [busyCount, (List.perm_cons_erase hmem).countP_eq, List.countP_cons, add_comm]
    congr 1
    cases (s.tasks.phase i).free <;> rfl
  have hrest : ((List.range m).erase i).countP (fun j ↦ !(st'.tasks.phase j).free) =
      ((List.range m).erase i).countP fun j ↦ !(st.tasks.phase j).free := by
    refine List.countP_congr fun j hj ↦ ?_
    rw [hother j ((List.nodup_range.mem_erase_iff.mp hj).1)]
  rw [hsplit st', hsplit st, hrest]
  omega

/-- The call of a worker is that of its own entry. -/
theorem callAt_cases {i : ℕ} {call : TreeCall} {entry : BatchEntry}
    (hentry : sorted[i]? = some entry) (hcall : callAt replies sorted i = some call) :
    (∃ value, call = .insert entry.key value) ∨ call = .search entry.key entry.reply_addr := by
  rw [callAt, hentry, Option.bind_some, Option.bind_eq_some_iff] at hcall
  obtain ⟨reply, -, hcall⟩ := hcall
  unfold worker_call at hcall
  split at hcall
  · exact Or.inl ⟨_, (Option.some.inj hcall).symm⟩
  · exact Or.inl ⟨_, (Option.some.inj hcall).symm⟩
  · exact Or.inr (Option.some.inj hcall).symm
  · exact absurd hcall (Option.some_ne_none _).symm

/-- A call of an entry leaves the tree at the other keys. -/
theorem TreeCall.perform_tree_of_ne {call : TreeCall} {entry : BatchEntry} {k : UInt64}
    (hcall : (∃ value, call = .insert entry.key value) ∨
      call = .search entry.key entry.reply_addr) (hne : k ≠ entry.key) (shared : CoroShared) :
    (call.perform shared).tree k = shared.tree k := by
  rcases hcall with ⟨value, rfl⟩ | rfl
  · exact Function.update_of_ne hne _ _
  · unfold TreeCall.perform
    dsimp only
    split <;> rfl

/-- A call of an entry leaves the replies of the others. -/
theorem TreeCall.perform_reply_of_ne {call : TreeCall} {entry : BatchEntry} {addr : ℕ}
    (hcall : (∃ value, call = .insert entry.key value) ∨
      call = .search entry.key entry.reply_addr) (hne : addr ≠ entry.reply_addr)
    (shared : CoroShared) :
    (call.perform shared).replies[addr]? = shared.replies[addr]? := by
  rcases hcall with ⟨value, rfl⟩ | rfl
  · rfl
  · unfold TreeCall.perform
    dsimp only
    split
    · exact List.getElem?_set_ne (Ne.symm hne)
    · rfl

theorem TreeCall.perform_search_tree (key : UInt64) (reply_addr : ℕ) (shared : CoroShared) :
    (TreeCall.perform (.search key reply_addr) shared).tree = shared.tree := by
  unfold TreeCall.perform
  dsimp only
  split <;> rfl

/-- Different entries of a sorted array have different reply buffers. -/
theorem reply_addr_ne (hnodup : (sorted.map BatchEntry.reply_addr).Nodup) {i j : ℕ}
    {x y : BatchEntry} (hx : sorted[i]? = some x) (hy : sorted[j]? = some y) (hne : i ≠ j) :
    x.reply_addr ≠ y.reply_addr := by
  intro heq
  obtain ⟨hi, rfl⟩ := List.getElem?_eq_some_iff.mp hx
  obtain ⟨hj, rfl⟩ := List.getElem?_eq_some_iff.mp hy
  have hi' : i < (sorted.map BatchEntry.reply_addr).length := by simpa using hi
  have hj' : j < (sorted.map BatchEntry.reply_addr).length := by simpa using hj
  refine hne (((hnodup.getElem_inj_iff : (sorted.map BatchEntry.reply_addr)[i] =
    (sorted.map BatchEntry.reply_addr)[j] ↔ i = j)).mp ?_)
  simpa using heq

/-- The second loop keeps the invariant: a worker that goes on does at most the action of its own
call, on the key and the reply of its own entry. -/
theorem CoroInv.resumed (hnodup : (sorted.map BatchEntry.reply_addr).Nodup)
    (hinv : CoroInv index replies sorted m st) (i : ℕ) :
    CoroInv index replies sorted m (resume_entry st i) := by
  unfold resume_entry
  split_ifs with hfree
  · exact hinv
  dsimp only
  set tasks := st.tasks.resume TreeCall.perform i with htasks
  set st' : CoroState := { st with
    tasks := tasks
    cnt := if (tasks.phase i).free then st.cnt - 1 else st.cnt } with hst'
  have hbusy : (st.tasks.phase i).free = false := by simpa using hfree
  obtain ⟨him, entry, hfirst⟩ := hinv.busy i hbusy
  have hother {j : ℕ} (hne : j ≠ i) : st'.tasks.phase j = st.tasks.phase j :=
    Tasks.resume_of_ne _ _ hne
  have hpending {j : ℕ} (hne : j ≠ i) : Pending st' j ↔ Pending st j := by
    unfold Pending
    rw [hother hne]
  have hcnt : st'.cnt = busyCount m st' := by
    have hcount := busyCount_of_ne him fun j hne ↦ hother hne
    rw [hbusy, ← hinv.cnt] at hcount
    have hrfl : st'.cnt = if (st'.tasks.phase i).free then st.cnt - 1 else st.cnt := rfl
    rw [hrfl]
    cases hfree' : (st'.tasks.phase i).free <;> simp [hfree'] at hcount ⊢ <;> omega
  have hbusy' (j : ℕ) (hj : (st'.tasks.phase j).free = false) :
      j < m ∧ ∃ entry, First sorted j entry := by
    by_cases hne : j = i
    · exact hne ▸ ⟨him, entry, hfirst⟩
    · exact hinv.busy j (hother hne ▸ hj)
  rcases Tasks.resume_cases TreeCall.perform st.tasks i with
    ⟨hshared, hphase⟩ | ⟨call, before, after, hcalling, hshared, hpast⟩
  · -- the worker does not act: whether it is pending does not change either
    have hsame : Pending st' i ↔ Pending st i := by
      rcases hphase with ⟨c, b, b', a, hold, hnew⟩ | ⟨hold, hnew⟩
      · exact iff_of_true ⟨c, b', a, hnew⟩ ⟨c, b, a, hold⟩
      · exact iff_of_false (fun ⟨c, b, a, h⟩ ↦ hnew c b a h) fun ⟨c, b, a, h⟩ ↦ hold c b a h
    have hall (j : ℕ) : Pending st' j ↔ Pending st j := by
      by_cases hne : j = i
      · exact hne ▸ hsame
      · exact hpending hne
    have hshared' : st'.tasks.shared = st.tasks.shared := hshared
    refine ⟨hbusy', fun j c b a hj ↦ ?_, ?_, ?_, ?_, ?_, hcnt⟩
    · by_cases hne : j = i
      · subst hne
        rcases hphase with ⟨c', b', b'', a', hold, hnew⟩ | ⟨-, hnew⟩
        · obtain ⟨rfl, -, -⟩ := Phase.calling.inj (hnew.symm.trans hj)
          exact hinv.call _ _ _ _ hold
        · exact absurd hj (hnew c b a)
      · exact hinv.call j c b a (hother hne ▸ hj)
    · rw [hshared']
      exact hinv.packets
    · rw [hshared']
      exact hinv.untouched
    · intro j e v hj hf hc hnot
      rw [hshared']
      exact hinv.acted j e v hj hf hc fun h ↦ hnot ((hall j).mpr h)
    · intro k hk
      rw [hshared']
      exact hinv.kept k fun j e v hj hf hkey hc ↦ (hall j).mp (hk j e v hj hf hkey hc)
  · -- the worker acts
    have hcallAt := hinv.call i call before after hcalling
    have hkind := callAt_cases hfirst.1 hcallAt
    have hnot : ¬ Pending st' i := fun ⟨c, b, a, h⟩ ↦ hpast c b a h
    have hshared' : st'.tasks.shared = call.perform st.tasks.shared := hshared
    refine ⟨hbusy', fun j c b a hj ↦ ?_, ?_, fun j e hj he ↦ ?_, ?_, ?_, hcnt⟩
    · have hne : j ≠ i := by
        rintro rfl
        exact hpast c b a hj
      exact hinv.call j c b a (hother hne ▸ hj)
    · rw [hshared', TreeCall.perform_packets]
      exact hinv.packets
    · have hne : i ≠ j := by omega
      rw [hshared', TreeCall.perform_reply_of_ne hkind
        (reply_addr_ne hnodup hfirst.1 he hne).symm]
      exact hinv.untouched j e hj he
    · intro j e v hj hf hc hdone
      rw [hshared']
      by_cases hne : j = i
      · subst hne
        obtain rfl : e = entry := Option.some.inj (hf.1.symm.trans hfirst.1)
        obtain rfl : call = .insert e.key v := Option.some.inj (hcallAt.symm.trans hc)
        exact Function.update_self _ _ _
      · rw [TreeCall.perform_tree_of_ne hkind fun hkey ↦ hne (hf.unique hfirst hkey)]
        exact hinv.acted j e v hj hf hc fun h ↦ hdone ((hpending hne).mpr h)
    · intro k hk
      rw [hshared']
      rcases hkind with ⟨value, rfl⟩ | rfl
      · have hkey : k ≠ entry.key := by
          rintro rfl
          exact hnot (hk i entry value him hfirst rfl hcallAt)
        rw [TreeCall.perform_tree_of_ne (Or.inl ⟨value, rfl⟩) hkey]
        refine hinv.kept k fun j e v hj hf hekey hc ↦ ?_
        have hne : j ≠ i := by
          rintro rfl
          obtain rfl : e = entry := Option.some.inj (hf.1.symm.trans hfirst.1)
          exact hkey hekey.symm
        exact (hpending hne).mp (hk j e v hj hf hekey hc)
      · rw [TreeCall.perform_search_tree]
        refine hinv.kept k fun j e v hj hf hekey hc ↦ ?_
        have hne : j ≠ i := by
          rintro rfl
          exact absurd (hcallAt.symm.trans hc) (by simp)
        exact (hpending hne).mp (hk j e v hj hf hekey hc)

theorem busyCount_succ (m : ℕ) (st : CoroState) :
    busyCount (m + 1) st = busyCount m st + if (st.tasks.phase m).free then 0 else 1 := by
  rw [busyCount, List.range_succ, List.countP_append, List.countP_singleton, busyCount]
  cases (st.tasks.phase m).free <;> rfl

theorem CoroInv.free_of_le (hinv : CoroInv index replies sorted m st) {i : ℕ} (hi : m ≤ i) :
    (st.tasks.phase i).free = true := by
  by_contra hbusy
  exact absurd (hinv.busy i (by simpa using hbusy)).1 (Nat.not_lt.mpr hi)

/-- An entry that is not the first of its key is passed over. -/
theorem CoroInv.skip (hinv : CoroInv index replies sorted m st)
    (hnot : ∀ entry, ¬ First sorted m entry) : CoroInv index replies sorted (m + 1) st := by
  have hlt {i : ℕ} {entry : BatchEntry} (hi : i < m + 1) (hfirst : First sorted i entry) :
      i < m := by
    rcases Nat.lt_succ_iff_lt_or_eq.mp hi with hlt | rfl
    · exact hlt
    · exact absurd hfirst (hnot entry)
  refine ⟨fun i hi ↦ ?_, hinv.call, hinv.packets,
    fun i entry hi ↦ hinv.untouched i entry (by omega),
    fun i entry value hi hfirst ↦ hinv.acted i entry value (hlt hi hfirst) hfirst,
    fun k hk ↦ hinv.kept k fun i entry value hi ↦ hk i entry value (by omega), ?_⟩
  · exact ⟨Nat.lt_succ_of_lt (hinv.busy i hi).1, (hinv.busy i hi).2⟩
  · rw [busyCount_succ, hinv.free_of_le le_rfl]
    exact hinv.cnt

/-- The state in which the worker of entry `i` has been counted and has just begun its call. -/
def CoroState.begin (st : CoroState) (i : ℕ) (entry : BatchEntry) (call : TreeCall)
    (suspensions : ℕ × ℕ) : CoroState where
  tasks := { st.tasks with
    phase := Function.update st.tasks.phase i (.calling call suspensions.1 suspensions.2) }
  cnt := st.cnt + 1
  last_key := entry.key

/-- A worker begins with the first entry of a key. -/
theorem CoroInv.begin (hinv : CoroInv index replies sorted m st) {entry : BatchEntry}
    (hfirst : First sorted m entry) {call : TreeCall}
    (hcall : callAt replies sorted m = some call) (suspensions : ℕ × ℕ) :
    CoroInv index replies sorted (m + 1) (st.begin m entry call suspensions) := by
  have hself : (st.begin m entry call suspensions).tasks.phase m =
      .calling call suspensions.1 suspensions.2 := Function.update_self _ _ _
  have hother {i : ℕ} (hne : i ≠ m) :
      (st.begin m entry call suspensions).tasks.phase i = st.tasks.phase i :=
    Function.update_of_ne hne _ _
  have hpending : Pending (st.begin m entry call suspensions) m := ⟨_, _, _, hself⟩
  have hiff {i : ℕ} (hne : i ≠ m) :
      Pending (st.begin m entry call suspensions) i ↔ Pending st i := by
    unfold Pending
    rw [hother hne]
  refine ⟨fun i hi ↦ ?_, fun i c b a hi ↦ ?_, hinv.packets,
    fun i e hi ↦ hinv.untouched i e (by omega), fun i e v hi hf hc hnot ↦ ?_,
    fun k hk ↦ hinv.kept k fun i e v hi hf hkey hc ↦ ?_, ?_⟩
  · by_cases hne : i = m
    · rw [hne]
      exact ⟨Nat.lt_succ_self m, entry, hfirst⟩
    · obtain ⟨hlt, hbusy⟩ := hinv.busy i (hother hne ▸ hi)
      exact ⟨Nat.lt_succ_of_lt hlt, hbusy⟩
  · by_cases hne : i = m
    · subst hne
      obtain ⟨rfl, -, -⟩ := Phase.calling.inj (hself.symm.trans hi)
      exact hcall
    · exact hinv.call i c b a (hother hne ▸ hi)
  · have hne : i ≠ m := by
      rintro rfl
      exact hnot hpending
    exact hinv.acted i e v (by omega) hf hc fun h ↦ hnot ((hiff hne).mpr h)
  · exact (hiff (by omega)).mp (hk i e v (by omega) hf hkey hc)
  · have hrange : busyCount m (st.begin m entry call suspensions) = busyCount m st := by
      refine List.countP_congr fun i hi ↦ ?_
      rw [hother (Nat.ne_of_lt (List.mem_range.mp hi))]
    rw [busyCount_succ, hrange, hself, ← hinv.cnt]
    rfl

/-- A started worker is one that begins and is resumed at once. -/
theorem resume_entry_begin (st : CoroState) (i : ℕ) (entry : BatchEntry) (call : TreeCall)
    (suspensions : ℕ × ℕ) :
    resume_entry (st.begin i entry call suspensions) i =
      let tasks := st.tasks.proceed TreeCall.perform i call suspensions.1 suspensions.2
      { tasks := tasks
        cnt := if (tasks.phase i).free then st.cnt + 1 - 1 else st.cnt + 1
        last_key := entry.key } := by
  have hbusy : ((st.begin i entry call suspensions).tasks.phase i).free = false := by
    simp [CoroState.begin, Phase.free]
  rw [resume_entry, hbusy, if_neg Bool.false_ne_true, Tasks.proceed_eq_resume]
  rfl

/-- `last_key` before entry `m` of a sorted array is looked at. -/
def LastKey (sorted : List BatchEntry) (m : ℕ) (key : UInt64) : Prop :=
  (m = 0 → key = 0) ∧ ∀ entry, 0 < m → sorted[m - 1]? = some entry → key = entry.key

section Sorted

variable (hsort : StdSort (batchEntries replies) sorted)

include hsort

/-- An entry of the sorted array has its reply in the buffer. -/
theorem StdSort.exists_reply {i : ℕ} {entry : BatchEntry} (hentry : sorted[i]? = some entry) :
    ∃ reply, replies[entry.reply_addr]? = some reply ∧ entry.key = reply.long_key := by
  obtain ⟨reply, hreply, heq⟩ := batchEntries_describes replies entry
    (hsort.1.mem_iff.mp (List.mem_of_getElem? hentry))
  refine ⟨reply, hreply, ?_⟩
  rw [heq]
  rfl

theorem StdSort.key_le {i j : ℕ} {x y : BatchEntry} (hij : i ≤ j) (hx : sorted[i]? = some x)
    (hy : sorted[j]? = some y) : x.key ≤ y.key := by
  obtain ⟨hi, rfl⟩ := List.getElem?_eq_some_iff.mp hx
  obtain ⟨hj, rfl⟩ := List.getElem?_eq_some_iff.mp hy
  rcases Nat.lt_or_eq_of_le hij with hlt | rfl
  · rcases BatchEntry.not_lt_iff.mp (List.pairwise_iff_getElem.mp hsort.2 i j hi hj hlt) with
      hkey | hkey
    · exact UInt64.le_of_lt hkey
    · exact UInt64.le_of_eq hkey.1
  · exact UInt64.le_refl _

/-- `last_key` tells whether an entry is the first of its key. -/
theorem StdSort.first_iff {key : UInt64} {entry : BatchEntry} (hlast : LastKey sorted m key)
    (hentry : sorted[m]? = some entry) : First sorted m entry ↔ key ≠ entry.key := by
  rcases Nat.eq_zero_or_pos m with rfl | hpos
  · rw [hlast.1 rfl]
    exact ⟨fun h ↦ h.2.1.symm, fun h ↦ ⟨hentry, h.symm, fun j hj ↦ absurd hj (Nat.not_lt_zero j)⟩⟩
  have hlt := (List.getElem?_eq_some_iff.mp hentry).1
  have hprev : sorted[m - 1]? = some (sorted.get ⟨m - 1, by omega⟩) :=
    List.getElem?_eq_getElem (by omega)
  set prev := sorted.get ⟨m - 1, by omega⟩
  rw [hlast.2 prev hpos hprev]
  constructor
  · exact fun h ↦ h.2.2 (m - 1) (by omega) prev hprev
  · intro hne
    have hle := hsort.key_le (Nat.sub_le m 1) hprev hentry
    refine ⟨hentry, fun hzero ↦ hne ?_, fun j hj e he heq ↦ hne ?_⟩
    · rw [hzero] at hle ⊢
      exact UInt64.le_antisymm hle (UInt64.zero_le)
    · exact UInt64.le_antisymm hle (heq ▸ hsort.key_le (by omega) he hprev)

variable (hops : ∀ reply ∈ replies,
  reply.IsUpdate ∨ reply.rpc_header.op = .kEnumReadIndexReply)

omit hsort in
include hops in
/-- The worker of an entry makes a call. -/
theorem exists_worker_call {reply : RawKvMsg} (hreply : reply ∈ replies) (entry : BatchEntry) :
    ∃ call, worker_call entry reply = some call := by
  unfold worker_call
  rcases hops reply hreply with (hop | hop) | hop <;> rw [hop] <;> exact ⟨_, rfl⟩

include hops

/-- One round of the first loop. -/
theorem CoroInv.started (suspensions : ℕ → ℕ × ℕ)
    (hinv : CoroInv index replies sorted m st) (hlast : LastKey sorted m st.last_key)
    (hm : m < sorted.length) :
    CoroInv index replies sorted (m + 1) (start_entry suspensions sorted st m) ∧
      LastKey sorted (m + 1) (start_entry suspensions sorted st m).last_key := by
  obtain ⟨entry, hentry⟩ : ∃ entry, sorted[m]? = some entry :=
    ⟨_, List.getElem?_eq_getElem hm⟩
  obtain ⟨reply, hreply, -⟩ := hsort.exists_reply hentry
  have hmem := List.mem_of_getElem? hreply
  obtain ⟨call, hcall⟩ := exists_worker_call hops hmem entry
  have hcallAt : callAt replies sorted m = some call := by
    rw [callAt, hentry, Option.bind_some, hreply, Option.bind_some, hcall]
  have hop : reply.rpc_header.op ≠ .kEnumReadIndexReq := by
    intro heq
    rcases hops reply hmem with (h | h) | h <;> rw [heq] at h <;> exact RpcType.noConfusion h
  have hkey {key : UInt64} (h : key = entry.key) : LastKey sorted (m + 1) key := by
    refine ⟨fun h ↦ absurd h (Nat.succ_ne_zero m), fun e _ he ↦ ?_⟩
    obtain rfl : entry = e := Option.some.inj (hentry.symm.trans he)
    exact h
  have hstart : start_entry suspensions sorted st m =
      if st.last_key ≠ entry.key then
        resume_entry (st.begin m entry call (suspensions m)) m else st := by
    unfold start_entry
    rw [hentry]
    dsimp only
    rw [hinv.untouched m entry le_rfl hentry, hreply]
    dsimp only
    rw [worker, hcall, resume_entry_begin]
    simp only [hop, or_false]
  rw [hstart]
  split_ifs with hne
  · have hfirst := (hsort.first_iff hlast hentry).mpr hne
    refine ⟨(hinv.begin hfirst hcallAt _).resumed hsort.addr_nodup m, hkey ?_⟩
    rw [resume_entry_begin]
  · refine ⟨hinv.skip fun e he ↦ ?_, hkey (by simpa using hne)⟩
    obtain rfl : entry = e := Option.some.inj (hentry.symm.trans he.1)
    exact hne ((hsort.first_iff hlast hentry).mp he)

/-- The first loop, up to entry `m`. -/
theorem CoroInv.of_start (index : Index) (suspensions : ℕ → ℕ × ℕ) (hm : m ≤ sorted.length) :
    let st := start_all suspensions index replies sorted m
    CoroInv index replies sorted m st ∧ LastKey sorted m st.last_key := by
  induction m with
  | zero =>
    refine ⟨⟨fun i hi ↦ absurd hi (by simp [start_all, Phase.free]), fun i c b a hi ↦ (nomatch hi),
      rfl, fun i entry _ _ ↦ rfl, fun i entry v hi ↦ absurd hi (Nat.not_lt_zero i),
      fun k _ ↦ rfl, rfl⟩, fun _ ↦ rfl, fun entry h ↦ absurd h (Nat.lt_irrefl 0)⟩
  | succ m ih =>
    obtain ⟨hinv, hlast⟩ := ih (by omega)
    rw [start_all, List.range_succ, List.foldl_append]
    exact hinv.started hsort hops suspensions hlast (by omega)

end Sorted

/-! ### The second loop ends -/

/-- The number of resumptions that the first `m` workers still need. -/
def resumptions (m : ℕ) (st : CoroState) : ℕ :=
  ∑ i ∈ Finset.range m, (st.tasks.phase i).remaining

/-- A resumption counts down. -/
theorem resumptions_resume_entry {i : ℕ} (hi : i < m) :
    resumptions m (resume_entry st i) =
      resumptions m st - if (st.tasks.phase i).free then 0 else 1 := by
  unfold resume_entry
  split_ifs with hfree
  · rfl
  have hpos : (st.tasks.phase i).remaining ≠ 0 := fun h ↦
    hfree (Phase.remaining_eq_zero_iff.mp h)
  have hmem := Finset.mem_range.mpr hi
  unfold resumptions
  rw [← Finset.add_sum_erase _ _ hmem, ← Finset.add_sum_erase _ _ hmem]
  dsimp only
  rw [Tasks.resume_remaining, Finset.sum_congr rfl fun j hj ↦ by
    rw [Tasks.resume_of_ne _ _ (Finset.ne_of_mem_erase hj)]]
  omega

/-- A round over some workers does not add to the resumptions, and takes one away if one of the
workers is in a call. -/
theorem resumptions_round {l : List ℕ} (hl : ∀ i ∈ l, i < m) :
    resumptions m (l.foldl resume_entry st) ≤ resumptions m st ∧
      ((∃ i ∈ l, (st.tasks.phase i).free = false) →
        resumptions m (l.foldl resume_entry st) < resumptions m st) := by
  induction l generalizing st with
  | nil => exact ⟨le_rfl, fun ⟨i, hi, _⟩ ↦ absurd hi List.not_mem_nil⟩
  | cons i l ih =>
    have hstep : resumptions m (resume_entry st i) =
        resumptions m st - if (st.tasks.phase i).free then 0 else 1 :=
      resumptions_resume_entry (hl i List.mem_cons_self)
    obtain ⟨hle, hlt⟩ := @ih (resume_entry st i) fun j hj ↦ hl j (List.mem_cons_of_mem _ hj)
    rw [List.foldl_cons]
    cases hfree : (st.tasks.phase i).free with
    | true =>
      have hsame : resume_entry st i = st := by rw [resume_entry, hfree, if_pos rfl]
      rw [hsame] at hle hlt ⊢
      refine ⟨hle, fun ⟨j, hj, hbusy⟩ ↦ hlt ⟨j, ?_, hbusy⟩⟩
      rcases List.mem_cons.mp hj with rfl | hj
      · exact absurd (hfree.symm.trans hbusy) (by simp)
      · exact hj
    | false =>
      have hpos : 0 < resumptions m st := by
        refine Finset.sum_pos' (fun _ _ ↦ Nat.zero_le _)
          ⟨i, Finset.mem_range.mpr (hl i List.mem_cons_self), Nat.pos_of_ne_zero fun hzero ↦ ?_⟩
        rw [Phase.remaining_eq_zero_iff, hfree] at hzero
        exact Bool.false_ne_true hzero
      rw [hfree, if_neg Bool.false_ne_true] at hstep
      exact ⟨by omega, fun _ ↦ by omega⟩

theorem CoroInv.resumed_round (hnodup : (sorted.map BatchEntry.reply_addr).Nodup)
    (hinv : CoroInv index replies sorted m st) (l : List ℕ) :
    CoroInv index replies sorted m (l.foldl resume_entry st) := by
  induction l generalizing st with
  | nil => exact hinv
  | cons i l ih => exact ih (hinv.resumed hnodup i)

/-- The second loop ends, with all workers free. -/
theorem CoroInv.resumed_all (hnodup : (sorted.map BatchEntry.reply_addr).Nodup)
    (hinv : CoroInv index replies sorted m st) {fuel : ℕ} (hfuel : resumptions m st ≤ fuel) :
    ∃ final, resume_all m fuel st = some final ∧ CoroInv index replies sorted m final ∧
      final.cnt = 0 := by
  induction fuel generalizing st with
  | zero =>
    have hcnt : st.cnt = 0 := by
      rw [hinv.cnt, busyCount, List.countP_eq_zero]
      intro i hi
      have hzero := (Finset.sum_eq_zero_iff.mp (Nat.le_zero.mp hfuel)) i
        (Finset.mem_range.mpr (List.mem_range.mp hi))
      simpa using Phase.remaining_eq_zero_iff.mp hzero
    exact ⟨st, by rw [resume_all, if_pos hcnt], hinv, hcnt⟩
  | succ fuel ih =>
    by_cases hcnt : st.cnt = 0
    · exact ⟨st, by rw [resume_all, if_pos hcnt], hinv, hcnt⟩
    · obtain ⟨i, hi, hbusy⟩ : ∃ i ∈ List.range m, (st.tasks.phase i).free = false := by
        rw [hinv.cnt, busyCount] at hcnt
        obtain ⟨i, hi, hbusy⟩ := List.countP_pos_iff.mp (Nat.pos_of_ne_zero hcnt)
        exact ⟨i, hi, by simpa using hbusy⟩
      have hlt : resumptions m ((List.range m).foldl resume_entry st) < resumptions m st :=
        (resumptions_round fun j hj ↦ List.mem_range.mp hj).2 ⟨i, hi, hbusy⟩
      rw [resume_all, if_neg hcnt]
      exact ih (hinv.resumed_round hnodup _) (by omega)

end Invariant

/-! ### Both builds on one batch -/

/-- The index of a key after a batch whose replies come in the given order: the word of the first
update of the key, if the first entry of the key is one. -/
def resolved (word : RawKvMsg → UInt64) (index : Index) (ordered : List RawKvMsg) : Index := fun k ↦
  if k = 0 then index k
  else
    match ordered.find? (fun reply ↦ reply.long_key = k) with
    | none => index k
    | some first => if first.IsUpdate then some (word first) else index k

section Batch

variable (index : Index) {replies : List RawKvMsg} {sorted : List BatchEntry}
  (hsort : StdSort (batchEntries replies) sorted)

include hsort

/-- The plain loop stores `log_id`. -/
theorem apply_batch_resolved :
    (apply_batch index replies sorted).index =
      resolved RawKvMsg.log_id index (orderedReplies replies sorted) := by
  have hkeys := hsort.ordered_pairwise.imp fun h ↦ h.key_le
  funext k
  rw [(apply_batch_spec index hsort).1, resolved]
  split_ifs with hk
  · exact applyIndexes_of_last_key hk.symm (fun _ _ ↦ hk ▸ UInt64.zero_le) hkeys
  · exact applyIndexes_eq_first (Ne.symm hk) hkeys

theorem StdSort.ordered_eq :
    (orderedReplies replies sorted).map some = sorted.map fun e ↦ replies[e.reply_addr]? := by
  have hsome : ∀ e ∈ sorted, (replies[e.reply_addr]?).isSome := fun e he ↦ by
    obtain ⟨i, hi⟩ := List.getElem?_of_mem he
    obtain ⟨reply, hreply, -⟩ := hsort.exists_reply hi
    rw [hreply]
    rfl
  rw [orderedReplies]
  clear hsort
  induction sorted with
  | nil => rfl
  | cons e sorted ih =>
    obtain ⟨reply, hreply⟩ := Option.isSome_iff_exists.mp (hsome e List.mem_cons_self)
    simp only [List.filterMap_cons, hreply, List.map_cons,
      ih fun e he ↦ hsome e (List.mem_cons_of_mem _ he)]

theorem StdSort.ordered_getElem? (i : ℕ) :
    (orderedReplies replies sorted)[i]? = sorted[i]?.bind fun e ↦ replies[e.reply_addr]? := by
  have hplace := congrArg (·[i]?) hsort.ordered_eq
  simp only [List.getElem?_map] at hplace
  cases hentry : sorted[i]? with
  | none =>
    rw [hentry] at hplace
    simpa using hplace
  | some e =>
    rw [hentry] at hplace
    obtain ⟨reply, hreply, heq⟩ := Option.map_eq_some_iff.mp hplace
    rw [hreply, Option.bind_some, heq]

variable (hops : ∀ reply ∈ replies,
  reply.IsUpdate ∨ reply.rpc_header.op = .kEnumReadIndexReply)

include hops

/-- The coroutines store the word behind the key. They change no packet. -/
theorem coro_batch_spec (suspensions : ℕ → ℕ × ℕ) :
    ∃ bound, ∀ fuel ≥ bound, ∃ final,
      coro_batch suspensions fuel index replies sorted = some final ∧
      final.tree = resolved RawKvMsg.value_word index (orderedReplies replies sorted) ∧
      final.replies.map RawKvMsg.packet = replies.map RawKvMsg.packet := by
  obtain ⟨hinv, -⟩ := CoroInv.of_start hsort hops index suspensions (Nat.le_refl sorted.length)
  refine ⟨resumptions sorted.length (start_all suspensions index replies sorted sorted.length),
    fun fuel hfuel ↦ ?_⟩
  obtain ⟨final, hrun, hinv, hcnt⟩ := hinv.resumed_all hsort.addr_nodup hfuel
  refine ⟨final.tasks.shared, by rw [coro_batch, hrun, Option.map_some], ?_, hinv.packets⟩
  have hfree (i : ℕ) : ¬ Pending final i := by
    refine not_pending_of_free ?_
    rw [hinv.cnt, busyCount, List.countP_eq_zero] at hcnt
    by_cases hi : i < sorted.length
    · simpa using hcnt i (List.mem_range.mpr hi)
    · exact hinv.free_of_le (Nat.not_lt.mp hi)
  funext k
  rw [resolved]
  split_ifs with hk
  · -- key zero has no first entry
    exact hinv.kept k fun i e v _ hfirst hkey ↦ absurd (hkey.trans hk) hfirst.2.1
  have hplace {i : ℕ} {e : BatchEntry} (he : sorted[i]? = some e) :
      ∃ reply, (orderedReplies replies sorted)[i]? = some reply ∧ e.key = reply.long_key ∧
        replies[e.reply_addr]? = some reply := by
    obtain ⟨reply, hreply, hkey⟩ := hsort.exists_reply he
    refine ⟨reply, ?_, hkey, hreply⟩
    rw [hsort.ordered_getElem?, he, Option.bind_some, hreply]
  cases hfind : (orderedReplies replies sorted).find? fun reply ↦ reply.long_key = k with
  | none =>
    refine hinv.kept k fun i e v _ hfirst hkey ↦ ?_
    obtain ⟨reply, hreply, hreplykey, -⟩ := hplace hfirst.1
    have hnot := List.find?_eq_none.mp hfind reply (List.mem_of_getElem? hreply)
    exact absurd (hreplykey.symm.trans hkey) (by simpa using hnot)
  | some first =>
    obtain ⟨hfirstkey, i, hi, hat, hbefore⟩ := List.find?_eq_some_iff_getElem.mp hfind
    have hfirstkey : first.long_key = k := by simpa using hfirstkey
    have hordered : (orderedReplies replies sorted)[i]? = some first :=
      hat ▸ List.getElem?_eq_getElem hi
    obtain ⟨e, he, hreply⟩ : ∃ e, sorted[i]? = some e ∧ replies[e.reply_addr]? = some first := by
      rw [hsort.ordered_getElem?, Option.bind_eq_some_iff] at hordered
      exact hordered
    have hkey : e.key = k := by
      obtain ⟨reply, hreply', hkey, -⟩ := hplace he
      rw [hordered] at hreply'
      rw [hkey, ← Option.some.inj hreply', hfirstkey]
    have hFirst : First sorted i e := by
      refine ⟨he, hkey ▸ hk, fun j hj e' he' heq ↦ ?_⟩
      obtain ⟨reply, hreply', hkey', -⟩ := hplace he'
      obtain ⟨hjlt, rfl⟩ := List.getElem?_eq_some_iff.mp hreply'
      have hnot := hbefore j hj
      exact absurd (hkey'.symm.trans (heq.trans hkey)) (by simpa using hnot)
    have hcallAt : callAt replies sorted i = worker_call e first := by
      rw [callAt, he, Option.bind_some, hreply, Option.bind_some]
    have hlt : i < sorted.length := (List.getElem?_eq_some_iff.mp he).1
    dsimp only
    split_ifs with hupdate
    · have hcall : callAt replies sorted i = some (.insert e.key first.value_word) := by
        rw [hcallAt, worker_call]
        rcases hupdate with hop | hop <;> rw [hop]
      rw [← hkey]
      exact hinv.acted i e _ hlt hFirst hcall (hfree i)
    · refine hinv.kept k fun j e' v _ hfirst' hkey' hcall' ↦ ?_
      obtain rfl : j = i := hfirst'.unique hFirst (hkey'.trans hkey.symm)
      have hop := (hops first (List.mem_of_getElem? hreply)).resolve_left hupdate
      rw [hcallAt, worker_call, hop] at hcall'
      exact absurd hcall' (by simp)

omit hsort hops in
theorem resolved_eq_iff {word word' : RawKvMsg → UInt64} {ordered : List RawKvMsg} :
    resolved word index ordered = resolved word' index ordered ↔
      ∀ k first, k ≠ 0 → ordered.find? (fun reply ↦ reply.long_key = k) = some first →
        first.IsUpdate → word first = word' first := by
  constructor
  · intro h k first hk hfirst hupdate
    have hk' := congrFun h k
    simp only [resolved, if_neg hk, hfirst, if_pos hupdate, Option.some.injEq] at hk'
    exact hk'
  · intro h
    funext k
    unfold resolved
    split_ifs with hk
    · rfl
    · cases hfind : ordered.find? fun reply ↦ reply.long_key = k with
      | none => rfl
      | some first =>
        dsimp only
        split_ifs with hupdate
        · rw [h k first hk hfind hupdate]
        · rfl

/-- The batches, with the rest of their send buffers, on which the workers do what the plain loop
does: the word behind the key is the log id for the update that decides a key, and a read already
carries its answer. -/
def CoroAgrees (index : Index) (ordered : List RawKvMsg) : Prop :=
  (∀ k first, k ≠ 0 → ordered.find? (fun reply ↦ reply.long_key = k) = some first →
    first.IsUpdate → first.value_word = first.log_id) ∧
  ∀ reply ∈ ordered, reply.rpc_header.op = .kEnumReadIndexReply →
    (resolved RawKvMsg.log_id index ordered reply.long_key = none → reply.key = 0xFFFFFFFF) ∧
    reply.log_id =
      ((resolved RawKvMsg.log_id index ordered reply.long_key).getD 0).toUInt32.toUInt64

omit hsort hops in
/-- The plain loop changes the packet of a read only. -/
theorem packet_apply_reply_iff (reply : RawKvMsg) :
    reply.packet = (apply_reply index reply).packet ↔
      (reply.rpc_header.op = .kEnumReadIndexReply →
        (index reply.long_key = none → reply.key = 0xFFFFFFFF) ∧
        reply.log_id = ((index reply.long_key).getD 0).toUInt32.toUInt64) := by
  unfold apply_reply RawKvMsg.packet
  split_ifs with hop habsent
  · simp [hop, habsent]
  · simp [hop, habsent]
  · simp [hop]

/-- Both builds leave the same index and the same packets on exactly the batches of `CoroAgrees`,
however the calls of the tree suspend. -/
theorem coro_batch_agrees_iff (suspensions : ℕ → ℕ × ℕ) :
    ∃ bound, ∀ fuel ≥ bound, ∃ final,
      coro_batch suspensions fuel index replies sorted = some final ∧
      ((final.tree = (apply_batch index replies sorted).index ∧
          final.replies.map RawKvMsg.packet =
            (apply_batch index replies sorted).replies.map RawKvMsg.packet) ↔
        CoroAgrees index (orderedReplies replies sorted)) := by
  obtain ⟨bound, hspec⟩ := coro_batch_spec index hsort hops suspensions
  refine ⟨bound, fun fuel hfuel ↦ ?_⟩
  obtain ⟨final, hrun, htree, hpackets⟩ := hspec fuel hfuel
  refine ⟨final, hrun, ?_⟩
  rw [htree, hpackets, apply_batch_replies index hsort, apply_batch_resolved index hsort,
    resolved_eq_iff, List.map_map, CoroAgrees]
  refine and_congr_right fun _ ↦ ?_
  rw [List.map_inj_left]
  refine forall_congr' fun reply ↦ ?_
  rw [hsort.mem_ordered]
  exact imp_congr_right fun _ ↦ packet_apply_reply_iff _ reply

end Batch

/-- An update of key 5 to log id 7 in a send buffer that is zero behind the key. -/
def staleReplies : List RawKvMsg :=
  [batchRequest .ReplySwitch 5 7 3]

/-- The coroutine build maps key 5 to the zero behind the key. -/
theorem coro_batch_stale :
    ¬ ∀ (index : Index) (replies : List RawKvMsg) (sorted : List BatchEntry)
      (suspensions : ℕ → ℕ × ℕ) (fuel : ℕ) (final : CoroShared),
      (∀ reply ∈ replies, reply.IsUpdate ∨ reply.rpc_header.op = .kEnumReadIndexReply) →
      replies.length ≤ 32 → StdSort (batchEntries replies) sorted →
      coro_batch suspensions fuel index replies sorted = some final →
      final.tree = (apply_batch index replies sorted).index ∧
        final.replies.map RawKvMsg.packet =
          (apply_batch index replies sorted).replies.map RawKvMsg.packet := by
  intro h
  have hcoro : (coro_batch (fun _ ↦ (0, 0)) 1 (fun _ ↦ none) staleReplies
      (batchEntries staleReplies)).map (fun final ↦ final.tree 5) = some (some 0) := by decide
  obtain ⟨final, hrun, htree⟩ := Option.map_eq_some_iff.mp hcoro
  have hsame := (h _ staleReplies _ _ _ final (by decide) (by decide)
    ⟨List.Perm.refl _, by decide⟩ hrun).1
  rw [hsame] at htree
  have hplain : (apply_batch (fun _ ↦ none) staleReplies (batchEntries staleReplies)).index 5 =
      some 7 := by decide
  exact absurd (htree.symm.trans hplain) (by decide)

theorem coro_batch_agrees_iff_stale :
    ∃ bound, ∀ fuel ≥ bound, ∃ final,
      coro_batch (fun _ ↦ (2, 1)) fuel (fun _ ↦ none) staleReplies (batchEntries staleReplies) =
        some final ∧
      ((final.tree =
            (apply_batch (fun _ ↦ none) staleReplies (batchEntries staleReplies)).index ∧
          final.replies.map RawKvMsg.packet =
            (apply_batch (fun _ ↦ none) staleReplies (batchEntries staleReplies)).replies.map
              RawKvMsg.packet) ↔
        CoroAgrees (fun _ ↦ none) (orderedReplies staleReplies (batchEntries staleReplies))) :=
  coro_batch_agrees_iff (fun _ ↦ none) ⟨List.Perm.refl _, by decide⟩ (by decide) _

end SwitchDelta.Kv
