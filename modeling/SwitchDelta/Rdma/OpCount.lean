import SwitchDelta.Rdma.ClientThread

/-!
# The counters of the coroutines

`async_op_cnt` is to be the number of signalled one-sided operations of a coroutine that have not
completed, and minus one when there are none to wait for. `Books` says so, and `Shape` says what is
pending while a coroutine is suspended. Completions, the loop of `generate_and_issue_batch` and
`ibv_post_send` keep both, and so does filling a ring where its next place is free.
-/

set_option autoImplicit false
set_option relaxedAutoImplicit false

namespace SwitchDelta.Rdma.ClientThread

open Kv (kMaxSignal kStaticSendBuf)

variable {Q : Type} [DecidableEq Q] {t t' : ClientThread Q} {q q' : Q} {c n : ℕ} {r : PostedWr}

/-! ### What the updates leave alone -/

section Count

variable (ctx : Option ℕ) (f : ℤ → ℤ)

omit [DecidableEq Q]

@[simp] theorem count_qp : (t.count ctx f).qp = t.qp := by cases ctx <;> rfl
@[simp] theorem count_cq : (t.count ctx f).cq = t.cq := by cases ctx <;> rfl
@[simp] theorem count_pc : (t.count ctx f).pc = t.pc := by cases ctx <;> rfl
@[simp] theorem count_running : (t.count ctx f).running = t.running := by cases ctx <;> rfl

theorem count_coro (c : ℕ) : ((t.count ctx f).coro c).wait = (t.coro c).wait ∧
    ((t.count ctx f).coro c).free = (t.coro c).free ∧
    ((t.count ctx f).coro c).async_op_cnt =
      if ctx = some c then f (t.coro c).async_op_cnt else (t.coro c).async_op_cnt := by
  cases ctx with
  | none => exact ⟨rfl, rfl, rfl⟩
  | some c' =>
    by_cases hc : c = c'
    · subst hc
      simp [count]
    · simp [count, Function.update_of_ne hc, Ne.symm hc]

end Count

/-- Whether the request at a place of a ring has the flag `IBV_SEND_SIGNALED`. -/
def flag (t : ClientThread Q) (q : Q) (one : Bool) (id : ℕ) : Bool :=
  (((t.qp q).ring one).wr id).signaled

/-- Nothing was appended, posted, suspended or resumed between the two states. -/
structure Frame (t t' : ClientThread Q) : Prop where
  coro_ctx : ∀ q one id,
    (((t'.qp q).ring one).wr id).coro_ctx = (((t.qp q).ring one).wr id).coro_ctx
  asked : ∀ q one id, (((t'.qp q).ring one).wr id).asked = (((t.qp q).ring one).wr id).asked
  pos : ∀ q one, ((t'.qp q).ring one).pos = ((t.qp q).ring one).pos
  begin_id : ∀ q one, ((t'.qp q).ring one).begin_id = ((t.qp q).ring one).begin_id
  pending_cnt : ∀ q one, ((t'.qp q).ring one).pending_cnt = ((t.qp q).ring one).pending_cnt
  wait : ∀ c, (t'.coro c).wait = (t.coro c).wait
  free : ∀ c, (t'.coro c).free = (t.coro c).free
  running : t'.running = t.running
  pc : t'.pc = t.pc

omit [DecidableEq Q] in
theorem Frame.refl (t : ClientThread Q) : Frame t t :=
  ⟨fun _ _ _ ↦ rfl, fun _ _ _ ↦ rfl, fun _ _ ↦ rfl, fun _ _ ↦ rfl, fun _ _ ↦ rfl, fun _ ↦ rfl,
    fun _ ↦ rfl, rfl, rfl⟩

omit [DecidableEq Q] in
theorem Frame.trans {t₁ t₂ t₃ : ClientThread Q} (h : Frame t₁ t₂) (h' : Frame t₂ t₃) :
    Frame t₁ t₃ where
  coro_ctx q one id := (h'.coro_ctx q one id).trans (h.coro_ctx q one id)
  asked q one id := (h'.asked q one id).trans (h.asked q one id)
  pos q one := (h'.pos q one).trans (h.pos q one)
  begin_id q one := (h'.begin_id q one).trans (h.begin_id q one)
  pending_cnt q one := (h'.pending_cnt q one).trans (h.pending_cnt q one)
  wait c := (h'.wait c).trans (h.wait c)
  free c := (h'.free c).trans (h.free c)
  running := h'.running.trans h.running
  pc := h'.pc.trans h.pc

omit [DecidableEq Q] in
theorem Frame.pendingSlots (h : Frame t t') (q : Q) (one : Bool) :
    ClientThread.pendingSlots one ((t'.qp q).ring one) =
      ClientThread.pendingSlots one ((t.qp q).ring one) := by
  rw [ClientThread.pendingSlots, ClientThread.pendingSlots, h.pending_cnt, h.begin_id]

/-- A change of one queue pair that keeps what a frame keeps. -/
theorem Frame.setQp {x : Qp}
    (hring : ∀ one, (∀ id, ((x.ring one).wr id).coro_ctx = (((t.qp q).ring one).wr id).coro_ctx ∧
      ((x.ring one).wr id).asked = (((t.qp q).ring one).wr id).asked) ∧
      (x.ring one).pos = ((t.qp q).ring one).pos ∧
      (x.ring one).begin_id = ((t.qp q).ring one).begin_id ∧
      (x.ring one).pending_cnt = ((t.qp q).ring one).pending_cnt) : Frame t (t.setQp q x) := by
  have hqp {P : Qp → Qp → Prop} (hq : P (t.qp q) x) (hrefl : ∀ y, P y y) (q' : Q) :
      P (t.qp q') ((t.setQp q x).qp q') := by
    by_cases h : q' = q
    · subst h
      simpa [ClientThread.setQp] using hq
    · simpa [ClientThread.setQp, Function.update_of_ne h] using hrefl _
  refine ⟨fun q' one id ↦ ?_, fun q' one id ↦ ?_, fun q' one ↦ ?_, fun q' one ↦ ?_,
    fun q' one ↦ ?_, fun _ ↦ rfl, fun _ ↦ rfl, rfl, rfl⟩
  · exact hqp (P := fun y z ↦ ((z.ring one).wr id).coro_ctx = ((y.ring one).wr id).coro_ctx)
      ((hring one).1 id).1 (fun _ ↦ rfl) q'
  · exact hqp (P := fun y z ↦ ((z.ring one).wr id).asked = ((y.ring one).wr id).asked)
      ((hring one).1 id).2 (fun _ ↦ rfl) q'
  · exact hqp (P := fun y z ↦ (z.ring one).pos = (y.ring one).pos) (hring one).2.1
      (fun _ ↦ rfl) q'
  · exact hqp (P := fun y z ↦ (z.ring one).begin_id = (y.ring one).begin_id) (hring one).2.2.1
      (fun _ ↦ rfl) q'
  · exact hqp (P := fun y z ↦ (z.ring one).pending_cnt = (y.ring one).pending_cnt)
      (hring one).2.2.2 (fun _ ↦ rfl) q'

omit [DecidableEq Q] in
/-- Counting for a coroutine is within the frame. -/
theorem Frame.count (t : ClientThread Q) (ctx : Option ℕ) (f : ℤ → ℤ) :
    Frame t (t.count ctx f) where
  coro_ctx q one id := by rw [count_qp]
  asked q one id := by rw [count_qp]
  pos q one := by rw [count_qp]
  begin_id q one := by rw [count_qp]
  pending_cnt q one := by rw [count_qp]
  wait c := (count_coro ctx f c).1
  free c := (count_coro ctx f c).2.1
  running := count_running ctx f
  pc := count_pc ctx f

/-! ### The books -/

/-- The request of a number is signalled. -/
def signaledAt (l : List PostedWr) (n : ℕ) : Bool := (l[n]?.map PostedWr.signaled).getD false

/-- A signalled request of a coroutine. -/
def countsFor (c : ℕ) (r : PostedWr) : Bool := r.signaled && decide (r.coro = some c)

/-- The signalled requests of a coroutine on a queue pair whose completions were not polled. -/
def owedBy (x : Qp) (c : ℕ) : ℕ := (x.issued.drop x.covered).countP (countsFor c)

/-- The signalled requests of a coroutine whose completions were not polled. -/
def owed [Fintype Q] (t : ClientThread Q) (c : ℕ) : ℕ := ∑ q, owedBy (t.qp q) c

/-- The counters of the coroutines agree with the requests that are not covered and `extra` ones that
are about to be posted; those of the resting coroutines are minus one. The completion queue has the
signalled requests among those completed and not covered, and the `WrInfo` of each still names its
coroutine. -/
structure Books [Fintype Q] (resting : ℕ → Prop) (extra : ℕ → ℕ) (t : ClientThread Q) : Prop where
  queue : ∀ q, (t.cq.filter fun p ↦ p.1 = q).map Prod.snd =
    (List.range' (t.qp q).covered ((t.qp q).completed - (t.qp q).covered)).filter
      (signaledAt (t.qp q).issued)
  covered_le : ∀ q, (t.qp q).covered ≤ (t.qp q).completed
  completed_le : ∀ q, (t.qp q).completed ≤ (t.qp q).issued.length
  live : ∀ q n r, (t.qp q).covered ≤ n → (t.qp q).issued[n]? = some r → r.signaled = true →
    (((t.qp q).ring r.one).wr r.slot).coro_ctx = r.coro
  count : ∀ c, (t.coro c).async_op_cnt = owed t c + extra c ∨
    ((t.coro c).async_op_cnt = -1 ∧ owed t c + extra c = 0)
  rest : ∀ c, resting c → (t.coro c).async_op_cnt = -1
  asked : ∀ q, ∀ r ∈ (t.qp q).issued, r.coro ≠ none → r.asked = true → r.signaled = true

/-- Where one queue pair changes, so does its part of a sum. -/
theorem sum_update [Fintype Q] (g : Q → Qp) (q : Q) (x : Qp) (f : Qp → ℕ) :
    ∑ i, f (Function.update g q x i) + f (g q) = ∑ i, f (g i) + f x := by
  have hrest : ∑ i ∈ Finset.univ.erase q, f (Function.update g q x i) =
      ∑ i ∈ Finset.univ.erase q, f (g i) :=
    Finset.sum_congr rfl fun i hi ↦ by rw [Function.update_of_ne (Finset.ne_of_mem_erase hi)]
  rw [← Finset.add_sum_erase _ _ (Finset.mem_univ q),
    ← Finset.add_sum_erase _ (fun i ↦ f (g i)) (Finset.mem_univ q), hrest, Function.update_self]
  omega

/-- The first request of a list that passes a test, and those behind it. -/
theorem countP_drop {p : PostedWr → Bool} {l : List PostedWr} {a : ℕ} (hle : a ≤ n)
    (hr : l[n]? = some r) (hnone : ∀ i r, a ≤ i → i < n → l[i]? = some r → p r = false) :
    (l.drop a).countP p = (if p r then 1 else 0) + (l.drop (n + 1)).countP p := by
  obtain ⟨d, rfl⟩ := Nat.exists_eq_add_of_le hle
  obtain ⟨hlt, hget⟩ := List.getElem?_eq_some_iff.mp hr
  induction d generalizing a with
  | zero =>
    rw [List.drop_eq_getElem_cons (by simpa using hlt), List.countP_cons]
    simp only [Nat.add_zero] at hget ⊢
    rw [hget, add_comm]
  | succ d ih =>
    have hfirst := hnone a _ le_rfl (by omega) (List.getElem?_eq_getElem (by omega))
    have hadd : a + 1 + d = a + (d + 1) := by omega
    rw [List.drop_eq_getElem_cons (by omega), List.countP_cons, hfirst]
    have hrest := ih (a := a + 1) (by omega) (hadd ▸ hr)
      (fun i r hi hlt' ↦ hnone i r (by omega) (by omega)) (by omega) (by simpa only [hadd] using hget)
    rw [hrest, hadd]
    simp

theorem complete_qp (q' : Q) : ((t.complete q r).qp q').issued = (t.qp q').issued ∧
    ((t.complete q r).qp q').covered = (t.qp q').covered ∧
    ((t.complete q r).qp q').ring = (t.qp q').ring ∧
    ((t.complete q r).qp q').completed =
      if q' = q then (t.qp q').completed + 1 else (t.qp q').completed := by
  by_cases hq : q' = q
  · subst hq
    simp [ClientThread.complete, setQp]
  · simp [ClientThread.complete, setQp, hq]

theorem release_qp {cq : List (Q × ℕ)} (q' : Q) :
    ((t.release q n r cq).qp q').issued = (t.qp q').issued ∧
    ((t.release q n r cq).qp q').completed = (t.qp q').completed ∧
    ((t.release q n r cq).qp q').covered = (if q' = q then n + 1 else (t.qp q').covered) ∧
    ∀ one, (((t.release q n r cq).qp q').ring one).wr = ((t.qp q').ring one).wr := by
  by_cases hq : q' = q
  · subst hq
    simp [ClientThread.release, setQp, released]
  · simp [ClientThread.release, setQp, hq]

theorem Frame.complete (t : ClientThread Q) (q : Q) (r : PostedWr) : Frame t (t.complete q r) := by
  have h : Frame t (t.setQp q { t.qp q with completed := (t.qp q).completed + 1 }) :=
    Frame.setQp fun one ↦ ⟨fun id ↦ ⟨rfl, rfl⟩, rfl, rfl, rfl⟩
  exact ⟨h.coro_ctx, h.asked, h.pos, h.begin_id, h.pending_cnt, h.wait, h.free, h.running, h.pc⟩

theorem Frame.release (t : ClientThread Q) (q : Q) (n : ℕ) (r : PostedWr) (cq : List (Q × ℕ)) :
    Frame t (t.release q n r cq) := by
  have hqp : Frame t (t.setQp q (released (t.qp q) n r)) :=
    Frame.setQp fun one ↦ ⟨fun id ↦ ⟨rfl, rfl⟩, rfl, rfl, rfl⟩
  have h := hqp.trans (Frame.count _ (((t.qp q).ring r.one).wr r.slot).coro_ctx (· - 1))
  exact ⟨h.coro_ctx, h.asked, h.pos, h.begin_id, h.pending_cnt, h.wait, h.free, h.running, h.pc⟩

section Polls

variable [Fintype Q] {resting : ℕ → Prop} {extra : ℕ → ℕ} {cq_len k : ℕ} {cq : List (Q × ℕ)}

theorem Books.complete (h : Books resting extra t)
    (hr : (t.qp q).issued[(t.qp q).completed]? = some r) : Books resting extra (t.complete q r) := by
  obtain ⟨hlt, hget⟩ := List.getElem?_eq_some_iff.mp hr
  have howed : owed (t.complete q r) = owed t := by
    funext c
    unfold owed owedBy
    exact Finset.sum_congr rfl fun q' _ ↦ by rw [(complete_qp q').1, (complete_qp q').2.1]
  refine ⟨fun q' ↦ ?_, fun q' ↦ ?_, fun q' ↦ ?_, fun q' n r' hn hr' hsig ↦ ?_, fun c ↦ ?_,
    h.rest, fun q' ↦ ?_⟩
  · rw [(complete_qp q').1, (complete_qp q').2.1, (complete_qp q').2.2.2]
    by_cases hq : q' = q
    · subst hq
      have hle := h.covered_le q'
      have hlast : (t.qp q').covered + ((t.qp q').completed - (t.qp q').covered) =
          (t.qp q').completed := by omega
      rw [if_pos rfl, show (t.qp q').completed + 1 - (t.qp q').covered =
        (t.qp q').completed - (t.qp q').covered + 1 by omega, List.range'_concat,
        List.filter_append, ← h.queue q', one_mul, hlast]
      have hsig : signaledAt (t.qp q').issued (t.qp q').completed = r.signaled := by
        rw [signaledAt, hr]
        rfl
      cases hr' : r.signaled <;> simp [ClientThread.complete, hr', hsig]
    · rw [if_neg hq, ← h.queue q']
      cases hr' : r.signaled <;> simp [ClientThread.complete, setQp, hr', Ne.symm hq]
  · rw [(complete_qp q').2.1, (complete_qp q').2.2.2]
    have hle := h.covered_le q'
    split_ifs
    · omega
    · exact hle
  · rw [(complete_qp q').1, (complete_qp q').2.2.2]
    split_ifs with hq
    · subst hq
      exact hlt
    · exact h.completed_le q'
  · rw [(complete_qp q').1] at hr'
    rw [(complete_qp q').2.1] at hn
    rw [(complete_qp q').2.2.1]
    exact h.live q' n r' hn hr' hsig
  · rw [howed]
    exact h.count c
  · rw [(complete_qp q').1]
    exact h.asked q'

/-- The completion at the head of the queue is that of the first signalled request not covered. -/
theorem Books.head (h : Books resting extra t) (hcq : t.cq = (q, n) :: cq) :
    (t.qp q).covered ≤ n ∧ n < (t.qp q).completed ∧ signaledAt (t.qp q).issued n = true ∧
      (∀ i, (t.qp q).covered ≤ i → i < n → signaledAt (t.qp q).issued i = false) ∧
      (cq.filter fun p ↦ p.1 = q).map Prod.snd =
        (List.range' (n + 1) ((t.qp q).completed - (n + 1))).filter
          (signaledAt (t.qp q).issued) := by
  have hqueue := h.queue q
  have hle := h.covered_le q
  rw [hcq, List.filter_cons_of_pos (by simp), List.map_cons] at hqueue
  obtain ⟨hn, hlt, hsig, hnone, htail⟩ := SendQueue.filter_range'_eq_cons hqueue.symm
  rw [show (t.qp q).covered + ((t.qp q).completed - (t.qp q).covered) = (t.qp q).completed by
    omega] at hlt htail
  exact ⟨hn, hlt, hsig, hnone, htail⟩

theorem Books.release (h : Books resting extra t) (hcq : t.cq = (q, n) :: cq)
    (hr : (t.qp q).issued[n]? = some r) : Books resting extra (t.release q n r cq) := by
  obtain ⟨hn, hlt, hsig, hnone, htail⟩ := h.head hcq
  have hr_sig : r.signaled = true := by
    rw [signaledAt, hr] at hsig
    exact hsig
  have hctx : (((t.qp q).ring r.one).wr r.slot).coro_ctx = r.coro := h.live q n r hn hr hr_sig
  -- the completion pays for one request of its coroutine
  have howed (c : ℕ) : owed t c = owed (t.release q n r cq) c + if r.coro = some c then 1 else 0 := by
    have hsum := sum_update t.qp q ((t.release q n r cq).qp q) fun x ↦ owedBy x c
    have hupdate : Function.update t.qp q ((t.release q n r cq).qp q) =
        (t.release q n r cq).qp := by
      funext q'
      by_cases hq : q' = q
      · subst hq
        rw [Function.update_self]
      · rw [Function.update_of_ne hq]
        simp [ClientThread.release, setQp, hq]
    have hone : owedBy (t.qp q) c =
        (if r.coro = some c then 1 else 0) + owedBy ((t.release q n r cq).qp q) c := by
      unfold owedBy
      rw [(release_qp q).1, (release_qp q).2.2.1, if_pos rfl, countP_drop hn hr]
      · simp [countsFor, hr_sig]
      · intro i r' hi hlt' hr'
        have hfalse := hnone i hi hlt'
        rw [signaledAt, hr'] at hfalse
        simp only [Option.map_some, Option.getD_some] at hfalse
        simp [countsFor, hfalse]
    rw [hupdate] at hsum
    unfold owed
    omega
  have hasync (c : ℕ) : ((t.release q n r cq).coro c).async_op_cnt =
      if r.coro = some c then (t.coro c).async_op_cnt - 1 else (t.coro c).async_op_cnt := by
    rw [← hctx]
    exact (count_coro _ _ c).2.2
  have hpaid {c : ℕ} (hc : r.coro = some c) :
      (t.coro c).async_op_cnt = owed t c + extra c ∧ 0 < owed t c := by
    have hpos := howed c
    rw [if_pos hc] at hpos
    rcases h.count c with heq | ⟨-, hzero⟩
    · exact ⟨heq, by omega⟩
    · omega
  refine ⟨fun q' ↦ ?_, fun q' ↦ ?_, fun q' ↦ ?_, fun q' i r' hi hr' hsig' ↦ ?_, fun c ↦ ?_,
    fun c hc ↦ ?_, fun q' ↦ ?_⟩
  · rw [(release_qp q').1, (release_qp q').2.1, (release_qp q').2.2.1]
    split_ifs with hq
    · subst hq
      exact htail
    · rw [← h.queue q', hcq, List.filter_cons_of_neg (by simpa using Ne.symm hq)]
      rfl
  · rw [(release_qp q').2.1, (release_qp q').2.2.1]
    split_ifs with hq
    · subst hq
      exact hlt
    · exact h.covered_le q'
  · rw [(release_qp q').1, (release_qp q').2.1]
    exact h.completed_le q'
  · rw [(release_qp q').1] at hr'
    rw [(release_qp q').2.2.2]
    refine h.live q' i r' ?_ hr' hsig'
    rw [(release_qp q').2.2.1] at hi
    split_ifs at hi with hq
    · subst hq
      omega
    · exact hi
  · have hc := howed c
    rw [hasync]
    split_ifs at hc ⊢ with hcoro
    · have hpay := hpaid hcoro
      omega
    · rw [show owed (t.release q n r cq) c = owed t c by omega]
      exact h.count c
  · have hidle := h.rest c hc
    rw [hasync, if_neg, hidle]
    intro hcoro
    have hpay := hpaid hcoro
    omega
  · rw [(release_qp q').1]
    exact h.asked q'

/-- Polling keeps the books, and changes nothing in the requests. -/
theorem Polled.spec {k : ℕ} (h : Polled k t t') :
    Frame t t' ∧ (∀ q one id, flag t' q one id = flag t q one id) ∧
      ∀ resting extra, Books resting extra t → Books resting extra t' := by
  induction h with
  | refl => exact ⟨Frame.refl _, fun _ _ _ ↦ rfl, fun _ _ h ↦ h⟩
  | @complete k t t' q r hr _ ih =>
    refine ⟨(Frame.complete t q r).trans ih.1, fun q' one id ↦ ?_,
      fun resting extra h ↦ ih.2.2 resting extra (h.complete hr)⟩
    rw [ih.2.1, flag, flag, (complete_qp q').2.2.1]
  | @release k n t t' q r cq hcq hr _ ih =>
    refine ⟨(Frame.release t q n r cq).trans ih.1, fun q' one id ↦ ?_,
      fun resting extra h ↦ ih.2.2 resting extra (h.release hcq hr)⟩
    rw [ih.2.1, flag, flag, (release_qp q').2.2.2]

theorem CheckSignal.spec (h : CheckSignal cq_len t t') :
    Frame t t' ∧ (∀ q one id, flag t' q one id = flag t q one id) ∧
      ∀ resting extra, Books resting extra t → Books resting extra t' := by
  unfold CheckSignal at h
  split_ifs at h
  · obtain ⟨k, -, -, hpolled⟩ := h
    exact hpolled.spec
  · rw [h]
    exact ⟨Frame.refl _, fun _ _ _ ↦ rfl, fun _ _ h ↦ h⟩

end Polls

/-! ### Posting a batch -/

/-- What is pending, and where the coroutines stand. No message names a coroutine, and a coroutine that
waits for a reply has no pending one-sided requests. -/
structure Shape (t : ClientThread Q) : Prop where
  send_none : ∀ q id, (((t.qp q).ring false).wr id).coro_ctx = none
  room : ∀ q, ((t.qp q).ring true).pending_cnt ≤ kBatchOne
  pos : ∀ q, ((t.qp q).ring true).pos =
    (((t.qp q).ring true).begin_id + ((t.qp q).ring true).pending_cnt) % kBatchOne
  asked : ∀ q, ∀ id ∈ pendingSlots true ((t.qp q).ring true),
    (((t.qp q).ring true).wr id).asked = true → flag t q true id = true
  reply : ∀ c, (t.coro c).wait = .reply → ∀ q, ∀ id ∈ pendingSlots true ((t.qp q).ring true),
    (((t.qp q).ring true).wr id).coro_ctx ≠ some c
  running : ∀ c, t.running = some c → (t.coro c).wait = .running
  free : ∀ c, (t.coro c).free = true → (t.coro c).wait = .idle

omit [DecidableEq Q] in
theorem Shape.of_frame (h : Shape t) (hframe : Frame t t')
    (hflag : ∀ q id, flag t q true id = true → flag t' q true id = true) : Shape t' where
  send_none q id := (hframe.coro_ctx q false id).trans (h.send_none q id)
  room q := by rw [hframe.pending_cnt]; exact h.room q
  pos q := by rw [hframe.pos, hframe.begin_id, hframe.pending_cnt]; exact h.pos q
  asked q id hid hasked := by
    rw [hframe.pendingSlots] at hid
    rw [hframe.asked] at hasked
    exact hflag q id (h.asked q id hid hasked)
  reply c hc q id hid := by
    rw [hframe.wait] at hc
    rw [hframe.pendingSlots] at hid
    rw [hframe.coro_ctx]
    exact h.reply c hc q id hid
  running c hc := by
    rw [hframe.running] at hc
    rw [hframe.wait]
    exact h.running c hc
  free c hc := by
    rw [hframe.free] at hc
    rw [hframe.wait]
    exact h.free c hc

section Batch

variable {one : Bool} {id : ℕ} {ids : List ℕ} {cq_len : ℕ} {resting : ℕ → Prop}
  {extra : ℕ → ℕ}

/-- The coroutine that a request is counted for. -/
def markCtx (t : ClientThread Q) (q : Q) (one : Bool) (id : ℕ) : Option ℕ :=
  if one then (((t.qp q).ring one).wr id).coro_ctx else none

theorem mark_of_signals (h : signals (t.qp q) one id = true) : t.mark q one id =
    { (t.setRing q one (marked ((t.qp q).ring one) id true)).count (markCtx t q one id)
        add_op_cnt with
      signal_counter := (t.signal_counter + 1) % 2 ^ 32 } := by
  unfold mark
  rw [h]
  exact if_pos rfl

theorem mark_of_not (h : signals (t.qp q) one id = false) :
    t.mark q one id = t.setRing q one (marked ((t.qp q).ring one) id false) := by
  unfold mark
  rw [h]
  exact if_neg Bool.false_ne_true

theorem mark_qp : (t.mark q one id).qp =
    (t.setRing q one (marked ((t.qp q).ring one) id (signals (t.qp q) one id))).qp := by
  cases h : signals (t.qp q) one id with
  | false => rw [mark_of_not h]
  | true =>
    rw [mark_of_signals h]
    exact count_qp _ _

theorem setRing_ring {ring : WrRing} (q' : Q) (one' : Bool) :
    ((t.setRing q one ring).qp q').ring one' =
      if q' = q ∧ one' = one then ring else ((t.qp q').ring one') := by
  by_cases hq : q' = q
  · subst hq
    by_cases hone : one' = one
    · subst hone
      simp [setRing, setQp]
    · simp [setRing, setQp, hone]
  · simp [setRing, setQp, hq]

theorem setRing_issued {ring : WrRing} (q' : Q) :
    ((t.setRing q one ring).qp q').issued = (t.qp q').issued ∧
      ((t.setRing q one ring).qp q').completed = (t.qp q').completed ∧
      ((t.setRing q one ring).qp q').covered = (t.qp q').covered := by
  by_cases hq : q' = q
  · subst hq
    simp [setRing, setQp]
  · simp [setRing, setQp, hq]

/-- Marking a request changes only its flag. -/
theorem flag_mark (q' : Q) (one' : Bool) (id' : ℕ) : flag (t.mark q one id) q' one' id' =
    if q' = q ∧ one' = one ∧ id' = id then signals (t.qp q) one id else flag t q' one' id' := by
  rw [flag, mark_qp, setRing_ring]
  by_cases hring : q' = q ∧ one' = one
  · obtain ⟨rfl, rfl⟩ := hring
    by_cases hid : id' = id
    · subst hid
      simp [marked]
    · simp [marked, hid, flag]
  · rw [if_neg hring, if_neg fun h ↦ hring ⟨h.1, h.2.1⟩, flag]

theorem Frame.setRing {ring : WrRing}
    (hwr : ∀ id, (ring.wr id).coro_ctx = (((t.qp q).ring one).wr id).coro_ctx ∧
      (ring.wr id).asked = (((t.qp q).ring one).wr id).asked)
    (hpos : ring.pos = ((t.qp q).ring one).pos)
    (hbegin : ring.begin_id = ((t.qp q).ring one).begin_id)
    (hpending : ring.pending_cnt = ((t.qp q).ring one).pending_cnt) :
    Frame t (t.setRing q one ring) := by
  refine Frame.setQp fun one' ↦ ?_
  by_cases hone : one' = one
  · subst hone
    simpa using ⟨hwr, hpos, hbegin, hpending⟩
  · simp [Function.update_of_ne hone]

theorem Frame.mark (t : ClientThread Q) (q : Q) (one : Bool) (id : ℕ) :
    Frame t (t.mark q one id) := by
  have hring : Frame t
      (t.setRing q one (marked ((t.qp q).ring one) id (signals (t.qp q) one id))) := by
    refine Frame.setRing (fun id' ↦ ?_) rfl rfl rfl
    by_cases hid : id' = id
    · subst hid
      simp [marked]
    · simp [marked, hid]
  cases h : signals (t.qp q) one id with
  | false =>
    rw [mark_of_not h]
    exact h ▸ hring
  | true =>
    rw [mark_of_signals h]
    rw [h] at hring
    have hframe := hring.trans (Frame.count _ (markCtx t q one id) add_op_cnt)
    exact ⟨hframe.coro_ctx, hframe.asked, hframe.pos, hframe.begin_id, hframe.pending_cnt,
      hframe.wait, hframe.free, hframe.running, hframe.pc⟩

/-- The requests of a batch that are counted for a coroutine. -/
def countedIn (t : ClientThread Q) (q : Q) (one : Bool) (ids : List ℕ) (c : ℕ) : ℕ :=
  ids.countP fun id ↦ flag t q one id && decide (markCtx t q one id = some c)

/-- A request that is marked and signalled is counted for its coroutine. -/
theorem Books.mark [Fintype Q] (h : Books resting extra t)
    (hrest : ∀ c, resting c → markCtx t q one id ≠ some c) :
    Books resting (fun c ↦ extra c + if signals (t.qp q) one id = true ∧ markCtx t q one id = some c
      then 1 else 0) (t.mark q one id) := by
  have hissued (q' : Q) : ((t.mark q one id).qp q').issued = (t.qp q').issued ∧
      ((t.mark q one id).qp q').completed = (t.qp q').completed ∧
      ((t.mark q one id).qp q').covered = (t.qp q').covered := by
    rw [mark_qp]
    exact setRing_issued q'
  have howed : owed (t.mark q one id) = owed t := by
    funext c
    unfold owed owedBy
    exact Finset.sum_congr rfl fun q' _ ↦ by rw [(hissued q').1, (hissued q').2.2]
  have hcq : (t.mark q one id).cq = t.cq := by
    cases hsig : signals (t.qp q) one id with
    | false => rw [mark_of_not hsig]; rfl
    | true => rw [mark_of_signals hsig]; exact count_cq _ _
  have hasync (c : ℕ) : ((t.mark q one id).coro c).async_op_cnt =
      if signals (t.qp q) one id = true ∧ markCtx t q one id = some c then
        add_op_cnt (t.coro c).async_op_cnt
      else (t.coro c).async_op_cnt := by
    cases hsig : signals (t.qp q) one id with
    | false => simp [mark_of_not hsig, setRing, setQp]
    | true =>
      rw [mark_of_signals hsig]
      simp only [true_and]
      exact (count_coro (markCtx t q one id) add_op_cnt c).2.2
  have hframe := Frame.mark t q one id
  refine ⟨fun q' ↦ ?_, fun q' ↦ ?_, fun q' ↦ ?_, fun q' i r hi hr hsig ↦ ?_, fun c ↦ ?_,
    fun c hc ↦ ?_, fun q' ↦ ?_⟩
  · rw [hcq, (hissued q').1, (hissued q').2.1, (hissued q').2.2]
    exact h.queue q'
  · rw [(hissued q').2.1, (hissued q').2.2]
    exact h.covered_le q'
  · rw [(hissued q').1, (hissued q').2.1]
    exact h.completed_le q'
  · rw [(hissued q').1] at hr
    rw [(hissued q').2.2] at hi
    rw [hframe.coro_ctx]
    exact h.live q' i r hi hr hsig
  · rw [howed, hasync]
    have hcount := h.count c
    split_ifs
    · unfold add_op_cnt
      split_ifs <;> omega
    · exact hcount
  · rw [hasync, if_neg, h.rest c hc]
    rintro ⟨-, hctx⟩
    exact hrest c hc hctx
  · rw [(hissued q').1]
    exact h.asked q'

theorem set_signal_cnt_qp (q' : Q) :
    ((t.set_signal_cnt q one id).qp q').issued = (t.qp q').issued ∧
      ((t.set_signal_cnt q one id).qp q').completed = (t.qp q').completed ∧
      ((t.set_signal_cnt q one id).qp q').covered = (t.qp q').covered := by
  by_cases hq : q' = q
  · subst hq
    simp [set_signal_cnt, setQp, recounted]
  · simp [set_signal_cnt, setQp, hq]

theorem recounted_wr (x : Qp) (one' : Bool) (id' : ℕ) :
    (((recounted x one id).ring one').wr id').coro_ctx = ((x.ring one').wr id').coro_ctx ∧
      (((recounted x one id).ring one').wr id').asked = ((x.ring one').wr id').asked ∧
      (((recounted x one id).ring one').wr id').signaled = ((x.ring one').wr id').signaled := by
  by_cases hone : one' = one
  · subst hone
    by_cases hid : id' = id
    · subst hid
      simp [recounted]
    · simp [recounted, hid]
  · simp [recounted, hone]

theorem Frame.set_signal_cnt (t : ClientThread Q) (q : Q) (one : Bool) (id : ℕ) :
    Frame t (t.set_signal_cnt q one id) :=
  Frame.setQp fun one' ↦ ⟨fun id' ↦ ⟨(recounted_wr _ one' id').1, (recounted_wr _ one' id').2.1⟩,
    rfl, rfl, rfl⟩

theorem flag_set_signal_cnt (q' : Q) (one' : Bool) (id' : ℕ) :
    flag (t.set_signal_cnt q one id) q' one' id' = flag t q' one' id' := by
  unfold flag
  by_cases hq : q' = q
  · subst hq
    simpa [ClientThread.set_signal_cnt, setQp] using (recounted_wr (t.qp q') one' id').2.2
  · simp [ClientThread.set_signal_cnt, setQp, hq]

theorem Books.set_signal_cnt [Fintype Q] (h : Books resting extra t) :
    Books resting extra (t.set_signal_cnt q one id) := by
  have hqp (q' : Q) : ((t.set_signal_cnt q one id).qp q').issued = (t.qp q').issued ∧
      ((t.set_signal_cnt q one id).qp q').completed = (t.qp q').completed ∧
      ((t.set_signal_cnt q one id).qp q').covered = (t.qp q').covered :=
    set_signal_cnt_qp q'
  have howed : owed (t.set_signal_cnt q one id) = owed t := by
    funext c
    unfold owed owedBy
    exact Finset.sum_congr rfl fun q' _ ↦ by rw [(hqp q').1, (hqp q').2.2]
  refine ⟨fun q' ↦ ?_, fun q' ↦ ?_, fun q' ↦ ?_, fun q' i r hi hr hsig ↦ ?_, fun c ↦ ?_,
    h.rest, fun q' ↦ ?_⟩
  · rw [(hqp q').1, (hqp q').2.1, (hqp q').2.2]
    exact h.queue q'
  · rw [(hqp q').2.1, (hqp q').2.2]
    exact h.covered_le q'
  · rw [(hqp q').1, (hqp q').2.1]
    exact h.completed_le q'
  · rw [(hqp q').1] at hr
    rw [(hqp q').2.2] at hi
    rw [(Frame.set_signal_cnt t q one id).coro_ctx]
    exact h.live q' i r hi hr hsig
  · rw [howed]
    exact h.count c
  · rw [(hqp q').1]
    exact h.asked q'

omit [DecidableEq Q] in
theorem Frame.markCtx (h : Frame t t') (q : Q) (one : Bool) (id : ℕ) :
    ClientThread.markCtx t' q one id = ClientThread.markCtx t q one id := by
  rw [ClientThread.markCtx, h.coro_ctx, ClientThread.markCtx]

/-- One round of the loop over a batch, up to the next one: `signaled` is the flag of its request. -/
structure Round [Fintype Q] (q : Q) (one : Bool) (id : ℕ) (signaled : Bool)
    (resting : ℕ → Prop) (extra : ℕ → ℕ) (t t' : ClientThread Q) : Prop where
  frame : Frame t t'
  sets : ∀ q' one' id', flag t' q' one' id' =
    if q' = q ∧ one' = one ∧ id' = id then signaled else flag t q' one' id'
  keeps : flag t q one id = true → signaled = true
  books : Books resting (fun c ↦ extra c + if signaled = true ∧ markCtx t q one id = some c
    then 1 else 0) t'

theorem Books.round [Fintype Q] (h : Books resting extra t)
    (hrest : ∀ c, resting c → markCtx t q one id ≠ some c) :
    Round q one id (signals (t.qp q) one id) resting extra t (t.mark q one id) where
  frame := Frame.mark t q one id
  sets := flag_mark
  keeps hflag := by
    rw [signals, show (((t.qp q).ring one).wr id).signaled = true from hflag, Bool.true_or]
  books := h.mark hrest

/-- The request of a round is counted, and then the others of its batch. -/
theorem Round.countedIn [Fintype Q] {signaled : Bool} {t₁ : ClientThread Q}
    (h : Round q one id signaled resting extra t t₁) (hframe : Frame t₁ t')
    (hflag : one = true → flag t' q one id = flag t₁ q one id) (c : ℕ) :
    countedIn t' q one (id :: ids) c =
      (if signaled = true ∧ markCtx t q one id = some c then 1 else 0) +
        countedIn t' q one ids c := by
  rw [ClientThread.countedIn, List.countP_cons, add_comm, ← ClientThread.countedIn,
    (h.frame.trans hframe).markCtx]
  congr 1
  cases one with
  | false => simp [markCtx]
  | true =>
    have hset : flag t₁ q true id = signaled := by
      rw [h.sets]
      exact if_pos ⟨rfl, rfl, rfl⟩
    rw [hflag rfl, hset]
    simp

/-- What posting a batch leaves alone, the flags it sets, and the books when it is over. -/
structure Batch [Fintype Q] (q : Q) (one : Bool) (ids : List ℕ) (resting : ℕ → Prop)
    (extra : ℕ → ℕ) (t t' : ClientThread Q) : Prop where
  frame : Frame t t'
  others : ∀ q' one' id', ¬ (q' = q ∧ one' = one ∧ id' ∈ ids) →
    flag t' q' one' id' = flag t q' one' id'
  keeps : ∀ q' one' id', flag t q' one' id' = true → flag t' q' one' id' = true
  books : Books resting (fun c ↦ extra c + countedIn t' q one ids c) t'

section Round

variable [Fintype Q] {signaled : Bool} {t₁ : ClientThread Q}

theorem Round.check (h : Round q one id signaled resting extra t t₁)
    (hcheck : CheckSignal cq_len t₁ t') : Round q one id signaled resting extra t t' where
  frame := h.frame.trans hcheck.spec.1
  sets q' one' id' := (hcheck.spec.2.1 q' one' id').trans (h.sets q' one' id')
  keeps := h.keeps
  books := hcheck.spec.2.2 _ _ h.books

theorem Round.set_signal_cnt (h : Round q one id signaled resting extra t t₁) :
    Round q one id signaled resting extra t (t₁.set_signal_cnt q one id) where
  frame := h.frame.trans (Frame.set_signal_cnt t₁ q one id)
  sets q' one' id' := (flag_set_signal_cnt q' one' id').trans (h.sets q' one' id')
  keeps := h.keeps
  books := h.books.set_signal_cnt

theorem Round.rest (h : Round q one id signaled resting extra t t₁)
    (hrest : ∀ c, resting c → ∀ id' ∈ id :: ids, markCtx t q one id' ≠ some c) (c : ℕ)
    (hc : resting c) (id' : ℕ) (hid : id' ∈ ids) : markCtx t₁ q one id' ≠ some c := by
  rw [h.frame.markCtx]
  exact hrest c hc id' (List.mem_cons_of_mem id hid)

/-- A round and the rest of the batch. -/
theorem Round.batch (h : Round q one id signaled resting extra t t₁)
    (hnodup : one = true → (id :: ids).Nodup)
    (hbatch : Batch q one ids resting (fun c ↦ extra c +
      if signaled = true ∧ markCtx t q one id = some c then 1 else 0) t₁ t') :
    Batch q one (id :: ids) resting extra t t' where
  frame := h.frame.trans hbatch.frame
  others q' one' id' hne := by
    rw [hbatch.others q' one' id' fun h' ↦ hne ⟨h'.1, h'.2.1, List.mem_cons_of_mem id h'.2.2⟩,
      h.sets]
    refine if_neg ?_
    rintro ⟨hq, hone, rfl⟩
    exact hne ⟨hq, hone, List.mem_cons_self⟩
  keeps q' one' id' hflag := by
    refine hbatch.keeps q' one' id' ?_
    rw [h.sets]
    split_ifs with hid
    · obtain ⟨rfl, rfl, rfl⟩ := hid
      exact h.keeps hflag
    · exact hflag
  books := by
    have hflag (hone : one = true) : flag t' q one id = flag t₁ q one id :=
      hbatch.others q one id fun h' ↦ (List.nodup_cons.mp (hnodup hone)).1 h'.2.2
    convert hbatch.books using 2 with c
    rw [h.countedIn hbatch.frame hflag, add_assoc]

end Round

/-- The loop over a batch counts the requests that it leaves signalled. -/
theorem Generate.spec [Fintype Q] (h : Generate cq_len q one ids t t')
    (hnodup : one = true → ids.Nodup) (hbooks : Books resting extra t)
    (hrest : ∀ c, resting c → ∀ id ∈ ids, markCtx t q one id ≠ some c) :
    Batch q one ids resting extra t t' := by
  induction h generalizing extra with
  | nil => exact ⟨Frame.refl _, fun _ _ _ _ ↦ rfl, fun _ _ _ h ↦ h, hbooks⟩
  | @plain t t' id ids _ _ ih =>
    have hround := hbooks.round fun c hc ↦ hrest c hc id List.mem_cons_self
    exact hround.batch hnodup (ih (fun hone ↦ (List.nodup_cons.mp (hnodup hone)).2) hround.books
      (hround.rest hrest))
  | @signaled t t₁ t' id ids _ hcheck _ ih =>
    have hround := ((hbooks.round fun c hc ↦ hrest c hc id List.mem_cons_self).check
      hcheck).set_signal_cnt
    exact hround.batch hnodup (ih (fun hone ↦ (List.nodup_cons.mp (hnodup hone)).2) hround.books
      (hround.rest hrest))

theorem issue_qp (q' : Q) : ((t.issue q one ids).qp q').completed = (t.qp q').completed ∧
    ((t.issue q one ids).qp q').covered = (t.qp q').covered ∧
    ((t.issue q one ids).qp q').issued = (t.qp q').issued ++
      (if q' = q then ids.map (postedOf one ((t.qp q).ring one)) else []) ∧
    ∀ one', (((t.issue q one ids).qp q').ring one').wr = ((t.qp q').ring one').wr := by
  by_cases hq : q' = q
  · subst hq
    refine ⟨by simp [issue, setQp], by simp [issue, setQp], by simp [issue, setQp], fun one' ↦ ?_⟩
    by_cases hone : one' = one
    · subst hone
      simp [issue, setQp]
    · simp [issue, setQp, hone]
  · simp [issue, setQp, hq]

/-- The requests of a batch that are posted make up for those that were counted for it. -/
theorem owed_issue [Fintype Q] (h : Books resting (fun c ↦ extra c + countedIn t q one ids c) t)
    (hnone : one = false → ∀ id, (((t.qp q).ring false).wr id).coro_ctx = none) (c : ℕ) :
    owed (t.issue q one ids) c = owed t c + countedIn t q one ids c := by
  have hcovered (q' : Q) : (t.qp q').covered ≤ (t.qp q').issued.length :=
    (h.covered_le q').trans (h.completed_le q')
  have hnew : (ids.map (postedOf one ((t.qp q).ring one))).countP (countsFor c) =
      countedIn t q one ids c := by
    rw [List.countP_map, countedIn]
    refine List.countP_congr fun id _ ↦ ?_
    cases one with
    | false => simp [countsFor, postedOf, hnone rfl, markCtx]
    | true =>
      rw [Function.comp_apply, countsFor, Bool.and_eq_true, Bool.and_eq_true, decide_eq_true_iff,
        decide_eq_true_iff]
      exact Iff.rfl
  have hone (q' : Q) : owedBy ((t.issue q one ids).qp q') c =
      owedBy (t.qp q') c + if q' = q then countedIn t q one ids c else 0 := by
    rw [owedBy, (issue_qp q').2.2.1, (issue_qp q').2.1, List.drop_append_of_le_length (hcovered q'),
      List.countP_append, ← owedBy]
    split_ifs
    · rw [hnew]
    · rfl
  unfold owed
  rw [Finset.sum_congr rfl fun q' _ ↦ hone q', Finset.sum_add_distrib]
  simp

theorem Books.issue [Fintype Q]
    (h : Books resting (fun c ↦ extra c + countedIn t q one ids c) t)
    (hnone : one = false → ∀ id, (((t.qp q).ring false).wr id).coro_ctx = none)
    (hasked : one = true → ∀ id ∈ ids, (((t.qp q).ring true).wr id).asked = true →
      flag t q true id = true) : Books resting extra (t.issue q one ids) := by
  have hold (q' : Q) {i : ℕ} (hi : i < (t.qp q').issued.length) :
      ((t.issue q one ids).qp q').issued[i]? = (t.qp q').issued[i]? := by
    rw [(issue_qp q').2.2.1, List.getElem?_append_left hi]
  refine ⟨fun q' ↦ ?_, fun q' ↦ ?_, fun q' ↦ ?_, fun q' i r hi hr hsig ↦ ?_, fun c ↦ ?_, h.rest,
    fun q' r hr hctx hask ↦ ?_⟩
  · rw [(issue_qp q').1, (issue_qp q').2.1]
    refine (h.queue q').trans (List.filter_congr fun i hi ↦ ?_)
    have hlt := h.completed_le q'
    have hle := h.covered_le q'
    rw [List.mem_range'_1] at hi
    rw [signaledAt, signaledAt, hold q' (by omega)]
  · rw [(issue_qp q').1, (issue_qp q').2.1]
    exact h.covered_le q'
  · rw [(issue_qp q').1, (issue_qp q').2.2.1, List.length_append]
    have hlt := h.completed_le q'
    omega
  · rw [(issue_qp q').2.2.2]
    by_cases hlt : i < (t.qp q').issued.length
    · rw [hold q' hlt] at hr
      rw [(issue_qp q').2.1] at hi
      exact h.live q' i r hi hr hsig
    · -- a new request was posted from its place
      rw [(issue_qp q').2.2.1, List.getElem?_append_right (by omega)] at hr
      have hmem := List.mem_of_getElem? hr
      split_ifs at hmem with hq
      · subst hq
        obtain ⟨id, -, rfl⟩ := List.mem_map.mp hmem
        rfl
      · simp at hmem
  · have hcount := h.count c
    have hasync : ((t.issue q one ids).coro c).async_op_cnt = (t.coro c).async_op_cnt := rfl
    rw [owed_issue h hnone, hasync]
    push_cast at hcount ⊢
    omega
  · rw [(issue_qp q').2.2.1, List.mem_append] at hr
    rcases hr with hr | hr
    · exact h.asked q' r hr hctx hask
    · split_ifs at hr with hq
      · subst hq
        obtain ⟨id, hid, rfl⟩ := List.mem_map.mp hr
        cases one with
        | false => exact absurd (hnone rfl id) hctx
        | true => exact hasked rfl id hid hask
      · simp at hr

/-- The places of the pending one-sided requests are different ones. -/
theorem pendingSlots_nodup {ring : WrRing} (h : ring.pending_cnt ≤ kBatchOne) :
    (pendingSlots true ring).Nodup := by
  refine List.Nodup.map_on (fun i hi j hj heq ↦ ?_) List.nodup_range
  rw [List.mem_range] at hi hj
  have hsize : ringSize true = kBatchOne := rfl
  rw [hsize] at heq
  unfold kBatchOne at h heq
  omega

/-- Nothing was appended, suspended or resumed between the two states, but requests may have been
posted. -/
structure Kept (t t' : ClientThread Q) : Prop where
  coro_ctx : ∀ q one id,
    (((t'.qp q).ring one).wr id).coro_ctx = (((t.qp q).ring one).wr id).coro_ctx
  pending : ∀ q, ∀ id ∈ pendingSlots true ((t'.qp q).ring true),
    id ∈ pendingSlots true ((t.qp q).ring true)
  wait : ∀ c, (t'.coro c).wait = (t.coro c).wait
  free : ∀ c, (t'.coro c).free = (t.coro c).free
  running : t'.running = t.running
  pc : t'.pc = t.pc

omit [DecidableEq Q] in
theorem Kept.trans {t₁ t₂ t₃ : ClientThread Q} (h : Kept t₁ t₂) (h' : Kept t₂ t₃) : Kept t₁ t₃ where
  coro_ctx q one id := (h'.coro_ctx q one id).trans (h.coro_ctx q one id)
  pending q id hid := h.pending q id (h'.pending q id hid)
  wait c := (h'.wait c).trans (h.wait c)
  free c := (h'.free c).trans (h.free c)
  running := h'.running.trans h.running
  pc := h'.pc.trans h.pc

omit [DecidableEq Q] in
theorem Frame.kept (h : Frame t t') : Kept t t' where
  coro_ctx := h.coro_ctx
  pending q _ hid := h.pendingSlots q true ▸ hid
  wait := h.wait
  free := h.free
  running := h.running
  pc := h.pc

theorem issue_ring (q' : Q) (one' : Bool) : ((t.issue q one ids).qp q').ring one' =
    if q' = q ∧ one' = one then
      { (t.qp q).ring one with
        counter := (((t.qp q).ring one).counter + ids.length) % 2 ^ 32
        begin_id := ((t.qp q).ring one).pos
        pending_cnt := 0 }
    else (t.qp q').ring one' := by
  by_cases hq : q' = q
  · subst hq
    by_cases hone : one' = one
    · subst hone
      simp [issue, setQp]
    · simp [issue, setQp, hone]
  · simp [issue, setQp, hq]

/-- Posting leaves nothing pending on its ring. -/
theorem issue_pendingSlots (q' : Q) (one' : Bool) :
    pendingSlots one' (((t.issue q one ids).qp q').ring one') =
      if q' = q ∧ one' = one then [] else pendingSlots one' ((t.qp q').ring one') := by
  rw [issue_ring]
  split_ifs <;> rfl

theorem Kept.issue (t : ClientThread Q) (q : Q) (one : Bool) (ids : List ℕ) :
    Kept t (t.issue q one ids) where
  coro_ctx q' one' id := by rw [(issue_qp q').2.2.2]
  pending q' id hid := by
    rw [issue_pendingSlots] at hid
    split_ifs at hid
    · exact absurd hid List.not_mem_nil
    · exact hid
  wait _ := rfl
  free _ := rfl
  running := rfl
  pc := rfl

theorem Shape.issue (h : Shape t) : Shape (t.issue q one ids) where
  send_none q' id := (Kept.issue t q one ids).coro_ctx q' false id ▸ h.send_none q' id
  room q' := by
    rw [issue_ring]
    split_ifs
    · exact Nat.zero_le _
    · exact h.room q'
  pos q' := by
    rw [issue_ring]
    split_ifs with hq
    · obtain ⟨rfl, rfl⟩ := hq
      have hpos := h.pos q'
      have hlt : ((t.qp q').ring true).pos < kBatchOne := hpos ▸ Nat.mod_lt _ (by decide)
      exact (Nat.mod_eq_of_lt hlt).symm
    · exact h.pos q'
  asked q' id hid hask := by
    rw [(issue_qp q').2.2.2] at hask
    rw [flag, (issue_qp q').2.2.2]
    exact h.asked q' id ((Kept.issue t q one ids).pending q' id hid) hask
  reply c hc q' id hid := by
    rw [(issue_qp q').2.2.2]
    exact h.reply c hc q' id ((Kept.issue t q one ids).pending q' id hid)
  running := h.running
  free := h.free

/-- Posting keeps the books and what is said of the pending requests. -/
theorem Post.spec [Fintype Q] (h : Post cq_len q one t t') (hshape : Shape t)
    (hbooks : Books resting (fun _ ↦ 0) t)
    (hrest : one = true → ∀ c, resting c → ∀ id ∈ pendingSlots true ((t.qp q).ring true),
      (((t.qp q).ring true).wr id).coro_ctx ≠ some c) :
    Kept t t' ∧ Shape t' ∧ Books resting (fun _ ↦ 0) t' := by
  unfold Post at h
  split_ifs at h
  · rw [h]
    exact ⟨(Frame.refl t).kept, hshape, hbooks⟩
  · obtain ⟨t₁, hgenerate, rfl⟩ := h
    have hbatch := hgenerate.spec (fun hone ↦ hone ▸ pendingSlots_nodup (hshape.room q)) hbooks
      (by
        intro c hc id' hid
        cases one with
        | false => simp [markCtx]
        | true => exact hrest rfl c hc id' hid)
    have hshape₁ : Shape t₁ := hshape.of_frame hbatch.frame fun q' id ↦ hbatch.keeps q' true id
    refine ⟨hbatch.frame.kept.trans (Kept.issue t₁ q one _), hshape₁.issue,
      hbatch.books.issue (fun _ ↦ hshape₁.send_none q) fun hone id' hid ↦ ?_⟩
    subst hone
    rw [← hbatch.frame.pendingSlots] at hid
    exact hshape₁.asked q id' hid

theorem WaitForBuffer.spec [Fintype Q] (h : WaitForBuffer cq_len q t t') (hshape : Shape t)
    (hbooks : Books resting (fun _ ↦ 0) t) :
    Kept t t' ∧ Shape t' ∧ Books resting (fun _ ↦ 0) t' := by
  induction h with
  | done => exact ⟨(Frame.refl _).kept, hshape, hbooks⟩
  | @post t t₁ t₂ t' _ _ hpost hpolled _ ih =>
    obtain ⟨hkept₁, hshape₁, hbooks₁⟩ := hpost.spec hshape hbooks (by simp)
    obtain ⟨hframe, hflag, hbooks₂⟩ := hpolled.spec
    obtain ⟨hkept, hrest⟩ := ih (hshape₁.of_frame hframe fun q' id hset ↦ hflag q' true id ▸ hset)
      (hbooks₂ _ _ hbooks₁)
    exact ⟨(hkept₁.trans hframe.kept).trans hkept, hrest⟩
  | @poll t t₁ t' _ _ hpolled _ ih =>
    obtain ⟨hframe, hflag, hbooks₁⟩ := hpolled.spec
    obtain ⟨hkept, hrest⟩ := ih (hshape.of_frame hframe fun q' id hset ↦ hflag q' true id ▸ hset)
      (hbooks₁ _ _ hbooks)
    exact ⟨hframe.kept.trans hkept, hrest⟩

/-! ### Filling the rings -/

/-- A ring may change where no request on its way has its `WrInfo`. -/
theorem Books.setRing [Fintype Q] {ring : WrRing} (h : Books resting extra t)
    (hlive : ∀ n r, (t.qp q).covered ≤ n → (t.qp q).issued[n]? = some r → r.signaled = true →
      r.one = one → (ring.wr r.slot).coro_ctx = r.coro) : Books resting extra (t.setRing q one ring) := by
  have hqp (q' : Q) : ((t.setRing q one ring).qp q').issued = (t.qp q').issued ∧
      ((t.setRing q one ring).qp q').completed = (t.qp q').completed ∧
      ((t.setRing q one ring).qp q').covered = (t.qp q').covered := setRing_issued q'
  have howed : owed (t.setRing q one ring) = owed t := by
    funext c
    unfold owed owedBy
    exact Finset.sum_congr rfl fun q' _ ↦ by rw [(hqp q').1, (hqp q').2.2]
  refine ⟨fun q' ↦ ?_, fun q' ↦ ?_, fun q' ↦ ?_, fun q' n r hn hr hsig ↦ ?_, fun c ↦ ?_, h.rest,
    fun q' ↦ ?_⟩
  · rw [(hqp q').1, (hqp q').2.1, (hqp q').2.2]
    exact h.queue q'
  · rw [(hqp q').2.1, (hqp q').2.2]
    exact h.covered_le q'
  · rw [(hqp q').1, (hqp q').2.1]
    exact h.completed_le q'
  · rw [(hqp q').1] at hr
    rw [(hqp q').2.2] at hn
    rw [setRing_ring]
    split_ifs with hring
    · obtain ⟨rfl, hone⟩ := hring
      exact hlive n r hn hr hsig hone
    · exact h.live q' n r hn hr hsig
  · rw [howed]
    exact h.count c
  · rw [(hqp q').1]
    exact h.asked q'

theorem Books.advance [Fintype Q] (h : Books resting extra t) (q : Q) (one : Bool) :
    Books resting extra (t.advance q one) :=
  h.setRing fun n r hn hr hsig hone ↦ hone ▸ h.live q n r hn hr hsig

/-- The place that the next one-sided request takes: no request that is pending or on its way with a
completion has it. -/
def SlotFree (t : ClientThread Q) (q : Q) : Prop :=
  ((t.qp q).ring true).pending_cnt < kBatchOne ∧
    ∀ n r, (t.qp q).covered ≤ n → (t.qp q).issued[n]? = some r → r.signaled = true →
      r.one = true → r.slot ≠ ((t.qp q).ring true).pos

theorem Books.setWr_one [Fintype Q] (h : Books resting extra t) (hfree : SlotFree t q)
    (f : Wr → Wr) : Books resting extra (t.setWr q true f) :=
  h.setRing fun n r hn hr hsig hone ↦ by
    change (Function.update ((t.qp q).ring true).wr _ _ r.slot).coro_ctx = r.coro
    rw [Function.update_of_ne (hfree.2 n r hn hr hsig hone)]
    exact hone ▸ h.live q n r hn hr hsig

/-- A message names no coroutine, before and after its place is filled. -/
theorem Books.setWr_send [Fintype Q] (h : Books resting extra t) (hshape : Shape t) {f : Wr → Wr}
    (hf : ∀ wr, wr.coro_ctx = none → (f wr).coro_ctx = none) :
    Books resting extra (t.setWr q false f) :=
  h.setRing fun n r hn hr hsig hone ↦ by
    have hlive := h.live q n r hn hr hsig
    rw [hone, hshape.send_none] at hlive
    change (Function.update ((t.qp q).ring false).wr _ _ r.slot).coro_ctx = r.coro
    by_cases hslot : r.slot = ((t.qp q).ring false).pos
    · rw [hslot, Function.update_self, ← hlive]
      exact hf _ (hshape.send_none q _)
    · rw [Function.update_of_ne hslot, ← hlive]
      exact hshape.send_none q _

theorem setWr_ring {f : Wr → Wr} (q' : Q) (one' : Bool) :
    ((t.setWr q one f).qp q').ring one' =
      if q' = q ∧ one' = one then
        { (t.qp q).ring one with
          wr := Function.update ((t.qp q).ring one).wr ((t.qp q).ring one).pos
            (f (((t.qp q).ring one).wr ((t.qp q).ring one).pos)) }
      else (t.qp q').ring one' :=
  setRing_ring q' one'

theorem advance_ring (q' : Q) (one' : Bool) : ((t.advance q one).qp q').ring one' =
    if q' = q ∧ one' = one then
      { (t.qp q).ring one with
        pos := (((t.qp q).ring one).pos + 1) % ringSize one
        pending_cnt := (((t.qp q).ring one).pending_cnt + 1) % 2 ^ if one then 32 else 16 }
    else (t.qp q').ring one' :=
  setRing_ring q' one'

/-- Only one place of one ring has another `WrInfo` after `setWr`. -/
theorem setWr_wr {f : Wr → Wr} (q' : Q) (one' : Bool) (id : ℕ) :
    (((t.setWr q one f).qp q').ring one').wr id =
      if q' = q ∧ one' = one ∧ id = ((t.qp q).ring one).pos then f (((t.qp q').ring one').wr id)
      else ((t.qp q').ring one').wr id := by
  rw [setWr_ring]
  by_cases hring : q' = q ∧ one' = one
  · obtain ⟨rfl, rfl⟩ := hring
    by_cases hid : id = ((t.qp q').ring one').pos
    · subst hid
      simp
    · simp [hid]
  · rw [if_neg hring, if_neg fun h ↦ hring ⟨h.1, h.2.1⟩]

theorem setWr_pendingSlots {f : Wr → Wr} (q' : Q) (one' : Bool) :
    pendingSlots one' (((t.setWr q one f).qp q').ring one') =
      pendingSlots one' ((t.qp q').ring one') := by
  rw [setWr_ring]
  split_ifs with hring
  · obtain ⟨rfl, rfl⟩ := hring
    rfl
  · rfl

/-- A request that is taken loses its coroutine. -/
theorem Shape.get_wr (h : Shape t) (q : Q) (one : Bool) : Shape (t.get_wr q one) := by
  have hctx (q' : Q) (one' : Bool) (id : ℕ) :
      ((((t.get_wr q one).qp q').ring one').wr id).coro_ctx = none ∨
      ((((t.get_wr q one).qp q').ring one').wr id).coro_ctx =
        (((t.qp q').ring one').wr id).coro_ctx := by
    rw [ClientThread.get_wr, setWr_wr]
    split_ifs
    · exact Or.inl rfl
    · exact Or.inr rfl
  have hslots (q' : Q) : pendingSlots true (((t.get_wr q one).qp q').ring true) =
      pendingSlots true ((t.qp q').ring true) := setWr_pendingSlots q' true
  refine ⟨fun q' id ↦ ?_, fun q' ↦ ?_, fun q' ↦ ?_, fun q' id hid hask ↦ ?_,
    fun c hc q' id hid ↦ ?_, h.running, h.free⟩
  · exact (hctx q' false id).elim (fun hnone ↦ hnone) fun heq ↦ heq.trans (h.send_none q' id)
  · rw [ClientThread.get_wr, setWr_ring]
    split_ifs with hring
    · rw [← hring.2]
      exact h.room q
    · exact h.room q'
  · rw [ClientThread.get_wr, setWr_ring]
    split_ifs with hring
    · rw [← hring.2]
      exact h.pos q
    · exact h.pos q'
  · rw [hslots] at hid
    have hset := h.asked q' id hid
    rw [flag] at hset
    rw [flag]
    rw [ClientThread.get_wr, setWr_wr] at hask ⊢
    split_ifs at hask ⊢ with hplace
    · exact hset hask
    · exact hset hask
  · rw [hslots] at hid
    rcases hctx q' true id with hnone | heq
    · rw [hnone]
      exact (Option.some_ne_none c).symm
    · rw [heq]
      exact h.reply c hc q' id hid

/-- The place of a request that is appended joins the pending ones. -/
theorem append_pendingSlots {f : Wr → Wr} (h : Shape t)
    (hroom : ((t.qp q).ring true).pending_cnt < kBatchOne) (q' : Q) :
    pendingSlots true ((((t.setWr q true f).advance q true).qp q').ring true) =
      if q' = q then pendingSlots true ((t.qp q).ring true) ++ [((t.qp q).ring true).pos]
      else pendingSlots true ((t.qp q').ring true) := by
  have hpos := h.pos q
  unfold kBatchOne at hroom hpos
  by_cases hq : q' = q
  · subst hq
    rw [advance_ring, if_pos ⟨rfl, rfl⟩, if_pos rfl, setWr_ring, if_pos ⟨rfl, rfl⟩]
    simp only [pendingSlots, if_true]
    rw [Nat.mod_eq_of_lt (by omega), List.range_succ, List.map_append, List.map_singleton, hpos]
    simp only [ringSize, if_true, kBatchOne]
    rw [Nat.add_comm]
  · rw [advance_ring, if_neg (by simp [hq]), if_neg hq, setWr_ring, if_neg (by simp [hq])]

omit [DecidableEq Q] in
/-- The place that is filled next is not pending. -/
theorem Shape.pos_notMem (h : Shape t) (hroom : ((t.qp q).ring true).pending_cnt < kBatchOne) :
    ((t.qp q).ring true).pos ∉ pendingSlots true ((t.qp q).ring true) := by
  have hpos := h.pos q
  unfold kBatchOne at hroom hpos
  intro hmem
  obtain ⟨i, hi, heq⟩ := List.mem_map.mp hmem
  rw [List.mem_range] at hi
  have hsize : ringSize true = 128 := rfl
  rw [hsize] at heq
  omega

theorem advance_wr (q' : Q) (one' : Bool) (id : ℕ) :
    (((t.advance q one).qp q').ring one').wr id = ((t.qp q').ring one').wr id := by
  rw [advance_ring]
  by_cases hring : q' = q ∧ one' = one
  · obtain ⟨rfl, rfl⟩ := hring
    rw [if_pos ⟨rfl, rfl⟩]
  · rw [if_neg hring]

/-- A running coroutine appends a one-sided request. -/
theorem Shape.append_signal_one (h : Shape t) (hfree : SlotFree t q) (hrunning : t.running = some c)
    (signal : Bool) : Shape (t.append_signal_one q c signal) := by
  have hroom := hfree.1
  have hwr (q' : Q) (one' : Bool) (id : ℕ) :
      (((t.append_signal_one q c signal).qp q').ring one').wr id =
        if q' = q ∧ one' = true ∧ id = ((t.qp q).ring true).pos then
          { ((t.qp q').ring one').wr id with
            signaled := signal, asked := signal, coro_ctx := some c }
        else ((t.qp q').ring one').wr id :=
    (advance_wr q' one' id).trans (setWr_wr q' one' id)
  have hslots (q' : Q) (id : ℕ)
      (hid : id ∈ pendingSlots true (((t.append_signal_one q c signal).qp q').ring true)) :
      q' = q ∧ id = ((t.qp q).ring true).pos ∨ id ∈ pendingSlots true ((t.qp q').ring true) ∧
        ¬ (q' = q ∧ True ∧ id = ((t.qp q).ring true).pos) := by
    rw [ClientThread.append_signal_one, append_pendingSlots h hroom] at hid
    split_ifs at hid with hq
    · subst hq
      rcases List.mem_append.mp hid with hold | hnew
      · refine Or.inr ⟨hold, fun hplace ↦ h.pos_notMem hroom (hplace.2.2 ▸ hold)⟩
      · exact Or.inl ⟨rfl, List.mem_singleton.mp hnew⟩
    · exact Or.inr ⟨hid, fun hplace ↦ hq hplace.1⟩
  have hcounts (q' : Q) :
      (((t.append_signal_one q c signal).qp q').ring true).pending_cnt ≤ kBatchOne ∧
      (((t.append_signal_one q c signal).qp q').ring true).pos =
        ((((t.append_signal_one q c signal).qp q').ring true).begin_id +
          (((t.append_signal_one q c signal).qp q').ring true).pending_cnt) % kBatchOne := by
    by_cases hq : q' = q
    · subst hq
      have hpos := h.pos q'
      unfold kBatchOne at hroom hpos ⊢
      rw [ClientThread.append_signal_one, advance_ring, if_pos ⟨rfl, rfl⟩, setWr_ring,
        if_pos ⟨rfl, rfl⟩]
      simp only [ringSize, if_true, kBatchOne]
      omega
    · rw [ClientThread.append_signal_one, advance_ring, if_neg (by simp [hq]), setWr_ring,
        if_neg (by simp [hq])]
      exact ⟨h.room q', h.pos q'⟩
  refine ⟨fun q' id ↦ ?_, fun q' ↦ ?_, fun q' ↦ ?_, fun q' id hid hask ↦ ?_,
    fun c' hc q' id hid ↦ ?_, h.running, h.free⟩
  · rw [hwr, if_neg (by simp)]
    exact h.send_none q' id
  · exact (hcounts q').1
  · exact (hcounts q').2
  · rw [hwr] at hask
    rw [flag, hwr]
    rcases hslots q' id hid with hnew | ⟨hold, hne⟩
    · rw [if_pos ⟨hnew.1, rfl, hnew.2⟩] at hask ⊢
      exact hask
    · rw [if_neg (by simpa using hne)] at hask ⊢
      exact h.asked q' id hold hask
  · rw [hwr]
    rcases hslots q' id hid with hnew | ⟨hold, hne⟩
    · rw [if_pos ⟨hnew.1, rfl, hnew.2⟩]
      intro heq
      have hwait := h.running c hrunning
      rw [Option.some_injective _ heq] at hwait
      have hreply : (t.coro c').wait = .reply := hc
      rw [hreply] at hwait
      exact Wait.noConfusion hwait
    · rw [if_neg (by simpa using hne)]
      exact h.reply c' hc q' id hold

/-- A message is appended. -/
theorem Shape.append_signal_smsg (h : Shape t) (q : Q) (signal : Bool) :
    Shape (t.append_signal_smsg q signal) := by
  have hone (q' : Q) :
      ((t.append_signal_smsg q signal).qp q').ring true = (t.qp q').ring true := by
    rw [ClientThread.append_signal_smsg, advance_ring, if_neg (by simp), setWr_ring,
      if_neg (by simp)]
  refine ⟨fun q' id ↦ ?_, fun q' ↦ ?_, fun q' ↦ ?_, fun q' id hid hask ↦ ?_,
    fun c hc q' id hid ↦ ?_, h.running, h.free⟩
  · rw [ClientThread.append_signal_smsg, advance_wr, setWr_wr]
    split_ifs
    · exact h.send_none q' id
    · exact h.send_none q' id
  · rw [hone]
    exact h.room q'
  · rw [hone]
    exact h.pos q'
  · rw [hone] at hid hask
    rw [flag, hone]
    exact h.asked q' id hid hask
  · rw [hone] at hid ⊢
    exact h.reply c hc q' id hid

end Batch

end SwitchDelta.Rdma.ClientThread
