import SwitchDelta.Foundation.Transition
import SwitchDelta.Rdma.OpCount

/-!
# Who is resumed, and when

While a coroutine waits for a reply its counter is minus one, and the counter of one that waits for
its operations is zero only when they are done: that is what `run_client_CPC` relies on. It is so in
every run in which the client code does its part (`Careful`), see `resumed_for_its_own_reason`.

A request that the library signals by itself is counted like one with `signal = true`. A coroutine
that has one-sided operations on their way when it begins to wait for a reply may be resumed without
one, even if it asked for no completion (`resumed_without_reply`).
-/

set_option autoImplicit false
set_option relaxedAutoImplicit false

namespace SwitchDelta.Rdma.ClientThread

open Foundation
open Kv (kMaxSignal kStaticSendBuf)

variable {Q : Type} [DecidableEq Q] {t t' : ClientThread Q} {q q' : Q} {c : ℕ}

/-! ### The invariant of a thread -/

/-- The invariant of a thread: those who wait for a reply rest. -/
structure Inv [Fintype Q] (t : ClientThread Q) : Prop where
  shape : Shape t
  books : Books (fun c ↦ (t.coro c).wait = .reply) (fun _ ↦ 0) t

section Steps

variable [Fintype Q] {one : Bool} {cq_len : ℕ} {resting : ℕ → Prop} {extra : ℕ → ℕ}

theorem Books.mono {resting' : ℕ → Prop} (h : Books resting extra t)
    (hmono : ∀ c, resting' c → resting c) : Books resting' extra t :=
  { h with rest := fun c hc ↦ h.rest c (hmono c hc) }

theorem Inv.of_kept (hshape : Shape t') (hkept : Kept t t')
    (hbooks : Books (fun c ↦ (t.coro c).wait = .reply) (fun _ ↦ 0) t') : Inv t' :=
  ⟨hshape, hbooks.mono fun c hc ↦ (hkept.wait c).symm.trans hc⟩

theorem init_inv (wr : Q → Bool → ℕ → Wr) : Inv (init wr) where
  shape := {
    send_none := fun _ _ ↦ rfl
    room := fun _ ↦ Nat.zero_le _
    pos := fun _ ↦ rfl
    asked := fun _ _ hid ↦ absurd hid List.not_mem_nil
    reply := fun _ hc ↦ Wait.noConfusion hc
    running := fun _ hc ↦ absurd hc (Option.some_ne_none _).symm
    free := fun _ _ ↦ rfl }
  books := {
    queue := fun _ ↦ rfl
    covered_le := fun _ ↦ le_rfl
    completed_le := fun _ ↦ le_rfl
    live := fun _ n r _ hr _ ↦ by simp [init] at hr
    count := fun c ↦ Or.inr ⟨rfl, by simp [owed, owedBy, init]⟩
    rest := fun _ _ ↦ rfl
    asked := fun _ _ hr ↦ absurd hr List.not_mem_nil }

/-- The loop moves on. -/
theorem Inv.of_pc (h : Inv t) (pc : LoopPc) : Inv { t with pc := pc } :=
  ⟨⟨h.shape.send_none, h.shape.room, h.shape.pos, h.shape.asked, h.shape.reply, h.shape.running,
      h.shape.free⟩,
    ⟨h.books.queue, h.books.covered_le, h.books.completed_le, h.books.live, h.books.count,
      h.books.rest, h.books.asked⟩⟩

/-- Coroutine `c` gets or gives up control. Its counter stays, or turns from zero to minus one. -/
theorem Inv.of_coro {co : Coro} (hshape : Shape t) (hbooks : Books resting (fun _ ↦ 0) t)
    (hqp : t'.qp = t.qp) (hcq : t'.cq = t.cq) (hcoro : t'.coro = Function.update t.coro c co)
    (hasync : co.async_op_cnt = (t.coro c).async_op_cnt ∨
      (t.coro c).async_op_cnt = 0 ∧ co.async_op_cnt = -1)
    (hrunning : t'.running = none ∨ t'.running = some c ∧ co.wait = .running)
    (hrest : ∀ c', c' ≠ c → (t.coro c').wait = .reply → resting c')
    (hreply : co.wait = .reply → resting c ∧
      ∀ q, ∀ id ∈ pendingSlots true ((t.qp q).ring true),
        (((t.qp q).ring true).wr id).coro_ctx ≠ some c)
    (hfree : co.free = true → co.wait = .idle) : Inv t' := by
  have hself : t'.coro c = co := by rw [hcoro, Function.update_self]
  have hother (c' : ℕ) (hc : c' ≠ c) : t'.coro c' = t.coro c' := by
    rw [hcoro, Function.update_of_ne hc]
  have howed : owed t' = owed t := by
    funext c'
    rw [owed, hqp, ← owed]
  refine ⟨⟨fun q id ↦ ?_, fun q ↦ ?_, fun q ↦ ?_, fun q id hid hask ↦ ?_, fun c' hc q id hid ↦ ?_,
    fun c' hc ↦ ?_, fun c' hc ↦ ?_⟩, ⟨fun q ↦ ?_, fun q ↦ ?_, fun q ↦ ?_, fun q n r hn hr hsig ↦ ?_,
    fun c' ↦ ?_, fun c' hc ↦ ?_, fun q ↦ ?_⟩⟩
  · rw [hqp]
    exact hshape.send_none q id
  · rw [hqp]
    exact hshape.room q
  · rw [hqp]
    exact hshape.pos q
  · rw [hqp] at hid hask
    rw [flag, hqp]
    exact hshape.asked q id hid hask
  · rw [hqp] at hid ⊢
    by_cases hc' : c' = c
    · subst hc'
      rw [hself] at hc
      exact (hreply hc).2 q id hid
    · rw [hother c' hc'] at hc
      exact hshape.reply c' hc q id hid
  · rcases hrunning with hnone | ⟨hsome, hwait⟩
    · rw [hnone] at hc
      exact absurd hc (Option.some_ne_none c').symm
    · rw [hsome] at hc
      rw [← Option.some_injective _ hc, hself, hwait]
  · by_cases hc' : c' = c
    · subst hc'
      rw [hself] at hc ⊢
      exact hfree hc
    · rw [hother c' hc'] at hc ⊢
      exact hshape.free c' hc
  · rw [hcq, hqp]
    exact hbooks.queue q
  · rw [hqp]
    exact hbooks.covered_le q
  · rw [hqp]
    exact hbooks.completed_le q
  · rw [hqp] at hn hr ⊢
    exact hbooks.live q n r hn hr hsig
  · have hcount := hbooks.count c'
    rw [howed]
    by_cases hc' : c' = c
    · subst hc'
      rw [hself]
      omega
    · rw [hother c' hc']
      exact hcount
  · by_cases hc' : c' = c
    · subst hc'
      rw [hself] at hc
      have hminus := hbooks.rest c' (hreply hc).1
      rw [hself]
      omega
    · rw [hother c' hc'] at hc ⊢
      exact hbooks.rest c' (hrest c' hc' hc)
  · rw [hqp]
    exact hbooks.asked q

/-- What the client code has to do. It fills a place of the ring of one-sided operations when the
place is free. A coroutine that waits for a reply has the counter minus one and no one-sided requests
pending. No message for a coroutine arrives while it waits for its operations. -/
def Careful (t : ClientThread Q) : Label Q → Prop
  | .call _ (.get_one_wr q) | .call _ (.append_signal_one q _) => SlotFree t q
  | .call c (.post_appended_smsg q true) =>
    ((t.qp q).ring false).pending_cnt ≠ 0 → (t.coro c).async_op_cnt = -1 ∧
      ∀ q', ∀ id ∈ pendingSlots true ((t.qp q').ring true),
        (((t.qp q').ring true).wr id).coro_ctx ≠ some c
  | .resume_message c => (t.coro c).wait = .ops → (t.coro c).async_op_cnt ≤ 0
  | _ => True

theorem Inv.post (h : Inv t) (hpost : Post cq_len q one t t') : Kept t t' ∧ Inv t' := by
  obtain ⟨hkept, hshape, hbooks⟩ := hpost.spec h.shape h.books fun _ c hc ↦ h.shape.reply c hc q
  exact ⟨hkept, Inv.of_kept hshape hkept hbooks⟩

theorem Inv.polled {k : ℕ} (h : Inv t) (hpolled : Polled k t t') : Inv t' := by
  obtain ⟨hframe, hflag, hbooks⟩ := hpolled.spec
  exact Inv.of_kept (h.shape.of_frame hframe fun q id hset ↦ hflag q true id ▸ hset) hframe.kept
    (hbooks _ _ h.books)

theorem Inv.getSend (h : Inv t) (hget : GetSend cq_len q t t') : Inv t' := by
  obtain ⟨t₁, t₂, hcheck, hwait, rfl⟩ := hget
  obtain ⟨hframe, hflag, hbooks⟩ := hcheck.spec
  have hshape₁ : Shape t₁ := h.shape.of_frame hframe fun q id hset ↦ hflag q true id ▸ hset
  obtain ⟨hkept, hshape₂, hbooks₂⟩ := hwait.spec hshape₁ (hbooks _ _ h.books)
  have hinv : Inv t₂ := Inv.of_kept hshape₂ (hframe.kept.trans hkept) hbooks₂
  exact ⟨hshape₂.get_wr q false, hinv.books.setWr_send hshape₂ fun _ _ ↦ rfl⟩

/-- A coroutine is suspended, or at the end of its request. -/
theorem Inv.yield {free : Bool} {wait : Wait} (hshape : Shape t)
    (hbooks : Books resting (fun _ ↦ 0) t)
    (hrest : ∀ c', c' ≠ c → (t.coro c').wait = .reply → resting c')
    (hreply : wait = .reply → resting c ∧ ∀ q, ∀ id ∈ pendingSlots true ((t.qp q).ring true),
      (((t.qp q).ring true).wr id).coro_ctx ≠ some c)
    (hfree : free = true → wait = .idle) : Inv (t.yield c free wait) :=
  Inv.of_coro hshape hbooks rfl rfl rfl (Or.inl rfl) (Or.inl rfl) hrest hreply hfree

theorem Calls.inv {call : Call Q} (h : Calls cq_len c call t t') (hinv : Inv t)
    (hrunning : t.running = some c) (hcareful : Careful t (.call c call)) : Inv t' := by
  cases h with
  | get_one_wr q =>
    exact ⟨hinv.shape.get_wr q true, hinv.books.setWr_one hcareful _⟩
  | append_signal_one q signal =>
    exact ⟨hinv.shape.append_signal_one hcareful hrunning signal,
      (hinv.books.setWr_one hcareful _).advance q true⟩
  | post_one _ hpost => exact (hinv.post hpost).2
  | wait_ops _ hpost =>
    obtain ⟨-, hinv'⟩ := hinv.post hpost
    exact Inv.yield hinv'.shape hinv'.books (fun _ _ hc ↦ hc) Wait.noConfusion Bool.noConfusion
  | get_send_wr q =>
    exact ⟨hinv.shape.get_wr q false, hinv.books.setWr_send hinv.shape fun _ _ ↦ rfl⟩
  | get_send_msg_sg hget => exact hinv.getSend hget
  | append_signal_smsg q signal =>
    exact ⟨hinv.shape.append_signal_smsg q signal,
      (hinv.books.setWr_send hinv.shape (f := fun wr ↦ { wr with signaled := signal })
        fun _ hwr ↦ hwr).advance q false⟩
  | post_smsg _ hpost => exact (hinv.post hpost).2
  | @wait_reply t t' q hpending hpost _ =>
    obtain ⟨hasync, hnone⟩ := hcareful hpending
    -- the coroutine rests from now on
    have hbooks : Books (fun c' ↦ (t.coro c').wait = .reply ∨ c' = c) (fun _ ↦ 0) t :=
      { hinv.books with
        rest := fun c' hc ↦ hc.elim (hinv.books.rest c') fun heq ↦ heq ▸ hasync }
    obtain ⟨hkept, hshape', hbooks'⟩ := hpost.spec hinv.shape hbooks (by simp)
    refine Inv.yield hshape' hbooks' (fun c' _ hc ↦ Or.inl ((hkept.wait c').symm.trans hc))
      (fun _ ↦ ⟨Or.inr rfl, fun q' id hid ↦ ?_⟩) Bool.noConfusion
    rw [hkept.coro_ctx]
    exact hnone q' id (hkept.pending q' id hid)
  | finish => exact Inv.yield hinv.shape hinv.books (fun _ _ hc ↦ hc) Wait.noConfusion fun _ ↦ rfl

/-- A coroutine is resumed. -/
theorem Inv.resume (h : Inv t) {async_op_cnt : ℤ} {pc : LoopPc}
    (hasync : async_op_cnt = (t.coro c).async_op_cnt ∨
      (t.coro c).async_op_cnt = 0 ∧ async_op_cnt = -1) : Inv (t.resume c async_op_cnt pc) :=
  Inv.of_coro h.shape h.books rfl rfl rfl hasync (Or.inr ⟨rfl, rfl⟩) (fun _ _ hc ↦ hc)
    Wait.noConfusion Bool.noConfusion

/-- A step of a careful thread keeps the invariant. -/
theorem Step.inv {coro_num : ℕ} {label : Label Q} (h : Step coro_num cq_len t label t')
    (hinv : Inv t) (hcareful : Careful t label) : Inv t' := by
  cases h with
  | call hrunning hcalls => exact hcalls.inv hinv hrunning hcareful
  | resume_free | resume_message => exact hinv.resume (Or.inl rfl)
  | resume_ops _ _ hzero => exact hinv.resume (Or.inr ⟨hzero, rfl⟩)
  | poll_send _ _ _ _ hpolled => exact (hinv.polled hpolled).of_pc _
  | not_free | scanned | not_over | count | no_poll | poll_recv | no_coroutine | again =>
    exact hinv.of_pc _

end Steps

/-! ### Parts of a run -/

section Runs

variable [Fintype Q] {cq_len k : ℕ} {t₀ : ClientThread Q} {ok : ClientThread Q → Label Q → Prop}

/-- A thread with one coroutine passes over it, because it has operations to wait for, and polls. -/
theorem Polled.round (hok : ∀ t, ok t .loop) (h : Reachable t₀ (Step 1 cq_len) ok t)
    (hrunning : t.running = none) (hpc : t.pc = .ops 0 0) (hasync : (t.coro 0).async_op_cnt = 1)
    (hfree : (t.coro 0).free = false) (hpolled : Polled 1 { t with pc := .poll_send 1 } t') :
    Reachable t₀ (Step 1 cq_len) ok { t' with pc := .ops 0 0 } := by
  have hframe := hpolled.spec.1
  have hops : pendingOps (t.coro 0) = 1 := by simp [pendingOps, hasync]
  have hcount : Reachable t₀ (Step 1 cq_len) ok { t with pc := .count 0 0 } :=
    h.step (hok t) (Step.not_over hrunning hpc (by simp [hasync]))
  have hnext : Reachable t₀ (Step 1 cq_len) ok { t with pc := .free 1 1 } := by
    have hstep := hcount.step (hok _) (Step.count hrunning rfl)
    rwa [hops] at hstep
  have hsend : Reachable t₀ (Step 1 cq_len) ok { t with pc := .poll_send 1 } :=
    hnext.step (hok _) (Step.scanned hrunning rfl)
  have hrecv : Reachable t₀ (Step 1 cq_len) ok { t' with pc := .poll_recv } :=
    hsend.step (hok _) (Step.poll_send hrunning rfl one_pos (by decide) hpolled)
  have hrunning' : t'.running = none := hframe.running.trans hrunning
  have hmessages : Reachable t₀ (Step 1 cq_len) ok { t' with pc := .messages [] } :=
    hrecv.step (hok _) (Step.poll_recv [] hrunning' rfl (Nat.zero_le _) fun _ hc ↦
      absurd hc List.not_mem_nil)
  have hagain : Reachable t₀ (Step 1 cq_len) ok { t' with pc := .free 0 0 } :=
    hmessages.step (hok _) (Step.again hrunning' rfl)
  exact hagain.step (hok _) (Step.not_free hrunning' rfl one_pos ((hframe.free 0).trans hfree))

omit [Fintype Q] in
theorem CheckSignal.of_ne (h : t.signal_counter ≠ cq_len) : CheckSignal cq_len t t :=
  (if_neg h).mpr rfl

omit [Fintype Q] in
theorem Generate.signaled_of_ne {one : Bool} {id : ℕ} {ids : List ℕ}
    (hsig : signals (t.qp q) one id = true) (hne : (t.mark q one id).signal_counter ≠ cq_len)
    (h : Generate cq_len q one ids ((t.mark q one id).set_signal_cnt q one id) t') :
    Generate cq_len q one (id :: ids) t t' :=
  Generate.signaled hsig (CheckSignal.of_ne hne) h

omit [Fintype Q] in
theorem Post.of_generate {one : Bool} {ids : List ℕ}
    (hpending : ((t.qp q).ring one).pending_cnt ≠ 0)
    (hids : pendingSlots one ((t.qp q).ring one) = ids) (h : Generate cq_len q one ids t t') :
    Post cq_len q one t (t'.issue q one ids) := by
  subst hids
  exact (if_neg hpending).mpr ⟨t', h, rfl⟩

section Calls

variable {ids : List ℕ} (hrunning : t.running = some c)

include hrunning

omit [Fintype Q] in
theorem Step.post_one (hpending : ((t.qp q).ring true).pending_cnt ≠ 0)
    (hids : pendingSlots true ((t.qp q).ring true) = ids) (h : Generate cq_len q true ids t t') :
    Step 1 cq_len t (.call c (.post_appended_one q false)) (t'.issue q true ids) :=
  Step.call hrunning (Calls.post_one (Or.inl rfl) (Post.of_generate hpending hids h))

omit [Fintype Q] in
theorem Step.wait_ops (hpending : ((t.qp q).ring true).pending_cnt ≠ 0)
    (hids : pendingSlots true ((t.qp q).ring true) = ids) (h : Generate cq_len q true ids t t') :
    Step 1 cq_len t (.call c (.post_appended_one q true))
      ((t'.issue q true ids).yield c false .ops) :=
  Step.call hrunning (Calls.wait_ops hpending (Post.of_generate hpending hids h))

omit [Fintype Q] in
theorem Step.get_send (hne : t.signal_counter ≠ cq_len)
    (hroom : ((t.qp q).ring false).counter + ((t.qp q).ring false).pending_cnt < kStaticSendBuf) :
    Step 1 cq_len t (.call c (.get_send_msg_sg q)) (t.get_wr q false) :=
  Step.call hrunning (Calls.get_send_msg_sg
    ⟨t, t, CheckSignal.of_ne hne, WaitForBuffer.done hroom, rfl⟩)

omit [Fintype Q] in
theorem Step.wait_reply (hpending : ((t.qp q).ring false).pending_cnt ≠ 0)
    (hids : pendingSlots false ((t.qp q).ring false) = ids) (h : Generate cq_len q false ids t t')
    (hone : (((t'.issue q false ids).qp q).ring true).pending_cnt = 0) :
    Step 1 cq_len t (.call c (.post_appended_smsg q true))
      ((t'.issue q false ids).yield c false .reply) :=
  Step.call hrunning (Calls.wait_reply hpending (Post.of_generate hpending hids h) hone)

end Calls

/-- The NIC completes requests of a queue pair. -/
def completeAll (q : Q) : ℕ → ClientThread Q → ClientThread Q
  | 0, t => t
  | n + 1, t =>
    match (t.qp q).issued[(t.qp q).completed]? with
    | some r => completeAll q n (t.complete q r)
    | none => t

omit [Fintype Q] in
theorem Polled.of_completeAll (n : ℕ) (h : Polled k (completeAll q n t) t') : Polled k t t' := by
  induction n generalizing t with
  | zero => exact h
  | succ n ih =>
    rw [completeAll] at h
    split at h
    · exact Polled.complete ‹_› (ih h)
    · exact h

/-- The requests of a batch are marked. -/
def markAll (q : Q) (one : Bool) : List ℕ → ClientThread Q → ClientThread Q
  | [], t => t
  | id :: ids, t => markAll q one ids (t.mark q one id)

/-- None of the requests of a batch is signalled. -/
def allPlain (q : Q) (one : Bool) : List ℕ → ClientThread Q → Bool
  | [], _ => true
  | id :: ids, t => !signals (t.qp q) one id && allPlain q one ids (t.mark q one id)

omit [Fintype Q] in
theorem Generate.of_plain {one : Bool} {ids ids' : List ℕ} (hplain : allPlain q one ids t = true)
    (h : Generate cq_len q one ids' (markAll q one ids t) t') :
    Generate cq_len q one (ids ++ ids') t t' := by
  induction ids generalizing t with
  | nil => exact h
  | cons id ids ih =>
    rw [allPlain, Bool.and_eq_true, Bool.not_eq_true'] at hplain
    exact Generate.plain hplain.1 (ih hplain.2 h)

end Runs

/-! ### The operations of a coroutine -/

section Resumed

variable [Fintype Q] {resting : ℕ → Prop}

/-- Every operation that a coroutine issued with `signal = true` has completed. -/
def Done (t : ClientThread Q) (c : ℕ) : Prop :=
  ∀ q n r, (t.qp q).issued[n]? = some r → r.coro = some c → r.asked = true →
    n < (t.qp q).completed

/-- With nothing owed, all is done. -/
theorem Books.done (h : Books resting (fun _ ↦ 0) t) (hasync : (t.coro c).async_op_cnt ≤ 0) :
    Done t c := by
  intro q n r hr hcoro hask
  have howed : owed t c = 0 := by
    have hcount := h.count c
    omega
  have hzero : owedBy (t.qp q) c = 0 := Finset.sum_eq_zero_iff.mp howed q (Finset.mem_univ q)
  by_contra hlate
  have hle := h.covered_le q
  have hsig : r.signaled = true :=
    h.asked q r (List.mem_of_getElem? hr) (by simp [hcoro]) hask
  have hmem : r ∈ (t.qp q).issued.drop (t.qp q).covered := by
    refine List.mem_of_getElem? (i := n - (t.qp q).covered) ?_
    rw [List.getElem?_drop, Nat.add_sub_cancel' (by omega)]
    exact hr
  rw [owedBy, List.countP_eq_zero] at hzero
  exact hzero r hmem (by simp [countsFor, hsig, hcoro])

/-- A thread that fills its rings with care, whose coroutines have no one-sided operations on their
way when they wait for a reply and get no messages while they wait for their operations: a coroutine
that waits for a reply is resumed by a message for it and by nothing else, and one that waits for its
operations when all those with `signal = true` have completed. -/
theorem resumed_for_its_own_reason (wr : Q → Bool → ℕ → Wr) (coro_num cq_len : ℕ)
    {label : Label Q} (hrun : Reachable (init wr) (Step coro_num cq_len) Careful t)
    (hcareful : Careful t label) (hstep : Step coro_num cq_len t label t') (c : ℕ)
    (hresumed : label.resumed = some c) :
    ((t.coro c).wait = .reply → label = .resume_message c) ∧
      ((t.coro c).wait = .ops → Done t c) := by
  have hinv : Inv t := hrun.invariant Inv (init_inv wr)
    fun _ _ _ _ hinv hok hstep ↦ hstep.inv hinv hok
  cases hstep with
  | resume_free _ _ _ hfree =>
    obtain rfl := Option.some_injective _ hresumed
    rw [hinv.shape.free _ hfree]
    exact ⟨Wait.noConfusion, Wait.noConfusion⟩
  | resume_ops _ _ hzero _ =>
    obtain rfl := Option.some_injective _ hresumed
    refine ⟨fun hreply ↦ ?_, fun _ ↦ hinv.books.done hzero.le⟩
    have hminus := hinv.books.rest _ hreply
    omega
  | resume_message =>
    obtain rfl := Option.some_injective _ hresumed
    exact ⟨fun _ ↦ rfl, fun hops ↦ hinv.books.done (hcareful hops)⟩
  | call | not_free | scanned | not_over | count | no_poll | poll_send | poll_recv | no_coroutine
    | again => exact absurd hresumed (Option.some_ne_none c).symm

/-- A thread with one queue pair and one coroutine, which begins a request. -/
def started : ClientThread Unit :=
  (init fun _ _ _ ↦ ⟨false, false, none, 0, 0⟩).resume 0 (-1) (.ops 0 0)

theorem started_reachable {ok : ClientThread Unit → Label Unit → Prop}
    (hok : ok (init fun _ _ _ ↦ ⟨false, false, none, 0, 0⟩) (.resume_free 0)) :
    Reachable (init fun _ _ _ ↦ ⟨false, false, none, 0, 0⟩) (Step 1 128) ok started :=
  Reachable.init.step hok (Step.resume_free rfl rfl one_pos rfl)

/-- The coroutine appends a write with `signal = true`. -/
def appended : ClientThread Unit := (started.get_wr () true).append_signal_one () 0 true

/-- The coroutine waits for its write. -/
def writing : ClientThread Unit :=
  (((appended.mark () true 0).set_signal_cnt () true 0).issue () true [0]).yield 0 false .ops

theorem resumed_for_its_own_reason_writing : ∃ t t' : ClientThread Unit,
    Reachable (init fun _ _ _ ↦ ⟨false, false, none, 0, 0⟩) (Step 1 128) Careful t ∧
      Step 1 128 t (.resume_ops 0) t' ∧ (t.coro 0).wait = .ops ∧
      (t.qp ()).issued.length = 1 ∧ Done t 0 := by
  have hfree : SlotFree started () :=
    ⟨by decide, fun n r _ hr ↦ by simp [started, init, resume] at hr⟩
  have hfree' : SlotFree (started.get_wr () true) () :=
    ⟨by decide, fun n r _ hr ↦ by simp [started, init, resume, get_wr, setWr, setRing, setQp] at hr⟩
  have hget : Step 1 128 started (.call 0 (.get_one_wr ())) (started.get_wr () true) :=
    Step.call rfl (Calls.get_one_wr ())
  have happend : Step 1 128 (started.get_wr () true) (.call 0 (.append_signal_one () true)) appended :=
    Step.call rfl (Calls.append_signal_one () true)
  have hgenerate : Generate 128 () true [0] appended
      ((appended.mark () true 0).set_signal_cnt () true 0) :=
    Generate.signaled_of_ne (by decide) (by decide) Generate.nil
  have hpost : Step 1 128 appended (.call 0 (.post_appended_one () true)) writing :=
    Step.wait_ops rfl (by decide) (by decide) hgenerate
  have hwriting : Reachable (init fun _ _ _ ↦ ⟨false, false, none, 0, 0⟩) (Step 1 128) Careful
      writing :=
    (((started_reachable trivial).step hfree hget).step hfree' happend).step
      (show Careful appended (.call 0 (.post_appended_one () true)) from trivial) hpost
  let r : PostedWr := ⟨true, 0, true, true, some 0⟩
  let t := ({ writing with pc := .poll_send 1 }.complete () r).release () 0 r []
  have hpolled : Polled 1 { writing with pc := .poll_send 1 } t :=
    Polled.complete (by decide) (Polled.release rfl (by decide) Polled.refl)
  have hrun := hpolled.round (fun _ ↦ trivial) hwriting rfl rfl rfl rfl
  have hstep : Step 1 128 { t with pc := .ops 0 0 } (.resume_ops 0)
      ({ t with pc := .ops 0 0 }.resume 0 (-1) (.count 0 0)) :=
    Step.resume_ops rfl rfl rfl rfl
  exact ⟨_, _, hrun, hstep, rfl, rfl,
    (resumed_for_its_own_reason _ 1 128 hrun (show Careful _ (.resume_ops 0) from trivial)
      hstep 0 rfl).2 rfl⟩

/-! ### A coroutine that is resumed without a reply -/

/-- A write without a completion is appended. -/
def write (t : ClientThread Unit) : ClientThread Unit :=
  (t.get_wr () true).append_signal_one () 0 false

theorem write_reachable (n : ℕ) :
    Reachable (init fun _ _ _ ↦ ⟨false, false, none, 0, 0⟩) (Step 1 128) (fun _ _ ↦ True)
      (write^[n] started) ∧ (write^[n] started).running = some 0 := by
  induction n with
  | zero => exact ⟨started_reachable trivial, rfl⟩
  | succ n ih =>
    rw [Function.iterate_succ_apply']
    have hget : Step 1 128 (write^[n] started) (.call 0 (.get_one_wr ()))
        ((write^[n] started).get_wr () true) := Step.call ih.2 (Calls.get_one_wr ())
    have happend : Step 1 128 ((write^[n] started).get_wr () true)
        (.call 0 (.append_signal_one () false)) (write (write^[n] started)) :=
      Step.call ih.2 (Calls.append_signal_one () false)
    exact ⟨(ih.1.step trivial hget).step trivial happend, ih.2⟩

/-- The first thirty-one writes of a batch of thirty-two. -/
def batched : ClientThread Unit := markAll () true (List.range 31) (write^[32] started)

/-- The library signals the last write, and the batch is posted. -/
def posted : ClientThread Unit :=
  ((batched.mark () true 31).set_signal_cnt () true 31).issue () true (List.range 32)

/-- The coroutine appends a request. -/
def sending : ClientThread Unit := (posted.get_wr () false).append_signal_smsg () false

/-- The coroutine waits for the reply. -/
def waiting : ClientThread Unit :=
  ((sending.mark () false 0).issue () false [0]).yield 0 false .reply

/-- The NIC completes the writes, and the thread polls the one completion. -/
def polled : ClientThread Unit :=
  (completeAll () 32 { waiting with pc := .poll_send 1 }).release () 31
    ⟨true, 31, true, false, some 0⟩ []

/-- Coroutine 0 made thirty-two writes, none with `signal = true`, and waits for a reply. It is
resumed because the completion of the last write takes its counter to zero. -/
theorem resumed_without_reply : ∃ t t' : ClientThread Unit,
    Reachable (init fun _ _ _ ↦ ⟨false, false, none, 0, 0⟩) (Step 1 128) (fun _ _ ↦ True) t ∧
      Step 1 128 t (.resume_ops 0) t' ∧ (t.coro 0).wait = .reply ∧
      ∀ r ∈ (t.qp ()).issued, r.asked = false := by
  have hlast : Generate 128 () true [31] batched
      ((batched.mark () true 31).set_signal_cnt () true 31) :=
    Generate.signaled_of_ne (by decide +kernel) (by decide +kernel) Generate.nil
  have hgenerate : Generate 128 () true (List.range 31 ++ [31]) (write^[32] started)
      ((batched.mark () true 31).set_signal_cnt () true 31) :=
    Generate.of_plain (by decide +kernel) hlast
  have hpost : Step 1 128 (write^[32] started) (.call 0 (.post_appended_one () false)) posted :=
    Step.post_one (write_reachable 32).2 (by decide +kernel) (by decide +kernel) hgenerate
  have hget : Step 1 128 posted (.call 0 (.get_send_msg_sg ())) (posted.get_wr () false) :=
    Step.get_send (by decide +kernel) (by decide +kernel) (by decide +kernel)
  have happend : Step 1 128 (posted.get_wr () false) (.call 0 (.append_signal_smsg () false))
      sending := Step.call (by decide +kernel) (Calls.append_signal_smsg () false)
  have hgenerate' : Generate 128 () false [0] sending (sending.mark () false 0) :=
    Generate.plain (by decide +kernel) Generate.nil
  have hwait : Step 1 128 sending (.call 0 (.post_appended_smsg () true)) waiting :=
    Step.wait_reply (by decide +kernel) (by decide +kernel) (by decide +kernel) hgenerate'
      (by decide +kernel)
  have hwaiting : Reachable (init fun _ _ _ ↦ ⟨false, false, none, 0, 0⟩) (Step 1 128)
      (fun _ _ ↦ True) waiting :=
    ((((write_reachable 32).1.step trivial hpost).step trivial hget).step trivial happend).step
      trivial hwait
  have hpolled : Polled 1 { waiting with pc := .poll_send 1 } polled :=
    Polled.of_completeAll 32 (Polled.release (by decide +kernel) (by decide +kernel) Polled.refl)
  have hrun := hpolled.round (fun _ ↦ trivial) hwaiting (by decide +kernel) (by decide +kernel)
    (by decide +kernel) (by decide +kernel)
  have hstep : Step 1 128 { polled with pc := .ops 0 0 } (.resume_ops 0)
      ({ polled with pc := .ops 0 0 }.resume 0 (-1) (.count 0 0)) :=
    Step.resume_ops (by decide +kernel) (by decide +kernel) (by decide +kernel) (by decide +kernel)
  exact ⟨_, _, hrun, hstep, by decide +kernel, by decide +kernel⟩

end Resumed

end SwitchDelta.Rdma.ClientThread
