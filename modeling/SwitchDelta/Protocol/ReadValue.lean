import SwitchDelta.Kv.Execution
import SwitchDelta.Protocol.Clock
import SwitchDelta.Protocol.Replies

/-!
# What a read returns

`get_value` reads the record at a log position that it got from the index or from the switch. The
position may never have been written, since the index starts with position zero for every key, or it
may have been written for another key, and the client looks at the key of the record. It gives up the
read only if the two keys differ and have the same fingerprint.

`successful_read` says what a read that is not given up has returned: the record of a `put_value` for
its key, or that of a `put_value` for a key with another fingerprint, or the zeros of a position that
no one has written.
-/

set_option autoImplicit false
set_option relaxedAutoImplicit false

namespace SwitchDelta.Protocol

open Foundation Kv Switch

/-! ### Records -/

/-- The key and the value that a packet carries. -/
def recordOf (p : Packet) : KvKeyType × List UInt8 := (p.msg.long_key, p.msg.value)

/-- A data thread has appended the record for a `put_value` of the key. -/
def AppendedBy (run : List Label) (σ : State) (k : KvKeyType) (record : KvKeyType × List UInt8) :
    Prop :=
  ∃ t p, Label.data t p ∈ run ∧ p.msg.rpc_header.op = .kEnumAppendReq ∧ p.op.key = k ∧
    .invokeWrite p.op ∈ σ.hist ∧ recordOf p = record

/-- The record has been appended for its own key, or is that of a position which no one has written. -/
def Stored (run : List Label) (σ : State) (record : KvKeyType × List UInt8) : Prop :=
  record = (0, []) ∨ AppendedBy run σ record.1 record

/-- Every record in a log, and every record on the way to a client, comes from somewhere. -/
structure Provenance (run : List Label) (σ : State) : Prop where
  log : ∀ t i, Stored run σ ((σ.kv t).buffer i)
  net : ∀ ℓ p, (ℓ, p) ∈ σ.net → p.msg.rpc_header.op = .kEnumReadReply → Stored run σ (recordOf p)

variable {S : Setup} {σ σ' : State} {π π' : PState} {run : List Label} {label : Label} {p : Packet}
  {k : KvKeyType} {record : KvKeyType × List UInt8}

/-- The history only grows. -/
theorem Step.mem_hist (hstep : Step S σ label σ') {e : Event OpId UInt64} (he : e ∈ σ.hist) :
    e ∈ σ'.hist := by
  cases hstep with
  | start => exact List.mem_append_left _ he
  | data =>
    unfold State.dataStep
    split
    · exact he
    · exact List.mem_append_left _ he
  | index =>
    unfold State.indexStep
    split <;> exact he
  | collect =>
    unfold State.collectStep
    split_ifs <;> exact he
  | client =>
    unfold State.clientStep
    dsimp only
    split
    · exact he
    · exact List.mem_append_left _ he
    · exact List.mem_append_left _ he
  | _ => exact he

theorem Stored.step (h : Stored run σ record) (hstep : Step S σ label σ') :
    Stored (run ++ [label]) σ' record := by
  rcases h with hzero | ⟨t, p, hp, hop, hkey, hinvoked, hrecord⟩
  · exact Or.inl hzero
  · exact Or.inr ⟨t, p, List.mem_append_left _ hp, hop, hkey, Step.mem_hist hstep hinvoked, hrecord⟩

/-! ### The switch and the data node -/

/-- The switch makes no reply to a read of a log, and leaves the record of one. -/
theorem switchOutputs_record (regs : Registers) (hkey : (parse p.msg).key32 ≠ 0)
    {out : Loc × Packet}
    (hout : out ∈ switchOutputs S.flags (ingress S.program (parse_kvmsg regs (parse p.msg))) p) :
    recordOf out.2 = recordOf p ∧ (out.2.msg.rpc_header.op = .kEnumReadReply →
      p.msg.rpc_header.op = .kEnumReadReply) := by
  obtain ⟨copy, hcopy, hlink⟩ := List.mem_filterMap.mp hout
  simp only [Option.bind_eq_bind, Option.bind_eq_some_iff, Option.pure_def,
    Option.some.injEq] at hlink
  obtain ⟨server_id, -, t, -, rfl⟩ := hlink
  obtain ⟨port, hport, rfl⟩ := List.mem_map.mp hcopy
  refine ⟨rfl, fun hop ↦ ?_⟩
  change (ingress S.program (parse_kvmsg regs (parse p.msg))).kvmsg.op = _ at hop
  rcases ingress_cases S.program regs hkey with ⟨-, -, hq⟩ | ⟨-, hq⟩ | ⟨-, -, hq⟩ | ⟨-, -, -, hq⟩
  · obtain ⟨count, hkvmsg⟩ := hq.kvmsg
    rw [hkvmsg] at hop
    cases hop
  · rw [hq.egressPorts] at hport
    cases hport
  · obtain ⟨count, hkvmsg⟩ := hq.kvmsg
    rw [hkvmsg] at hop
    exact hop
  · obtain ⟨count, hkvmsg⟩ := hq.kvmsg
    rw [hkvmsg] at hop
    exact hop

/-- A data thread answers a read with a record of its log, and appends the record of a write. -/
theorem data_process_msg_record {f : Flags} {t : UInt8} {st st' : DataState}
    {req buf reply : RawKvMsg} (h : data_process_msg f t st req buf = some (st', reply)) :
    (∀ i, st'.kv.buffer i = st.kv.buffer i ∨
      (req.rpc_header.op = .kEnumAppendReq ∧ st'.kv.buffer i = (req.long_key, req.value))) ∧
      (reply.rpc_header.op = .kEnumReadReply →
        ∃ i, (reply.long_key, reply.value) = st.kv.buffer i) := by
  unfold data_process_msg at h
  split at h
  · obtain ⟨rfl, rfl⟩ := Prod.mk.inj (Option.some.inj h)
    exact ⟨fun i ↦ Or.inl rfl, fun _ ↦ ⟨_, rfl⟩⟩
  · next hop =>
    obtain ⟨rfl, rfl⟩ := Prod.mk.inj (Option.some.inj h)
    refine ⟨fun i ↦ ?_, fun hreply ↦ by cases hreply⟩
    by_cases hi : i = st.kv.pos
    · refine Or.inr ⟨hop, ?_⟩
      rw [hi]
      exact Function.update_self _ _ _
    · exact Or.inl (Function.update_of_ne hi _ _)
  · cases h

/-! ### Steps -/

/-- A packet on a link was there before, is a request or comes from an index thread, was sent by the
switch, or is the reply of a data thread. -/
theorem Step.mem_net (hstep : Step S σ label σ') {q : Loc × Packet} (hq : q ∈ σ'.net) :
    q ∈ σ.net ∨ (q.1 = .up ∨ (∃ t, q.1 = .ixOut t) ∨ ∃ t, q.1 = .ixBatch t) ∨
      (∃ ℓ p, (ℓ, p) ∈ σ.net ∧
        q ∈ switchOutputs S.flags (ingress S.program (parse_kvmsg σ.regs (parse p.msg))) p) ∨
      ∃ t p buf st reply, (.dnIn t, p) ∈ σ.net ∧
        data_process_msg S.flags t ⟨σ.kv t, σ.tss⟩ p.msg buf = some (st, reply) ∧
        q = (.dnOut t, ⟨reply_port p.msg, reply, p.op⟩) := by
  have happend {rest new : List (Loc × Packet)} (hq : q ∈ rest ++ new) (hrest : rest ⊆ σ.net) :
      q ∈ σ.net ∨ q ∈ new := (List.mem_append.mp hq).imp_left fun h ↦ hrest h
  cases hstep with
  | start | probe =>
    refine (happend hq (List.Subset.refl _)).imp_right fun h ↦ ?_
    rw [List.mem_singleton.mp h]
    exact Or.inl (Or.inl rfl)
  | switchUp htake =>
    refine (happend hq fun _ ↦ htake.mem_of_mem).imp_right fun h ↦ ?_
    exact Or.inr (Or.inl ⟨_, _, htake.mem, h⟩)
  | switchData htake | switchIndex htake =>
    refine (happend hq fun _ ↦ htake.take.mem_of_mem).imp_right fun h ↦ ?_
    exact Or.inr (Or.inl ⟨_, _, htake.take.mem, h⟩)
  | data buf htake =>
    unfold State.dataStep at hq
    split at hq
    · exact Or.inl (htake.mem_of_mem hq)
    · next st reply hprocess =>
      refine (happend hq fun _ ↦ htake.mem_of_mem).imp_right fun h ↦ ?_
      exact Or.inr (Or.inr ⟨_, _, buf, st, reply, htake.mem, hprocess, List.mem_singleton.mp h⟩)
  | index buf _ htake =>
    unfold State.indexStep at hq
    split at hq
    · exact Or.inl (htake.take.mem_of_mem hq)
    · refine (happend hq fun _ ↦ htake.take.mem_of_mem).imp_right fun h ↦ ?_
      rw [List.mem_singleton.mp h]
      exact Or.inl (Or.inr (Or.inl ⟨_, rfl⟩))
  | collect _ htake _ =>
    unfold State.collectStep at hq
    split_ifs at hq
    · exact Or.inl (htake.take.mem_of_mem hq)
    · refine (happend hq fun _ ↦ htake.take.mem_of_mem).imp_right fun h ↦ ?_
      rw [List.mem_singleton.mp h]
      exact Or.inl (Or.inr (Or.inr ⟨_, rfl⟩))
  | keep => exact Or.inl hq
  | flush =>
    refine (happend hq (List.filter_sublist.subset)).imp_right fun h ↦ ?_
    obtain ⟨i, hi, rfl⟩ := List.mem_iff_getElem.mp h
    rw [List.getElem_zipWith]
    exact Or.inl (Or.inr (Or.inl ⟨_, rfl⟩))
  | client buf htake =>
    unfold State.clientStep at hq
    dsimp only at hq
    split at hq
    · exact Or.inl (htake.mem_of_mem hq)
    · exact Or.inl (htake.mem_of_mem hq)
    · refine (happend hq fun _ ↦ htake.mem_of_mem).imp_right fun h ↦ ?_
      rw [List.mem_singleton.mp h]
      exact Or.inl (Or.inl rfl)

/-- The reply to a read of a log is on the way from a data thread to its client. -/
theorem Refines.logReply_loc (h : Refines S σ π) (hsound : π.Sound (layout S) unrestricted)
    {ℓ : Loc} (hp : (ℓ, p) ∈ σ.net) (hop : p.msg.rpc_header.op = .kEnumReadReply) :
    ¬ (ℓ = .up ∨ (∃ t, ℓ = .ixOut t) ∨ ∃ t, ℓ = .ixBatch t) := by
  obtain ⟨x, hx, henc⟩ := h.exists_item hp
  have hplaced := hsound.placed ℓ x hx
  have hkind : x.kind = .logReply := by
    have hcode := henc.code
    rw [hop] at hcode
    cases hk : x.kind <;> rw [hk] at hcode <;> cases hcode
  rw [Placed, hkind] at hplaced
  rcases hplaced with ⟨t, rfl⟩ | rfl <;> simp [Item.home]

/-- A data thread that handles an `AppendReq` appends the record of its write. -/
theorem Refines.appendedBy (h : Refines S σ π) (hsound : π.Sound (layout S) unrestricted)
    (run : List Label) (hstep : Step S σ label σ') {t : UInt8} (hp : (.dnIn t, p) ∈ σ.net)
    (hlabel : label = .data t p) (hop : p.msg.rpc_header.op = .kEnumAppendReq) :
    AppendedBy (run ++ [label]) σ' p.msg.long_key (recordOf p) := by
  obtain ⟨x, hx, henc⟩ := h.exists_item hp
  have hkind : x.kind = .appendReq := by
    have hcode := henc.code
    rw [hop] at hcode
    cases hk : x.kind <;> rw [hk] at hcode <;> cases hcode
  have hrecorded := hsound.recorded _ x hx
  rw [Recorded, hkind] at hrecorded
  refine ⟨t, p, by simp [hlabel], hop, ?_, ?_, rfl⟩
  · rw [henc.op, henc.long_key (by simp [hkind])]
  · refine Step.mem_hist hstep ?_
    rw [h.hist, henc.op]
    exact hrecorded.1

/-- Records keep their origin in a step. -/
theorem Provenance.step (h : Provenance run σ) (href : Refines S σ π)
    (hsound : π.Sound (layout S) unrestricted) (href' : Refines S σ' π')
    (hsound' : π'.Sound (layout S) unrestricted) (hstep : Step S σ label σ') :
    Provenance (run ++ [label]) σ' where
  log t i := by
    by_cases hlabel : ∃ t p, label = .data t p
    · obtain ⟨t', p, rfl⟩ := hlabel
      have hold := (h.log t i).step hstep
      cases hstep with
      | data buf htake =>
        have happended (hop : p.msg.rpc_header.op = .kEnumAppendReq) :=
          href.appendedBy hsound run (Step.data buf htake) htake.mem rfl hop
        unfold State.dataStep at hold happended ⊢
        split
        · next hprocess => simpa only [hprocess] using hold
        · next st reply hprocess =>
          simp only [hprocess] at hold happended ⊢
          by_cases ht : t = t'
          · subst ht
            rw [Function.update_self]
            rcases (data_process_msg_record hprocess).1 i with hsame | ⟨hop, hnew⟩
            · rwa [hsame]
            · rw [hnew]
              exact Or.inr (happended hop)
          · rwa [Function.update_of_ne ht]
    · rw [Step.kv_eq hstep fun t' p hp ↦ hlabel ⟨t', p, hp⟩]
      exact (h.log t i).step hstep
  net ℓ p hp hop := by
    rcases Step.mem_net hstep hp with hold | hplace | ⟨ℓ', p', hp', hout⟩ |
      ⟨t, p', buf, st, reply, -, hprocess, heq⟩
    · exact (h.net ℓ p hold hop).step hstep
    · exact absurd hplace (href'.logReply_loc hsound' hp hop)
    · obtain ⟨x, -, henc⟩ := href.exists_item hp'
      obtain ⟨hrecord, hreply⟩ := switchOutputs_record σ.regs henc.key32_ne_zero hout
      rw [hrecord]
      exact (h.net ℓ' p' hp' (hreply hop)).step hstep
    · obtain ⟨rfl, rfl⟩ := Prod.mk.inj heq
      obtain ⟨i, hi⟩ := (data_process_msg_record hprocess).2 hop
      rw [recordOf, hi]
      exact (h.log t i).step hstep

/-- Every record comes from somewhere in every run. -/
theorem exists_provenance (hrange : S.flags.InRange) (h : Run (State.initial S) (Step S) run σ) :
    ∃ π, Refines S σ π ∧ π.Sound (layout S) unrestricted ∧ Provenance run σ := by
  induction h with
  | nil =>
    exact ⟨_, Refines.initial S, PState.Sound.initial _ _,
      fun _ _ ↦ Or.inl rfl, fun _ _ hp ↦ absurd hp List.not_mem_nil⟩
  | @snoc run σ σ' label _ hstep ih =>
    obtain ⟨π, hrefines, hsound, hprovenance⟩ := ih
    obtain ⟨π', haction, hrefines'⟩ :=
      hrefines.step hrange hsound (grants_unrestricted S σ label) hstep
    have hsound' : π'.Sound (layout S) unrestricted := by
      rcases haction with ⟨t, -, -, rfl⟩ | ⟨action, -, hpstep⟩
      · exact hsound
      · exact hsound.step hpstep
    exact ⟨π', hrefines', hsound', hprovenance.step hrefines hsound hrefines' hsound' hstep⟩

/-! ### Successful reads -/

/-- A coroutine that sends a message waits. -/
theorem resume_pc_ne_idle {f : Flags} {c : CoroId} {ctx ctx' : KvCtx} {pc pc' : Pc}
    {reply buf : RawKvMsg} {d : Datagram}
    (h : resume f c ctx pc reply buf = some (.send ctx' pc' d)) : pc' ≠ .idle := by
  cases pc with
  | get_index =>
    obtain ⟨_, -, h⟩ := Option.bind_eq_some_iff.mp h
    split_ifs at h
    · cases h
    · obtain ⟨-, rfl, -⟩ := Outcome.send.inj (Option.some.inj h)
      exact Pc.noConfusion
  | put_value =>
    obtain ⟨_, -, h⟩ := Option.bind_eq_some_iff.mp h
    split_ifs at h
    · cases h
    · obtain ⟨-, rfl, -⟩ := Outcome.send.inj (Option.some.inj h)
      exact Pc.noConfusion
  | idle => cases h
  | get_value | put_index | check_req_cnt =>
    obtain ⟨_, -, h⟩ := Option.bind_eq_some_iff.mp h
    cases h

/-- A read ends when a packet resumes its coroutine. -/
theorem Step.read_done (hstep : Step S σ label σ') {c : CoroId}
    (hbefore : (σ.coro c).pc = .get_index ∨ (σ.coro c).pc = .get_value)
    (hafter : (σ'.coro c).pc = .idle) :
    ∃ p buf, label = .client p ∧ (∃ ℓ, (ℓ, p) ∈ σ.net) ∧
      resume S.flags c (σ.coro c).ctx (σ.coro c).pc p.msg buf = some (.done (σ'.coro c).ctx) := by
  have hbusy : (σ.coro c).pc ≠ .idle := by
    rcases hbefore with h | h <;> simp [h]
  have hsame (h : σ'.coro = σ.coro) : False := hbusy (by rw [← h, hafter])
  cases hstep with
  | @start c' _ _ buf userbuf _ hidle | @probe c' _ buf _ hidle =>
    have hne : c ≠ c' := fun h ↦ hbusy (h ▸ hidle)
    refine absurd hafter ?_
    change ((Function.update σ.coro c' _) c).pc ≠ _
    rwa [Function.update_of_ne hne]
  | switchUp | switchData | switchIndex | keep | flush => exact (hsame rfl).elim
  | data =>
    refine (hsame ?_).elim
    unfold State.dataStep
    split <;> rfl
  | index =>
    refine (hsame ?_).elim
    unfold State.indexStep
    split <;> rfl
  | collect =>
    refine (hsame ?_).elim
    unfold State.collectStep
    split_ifs <;> rfl
  | @client server_id thread_id p rest buf htake =>
    refine ⟨p, buf, rfl, ⟨_, htake.mem⟩, ?_⟩
    unfold State.clientStep at hafter hsame ⊢
    dsimp only at hafter hsame ⊢
    by_cases hc : c = ⟨server_id, thread_id, p.msg.rpc_header.src_c_id⟩
    · rw [← hc] at hafter hsame ⊢
      cases hresume : resume S.flags c (σ.coro c).ctx (σ.coro c).pc p.msg buf with
      | none =>
        simp only [hresume] at hsame
        exact (hsame trivial).elim
      | some outcome =>
        cases outcome with
        | done ctx => simp
        | send ctx pc d =>
          simp only [hresume, Function.update_self] at hafter
          exact absurd hafter (resume_pc_ne_idle hresume)
    · refine absurd hafter ?_
      split
      · exact hbusy
      · simpa only [Function.update_of_ne hc] using hbusy
      · simpa only [Function.update_of_ne hc] using hbusy

/-- A read that is not given up accepts a record of its key or of a fingerprint other than its own. -/
theorem get_value_reply_accepts {ctx ctx' : KvCtx} {reply : RawKvMsg}
    (h : get_value_reply ctx reply = some ctx') (hok : ctx'.read_ok = true)
    (hkey : reply.key ≠ 0xFFFFFFFF) :
    reply.rpc_header.op = .kEnumReadReply ∧ (reply.long_key = ctx.long_key ∨
      get_fingerprint reply.long_key ≠ get_fingerprint ctx.long_key) := by
  unfold get_value_reply at h
  split_ifs at h with hop hmismatch
  · rw [← Option.some.inj h] at hok
    cases hok
  · refine ⟨not_not.mp hop, ?_⟩
    by_contra hboth
    rw [not_or, not_not] at hboth
    exact hmismatch ⟨hkey, hboth.1, hboth.2.symm⟩

/-- A read that ends with `read_ok` and a log position other than `0xFFFFFFFF` ends in `get_value`. The
record it returns was appended by a `put_value` for its key, or by a `put_value` for a key with another
fingerprint, or it is the zeros of a position that was never written, which read as the record of key
zero. -/
theorem successful_read (hrange : S.flags.InRange) (hrun : Run (State.initial S) (Step S) run σ)
    (hstep : Step S σ label σ') {c : CoroId}
    (hbefore : (σ.coro c).pc = .get_index ∨ (σ.coro c).pc = .get_value)
    (hafter : (σ'.coro c).pc = .idle) (hok : (σ'.coro c).ctx.read_ok = true)
    (hlog : (σ'.coro c).ctx.log_id ≠ 0xFFFFFFFF) :
    let k := (σ.coro c).ctx.long_key
    (σ.coro c).pc = .get_value ∧ ∃ p, label = .client p ∧
      p.msg.rpc_header.op = .kEnumReadReply ∧
      (AppendedBy run σ k (recordOf p) ∨
        (get_fingerprint (recordOf p).1 ≠ get_fingerprint k ∧
          AppendedBy run σ (recordOf p).1 (recordOf p)) ∨
        (recordOf p = (0, []) ∧ (k = 0 ∨ get_fingerprint 0 ≠ get_fingerprint k))) := by
  intro k
  obtain ⟨p, buf, rfl, ⟨ℓ, hp⟩, hresume⟩ := Step.read_done hstep hbefore hafter
  obtain ⟨π, hrefines, hsound, hprovenance⟩ := exists_provenance hrange hrun
  rcases hbefore with hget | hget
  · -- `get_index` ends a read only with the mark of an absent key
    rw [hget] at hresume
    obtain ⟨ctx, -, hdone⟩ := Option.bind_eq_some_iff.mp hresume
    split_ifs at hdone with habsent
    · rw [← Outcome.done.inj (Option.some.inj hdone)] at hlog
      exact absurd habsent hlog
    · cases hdone
  · refine ⟨hget, p, rfl, ?_⟩
    rw [hget] at hresume
    obtain ⟨ctx, hreply, hdone⟩ := Option.bind_eq_some_iff.mp hresume
    rw [← Outcome.done.inj (Option.some.inj hdone)] at hok
    obtain ⟨x, -, henc⟩ := hrefines.exists_item hp
    have hkey : p.msg.key ≠ 0xFFFFFFFF := by
      rw [henc.key]
      split_ifs
      · decide
      · exact get_fingerprint_ne_absent _
    obtain ⟨hop, haccepts⟩ := get_value_reply_accepts hreply hok hkey
    refine ⟨hop, ?_⟩
    rcases hprovenance.net ℓ p hp hop with hzero | happended
    · have hlong : p.msg.long_key = 0 := congrArg Prod.fst hzero
      rw [hlong] at haccepts
      exact Or.inr (Or.inr ⟨hzero, haccepts.imp_left Eq.symm⟩)
    · rcases haccepts with hsame | hother
      · rw [← show (recordOf p).1 = k from hsame]
        exact Or.inl happended
      · exact Or.inr (Or.inl ⟨hother, happended⟩)

/-- A read that found a write in the switch, up to the reply to its `kEnumReadLog`. By then another
write has taken the entry. -/
def replacedReadMoves : List Move := foundReadMoves ++ [.deliver 2, .deliver 0, .deliver 1]

/-- The read returns the record that was appended for the replaced write. -/
theorem successful_read_replaced : ∃ run σ p σ',
    Run (State.initial shortLogs) (Step shortLogs) run σ ∧ Step shortLogs σ (.client p) σ' ∧
      (σ'.coro ⟨2, 0, 2⟩).ctx.read_ok = true ∧ (σ.coro ⟨2, 0, 1⟩).pc = .put_value ∧
      AppendedBy run σ 65536 (65536, []) ∧ recordOf p = (65536, []) := by
  have hmoves : ∃ run σ p σ',
      execLabels shortLogs (State.initial shortLogs) replacedReadMoves = some (run, σ) ∧
      exec shortLogs σ (.deliver 3) = some (.client p, σ') ∧
      ((σ.coro ⟨2, 0, 2⟩).pc = .get_value ∧ (σ.coro ⟨2, 0, 2⟩).ctx.long_key = 65536 ∧
        (σ.coro ⟨2, 0, 1⟩).pc = .put_value ∧ (σ'.coro ⟨2, 0, 2⟩).pc = .idle ∧
        (σ'.coro ⟨2, 0, 2⟩).ctx.read_ok = true ∧ (σ'.coro ⟨2, 0, 2⟩).ctx.log_id ≠ 0xFFFFFFFF ∧
        recordOf p = (65536, [])) :=
    ⟨_, _, _, _, rfl, rfl, by decide +kernel⟩
  obtain ⟨run, σ, p, σ', hexec, hlast, hget, hkey, hwrite, hidle, hok, hlog, hrecord⟩ := hmoves
  have hrun := execLabels_run Run.nil hexec
  obtain ⟨-, q, hlabel, -, hcases⟩ := successful_read
    ⟨by decide, by decide, by decide, by decide, by decide, by decide, by decide, by decide⟩ hrun
    (exec_step hlast) (Or.inr hget) hidle hok hlog
  obtain rfl := Label.client.inj hlabel
  rw [hkey, hrecord] at hcases
  refine ⟨run, σ, p, σ', hrun, exec_step hlast, hok, hwrite, ?_, hrecord⟩
  rcases hcases with h | ⟨h, -⟩ | ⟨h, -⟩
  · exact h
  · exact absurd rfl h
  · exact absurd (congrArg Prod.fst h) (by decide)

/-- The step is a data thread handling an `AppendReq`. -/
def isAppend : Label → Bool
  | .data _ p => p.msg.rpc_header.op = .kEnumAppendReq
  | _ => false

theorem not_appendedBy (h : ∀ l ∈ run, isAppend l = false) : ¬ AppendedBy run σ k record := by
  rintro ⟨t, q, hq, hop, -⟩
  have hfalse := h _ hq
  simp [isAppend, hop] at hfalse

/-- A read of a key that no one has written, up to the reply to its `kEnumReadLog`. -/
def unwrittenMoves : List Move :=
  [.start ⟨2, 0, 0⟩ .kEnumR 65536, .deliver 0, .deliver 0, .deliver 0, .deliver 0, .deliver 0,
    .deliver 0, .deliver 0]

/-- The read of a key that no one has written ends with the zeros of log position zero. -/
theorem exists_unwrittenRead : ∃ run σ p σ',
    Run (State.initial shortLogs) (Step shortLogs) run σ ∧ Step shortLogs σ (.client p) σ' ∧
      (∀ l ∈ run, isAppend l = false) ∧ (σ.coro ⟨2, 0, 0⟩).pc = .get_value ∧
      (σ'.coro ⟨2, 0, 0⟩).pc = .idle ∧ (σ'.coro ⟨2, 0, 0⟩).ctx.read_ok = true ∧
      (σ'.coro ⟨2, 0, 0⟩).ctx.log_id ≠ 0xFFFFFFFF := by
  have hmoves : ∃ run σ p σ',
      execLabels shortLogs (State.initial shortLogs) unwrittenMoves = some (run, σ) ∧
      exec shortLogs σ (.deliver 0) = some (.client p, σ') ∧
      (∀ l ∈ run, isAppend l = false) ∧ (σ.coro ⟨2, 0, 0⟩).pc = .get_value ∧
      (σ'.coro ⟨2, 0, 0⟩).pc = .idle ∧ (σ'.coro ⟨2, 0, 0⟩).ctx.read_ok = true ∧
      (σ'.coro ⟨2, 0, 0⟩).ctx.log_id ≠ 0xFFFFFFFF :=
    ⟨_, _, _, _, rfl, rfl, by decide +kernel, by decide +kernel, by decide +kernel,
      by decide +kernel, by decide +kernel⟩
  obtain ⟨run, σ, p, σ', hexec, hlast, hread⟩ := hmoves
  exact ⟨run, σ, p, σ', execLabels_run Run.nil hexec, exec_step hlast, hread⟩

/-- A successful read may return a record that no `put_value` for its key has appended. The index
starts with log position zero for every key, and `get_value` accepts the zeros there. -/
theorem successful_read_unwritten : ∃ run σ p σ',
    Run (State.initial shortLogs) (Step shortLogs) run σ ∧ Step shortLogs σ (.client p) σ' ∧
      (σ.coro ⟨2, 0, 0⟩).pc = .get_value ∧ (σ'.coro ⟨2, 0, 0⟩).pc = .idle ∧
      (σ'.coro ⟨2, 0, 0⟩).ctx.read_ok = true ∧ (σ'.coro ⟨2, 0, 0⟩).ctx.log_id ≠ 0xFFFFFFFF ∧
      ¬ AppendedBy run σ (σ.coro ⟨2, 0, 0⟩).ctx.long_key (recordOf p) := by
  obtain ⟨run, σ, p, σ', hrun, hstep, hnone, hget, hidle, hok, hlog⟩ := exists_unwrittenRead
  exact ⟨run, σ, p, σ', hrun, hstep, hget, hidle, hok, hlog, not_appendedBy hnone⟩

end SwitchDelta.Protocol
