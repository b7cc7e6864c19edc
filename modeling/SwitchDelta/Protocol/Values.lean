import SwitchDelta.Kv.LogId
import SwitchDelta.Protocol.Linearizability
import SwitchDelta.Protocol.ReadValue

/-!
# Values from end to end

`kv_test` reads a key in two steps: `get_index` reads a log position, and `get_value` reads the record
at that position. The first step is linearizable; nothing orders the second one with the writes that
come in between. As long as no log of a data thread wraps around, it does not need to be: a record stays
where it was written, so `get_value` returns the value of the write that `get_index` read, however late
it is.

`Traced` says that a log position in the system other than zero was handed out to a write of its key, and
`Settled` where the records of the writes are and what the reads return. `values_linearizable` puts both
together with the order of the index operations.
-/

set_option autoImplicit false
set_option relaxedAutoImplicit false

namespace SwitchDelta.Protocol

open Foundation Kv Switch

variable {S : Setup} {M : Layout} {D : Discipline} {σ σ' : State} {π π' : PState} {action : Action}
  {run : List Label} {label : Label} {p : Packet} {k : KvKeyType} {o : OpId} {log : UInt64}

/-! ### Where log positions come from -/

/-- The log position was handed out to a write of the key, or is that of the initial index. -/
def Written (hist : List (Event OpId UInt64)) (k : KvKeyType) (log : UInt64) : Prop :=
  log = 0 ∨ ∃ w : OpId, w.key = k ∧ .assign w log ∈ hist

theorem Written.mono {hist hist' : List (Event OpId UInt64)} (h : Written hist k log)
    (hsub : hist ⊆ hist') : Written hist' k log := by
  rcases h with hzero | ⟨w, hw, hassign⟩
  · exact Or.inl hzero
  · exact Or.inr ⟨w, hw, hsub hassign⟩

/-- The kinds of messages that carry what a read of the index returns. -/
def Kind.Finds (kind : Kind) : Prop := kind = .readHit ∨ kind = .readReply

/-- The log positions of the index and of the answers to its reads come from writes of their keys. -/
structure PState.Traced (M : Layout) (π : PState) : Prop where
  item : ∀ ℓ x, (ℓ, x) ∈ π.net → x.kind.Finds → Written π.hist x.op.key x.log
  index : ∀ k ∈ M.keys, Written π.hist k (π.index k)
  read : ∀ o log, .respondRead o log ∈ π.hist → Written π.hist o.key log

theorem PState.Traced.initial (M : Layout) : PState.initial.Traced M where
  item := fun _ _ h ↦ absurd h List.not_mem_nil
  index := fun _ _ ↦ Or.inl rfl
  read := fun _ _ h ↦ absurd h List.not_mem_nil

/-- A step keeps the origin of what it leaves, so it is enough to look at what it adds. -/
theorem PState.Traced.of_new (h : π.Traced M) (hsub : π.hist ⊆ π'.hist)
    (hitem : ∀ ℓ x, (ℓ, x) ∈ π'.net → x.kind.Finds →
      (∃ ℓ', (ℓ', x) ∈ π.net) ∨ Written π'.hist x.op.key x.log)
    (hindex : ∀ k ∈ M.keys, π'.index k = π.index k ∨ Written π'.hist k (π'.index k))
    (hread : ∀ o log, .respondRead o log ∈ π'.hist →
      .respondRead o log ∈ π.hist ∨ Written π'.hist o.key log) : π'.Traced M where
  item ℓ x hx hkind := by
    rcases hitem ℓ x hx hkind with ⟨ℓ', hold⟩ | hnew
    · exact (h.item ℓ' x hold hkind).mono hsub
    · exact hnew
  index k hk := by
    rcases hindex k hk with hold | hnew
    · rw [hold]
      exact (h.index k hk).mono hsub
    · exact hnew
  read o log hlog := by
    rcases hread o log hlog with hold | hnew
    · exact (h.read o log hold).mono hsub
    · exact hnew

/-- An update of the index carries the log position of its write. -/
theorem Item.Updates.written {x : Item} {hist : List (Event OpId UInt64)} (h : x.Updates k)
    (hrecorded : Recorded hist x) : Written hist k x.log := by
  obtain ⟨hkind, hkey⟩ := h
  rcases hkind with hkind | hkind <;> rw [Recorded, hkind] at hrecorded
  · exact Or.inr ⟨x.op, hkey, hrecorded⟩
  · exact Or.inr ⟨x.op, hkey, hrecorded.1⟩

/-- The reply to a read of the index carries the log position of the index. -/
theorem Item.reply_finds {x : Item} {index : KvKeyType → UInt64} (hatIndex : x.kind.AtIndex)
    (hkind : (x.reply index).kind.Finds) : (x.reply index).log = index x.op.key := by
  rcases hatIndex with h | h | h <;> simp_all [Item.reply, Kind.Finds]

/-- An answer to a read of the index was on a link before, is read off the slot, or off the index. -/
theorem PStep.finds_origin (hstep : PStep M D π action π') (hsound : π.Sound M D) {ℓ : Loc} {y : Item}
    (hy : (ℓ, y) ∈ π'.net) (hkind : y.kind.Finds) :
    (∃ ℓ', (ℓ', y) ∈ π.net) ∨ y.op.key ∈ M.keys ∧
      ((∃ w, π.slot (M.slot y.op.key) = some (w, y.log) ∧ M.Same w.key y.op.key) ∨
        y.log = π'.index y.op.key) := by
  -- an item is taken, and another one of its kind or of no such kind is added
  have hold {ℓ₀ ℓ' : Loc} {x z : Item} {rest : List (Loc × Item)} (htake : Take π.net ℓ₀ x rest)
      (hz : z.kind.Finds → z = x) (hy : (ℓ, y) ∈ rest ++ [(ℓ', z)]) : ∃ ℓ', (ℓ', y) ∈ π.net := by
    rcases List.mem_append.mp hy with hy | hy
    · exact ⟨ℓ, htake.mem_of_mem hy⟩
    · obtain ⟨-, rfl⟩ := Prod.mk.inj (List.mem_singleton.mp hy)
      rw [hz hkind]
      exact ⟨ℓ₀, htake.mem⟩
  cases hstep with
  | write | read | probe =>
    rcases List.mem_append.mp hy with hy | hy
    · exact Or.inl ⟨ℓ, hy⟩
    · obtain ⟨-, rfl⟩ := Prod.mk.inj (List.mem_singleton.mp hy)
      simp [Kind.Finds] at hkind
  | passUp htake => exact Or.inl (hold htake (fun _ ↦ rfl) hy)
  | passOut _ htake => exact Or.inl (hold htake.take (fun _ ↦ rfl) hy)
  | lose htake | finish htake => exact Or.inl ⟨ℓ, htake.mem_of_mem hy⟩
  | clear htake | keep htake => exact Or.inl ⟨ℓ, htake.take.mem_of_mem hy⟩
  | install htake =>
    simp only [List.mem_append, List.mem_cons, List.not_mem_nil, or_false, Prod.mk.injEq] at hy
    rcases hy with hy | ⟨-, rfl⟩ | ⟨-, rfl⟩
    · exact Or.inl ⟨ℓ, htake.take.mem_of_mem hy⟩
    · simp [Kind.Finds] at hkind
    · simp [Kind.Finds] at hkind
  | @hit x w log rest htake _ hslot hsame =>
    rcases List.mem_append.mp hy with hy | hy
    · exact Or.inl ⟨ℓ, htake.mem_of_mem hy⟩
    · obtain ⟨-, rfl⟩ := Prod.mk.inj (List.mem_singleton.mp hy)
      have hkey : x.op.key ∈ M.keys := hsound.item_key _ _ htake.mem
      exact Or.inr ⟨hkey, Or.inl ⟨w, hslot, hsame⟩⟩
  | append htake => exact Or.inl (hold htake (by simp [Kind.Finds]) hy)
  | serveLog htake => exact Or.inl (hold htake (by simp [Kind.Finds]) hy)
  | serve htake hatIndex =>
    rcases List.mem_append.mp hy with hy | hy
    · exact Or.inl ⟨ℓ, htake.take.mem_of_mem hy⟩
    · obtain ⟨-, rfl⟩ := Prod.mk.inj (List.mem_singleton.mp hy)
      refine Or.inr ⟨?_, Or.inr ?_⟩
      · rw [Item.reply_op]
        exact hsound.item_key _ _ htake.take.mem
      · rw [Item.reply_op]
        exact Item.reply_finds hatIndex hkind
  | collect htake => exact Or.inl (hold htake.take (fun _ ↦ rfl) hy)
  | flush =>
    rcases List.mem_append.mp hy with hy | hy
    · exact Or.inl ⟨ℓ, List.mem_of_mem_filter hy⟩
    · obtain ⟨x, hx, heq⟩ := List.mem_map.mp hy
      obtain ⟨-, rfl⟩ := Prod.mk.inj heq
      have hmem := mem_queue.mp hx
      have hatIndex := Placed.atIndex (Or.inr (hsound.placed _ _ hmem))
      refine Or.inr ⟨?_, Or.inr ?_⟩
      · rw [Item.reply_op]
        exact hsound.item_key _ _ hmem
      · rw [Item.reply_op]
        exact Item.reply_finds hatIndex hkind
  | goOn htake hnext =>
    refine Or.inl (hold htake (fun hfinds ↦ ?_) hy)
    rcases Item.next_eq_some hnext with ⟨-, rfl⟩ | ⟨-, -, rfl⟩ <;> simp [Kind.Finds] at hfinds

/-- The index keeps a log position or gets that of an update on its links. -/
theorem PStep.index_cases (hstep : PStep M D π action π') (hk : k ∈ M.keys) :
    π'.index k = π.index k ∨ ∃ ℓ x, (ℓ, x) ∈ π.net ∧ x.Updates k ∧ π'.index k = x.log := by
  cases hstep with
  | @serve x _ _ _ htake _ hindex =>
    rcases (hindex k).batchWrites with hsame | ⟨y, hy, hupdates, hlog⟩
    · exact Or.inl hsame
    · obtain rfl := List.mem_singleton.mp hy
      exact Or.inr ⟨_, y, htake.take.mem, hupdates, hlog⟩
  | flush hindex =>
    rcases hindex k hk with hsame | ⟨y, hy, hupdates, hlog⟩
    · exact Or.inl hsame
    · exact Or.inr ⟨_, y, mem_queue.mp hy, hupdates, hlog⟩
  | _ => exact Or.inl rfl

/-- A read responds with the log position of the answer that is delivered. -/
theorem PStep.read_cases (hstep : PStep M D π action π') (hread : .respondRead o log ∈ π'.hist) :
    .respondRead o log ∈ π.hist ∨
      ∃ ℓ x, (ℓ, x) ∈ π.net ∧ x.kind.Finds ∧ x.op = o ∧ x.log = log := by
  have hresponse {x : Item} (h : .respondRead o log ∈ x.response) :
      x.kind.Finds ∧ x.op = o ∧ x.log = log := by
    unfold Item.response at h
    split at h <;> simp_all [Kind.Finds]
  cases hstep with
  | finish htake | goOn htake =>
    exact (List.mem_append.mp hread).imp_right fun h ↦ ⟨_, _, htake.mem, hresponse h⟩
  | write | read | append =>
    rcases List.mem_append.mp hread with hread | hread
    · exact Or.inl hread
    · exact absurd (List.mem_singleton.mp hread) (by simp)
  | _ => exact Or.inl hread

/-- The history only grows. -/
theorem PStep.hist_subset (hstep : PStep M D π action π') : π.hist ⊆ π'.hist := by
  cases hstep with
  | write | read | append | finish | goOn => exact List.subset_append_left _ _
  | _ => exact List.Subset.refl _

theorem PState.Traced.step (h : π.Traced M) (hM : M.Separates) (hsound : π.Sound M D)
    (hstep : PStep M D π action π') : π'.Traced M := by
  have hsub := hstep.hist_subset
  have hindex (k : KvKeyType) (hk : k ∈ M.keys) :
      π'.index k = π.index k ∨ Written π'.hist k (π'.index k) := by
    refine (hstep.index_cases hk).imp_right ?_
    rintro ⟨ℓ, x, hx, hupdates, hlog⟩
    rw [hlog]
    exact (hupdates.written (hsound.recorded ℓ x hx)).mono hsub
  refine h.of_new hsub (fun ℓ y hy hkind ↦ ?_) hindex fun o log hread ↦ ?_
  · refine (hstep.finds_origin hsound hy hkind).imp_right ?_
    rintro ⟨hkey, ⟨w, hslot, hsame⟩ | hlog⟩
    · obtain ⟨-, hw, hassign⟩ := hsound.slot_owner _ _ _ hslot
      exact Or.inr ⟨w, hM.same _ hw _ hkey hsame, hsub hassign⟩
    · rw [hlog]
      rcases hindex _ hkey with hsame | hnew
      · rw [hsame]
        exact (h.index _ hkey).mono hsub
      · exact hnew
  · refine (hstep.read_cases hread).imp_right ?_
    rintro ⟨ℓ, x, hx, hkind, rfl, rfl⟩
    exact (h.item ℓ x hx hkind).mono hsub

/-! ### Records and their positions -/

/-- The data thread that a log position names. -/
def threadOf (S : Setup) (log : UInt64) : UInt8 := (logid_2_threadid S.flags log.toUInt32).toUInt8

/-- The record that `get_value` finds at a log position. -/
def recordAt (S : Setup) (σ : State) (log : UInt64) : KvKeyType × List UInt8 :=
  (σ.kv (threadOf S log)).get (logid_2_locallogid S.flags log.toUInt32).toUInt64

/-- The log position of a record. -/
def logIdOf (S : Setup) (t : UInt8) (pos : UInt64) : UInt64 :=
  (compute_log_id S.flags pos.toUInt32 t.toUInt32).toUInt64

/-- The label is a data thread appending a record. -/
def appendsAt (t : UInt8) : Label → Bool
  | .data t' p => t' = t ∧ p.msg.rpc_header.op = .kEnumAppendReq
  | _ => false

/-- How many records a data thread has appended. -/
def appends (run : List Label) (t : UInt8) : ℕ := run.countP (appendsAt t)

/-- No log has wrapped around. -/
def NoWrap (S : Setup) (run : List Label) : Prop :=
  ∀ t, appends run t ≤ S.flags.logspace.toNat

/-- `get_value` finds every record at its log position. -/
def LogsFit (f : Flags) : Prop :=
  ∀ t pos, t.toUInt32 < f.dn_thread → pos < f.logspace → RoundTrip f pos t

theorem appends_concat (run : List Label) (label : Label) (t : UInt8) :
    appends (run ++ [label]) t = appends run t + if appendsAt t label then 1 else 0 := by
  simp [appends, List.countP_append, List.countP_singleton]

theorem NoWrap.of_concat (h : NoWrap S (run ++ [label])) : NoWrap S run := by
  intro t
  have ht := h t
  rw [appends_concat] at ht
  omega

theorem threadOf_logIdOf {t : UInt8} {pos : UInt64} (h : RoundTrip S.flags pos t) :
    threadOf S (logIdOf S t pos) = t := by
  rw [threadOf, logIdOf, UInt32.toUInt32_toUInt64, h.1]
  exact UInt8.toUInt8_toUInt32 t

theorem recordAt_logIdOf (σ : State) {t : UInt8} {pos : UInt64} (h : RoundTrip S.flags pos t) :
    recordAt S σ (logIdOf S t pos) = (σ.kv t).buffer pos := by
  rw [recordAt, threadOf_logIdOf h, logIdOf, UInt32.toUInt32_toUInt64, h.2.1]
  rfl

/-! ### The data node -/

/-- A data thread reads its log, or appends to it. -/
theorem data_process_msg_cases {f : Flags} {t : UInt8} {st st' : DataState}
    {req buf reply : RawKvMsg} (h : data_process_msg f t st req buf = some (st', reply)) :
    (req.rpc_header.op = .kEnumReadLog ∧ st' = st ∧ reply.rpc_header.op = .kEnumReadReply ∧
        (reply.long_key, reply.value) = st.kv.get (logid_2_locallogid f req.log_id.toUInt32).toUInt64) ∨
      (req.rpc_header.op = .kEnumAppendReq ∧ reply.rpc_header.op = .kEnumAppendReply ∧
        st'.kv = (st.kv.append f (req.long_key, req.value)).1 ∧
        reply.log_id = (compute_log_id f st.kv.pos.toUInt32 t.toUInt32).toUInt64) := by
  unfold data_process_msg at h
  split at h
  · next hop =>
    obtain ⟨rfl, rfl⟩ := Prod.mk.inj (Option.some.inj h)
    exact Or.inl ⟨hop, rfl, rfl, rfl⟩
  · next hop =>
    obtain ⟨rfl, rfl⟩ := Prod.mk.inj (Option.some.inj h)
    exact Or.inr ⟨hop, rfl, rfl, rfl⟩
  · cases h

/-- What a step of a data thread does to the logs and the history. -/
theorem Step.data_cases {t : UInt8} (hstep : Step S σ (.data t p) σ') :
    (.dnIn t, p) ∈ σ.net ∧
      ((p.msg.rpc_header.op ≠ .kEnumAppendReq ∧ σ'.kv = σ.kv ∧ σ'.hist = σ.hist) ∨
        (p.msg.rpc_header.op = .kEnumAppendReq ∧
          σ'.kv = Function.update σ.kv t ((σ.kv t).append S.flags (recordOf p)).1 ∧
          σ'.hist = σ.hist ++ [.assign p.op (logIdOf S t (σ.kv t).pos)])) := by
  cases hstep with
  | data buf htake =>
    refine ⟨htake.mem, ?_⟩
    unfold State.dataStep
    split
    · next hnone =>
      refine Or.inl ⟨fun hop ↦ ?_, rfl, rfl⟩
      simp [data_process_msg, hop] at hnone
    · next st reply hsome =>
      rcases data_process_msg_cases hsome with ⟨hop, rfl, -⟩ | ⟨hop, -, hkv, hlog⟩
      · exact Or.inl ⟨by simp [hop], by simp, by simp [hop]⟩
      · refine Or.inr ⟨hop, by rw [hkv, recordOf], ?_⟩
        rw [if_pos hop, hlog, logIdOf]

/-- Only a data thread hands out log positions. -/
theorem Step.assign_cases (hstep : Step S σ label σ') {w : OpId}
    (hassign : .assign w log ∈ σ'.hist) : .assign w log ∈ σ.hist ∨
      ∃ t p, label = .data t p ∧ p.msg.rpc_header.op = .kEnumAppendReq ∧ w = p.op ∧
        log = logIdOf S t (σ.kv t).pos := by
  have hevents {o : OpId} {pc : Pc} {outcome : Outcome} :
      Event.assign w log ∉ outcome.events o pc := by
    unfold Outcome.events
    split <;> split <;> simp
  by_cases hlabel : ∃ t p, label = .data t p
  · obtain ⟨t, p, rfl⟩ := hlabel
    rcases (Step.data_cases hstep).2 with ⟨-, -, hhist⟩ | ⟨hop, -, hhist⟩
    · exact Or.inl (hhist ▸ hassign)
    · rw [hhist, List.mem_append, List.mem_singleton] at hassign
      refine hassign.imp_right fun h ↦ ?_
      obtain ⟨rfl, rfl⟩ := Event.assign.inj h
      exact ⟨t, p, rfl, hop, rfl, rfl⟩
  · refine Or.inl ?_
    cases hstep with
    | data => exact absurd ⟨_, _, rfl⟩ hlabel
    | @start _ test_type =>
      cases test_type <;> exact (List.mem_append.mp hassign).resolve_right (by simp)
    | index =>
      unfold State.indexStep at hassign
      split at hassign <;> exact hassign
    | collect =>
      unfold State.collectStep at hassign
      split_ifs at hassign <;> exact hassign
    | client =>
      unfold State.clientStep at hassign
      dsimp only at hassign
      split at hassign
      · exact hassign
      · exact (List.mem_append.mp hassign).resolve_right hevents
      · exact (List.mem_append.mp hassign).resolve_right hevents
    | _ => exact hassign

/-! ### Requests for records -/

/-- The switch passes the request for a record on, to the thread that its port names. -/
theorem switchOutputs_readLog (regs : Registers) (hkey : (parse p.msg).key32 ≠ 0)
    {out : Loc × Packet}
    (hout : out ∈ switchOutputs S.flags (ingress S.program (parse_kvmsg regs (parse p.msg))) p)
    (hop : out.2.msg.rpc_header.op = .kEnumReadLog) :
    p.msg.rpc_header.op = .kEnumReadLog ∧ out.2.msg.log_id = p.msg.log_id ∧
      out.2.dst_port = p.dst_port ∧
      ∀ t, out.1 = .dnIn t → ∃ server_id, threadOfPort S.flags server_id p.dst_port = some t := by
  obtain ⟨copy, hcopy, hlink⟩ := List.mem_filterMap.mp hout
  simp only [Option.bind_eq_bind, Option.bind_eq_some_iff, Option.pure_def,
    Option.some.injEq] at hlink
  obtain ⟨server_id, -, t, hthread, rfl⟩ := hlink
  obtain ⟨port, hport, rfl⟩ := List.mem_map.mp hcopy
  change (ingress S.program (parse_kvmsg regs (parse p.msg))).kvmsg.op = _ at hop
  rcases ingress_cases S.program regs hkey with ⟨-, -, hq⟩ | ⟨-, hq⟩ | ⟨hlookup, -, hq⟩ |
    ⟨-, -, -, hq⟩
  · obtain ⟨count, hkvmsg⟩ := hq.kvmsg
    rw [hkvmsg] at hop
    cases hop
  · rw [hq.egressPorts] at hport
    cases hport
  · obtain ⟨count, hkvmsg⟩ := hq.kvmsg
    rw [hkvmsg] at hop
    exact absurd (hlookup.2.symm.trans hop) (by simp)
  · obtain ⟨count, hkvmsg⟩ := hq.kvmsg
    rw [hkvmsg] at hop hthread
    have hegress : egress port { parse p.msg with count := count } p.dst_port = p.dst_port := by
      have hop' : (parse p.msg).op = .kEnumReadLog := hop
      simp [egress, fix_port, hop']
    dsimp only at hthread ⊢
    rw [hegress] at hthread
    rw [hkvmsg, hegress]
    refine ⟨hop, ?_, rfl, fun t' ht ↦ ⟨server_id, ?_⟩⟩
    · simp [deparse, parse]
    · unfold linkTo at ht
      split_ifs at ht
      obtain rfl := Loc.dnIn.inj ht
      exact hthread

theorem switchOutputs_ne_up {f : Flags} {q : Pipe} {out : Loc × Packet}
    (h : out ∈ switchOutputs f q p) : out.1 ≠ .up := by
  obtain ⟨copy, -, hcopy⟩ := List.mem_filterMap.mp h
  simp only [Option.bind_eq_bind, Option.bind_eq_some_iff, Option.pure_def,
    Option.some.injEq] at hcopy
  obtain ⟨server_id, -, t, -, rfl⟩ := hcopy
  unfold linkTo
  split_ifs <;> simp

/-- A copy belongs to the operation of its packet. -/
theorem switchOutputs_op {f : Flags} {q : Pipe} {out : Loc × Packet}
    (h : out ∈ switchOutputs f q p) : out.2.op = p.op := by
  obtain ⟨copy, -, hcopy⟩ := List.mem_filterMap.mp h
  simp only [Option.bind_eq_bind, Option.bind_eq_some_iff, Option.pure_def,
    Option.some.injEq] at hcopy
  obtain ⟨server_id, -, t, -, rfl⟩ := hcopy
  rfl

/-- `kv_test` asks for a record after `get_index`. -/
theorem resume_readLog {f : Flags} {c : CoroId} {ctx ctx' : KvCtx} {pc pc' : Pc}
    {reply buf : RawKvMsg} {d : Datagram}
    (h : resume f c ctx pc reply buf = some (.send ctx' pc' d))
    (hop : d.msg.rpc_header.op = .kEnumReadLog) :
    pc = .get_index ∧ d = get_value_request f c ctx' buf := by
  cases pc with
  | get_index =>
    obtain ⟨_, -, h⟩ := Option.bind_eq_some_iff.mp h
    split_ifs at h
    · cases h
    · obtain ⟨rfl, -, rfl⟩ := Outcome.send.inj (Option.some.inj h)
      exact ⟨rfl, rfl⟩
  | put_value =>
    obtain ⟨_, -, h⟩ := Option.bind_eq_some_iff.mp h
    split_ifs at h
    · cases h
    · obtain ⟨-, -, rfl⟩ := Outcome.send.inj (Option.some.inj h)
      cases hop
  | idle => cases h
  | get_value | put_index | check_req_cnt =>
    obtain ⟨_, -, h⟩ := Option.bind_eq_some_iff.mp h
    cases h

/-- A client that asks for a record has read its log position from the index. -/
theorem Step.readLog_sent (hstep : Step S σ label σ') {q : Packet} (hq : (.up, q) ∈ σ'.net)
    (hop : q.msg.rpc_header.op = .kEnumReadLog) :
    (.up, q) ∈ σ.net ∨ (.respondRead q.op q.msg.log_id ∈ σ'.hist ∧
      q.dst_port = get_thread_port (threadOf S q.msg.log_id) 0) := by
  have hother {ℓ : Loc} {p q' : Packet} {rest : List (Loc × Packet)} (htake : Take σ.net ℓ p rest)
      {t : UInt8} (hq : (.up, q) ∈ rest ++ [(Loc.ixOut t, q')] ∨
        (.up, q) ∈ rest ++ [(Loc.ixBatch t, q')] ∨ (.up, q) ∈ rest ++ [(Loc.dnOut t, q')]) :
      (.up, q) ∈ σ.net := by
    rcases hq with hq | hq | hq <;> exact htake.mem_of_mem (by simpa using hq)
  have hswitch {ℓ : Loc} {p : Packet} {rest : List (Loc × Packet)} (htake : Take σ.net ℓ p rest)
      (hq : (.up, q) ∈ (σ.switchStep S p rest).net) : (.up, q) ∈ σ.net := by
    rcases List.mem_append.mp hq with hq | hq
    · exact htake.mem_of_mem hq
    · exact absurd rfl (switchOutputs_ne_up hq)
  cases hstep with
  | @start _ test_type _ buf userbuf =>
    refine (List.mem_append.mp hq).imp_right fun h ↦ ?_
    obtain ⟨-, rfl⟩ := Prod.mk.inj (List.mem_singleton.mp h)
    cases test_type <;> cases hop
  | probe =>
    refine (List.mem_append.mp hq).imp_right fun h ↦ ?_
    obtain ⟨-, rfl⟩ := Prod.mk.inj (List.mem_singleton.mp h)
    cases hop
  | switchUp htake => exact Or.inl (hswitch htake hq)
  | switchData htake | switchIndex htake => exact Or.inl (hswitch htake.take hq)
  | data _ htake =>
    unfold State.dataStep at hq
    split at hq
    · exact Or.inl (htake.mem_of_mem hq)
    · exact Or.inl (hother htake (Or.inr (Or.inr hq)))
  | index _ _ htake =>
    unfold State.indexStep at hq
    split at hq
    · exact Or.inl (htake.take.mem_of_mem hq)
    · exact Or.inl (hother htake.take (Or.inl hq))
  | collect _ htake =>
    unfold State.collectStep at hq
    split_ifs at hq
    · exact Or.inl (htake.take.mem_of_mem hq)
    · exact Or.inl (hother htake.take (Or.inr (Or.inl hq)))
  | keep => exact Or.inl hq
  | flush =>
    refine Or.inl ?_
    rcases List.mem_append.mp hq with hq | hq
    · exact List.mem_of_mem_filter hq
    · obtain ⟨i, hi, heq⟩ := List.mem_iff_getElem.mp hq
      rw [List.getElem_zipWith] at heq
      exact absurd (congrArg Prod.fst heq) (by simp)
  | @client server_id thread_id p _ buf htake =>
    unfold State.clientStep at hq ⊢
    dsimp only at hq ⊢
    split at hq
    · exact Or.inl (htake.mem_of_mem hq)
    · exact Or.inl (htake.mem_of_mem hq)
    · next ctx pc d hresume =>
      refine (List.mem_append.mp hq).imp (fun h ↦ htake.mem_of_mem h) fun h ↦ ?_
      obtain ⟨-, rfl⟩ := Prod.mk.inj (List.mem_singleton.mp h)
      obtain ⟨hpc, rfl⟩ := resume_readLog hresume hop
      exact ⟨List.mem_append_right _ (by simp [Outcome.events, hpc, get_value_request]), rfl⟩

/-! ### Where the records are -/

/-- What the packet brings back is the record at a log position that a read of the index returned, if
that position is not the one of the initial index. -/
def Returns (S : Setup) (σ : State) (p : Packet) : Prop :=
  ∃ log, .respondRead p.op log ∈ σ.hist ∧ (log ≠ 0 → recordOf p = recordAt S σ log)

/-- Where the records of the writes are, and what the reads of records find. -/
structure Settled (S : Setup) (run : List Label) (σ : State) : Prop where
  pos : ∀ t, (σ.kv t).pos.toNat = appends run t % S.flags.logspace.toNat
  assigned : ∀ w log, .assign w log ∈ σ.hist → (recordAt S σ log).1 = w.key ∧
    ∃ t pos, t.toUInt32 < S.flags.dn_thread ∧ pos.toNat < appends run t ∧ log = logIdOf S t pos
  appended : ∀ t q, .data t q ∈ run → q.msg.rpc_header.op = .kEnumAppendReq →
    ∃ log, .assign q.op log ∈ σ.hist ∧ recordAt S σ log = recordOf q
  request : ∀ ℓ p, (ℓ, p) ∈ σ.net → p.msg.rpc_header.op = .kEnumReadLog →
    .respondRead p.op p.msg.log_id ∈ σ.hist ∧
      p.dst_port = get_thread_port (threadOf S p.msg.log_id) 0 ∧
      ∀ t, ℓ = .dnIn t → t = threadOf S p.msg.log_id
  reply : ∀ ℓ p, (ℓ, p) ∈ σ.net → p.msg.rpc_header.op = .kEnumReadReply → Returns S σ p
  answered : ∀ p, .client p ∈ run → p.msg.rpc_header.op = .kEnumReadReply → Returns S σ p

theorem Settled.initial (S : Setup) : Settled S [] (State.initial S) where
  pos _ := (Nat.zero_mod _).symm
  assigned _ _ h := absurd h List.not_mem_nil
  appended _ _ h := absurd h List.not_mem_nil
  request _ _ h := absurd h List.not_mem_nil
  reply _ _ h := absurd h List.not_mem_nil
  answered _ h := absurd h List.not_mem_nil

/-- A log that has not wrapped around has room at its position for one more record. -/
theorem Settled.pos_eq (h : Settled S run σ) {t : UInt8}
    (hroom : appends run t < S.flags.logspace.toNat) : (σ.kv t).pos.toNat = appends run t := by
  rw [h.pos, Nat.mod_eq_of_lt hroom]

/-- A record that has been appended stays at its log position. -/
theorem Settled.recordAt_eq (h : Settled S run σ) (hfit : LogsFit S.flags)
    (hwrap : NoWrap S (run ++ [label])) (hstep : Step S σ label σ') {w : OpId}
    (hassign : .assign w log ∈ σ.hist) : recordAt S σ' log = recordAt S σ log := by
  obtain ⟨-, t, pos, ht, hpos, rfl⟩ := h.assigned w log hassign
  have hlt : pos < S.flags.logspace :=
    UInt64.lt_iff_toNat_lt.mpr (hpos.trans_le (hwrap.of_concat t))
  rw [recordAt_logIdOf σ' (hfit t pos ht hlt), recordAt_logIdOf σ (hfit t pos ht hlt)]
  by_cases hlabel : ∃ t p, label = .data t p
  · obtain ⟨t', p, rfl⟩ := hlabel
    rcases (Step.data_cases hstep).2 with ⟨-, hkv, -⟩ | ⟨hop, hkv, -⟩
    · rw [hkv]
    · rw [hkv]
      by_cases htt : t = t'
      · subst htt
        have hroom := hwrap t
        rw [appends_concat, if_pos (by simp [appendsAt, hop])] at hroom
        have hne : pos ≠ (σ.kv t).pos := by
          intro heq
          rw [heq, h.pos_eq (by omega)] at hpos
          exact absurd hpos (lt_irrefl _)
        rw [Function.update_self]
        exact Function.update_of_ne hne _ _
      · rw [Function.update_of_ne htt]
  · rw [Step.kv_eq hstep fun t' p hp ↦ hlabel ⟨t', p, hp⟩]

/-- The record that a data thread has just appended. -/
theorem Settled.append (h : Settled S run σ) (hfit : LogsFit S.flags) (hrange : S.flags.InRange)
    (href : Refines S σ π) (hsound : π.Sound (layout S) unrestricted) {t : UInt8}
    (hwrap : NoWrap S (run ++ [.data t p])) (hstep : Step S σ (.data t p) σ')
    (hop : p.msg.rpc_header.op = .kEnumAppendReq) :
    .assign p.op (logIdOf S t (σ.kv t).pos) ∈ σ'.hist ∧
      recordAt S σ' (logIdOf S t (σ.kv t).pos) = recordOf p ∧ p.msg.long_key = p.op.key ∧
      t.toUInt32 < S.flags.dn_thread ∧ (σ.kv t).pos.toNat = appends run t := by
  obtain ⟨hp, hcases⟩ := Step.data_cases hstep
  obtain ⟨hkv, hhist⟩ := (hcases.resolve_left fun hread ↦ hread.1 hop).2
  obtain ⟨x, hx, henc⟩ := href.exists_item hp
  have hkind : x.kind = .appendReq := by
    have hcode := henc.code
    rw [hop] at hcode
    cases hk : x.kind <;> rw [hk] at hcode <;> cases hcode
  have ht : t.toUInt32 < S.flags.dn_thread := by
    have hplaced := hsound.placed _ x hx
    simp only [Placed, hkind, reduceCtorEq, Loc.dnIn.injEq, false_or] at hplaced
    rw [hplaced]
    exact mod_toUInt8_lt hrange.dn_pos hrange.dn_le _
  have hroom := hwrap t
  rw [appends_concat, if_pos (by simp [appendsAt, hop])] at hroom
  have hpos := h.pos_eq (t := t) (by omega)
  have hlt : (σ.kv t).pos < S.flags.logspace := UInt64.lt_iff_toNat_lt.mpr (by omega)
  refine ⟨by simp [hhist], ?_, ?_, ht, hpos⟩
  · rw [recordAt_logIdOf σ' (hfit t _ ht hlt), hkv, Function.update_self]
    exact Function.update_self _ _ _
  · rw [henc.op, henc.long_key (by simp [hkind])]

/-- The position of a log after a step. -/
theorem Settled.pos_step (h : Settled S run σ) (hrange : S.flags.InRange)
    (hstep : Step S σ label σ') (t : UInt8) :
    (σ'.kv t).pos.toNat = appends (run ++ [label]) t % S.flags.logspace.toNat := by
  have hspace : 0 < S.flags.logspace.toNat := UInt64.lt_iff_toNat_lt.mp hrange.logspace_pos
  have hmod := Nat.mod_lt (appends run t) hspace
  have hlt := S.flags.logspace.toNat_lt
  rw [appends_concat]
  by_cases hlabel : ∃ t p, label = .data t p
  · obtain ⟨t', p, rfl⟩ := hlabel
    rcases (Step.data_cases hstep).2 with ⟨hop, hkv, -⟩ | ⟨hop, hkv, -⟩
    · rw [hkv, h.pos, if_neg (by simp [appendsAt, hop]), Nat.add_zero]
    · rw [hkv]
      by_cases ht : t = t'
      · subst ht
        rw [Function.update_self, if_pos (by simp [appendsAt, hop])]
        simp only [SampleLog.append, UInt64.toNat_mod, UInt64.toNat_add, h.pos, UInt64.toNat_one]
        rw [Nat.mod_eq_of_lt (show appends run t % S.flags.logspace.toNat + 1 < 2 ^ 64 by omega),
          Nat.mod_add_mod]
      · rw [Function.update_of_ne ht, h.pos,
          if_neg (by simp [appendsAt, Ne.symm ht]), Nat.add_zero]
  · rw [Step.kv_eq hstep fun t' p hp ↦ hlabel ⟨t', p, hp⟩, h.pos, if_neg, Nat.add_zero]
    unfold appendsAt
    split
    · exact absurd ⟨_, _, rfl⟩ hlabel
    · exact Bool.false_ne_true

/-- The packets that ask for a record after a step. -/
theorem Settled.request_step (h : Settled S run σ) (href : Refines S σ π) (href' : Refines S σ' π')
    (hsound' : π'.Sound (layout S) unrestricted) (hstep : Step S σ label σ') {ℓ : Loc}
    (hp : (ℓ, p) ∈ σ'.net) (hop : p.msg.rpc_header.op = .kEnumReadLog) :
    .respondRead p.op p.msg.log_id ∈ σ'.hist ∧
      p.dst_port = get_thread_port (threadOf S p.msg.log_id) 0 ∧
      ∀ t, ℓ = .dnIn t → t = threadOf S p.msg.log_id := by
  have hold (hp : (ℓ, p) ∈ σ.net) := h.request ℓ p hp hop
  obtain ⟨x, hx, henc⟩ := href'.exists_item hp
  have hplaced := hsound'.placed ℓ x hx
  have hkind : x.kind = .readLog := by
    have hcode := henc.code
    rw [hop] at hcode
    cases hk : x.kind <;> rw [hk] at hcode <;> cases hcode
  rw [Placed, hkind] at hplaced
  rcases hplaced with rfl | ⟨t, -, rfl⟩
  · rcases Step.readLog_sent hstep hp hop with hp | ⟨hread, hport⟩
    · exact ⟨Step.mem_hist hstep (hold hp).1, (hold hp).2⟩
    · exact ⟨hread, hport, fun t ht ↦ absurd ht (by simp)⟩
  · rcases Step.mem_net hstep hp with hp | hplace | ⟨ℓ', p', hp', hout⟩ |
      ⟨t', p', buf, st, reply, -, -, heq⟩
    · exact ⟨Step.mem_hist hstep (hold hp).1, (hold hp).2⟩
    · simp at hplace
    · obtain ⟨x', -, henc'⟩ := href.exists_item hp'
      obtain ⟨hop', hlog, hport, hthread⟩ :=
        switchOutputs_readLog σ.regs henc'.key32_ne_zero hout hop
      obtain ⟨hread, hport', -⟩ := h.request ℓ' p' hp' hop'
      rw [switchOutputs_op hout, hlog, hport]
      refine ⟨Step.mem_hist hstep hread, hport', fun t' ht ↦ ?_⟩
      obtain ⟨server_id, hsome⟩ := hthread t' ht
      rw [hport', threadOfPort_get_thread_port] at hsome
      split_ifs at hsome
      exact (Option.some.inj hsome).symm
    · exact absurd (congrArg Prod.fst heq) (by simp)

/-- What a packet brings back stays where it is. -/
theorem Settled.returns_step (h : Settled S run σ) (hfit : LogsFit S.flags) (href : Refines S σ π)
    (htraced : π.Traced (layout S)) (hwrap : NoWrap S (run ++ [label])) (hstep : Step S σ label σ')
    (hp : Returns S σ p) : Returns S σ' p := by
  obtain ⟨log, hread, hrecord⟩ := hp
  refine ⟨log, Step.mem_hist hstep hread, fun hne ↦ ?_⟩
  rcases htraced.read p.op log (href.hist ▸ hread) with hzero | ⟨w, -, hassign⟩
  · exact absurd hzero hne
  · rw [hrecord hne, h.recordAt_eq hfit hwrap hstep (href.hist ▸ hassign)]

/-- The packets that bring a record back after a step. -/
theorem Settled.reply_step (h : Settled S run σ) (hfit : LogsFit S.flags) (href : Refines S σ π)
    (htraced : π.Traced (layout S)) (href' : Refines S σ' π')
    (hsound' : π'.Sound (layout S) unrestricted) (hwrap : NoWrap S (run ++ [label]))
    (hstep : Step S σ label σ') {ℓ : Loc} (hp : (ℓ, p) ∈ σ'.net)
    (hop : p.msg.rpc_header.op = .kEnumReadReply) : Returns S σ' p := by
  refine h.returns_step hfit href htraced hwrap hstep ?_
  rcases Step.mem_net hstep hp with hold | hplace | ⟨ℓ', p', hp', hout⟩ |
    ⟨t, p', buf, st, reply, hp', hprocess, heq⟩
  · exact h.reply ℓ p hold hop
  · exact absurd hplace (href'.logReply_loc hsound' hp hop)
  · obtain ⟨x, -, henc⟩ := href.exists_item hp'
    obtain ⟨hrecord, hreply⟩ := switchOutputs_record σ.regs henc.key32_ne_zero hout
    rw [Returns, hrecord, switchOutputs_op hout]
    exact h.reply ℓ' p' hp' (hreply hop)
  · obtain ⟨rfl, rfl⟩ := Prod.mk.inj heq
    rcases data_process_msg_cases hprocess with ⟨hread, -, -, hrecord⟩ | ⟨-, happend, -⟩
    · obtain ⟨hresponded, -, hthread⟩ := h.request _ p' hp' hread
      refine ⟨p'.msg.log_id, hresponded, fun _ ↦ ?_⟩
      rw [recordAt, ← hthread t rfl]
      exact hrecord
    · exact absurd (happend.symm.trans hop) (by simp)

/-- Records and reads of records stay in order in a step. -/
theorem Settled.step (h : Settled S run σ) (hfit : LogsFit S.flags) (hrange : S.flags.InRange)
    (href : Refines S σ π) (hsound : π.Sound (layout S) unrestricted)
    (htraced : π.Traced (layout S)) (href' : Refines S σ' π')
    (hsound' : π'.Sound (layout S) unrestricted) (hwrap : NoWrap S (run ++ [label]))
    (hstep : Step S σ label σ') : Settled S (run ++ [label]) σ' where
  pos := h.pos_step hrange hstep
  assigned w log hassign := by
    rcases Step.assign_cases hstep hassign with hold | ⟨t, p, rfl, hop, rfl, rfl⟩
    · obtain ⟨hkey, t, pos, ht, hpos, hlog⟩ := h.assigned w log hold
      rw [h.recordAt_eq hfit hwrap hstep hold]
      refine ⟨hkey, t, pos, ht, ?_, hlog⟩
      rw [appends_concat]
      omega
    · obtain ⟨-, hrecord, hkey, ht, hpos⟩ :=
        h.append hfit hrange href hsound hwrap hstep hop
      refine ⟨by rw [hrecord, ← hkey, recordOf], t, _, ht, ?_, rfl⟩
      rw [appends_concat, if_pos (by simp [appendsAt, hop]), hpos]
      omega
  appended t q hq hop := by
    rcases List.mem_append.mp hq with hold | hnew
    · obtain ⟨log, hassign, hrecord⟩ := h.appended t q hold hop
      exact ⟨log, Step.mem_hist hstep hassign,
        (h.recordAt_eq hfit hwrap hstep hassign).trans hrecord⟩
    · obtain rfl := List.mem_singleton.mp hnew
      obtain ⟨hassign, hrecord, -⟩ := h.append hfit hrange href hsound hwrap hstep hop
      exact ⟨_, hassign, hrecord⟩
  request _ _ hp hop := h.request_step href href' hsound' hstep hp hop
  reply _ _ hp hop := h.reply_step hfit href htraced href' hsound' hwrap hstep hp hop
  answered p hp hop := by
    refine h.returns_step hfit href htraced hwrap hstep ?_
    rcases List.mem_append.mp hp with hold | hnew
    · exact h.answered p hold hop
    · obtain rfl := List.mem_singleton.mp hnew
      cases hstep with
      | client _ htake => exact h.reply _ p htake.mem hop

/-- Along a run in which no log wraps around, records stay where they are and reads return them. -/
theorem exists_settled (hrange : S.flags.InRange) (hM : (layout S).Separates)
    (hfit : LogsFit S.flags) (h : Run (State.initial S) (Step S) run σ) (hwrap : NoWrap S run) :
    ∃ π, Refines S σ π ∧ π.Sound (layout S) unrestricted ∧ π.Traced (layout S) ∧
      Settled S run σ := by
  induction h with
  | nil =>
    exact ⟨_, Refines.initial S, PState.Sound.initial _ _, PState.Traced.initial _,
      Settled.initial S⟩
  | @snoc run σ σ' label _ hstep ih =>
    obtain ⟨π, href, hsound, htraced, hsettled⟩ := ih hwrap.of_concat
    obtain ⟨π', haction, href'⟩ :=
      href.step hrange hsound (grants_unrestricted S σ label) hstep
    have hnext : π'.Sound (layout S) unrestricted ∧ π'.Traced (layout S) := by
      rcases haction with ⟨t, -, -, rfl⟩ | ⟨action, -, hpstep⟩
      · exact ⟨hsound, htraced⟩
      · exact ⟨hsound.step hpstep, htraced.step hM hsound hpstep⟩
    exact ⟨π', href', hnext.1, hnext.2,
      hsettled.step hfit hrange href hsound htraced href' hnext.1 hwrap hstep⟩

/-! ### Linearizable values -/

/-- In every run of the unbatched system in which no log wraps around, the writes and reads of a key
are linearizable with their values: each log position has a value, which is the one that the write with
that position has written and the one that every read of that position returns, and the history of the
key is that of an atomic register of these values. A read that returns the position of the initial index
is the only one whose value is not determined. -/
theorem values_linearizable (hrange : S.flags.InRange) (hunbatched : S.batching = false)
    (hdvd : S.flags.mn_thread.toNat ∣ 65536) (hapart : KeysApart S) (hk : k ∈ S.key_space)
    (hfit : LogsFit S.flags) (hreach : S.Reachable DistinctIds σ)
    (hrun : Run (State.initial S) (Step S) run σ) (hwrap : NoWrap S run) :
    ∃ value : UInt64 → List UInt8,
      (∀ t q, .data t q ∈ run → q.msg.rpc_header.op = .kEnumAppendReq → q.op.key = k →
        ∃ log, .assign q.op log ∈ σ.history k ∧ q.msg.value = value log) ∧
      (∀ p, .client p ∈ run → p.msg.rpc_header.op = .kEnumReadReply → p.op.key = k →
        ∃ log, .respondRead p.op log ∈ σ.history k ∧
          (log ≠ 0 → p.msg.long_key = k ∧ p.msg.value = value log)) ∧
      Linearizable (value 0) ((σ.history k).map (Event.map value)) := by
  have hM : (layout S).Separates := layout_separates hdvd hapart
  obtain ⟨π, href, -, hordered⟩ := exists_ordered hrange hunbatched hdvd hapart hk hreach
  have hlinearizable : Linearizable 0 (σ.history k) := by
    rw [State.history, href.hist]
    exact hordered.linearizable
  obtain ⟨π', href', -, htraced, hsettled⟩ := exists_settled hrange hM hfit hrun hwrap
  have hmem {e : Event OpId UInt64} (he : e ∈ σ.hist) (hkey : e.op.key = k) : e ∈ σ.history k :=
    List.mem_filter.mpr ⟨he, decide_eq_true hkey⟩
  refine ⟨fun log ↦ (recordAt S σ log).2, fun t q hq hop hkey ↦ ?_, fun p hp hop hkey ↦ ?_,
    hlinearizable.map fun log ↦ (recordAt S σ log).2⟩
  · obtain ⟨log, hassign, hrecord⟩ := hsettled.appended t q hq hop
    exact ⟨log, hmem hassign hkey, (congrArg Prod.snd hrecord).symm⟩
  · obtain ⟨log, hread, hrecord⟩ := hsettled.answered p hp hop
    refine ⟨log, hmem hread hkey, fun hne ↦ ?_⟩
    rcases htraced.read p.op log (href'.hist ▸ hread) with hzero | ⟨w, hw, hassign⟩
    · exact absurd hzero hne
    · have hrecordKey := (hsettled.assigned w log (href'.hist ▸ hassign)).1
      have hsame := hrecord hne
      exact ⟨(congrArg Prod.fst hsame).trans (hrecordKey.trans (hw.trans hkey)),
        congrArg Prod.snd hsame⟩

/-- The label is the delivery of a record. -/
def deliversRecord : Label → Bool
  | .client p => p.msg.rpc_header.op = .kEnumReadReply
  | _ => false

/-- Two writes, and a read that gets its record before the second write is known to be complete. -/
def readRecordMoves : List Move :=
  writeWriteReadMoves ++ [.deliver 2, .deliver 2, .deliver 2, .deliver 2]

theorem logsFit_oneKey : LogsFit oneKey.flags := by
  intro t pos ht hpos
  rw [UInt32.lt_iff_toNat_lt, UInt8.toNat_toUInt32] at ht
  rw [UInt64.lt_iff_toNat_lt] at hpos
  refine (roundTrip_iff (by decide) pos t).mpr ⟨UInt64.lt_iff_toNat_lt.mpr hpos, ?_⟩
  simp only [oneKey, UInt32.reduceToNat, UInt64.reduceToNat] at ht hpos ⊢
  omega

theorem noWrap_of_countP (h : run.countP isAppend ≤ S.flags.logspace.toNat) : NoWrap S run := by
  refine fun t ↦ (List.countP_mono_left fun label _ hlabel ↦ ?_).trans h
  unfold appendsAt at hlabel
  split at hlabel
  · rw [decide_eq_true_eq] at hlabel
    exact decide_eq_true hlabel.2
  · cases hlabel

theorem any_readRecord : (execLabels oneKey (State.initial oneKey) readRecordMoves).any
    (fun r ↦ r.1.any deliversRecord && decide (r.1.countP isAppend ≤ 2)) = true := by
  decide +kernel

theorem values_linearizable_oneKey : ∃ run σ, Run (State.initial oneKey) (Step oneKey) run σ ∧
    run.any deliversRecord = true ∧ ∃ value : UInt64 → List UInt8,
      Linearizable (value 0) ((σ.history 65536).map (Event.map value)) := by
  have hmoves : ∃ σ, execAll oneKey isEarlyWrite (State.initial oneKey) readRecordMoves = some σ :=
    ⟨_, rfl⟩
  obtain ⟨σ, hexec⟩ := hmoves
  obtain ⟨run, hlabels⟩ := exists_execLabels hexec
  have hfacts := any_readRecord
  rw [hlabels, Option.any_some, Bool.and_eq_true, decide_eq_true_eq] at hfacts
  have hrange : oneKey.flags.InRange :=
    ⟨by decide, by decide, by decide, by decide, by decide, by decide, by decide, by decide⟩
  have hreach := distinctIds_of_earlyWrites hrange Reachable.init
    (execAll_reachable earlyWrites_of_check Reachable.init hexec)
  have hrun := execLabels_run Run.nil hlabels
  have hk : 65536 ∈ oneKey.key_space := by simp [oneKey]
  obtain ⟨value, -, -, hlinearizable⟩ := values_linearizable hrange rfl (by simp [oneKey])
    (by simp [KeysApart, oneKey]) hk logsFit_oneKey hreach hrun (noWrap_of_countP hfacts.2)
  exact ⟨run, σ, hrun, hfacts.1, value, hlinearizable⟩

end SwitchDelta.Protocol
