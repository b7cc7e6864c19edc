import SwitchDelta.Protocol.Linearizability

/-!
# Reads at the batched index server

`server_batch_CPC` applies the updates of a batch first, the newest one of a key last, and posts the
replies in the order in which the requests came. So a read that came before the copy of the entry of
its key is answered ahead of the `ReplySwitch` for that entry. If the newest update of the batch is
then a slow one, which the switch refused because its timestamp was not current, the read returns a
write that is newer than the entry, and the next read may find the entry (`not_batched_linearizable`).

`StaleFlush` says when this may happen. In the runs without such a batch, the writes of a key and the
reads of its index entry are linearizable (`batched_linearizable`).
-/

set_option autoImplicit false
set_option relaxedAutoImplicit false

namespace SwitchDelta.Protocol

open Foundation Kv Switch

variable {S : Setup} {M : Layout} {D : Discipline} {σ σ' : State} {π π' : PState} {action : Action}
  {label : Label} {k : KvKeyType}

/-! ### Batches on the links -/

/-- What an index thread has polled stays in its batch until the batch is answered. -/
theorem Step.mem_batch {t : UInt8} {q : Packet} (hstep : Step S σ label σ')
    (hq : (.ixBatch t, q) ∈ σ.net) : label = .flush t ∨ (.ixBatch t, q) ∈ σ'.net := by
  have hrest {ℓ : Loc} {p : Packet} {rest : List (Loc × Packet)} (htake : Take σ.net ℓ p rest)
      (hℓ : ℓ ≠ .ixBatch t) : (.ixBatch t, q) ∈ rest := by
    rcases List.mem_cons.mp (htake.perm.mem_iff.mp hq) with heq | hmem
    · exact absurd (Prod.mk.inj heq).1.symm hℓ
    · exact hmem
  cases hstep with
  | start | probe => exact Or.inr (List.mem_append_left _ hq)
  | switchUp htake => exact Or.inr (List.mem_append_left _ (hrest htake (by simp)))
  | switchData htake | switchIndex htake =>
    exact Or.inr (List.mem_append_left _ (hrest htake.take (by simp)))
  | data buf htake =>
    refine Or.inr ?_
    unfold State.dataStep
    split
    · exact hrest htake (by simp)
    · exact List.mem_append_left _ (hrest htake (by simp))
  | index buf _ htake =>
    refine Or.inr ?_
    unfold State.indexStep
    split
    · exact hrest htake.take (by simp)
    · exact List.mem_append_left _ (hrest htake.take (by simp))
  | collect _ htake =>
    refine Or.inr ?_
    unfold State.collectStep
    split_ifs
    · exact hrest htake.take (by simp)
    · exact List.mem_append_left _ (hrest htake.take (by simp))
  | keep => exact Or.inr hq
  | @flush t' =>
    by_cases ht : t' = t
    · exact Or.inl (by rw [ht])
    · refine Or.inr (List.mem_append_left _ (List.mem_filter.mpr ⟨hq, ?_⟩))
      simpa using Ne.symm ht
  | client buf htake =>
    refine Or.inr ?_
    unfold State.clientStep
    dsimp only
    split
    · exact hrest htake (by simp)
    · exact hrest htake (by simp)
    · exact List.mem_append_left _ (hrest htake (by simp))

/-- The requests of a key leave their batch only when their index thread answers it. -/
theorem flush_of_batch (hrefines : Refines S σ π) (hrefines' : Refines S σ' π')
    (hstep : Step S σ label σ') (hne : (view (layout S) k π).batch ≠ [])
    (hempty : (view (layout S) k π').batch = []) :
    label = .flush ((layout S).indexThread k) := by
  obtain ⟨x, hx⟩ := List.exists_mem_of_ne_nil _ hne
  obtain ⟨hmem, hkey⟩ := mem_boxOf.mp hx
  obtain ⟨⟨ℓ, q⟩, hq, rfl, henc⟩ := exists_left_of_forall₂ hrefines.net hmem
  refine (Step.mem_batch hstep hq).resolve_right fun hq' ↦ ?_
  obtain ⟨y, hy, henc'⟩ := hrefines'.exists_item hq'
  have hybatch : y ∈ (view (layout S) k π').batch :=
    mem_boxOf.mpr ⟨hy, by rw [← henc'.op, henc.op, hkey]⟩
  rw [hempty] at hybatch
  exact List.not_mem_nil hybatch

/-- The batched server polls all requests into batches. -/
theorem handlesRequests_of_batching (hbatching : S.batching = true) (hk : k ≠ 0)
    (hrefines' : Refines S σ' π') (hacts : ActsAs S label action) (hstep : Step S σ label σ') :
    HandlesRequests (layout S) k π action π' := by
  refine Or.inr ⟨hk, ?_⟩
  rintro t x rfl
  cases hstep with
  | index _ hunbatched => simp [hbatching] at hunbatched
  | @collect t' p rest _ htake =>
    obtain ⟨-, ht⟩ := hacts
    obtain rfl := Loc.ixIn.inj ht
    have hfailed := hrefines'.failed
    have hnet := hrefines'.net
    unfold State.collectStep at hfailed hnet
    split_ifs at hfailed hnet
    obtain ⟨net, last, -, hlast, hsplit⟩ := exists_append_of_forall₂ hnet
    cases hlast with
    | @cons _ q _ tail hq htail =>
      cases htail
      exact ⟨net, q.2, hsplit.trans (congrArg (net ++ [·]) (Prod.ext hq.1.symm rfl))⟩
  | switchUp | switchData | switchIndex =>
    rcases hacts.2 with hℓ | ⟨_, hℓ⟩ | ⟨_, hℓ⟩ <;> cases hℓ
  | data | client => cases hacts.2
  | _ => exact hacts.elim

/-! ### Stale batches -/

/-- A batch is answered in which a `get_index` came before the copy that owns the slot of its key, with
a slow update of the key that is not older than the copy. -/
def StaleFlush (σ : State) (label : Label) : Prop :=
  ∃ t r c s, label = .flush t ∧ [r, c].Sublist (queue σ.net (.ixBatch t)) ∧
    s ∈ queue σ.net (.ixBatch t) ∧ r.msg.rpc_header.op = .kEnumReadIndexReq ∧
    c.msg.rpc_header.op = .kEnumMultiCastPkt ∧ s.msg.rpc_header.op = .kEnumUpdateIndexReq ∧
    r.op.key = c.op.key ∧ s.op.key = c.op.key ∧ σ.owner (parse c.msg).key = some c.op ∧
    timestampValue c.msg.timestamp ≤ timestampValue s.msg.timestamp

/-- A part of the second list is related to a part of the first. -/
theorem exists_sublist_of_forall₂ {α β : Type*} {R : α → β → Prop} {l : List α} {l' part' : List β}
    (h : List.Forall₂ R l l') (hpart : part'.Sublist l') :
    ∃ part, part.Sublist l ∧ List.Forall₂ R part part' := by
  induction h generalizing part' with
  | nil =>
    obtain rfl := List.sublist_nil.mp hpart
    exact ⟨[], List.Sublist.refl _, List.Forall₂.nil⟩
  | @cons a b l l' hab _ ih =>
    cases hpart with
    | cons _ hpart =>
      obtain ⟨part, hsub, hrel⟩ := ih hpart
      exact ⟨part, hsub.cons a, hrel⟩
    | cons_cons _ hpart =>
      obtain ⟨part, hsub, hrel⟩ := ih hpart
      exact ⟨a :: part, hsub.cons_cons a, List.Forall₂.cons hab hrel⟩

/-- A batch that is not stale is orderly. -/
theorem orderly_of_not_staleFlush (hrefines : Refines S σ π)
    (hstale : ¬ StaleFlush σ (.flush ((layout S).indexThread k))) :
    (view (layout S) k π).Orderly := by
  have hqueue := queue_forall₂ (Q := Encodes S) (fun p q (h : LinkRel S p q) ↦ h) hrefines.net
    (.ixBatch ((layout S).indexThread k))
  refine List.pairwise_iff_forall_sublist.mpr fun {r c} hpair hr hc hentry s hs hslow ↦ ?_
  -- the two packets of the pair
  obtain ⟨part, hsub, hpart⟩ :=
    exists_sublist_of_forall₂ hqueue (hpair.trans List.filter_sublist)
  obtain ⟨pr, pc, rfl, hpr, hpc⟩ : ∃ pr pc, part = [pr, pc] ∧ Encodes S pr r ∧ Encodes S pc c := by
    cases hpart with
    | cons hfirst hrest =>
      cases hrest with
      | cons hsecond hnil =>
        cases hnil
        exact ⟨_, _, rfl, hfirst, hsecond⟩
  have hkey {x : Item} (hx : x ∈ (view (layout S) k π).batch) : x.op.key = k := (mem_boxOf.mp hx).2
  have hrkey := hkey (hpair.subset List.mem_cons_self)
  have hckey := hkey (hpair.subset (List.mem_cons_of_mem _ List.mem_cons_self))
  obtain ⟨ps, hps, hs'⟩ := exists_left_of_forall₂ hqueue (mem_queue.mpr (mem_boxOf.mp hs).1)
  have howner : σ.owner (parse pc.msg).key = some pc.op := by
    have hentry' := (hrefines.slot ((layout S).slot k)).owner_eq
    rw [(view_entry.mp hentry).1] at hentry'
    rw [hpc.parse_key (by simp [hc]), hpc.op, hckey]
    exact hentry'
  by_contra hle
  refine hstale ⟨_, pr, pc, ps, rfl, hsub, hps, ?_, ?_, ?_, ?_, ?_, howner, ?_⟩
  · rw [hpr.code, hr, Kind.code]
  · rw [hpc.code, hc, Kind.code]
  · rw [hs'.code, hslow, Kind.code]
  · rw [hpr.op, hpc.op, hrkey, hckey]
  · rw [hs'.op, hpc.op, hkey hs, hckey]
  · rw [hpc.timestamp (by simp [hc]), hs'.timestamp (by simp [hslow])]
    exact not_lt.mp hle

/-! ### Short runs -/

/-- A short run whose writes are early. -/
def ShortEarlyWrites (σ : State) (label : Label) : Prop :=
  EarlyWrites σ label ∧ σ.hist.length < 2 ^ 29

theorem ShortEarlyWrites.assumptions (hok : ShortEarlyWrites σ label) (hrange : S.flags.InRange)
    (h : S.Reachable ShortEarlyWrites σ) : DistinctIds σ label ∧ CountersBelow σ label :=
  ⟨DistinctIds.of_startsApart hrange
    (startsApart_of_earlyWrites hrange (h.mono fun _ _ hok ↦ hok.1)) label,
    countersBelow_of_short hrange h hok.2 label⟩

/-- Two keys with one switch key and different fingerprints, at three data threads. -/
def twoKeys : Setup where
  flags := ⟨3, 1, 1, 5, 4, 4, true, true, 16⟩
  program := .overwrite
  batching := true
  key_space := [262144, 327680]
  ctx₀ := fun _ ↦ ⟨0, 0, 0, 0, false, false, 0⟩

theorem twoKeys_inRange : twoKeys.flags.InRange :=
  ⟨by decide, by decide, by decide, by decide, by decide, by decide, by decide, by decide⟩

theorem keysApart_twoKeys : KeysApart twoKeys := by
  have hne : get_fingerprint 262144 ≠ get_fingerprint 327680 := by decide
  simp [KeysApart, twoKeys, hne, hne.symm]

/-- The check of `ShortEarlyWrites`. -/
def isShortEarlyWrite (σ : State) (label : Label) : Bool :=
  isEarlyWrite σ label ∧ σ.hist.length < 2 ^ 29

theorem shortEarlyWrites_of_check (σ : State) (label : Label)
    (h : isShortEarlyWrite σ label = true) : ShortEarlyWrites σ label := by
  obtain ⟨hfirst, hshort⟩ := of_decide_eq_true h
  exact ⟨earlyWrites_of_check σ label hfirst, hshort⟩

/-! ### The batched server -/

/-- In every run of the batched system in which no counter ends its round and no batch is answered that
is stale, the writes of a key and the reads of its index entry are linearizable. -/
theorem batched_linearizable (hrange : S.flags.InRange) (hbatching : S.batching = true)
    (hdvd : S.flags.mn_thread.toNat ∣ 65536) (hapart : KeysApart S) (hk : k ∈ S.key_space)
    (hk0 : k ≠ 0) (h : S.Reachable (fun σ label ↦ DistinctIds σ label ∧ CountersBelow σ label ∧
      ¬ StaleFlush σ label) σ) : Linearizable 0 (σ.history k) := by
  have hstep (σ : State) (label : Label) (σ' : State) (π : PState) (action : Action) (π' : PState)
      (hrefines : Refines S σ π) (hsound : π.Sound (layout S) clearsOwn)
      (hR : Ordered True (layout S) k π ∧ π.Stamped (layout S))
      (hok : DistinctIds σ label ∧ CountersBelow σ label ∧ ¬ StaleFlush σ label)
      (hstep : Step S σ label σ') (hacts : ActsAs S label action)
      (hpstep : PStep (layout S) clearsOwn π action π') (hrefines' : Refines S σ' π') :
      Ordered True (layout S) k π' ∧ π'.Stamped (layout S) := by
    obtain ⟨hordered, hstamped⟩ := hR
    have hround (c : UInt16) : (π.clock c).toNat + 1 < 2 ^ 31 := by
      rw [← hrefines.tss]
      exact hok.2.1 c
    refine ⟨hordered.step (layout_separates hdvd hapart) trivial hk hsound
      (fun _ ↦ ⟨hstamped, hround⟩) (handlesRequests_of_batching hbatching hk0 hrefines' hacts hstep)
      (fun hne hempty ↦ ?_) hpstep, hstamped.step hsound hround hpstep⟩
    have hflush := flush_of_batch hrefines hrefines' hstep hne hempty
    exact ⟨trivial, orderly_of_not_staleFlush hrefines (hflush ▸ hok.2.2)⟩
  obtain ⟨π, hrefines, -, hordered, -⟩ := Refines.run_of_grants hrange
    (fun _ π ↦ Ordered True (layout S) k π ∧ π.Stamped (layout S)) (Refines.initial S)
    (PState.Sound.initial _ _) ⟨Ordered.initial _ _ _, PState.Stamped.initial _⟩
    (fun _ _ _ _ _ _ hok hstep ↦ hok.1.grants hstep) hstep (fun _ _ _ hR ↦ hR) h
  rw [State.history, hrefines.hist]
  exact hordered.linearizable

/-- A `get_index` is in a batch with the copy of a write. -/
def readCopyMoves : List Move :=
  [.start ⟨2, 0, 1⟩ .kEnumR 262144, .deliver 0, .start ⟨2, 0, 0⟩ .kEnumW 262144, .deliver 1, .deliver 1,
    .deliver 1, .deliver 0, .deliver 0, .flush 0, .deliver 1, .deliver 2, .deliver 0, .deliver 0]

/-- A batch with no slow update is answered, or none at all. -/
def fastFlush (σ : State) : Label → Bool
  | .flush t => ∀ q ∈ queue σ.net (.ixBatch t), q.msg.rpc_header.op ≠ .kEnumUpdateIndexReq
  | _ => true

theorem not_staleFlush_of_check (h : fastFlush σ label = true) : ¬ StaleFlush σ label := by
  rintro ⟨t, r, c, s, rfl, -, hs, -, -, hslow, -⟩
  exact of_decide_eq_true h s hs hslow

theorem any_readCopyRun : (execAll twoKeys (fun σ label ↦ isShortEarlyWrite σ label && fastFlush σ label)
    (State.initial twoKeys) readCopyMoves).any
    (fun σ ↦ decide (.respondRead ⟨⟨2, 0, 1⟩, 1, 262144⟩ 4 ∈ σ.history 262144)) = true := by
  decide +kernel

/-- The read returns the write of its batch. -/
theorem batched_linearizable_twoKeys : ∃ σ r, twoKeys.Reachable
      (fun σ label ↦ DistinctIds σ label ∧ CountersBelow σ label ∧ ¬ StaleFlush σ label) σ ∧
    .respondRead r 4 ∈ σ.history 262144 ∧ Linearizable 0 (σ.history 262144) := by
  obtain ⟨σ, hexec, hread⟩ := (Option.any_eq_true _ _).mp any_readCopyRun
  have hreach : twoKeys.Reachable
      (fun σ label ↦ ShortEarlyWrites σ label ∧ ¬ StaleFlush σ label) σ :=
    execAll_reachable (fun σ label hcheck ↦
      have hcheck := (Bool.and_eq_true _ _).mp hcheck
      ⟨shortEarlyWrites_of_check σ label hcheck.1, not_staleFlush_of_check hcheck.2⟩)
      Reachable.init hexec
  have hreach' : twoKeys.Reachable
      (fun σ label ↦ DistinctIds σ label ∧ CountersBelow σ label ∧ ¬ StaleFlush σ label) σ :=
    hreach.strengthen fun _ _ hτ hok ↦
      have hassumptions := hok.1.assumptions twoKeys_inRange (hτ.mono fun _ _ hok ↦ hok.1)
      ⟨hassumptions.1, hassumptions.2, hok.2⟩
  exact ⟨σ, _, hreach', of_decide_eq_true hread, batched_linearizable twoKeys_inRange rfl
    (by simp [twoKeys]) keysApart_twoKeys (by simp [twoKeys]) (by decide) hreach'⟩

/-! ### A stale read -/

/-- A `get_index` comes to the index node before a write `w` of its key is installed. A second write of
the key gets its timestamp before a write of the other key, whose reply is faster and raises the
timestamp of the slot; so the second write is refused, and its update comes into the batch of the
`get_index` and of the copy of `w`. The read is answered with the second write, and the next read finds
the entry of `w`. -/
def staleMoves : List Move :=
  [.start ⟨2, 0, 2⟩ .kEnumR 262144, .deliver 0, .start ⟨2, 0, 0⟩ .kEnumW 262144, .deliver 1,
    .deliver 1, .deliver 1, .deliver 2, .start ⟨2, 0, 4⟩ .kEnumW 262144, .deliver 2, .deliver 2,
    .start ⟨2, 0, 1⟩ .kEnumW 327680, .deliver 3, .deliver 3, .deliver 3, .deliver 2, .deliver 3,
    .deliver 3, .deliver 0, .deliver 0, .deliver 1, .flush 0, .deliver 1, .deliver 3,
    .start ⟨2, 0, 3⟩ .kEnumR 262144, .deliver 4, .deliver 4]

/-- The operations of the run, by their coroutines. -/
def opOf (coro_id : UInt8) : OpId := ⟨⟨2, 0, coro_id⟩, 1, 262144⟩

/-- What the clients see of the run. -/
def staleHistory : List (Event OpId UInt64) :=
  [.invokeRead (opOf 2), .invokeWrite (opOf 0), .assign (opOf 0) 4, .respondWrite (opOf 0) 4,
    .invokeWrite (opOf 4), .assign (opOf 4) 5, .respondRead (opOf 2) 5, .invokeRead (opOf 3),
    .respondRead (opOf 3) 4]

theorem any_staleRun : (execAll twoKeys isShortEarlyWrite (State.initial twoKeys) staleMoves).any
    (fun σ ↦ decide (σ.history 262144 = staleHistory)) = true := by
  decide +kernel

theorem not_linearizable_staleHistory : ¬ Linearizable 0 staleHistory := by
  have hwrites : Precedes staleHistory (opOf 0) (opOf 4) :=
    ⟨staleHistory.take 4, staleHistory.drop 4, (List.take_append_drop 4 _).symm,
      ⟨.respondWrite (opOf 0) 4, by simp [staleHistory], rfl⟩,
      ⟨.invokeWrite (opOf 4), by simp [staleHistory], rfl⟩⟩
  have hreads : Precedes staleHistory (opOf 2) (opOf 3) :=
    ⟨staleHistory.take 7, staleHistory.drop 7, (List.take_append_drop 7 _).symm,
      ⟨.respondRead (opOf 2) 5, by simp [staleHistory], rfl⟩,
      ⟨.invokeRead (opOf 3), by simp [staleHistory], rfl⟩⟩
  have hlater : OnlyReturns staleHistory (opOf 2) 5 := by
    constructor <;> simp [staleHistory, opOf]
  have hearlier : OnlyReturns staleHistory (opOf 3) 4 := by
    constructor <;> simp [staleHistory, opOf]
  refine not_linearizable_of_stale hwrites hreads hlater hearlier (by decide) (by decide) ?_ ?_ ?_
    (by decide)
  all_goals simp [staleHistory, opOf]

/-- The batched server is not linearizable: a read returns the later of two writes, and one that starts
afterwards returns the earlier one. -/
theorem not_batched_linearizable : ∃ (S : Setup) (σ : State) (k : KvKeyType), S.flags.InRange ∧
    S.program = .overwrite ∧ S.batching = true ∧ S.flags.mn_thread.toNat ∣ 65536 ∧ KeysApart S ∧
    k ∈ S.key_space ∧ k ≠ 0 ∧
    S.Reachable (fun σ label ↦ DistinctIds σ label ∧ CountersBelow σ label) σ ∧
    ¬ Linearizable 0 (σ.history k) := by
  obtain ⟨σ, hexec, hhist⟩ := (Option.any_eq_true _ _).mp any_staleRun
  refine ⟨twoKeys, σ, 262144, twoKeys_inRange, rfl, rfl, by simp [twoKeys], keysApart_twoKeys,
    by simp [twoKeys], by decide, ?_, ?_⟩
  · have hreach := execAll_reachable shortEarlyWrites_of_check Reachable.init hexec
    exact hreach.strengthen fun _ _ hτ hok ↦ hok.assumptions twoKeys_inRange hτ
  · rw [of_decide_eq_true hhist]
    exact not_linearizable_staleHistory

end SwitchDelta.Protocol
