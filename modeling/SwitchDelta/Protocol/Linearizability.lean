import SwitchDelta.Kv.IndexThread
import SwitchDelta.Protocol.KeyBatch
import SwitchDelta.Protocol.KeyView
import SwitchDelta.Protocol.Replies
import SwitchDelta.Protocol.RpcIds

/-!
# The index of a key is an atomic register

With the unbatched index server, the writes of a key and the reads of its index entry are linearizable
in every run (`unbatched_linearizable`), for the switch programs `overwrite.p4` and `p4_fw.p4`. The
invariant `Inv` of a key holds along the run for the view of the protocol state.

The assumptions are those of the design: one index thread serves a key, which `FLAGS_mn_thread` ensures
when it divides 65536, no two keys in use have the same switch key and fingerprint, and no two writes
have one `rpc_id` on the wire.
-/

set_option autoImplicit false
set_option relaxedAutoImplicit false

namespace SwitchDelta.Protocol

open Foundation Kv Switch

variable {S : Setup} {M : Layout} {D : Discipline} {σ σ' : State} {π π' : PState} {action : Action}
  {label : Label} {k : KvKeyType} {ordered : Prop}

/-! ### The invariant along a step -/

/-- The operations on the key are ordered by tags. -/
def Ordered (ordered : Prop) (M : Layout) (k : KvKeyType) (π : PState) : Prop :=
  ∃ g : Tags ℚ≥0, Inv ordered (view M k π) g

theorem Ordered.initial (ordered : Prop) (M : Layout) (k : KvKeyType) :
    Ordered ordered M k .initial := by
  refine ⟨⟨∅, fun _ ↦ ⊥, fun _ ↦ ⊥, ⊥, ⊥⟩, ?_⟩
  have hview : view M k .initial = .initial := by
    simp [view, PState.initial, KeyState.initial, earlyOf, lateOf]
  rw [hview]
  exact Inv.initial ordered

theorem Ordered.linearizable (h : Ordered ordered M k π) :
    Linearizable 0 (π.hist.filter fun e ↦ e.op.key = k) := by
  obtain ⟨g, hinv⟩ := h
  exact hinv.tagged.linearizable

/-- A step keeps the order of the operations, if a batch that it answers is orderly. -/
theorem Ordered.step (h : Ordered ordered M k π) (hM : M.Separates) (hown : D.clearOwn)
    (hk : k ∈ M.keys) (hsound : π.Sound M D)
    (hordered : ordered → π.Stamped M ∧ ∀ c, (π.clock c).toNat + 1 < 2 ^ 31)
    (hmode : HandlesRequests M k π action π')
    (hflush : (view M k π).batch ≠ [] → (view M k π').batch = [] → ordered ∧ (view M k π).Orderly)
    (hstep : PStep M D π action π') : Ordered ordered M k π' := by
  obtain ⟨g, hinv⟩ := h
  exact hinv.step hflush (hstep.view hM hown hk hsound hordered hmode)

/-! ### The assumptions -/

/-- No two keys in use have the same switch key and fingerprint. -/
def KeysApart (S : Setup) : Prop :=
  ∀ k ∈ S.key_space, ∀ k' ∈ S.key_space, get_switch_key k = get_switch_key k' →
    get_fingerprint k = get_fingerprint k' → k = k'

instance (S : Setup) : Decidable (KeysApart S) :=
  inferInstanceAs (Decidable (∀ k ∈ S.key_space, ∀ k' ∈ S.key_space, _))

/-- No two writes have one name on the wire. -/
def DistinctIds (σ : State) (_label : Label) : Prop :=
  ∀ w w' id, OnWire σ w id → OnWire σ w' id → w = w'

/-- One index thread serves a key, and a slot and a fingerprint belong to one key. -/
theorem layout_separates (hdvd : S.flags.mn_thread.toNat ∣ 65536) (hapart : KeysApart S) :
    (layout S).Separates where
  copyThread k _ := by
    change put_value_index_tid S.flags k = index_tid S.flags k
    rw [← UInt8.toNat_inj, index_tid_toNat, put_value_index_tid_toNat]
    exact low_byte_mod_eq_of_dvd (Or.inl hdvd)
  same k hk k' hk' h := hapart k hk k' hk' h.1 h.2
  refl _ := ⟨rfl, rfl⟩

/-- Where names differ, a `ReplySwitch` meets no foreign entry under its `rpc_id`. -/
theorem DistinctIds.grants (h : DistinctIds σ label) (hstep : Step S σ label σ') :
    Grants S clearsOwn σ label := by
  refine ⟨fun hfalse ↦ hfalse.elim, fun _ p w hp hclear hw hid ↦ ?_, fun _ _ _ _ ↦ trivial⟩
  subst hp
  obtain ⟨-, ℓ, rest, htake⟩ := Step.switch_regs hstep
  exact h w p.op _ (Or.inr ⟨_, hw, hid⟩) (Or.inl ⟨_, htake.mem, rfl, Or.inr hclear.2, rfl⟩)

/-- So the names on the wire differ. -/
theorem DistinctIds.of_startsApart (hrange : S.flags.InRange) (h : S.Reachable (StartsApart S) σ)
    (label : Label) : DistinctIds σ label := by
  intro w w' id hw hw'
  obtain ⟨π, hrefines, -, hnames⟩ := exists_namesApart hrange h
  obtain ⟨hout, hid⟩ := hrefines.onWire hw
  obtain ⟨hout', hid'⟩ := hrefines.onWire hw'
  by_contra hne
  exact hnames.rpcId_ne hrange hout hout' hne (hid.symm.trans hid')

/-- The names on the wire differ as long as writes are early. -/
theorem distinctIds_of_earlyWrites (hrange : S.flags.InRange) (hσ : S.Reachable EarlyWrites σ)
    (h : Foundation.Reachable σ (Step S) EarlyWrites σ') :
    Foundation.Reachable σ (Step S) DistinctIds σ' :=
  h.strengthen fun _ label hτ _ ↦ DistinctIds.of_startsApart hrange
    (startsApart_of_earlyWrites hrange (hσ.trans hτ)) label

/-! ### The unbatched server -/

/-- Without batches on the links, no request of the key is in one. -/
theorem Refines.batch_eq_nil (h : Refines S σ π) (hnone : ∀ q ∈ σ.net, ∀ t, q.1 ≠ .ixBatch t) :
    (view M k π).batch = [] := by
  refine List.eq_nil_iff_forall_not_mem.mpr fun x hx ↦ ?_
  obtain ⟨q, hq, hloc, -⟩ := exists_left_of_forall₂ h.net (mem_boxOf.mp hx).1
  exact hnone q hq _ hloc

/-- In a run of the unbatched system, the operations on a key stay ordered by tags. -/
theorem exists_ordered (hrange : S.flags.InRange) (hunbatched : S.batching = false)
    (hdvd : S.flags.mn_thread.toNat ∣ 65536) (hapart : KeysApart S) (hk : k ∈ S.key_space)
    (h : S.Reachable DistinctIds σ) :
    ∃ π, Refines S σ π ∧ π.Sound (layout S) clearsOwn ∧ Ordered False (layout S) k π := by
  have hrun : S.Reachable
      (fun σ label ↦ DistinctIds σ label ∧ ∀ q ∈ σ.net, ∀ t, q.1 ≠ .ixBatch t) σ :=
    h.strengthen fun σ label hσ hok ↦ ⟨hok, net_ne_ixBatch hunbatched hσ⟩
  refine Refines.run_of_grants hrange (fun _ π ↦ Ordered False (layout S) k π) (Refines.initial S)
    (PState.Sound.initial _ _) (Ordered.initial _ _ _)
    (fun _ _ _ _ _ _ hok hstep ↦ hok.1.grants hstep) ?_ (fun _ _ _ hR ↦ hR) hrun
  intro σ label σ' π action π' hrefines hsound hR hok _ _ hpstep _
  have hempty : (view (layout S) k π).batch = [] := hrefines.batch_eq_nil hok.2
  exact hR.step (layout_separates hdvd hapart) trivial hk hsound (fun hfalse ↦ hfalse.elim)
    (Or.inl hempty) (fun hne ↦ absurd hempty hne) hpstep

/-- In every run of the unbatched system, the writes of a key and the reads of its index entry are
linearizable as an atomic register. -/
theorem unbatched_linearizable (hrange : S.flags.InRange) (hunbatched : S.batching = false)
    (hdvd : S.flags.mn_thread.toNat ∣ 65536) (hapart : KeysApart S) (hk : k ∈ S.key_space)
    (h : S.Reachable DistinctIds σ) : Linearizable 0 (σ.history k) := by
  obtain ⟨π, hrefines, -, hordered⟩ := exists_ordered hrange hunbatched hdvd hapart hk h
  rw [State.history, hrefines.hist]
  exact hordered.linearizable

/-- A write that goes all the way to the index, one that is installed, and a read that finds it. -/
def writeWriteReadMoves : List Move :=
  [.start ⟨2, 0, 0⟩ .kEnumW 65536, .deliver 0, .deliver 0, .deliver 0, .deliver 1, .deliver 0,
    .deliver 0, .start ⟨2, 0, 1⟩ .kEnumW 65536, .deliver 0, .deliver 0, .deliver 0,
    .start ⟨2, 0, 0⟩ .kEnumR 65536, .deliver 2, .deliver 2]

/-- The read has returned the second write before its client knows that it is complete. -/
theorem unbatched_linearizable_oneKey : ∃ σ r, oneKey.Reachable DistinctIds σ ∧
    .respondRead r 1 ∈ σ.history 65536 ∧ Linearizable 0 (σ.history 65536) := by
  have hrun : ∃ σ, execAll oneKey isEarlyWrite (State.initial oneKey) writeWriteReadMoves = some σ ∧
      .respondRead ⟨⟨2, 0, 0⟩, 2, 65536⟩ 1 ∈ σ.history 65536 := ⟨_, rfl, by decide +kernel⟩
  obtain ⟨σ, hexec, hread⟩ := hrun
  have hrange : oneKey.flags.InRange :=
    ⟨by decide, by decide, by decide, by decide, by decide, by decide, by decide, by decide⟩
  have hreach := distinctIds_of_earlyWrites hrange Reachable.init
    (execAll_reachable earlyWrites_of_check Reachable.init hexec)
  exact ⟨σ, _, hreach, hread,
    unbatched_linearizable hrange rfl (by simp [oneKey]) (by simp [KeysApart, oneKey])
      (by simp [oneKey]) hreach⟩

end SwitchDelta.Protocol
