import SwitchDelta.Secondary.Execution

/-!
# What the secondary index holds in the end

A write gets a version, replaces the primary record, and is inserted later; the entry that it
supersedes is deleted later still, perhaps before it was ever inserted. An index thread refuses an
insertion whose version is not above the greatest one it has deleted. For keys that are whole
entries, the index holds exactly the entries of the primary records once nothing is outstanding, if
this test decides each insertion as it should: it must let the entry of a primary record pass, and
stop an entry whose deletion has been carried out. A maximum over all keys that each thread keeps for
itself does neither.
-/

set_option autoImplicit false
set_option relaxedAutoImplicit false

namespace SwitchDelta.Secondary

open Foundation Kv

/-- The size of a whole entry. -/
def entrySize : ℕ := 24

/-- An entry under its whole key. -/
def Entry.record (e : Entry) : List ℕ × UInt64 :=
  (keyBytes entrySize e.skey e.version e.pkey, e.pkey)

theorem keyBytes_entrySize (skey version pkey : UInt64) :
    keyBytes entrySize skey version pkey = bytesLE skey ++ bytesLE version ++ bytesLE pkey := rfl

theorem keyBytes_entrySize_inj {e e' : Entry}
    (h : keyBytes entrySize e.skey e.version e.pkey =
      keyBytes entrySize e'.skey e'.version e'.pkey) : e = e' := by
  rw [keyBytes_entrySize, keyBytes_entrySize] at h
  obtain ⟨hhead, hpkey⟩ := List.append_inj h (by simp)
  obtain ⟨hskey, hversion⟩ := List.append_inj hhead (by simp)
  cases e
  cases e'
  simp_all [bytesLE_injective.eq_iff]

theorem Entry.record_injective : Function.Injective Entry.record :=
  fun _ _ h ↦ keyBytes_entrySize_inj (congrArg Prod.fst h)

/-! ### The invariant -/

/-- The kinds of packets that stand for a write that has a version and was not inserted. -/
def Kind.IsUninserted (kind : Kind) : Prop :=
  kind ∈ [.appendReply, .copy, .updateReq, .updateCopy]

/-- The insertion of the entry is outstanding. -/
def State.InsertPending (σ : State) (e : Entry) : Prop :=
  ∃ ℓ p, (ℓ, p) ∈ σ.net ∧ p.kind.IsUninserted ∧ p.entry = e

/-- The index holds the entries of the primary records, except those that are outstanding, and
entries that are about to be deleted. -/
structure State.Exact (σ : State) : Prop where
  complete : ∀ e, σ.Current e → e.record ∈ σ.sindex.entries ∨ σ.InsertPending e
  sound : ∀ x ∈ σ.sindex.entries, ∃ e : Entry, x = e.record ∧ (σ.Current e ∨ σ.DeletePending e)
  superseded : ∀ e, σ.DeletePending e → ¬ σ.Current e
  current_drawn : ∀ e, σ.Current e → e ∈ σ.drawn
  delete_drawn : ∀ e, σ.DeletePending e → e ∈ σ.drawn

theorem State.Exact.initial : State.initial.Exact where
  complete := fun _ h ↦ absurd h (by simp [State.Current, State.initial])
  sound := fun _ h ↦ absurd h List.not_mem_nil
  superseded := fun _ _ h ↦ absurd h (by simp [State.Current, State.initial])
  current_drawn := fun _ h ↦ absurd h (by simp [State.Current, State.initial])
  delete_drawn := fun _ h ↦ absurd h (by simp [State.DeletePending, State.initial])

/-- The version test of the index thread decides an insertion by whether the entry is that of a
primary record, a copy of an `AppendReply` is read from a buffer that happens to hold the rest of the
entry, and the data node does not draw a version twice for the same two keys. -/
def GuardDecides (f : Flags) (σ : State) : Label → Prop
  | .append p time_ns =>
    ⟨p.op.skey, get_version time_ns (get_data_thread_id_by_load f p.op.coro), p.op.pkey⟩ ∉ σ.drawn
  | .insert p buf =>
    (p.kind = .copy → p.version = p.op.skey ∧ buf 1 = p.version ∧ buf 2 = p.op.pkey) ∧
      (σ.Current p.entry → σ.local_max_del_timestamp (p.op.indexThread f) < p.version) ∧
      (¬ σ.Current p.entry → ¬ σ.DeletePending p.entry →
        p.version ≤ σ.local_max_del_timestamp (p.op.indexThread f))
  | _ => True

variable {f : Flags} {secondary_test : Bool} {σ σ' : State} {label : Label}

/-! ### Deletion and insertion -/

/-- A batch removes its entries and no others. -/
theorem mem_process_sindex_del {local_max : UInt64} {sindex : Sindex} {batch : List Entry}
    {x : List ℕ × UInt64} : x ∈ (process_sindex_del local_max sindex batch).2.entries ↔
      x ∈ sindex.entries ∧ ∀ e ∈ batch, x.1 ≠ keyBytes entrySize e.skey e.version e.pkey := by
  unfold process_sindex_del
  induction batch generalizing local_max sindex with
  | nil => simp
  | cons e batch ih =>
    rw [List.foldl_cons, ih, OrderedMap.mem_remove]
    simp only [List.mem_cons, forall_eq_or_imp, entrySize]
    tauto

/-- What is inserted for a packet that holds its entry. -/
theorem inserted_eq {p : Packet} {buf : ℕ → UInt64} (hkind : p.kind.IsInsert)
    (hcopy : p.kind = .copy → p.version = p.op.skey ∧ buf 1 = p.version ∧ buf 2 = p.op.pkey)
    (local_max : UInt64) : inserted entrySize local_max (p.msg f) buf =
      if local_max < p.version then some p.entry.record else none := by
  rcases hkind with hkind | hkind | hkind
  · obtain ⟨hskey, hversion, hpkey⟩ := hcopy hkind
    have hwords : (p.msg f).words = [p.version] := by rw [Packet.msg, hkind]; rfl
    simp [inserted, Msg.word, hwords, hversion, hpkey, Entry.record, Packet.entry, ← hskey]
  · have hwords : (p.msg f).words = [p.op.skey, p.version, p.op.pkey] := by
      rw [Packet.msg, hkind]; rfl
    simp [inserted, Msg.word, hwords, Entry.record, Packet.entry]
  · have hwords : (p.msg f).words = [p.op.skey, p.version, p.op.pkey] := by
      rw [Packet.msg, hkind]; rfl
    simp [inserted, Msg.word, hwords, Entry.record, Packet.entry]

/-! ### Steps -/

/-- An insertion stays outstanding when its packet becomes another one that stands for it. -/
theorem State.InsertPending.move {e : Entry} (h : σ.InsertPending e) {ℓ : Loc} {p : Packet}
    {rest new : List (Loc × Packet)} (htake : Take σ.net ℓ p rest) (hnet : σ'.net = rest ++ new)
    (hnew : p.kind.IsUninserted →
      ∃ ℓ' q, (ℓ', q) ∈ new ∧ q.kind.IsUninserted ∧ q.entry = p.entry) : σ'.InsertPending e := by
  obtain ⟨ℓ₀, q, hq, hkind, rfl⟩ := h
  rw [State.InsertPending, hnet]
  rcases List.mem_cons.mp (htake.perm.mem_iff.mp hq) with heq | hrest
  · obtain ⟨rfl, rfl⟩ := Prod.mk.inj heq
    obtain ⟨ℓ', q', hq', hkind', hentry⟩ := hnew hkind
    exact ⟨ℓ', q', List.mem_append_right _ hq', hkind', hentry⟩
  · exact ⟨ℓ₀, q, List.mem_append_left _ hrest, hkind, rfl⟩

/-- A step that changes neither index, nor the deletions, and ends no outstanding insertion. -/
theorem State.Exact.frame (h : σ.Exact) (hpindex : σ'.pindex = σ.pindex)
    (hqueue : σ'.del_queue = σ.del_queue) (hdels : σ'.dels = σ.dels)
    (hsindex : σ'.sindex = σ.sindex) (hdrawn : σ'.drawn = σ.drawn)
    (hpending : ∀ e, σ.InsertPending e → σ'.InsertPending e) : σ'.Exact := by
  have hcurrent (e : Entry) : σ'.Current e ↔ σ.Current e := by
    rw [State.Current, State.Current, hpindex]
  have hdelete (e : Entry) : σ'.DeletePending e ↔ σ.DeletePending e := by
    rw [State.DeletePending, State.DeletePending, hqueue, hdels]
  constructor
  · intro e he
    rw [hsindex]
    exact (h.complete e ((hcurrent e).mp he)).imp_right (hpending e)
  · intro x hx
    rw [hsindex] at hx
    simp only [hcurrent, hdelete]
    exact h.sound x hx
  · simpa only [hcurrent, hdelete] using h.superseded
  · simpa only [hcurrent, hdrawn] using h.current_drawn
  · simpa only [hdelete, hdrawn] using h.delete_drawn

theorem current_appendStep {p : Packet} {rest : List (Loc × Packet)} {time_ns : UInt64}
    {buf : ℕ → UInt64} (hkind : p.kind = .appendReq) {e : Entry} :
    (σ.appendStep f p rest time_ns buf).Current e ↔
      e = ⟨p.op.skey, get_version time_ns (get_data_thread_id_by_load f p.op.coro), p.op.pkey⟩ ∨
        e.pkey ≠ p.op.pkey ∧ σ.Current e := by
  have hwords : (p.msg f).words = [p.op.pkey, p.op.skey] := by rw [Packet.msg, hkind]; rfl
  unfold State.Current State.appendStep append_process_msg
  simp only [Msg.word, hwords]
  obtain ⟨skey, version, pkey⟩ := e
  by_cases hpkey : pkey = p.op.pkey
  · subst hpkey
    simp only [List.getElem?_cons_zero, Option.getD_some, Function.update_self,
      List.getElem?_cons_succ, Option.some.injEq, ValueAndVersion.mk.injEq, Entry.mk.injEq]
    tauto
  · simp [Function.update_of_ne, hpkey]

theorem exists_mem_update_append {queue : UInt8 → List Entry} {t : UInt8} {extra : List Entry}
    {e : Entry} : (∃ u, e ∈ Function.update queue t (queue t ++ extra) u) ↔
      (∃ u, e ∈ queue u) ∨ e ∈ extra := by
  constructor
  · rintro ⟨u, hu⟩
    by_cases hut : u = t
    · subst hut
      rw [Function.update_self] at hu
      exact (List.mem_append.mp hu).imp_left fun hold ↦ ⟨u, hold⟩
    · rw [Function.update_of_ne hut] at hu
      exact Or.inl ⟨u, hu⟩
  · rintro (⟨u, hu⟩ | hextra)
    · by_cases hut : u = t
      · subst hut
        exact ⟨u, by rw [Function.update_self]; exact List.mem_append_left _ hu⟩
      · exact ⟨u, by rwa [Function.update_of_ne hut]⟩
    · exact ⟨t, by rw [Function.update_self]; exact List.mem_append_right _ hextra⟩

/-- The entry that an append supersedes is queued for deletion. -/
theorem deletePending_appendStep {p : Packet} {rest : List (Loc × Packet)} {time_ns : UInt64}
    {buf : ℕ → UInt64} (hkind : p.kind = .appendReq) {e : Entry} :
    (σ.appendStep f p rest time_ns buf).DeletePending e ↔
      σ.DeletePending e ∨ e.pkey = p.op.pkey ∧ σ.Current e := by
  have hwords : (p.msg f).words = [p.op.pkey, p.op.skey] := by rw [Packet.msg, hkind]; rfl
  set t := get_data_thread_id_by_load f p.op.coro with ht
  set extra : List Entry := (σ.pindex p.op.pkey).elim []
    fun old ↦ [⟨old.value, old.version, p.op.pkey⟩] with hextra
  have hqueue : (σ.appendStep f p rest time_ns buf).del_queue =
      Function.update σ.del_queue t (σ.del_queue t ++ extra) := by
    simp only [State.appendStep, append_process_msg, Msg.word, hwords, ← ht,
      List.getElem?_cons_zero, Option.getD_some, hextra]
    cases σ.pindex p.op.pkey <;> simp
  have hmem : e ∈ extra ↔ e.pkey = p.op.pkey ∧ σ.Current e := by
    obtain ⟨skey, version, pkey⟩ := e
    rw [hextra, State.Current]
    cases hold : σ.pindex p.op.pkey with
    | none =>
      simp only [Option.elim_none, List.not_mem_nil, false_iff, not_and]
      rintro rfl
      simp [hold]
    | some old =>
      simp only [Option.elim_some, List.mem_singleton, Entry.mk.injEq]
      constructor
      · rintro ⟨rfl, rfl, rfl⟩
        exact ⟨rfl, hold⟩
      · rintro ⟨rfl, hcurrent⟩
        obtain rfl := Option.some.inj (hold.symm.trans hcurrent)
        exact ⟨rfl, rfl, rfl⟩
  unfold State.DeletePending
  rw [hqueue, exists_mem_update_append, hmem]
  exact or_right_comm

theorem State.Exact.append (h : σ.Exact) {p : Packet} {rest : List (Loc × Packet)}
    {time_ns : UInt64} {buf : ℕ → UInt64} (htake : Take σ.net .data p rest)
    (hkind : p.kind = .appendReq) (hok : GuardDecides f σ (.append p time_ns)) :
    (σ.appendStep f p rest time_ns buf).Exact := by
  set e₀ : Entry :=
    ⟨p.op.skey, get_version time_ns (get_data_thread_id_by_load f p.op.coro), p.op.pkey⟩ with he₀
  have hfresh : e₀ ∉ σ.drawn := hok
  have hdrawn : (σ.appendStep f p rest time_ns buf).drawn = σ.drawn ++ [e₀] := rfl
  have hpending (e : Entry) (he : σ.InsertPending e) :
      (σ.appendStep f p rest time_ns buf).InsertPending e :=
    he.move htake rfl fun hun ↦ absurd hun (by simp [Kind.IsUninserted, hkind])
  constructor
  · intro e he
    rcases (current_appendStep hkind).mp he with rfl | ⟨-, hcurrent⟩
    · exact Or.inr ⟨.switch, ⟨.appendReply, p.op, e₀.version, []⟩,
        List.mem_append_right _ List.mem_cons_self, by simp [Kind.IsUninserted], rfl⟩
    · exact (h.complete e hcurrent).imp_right (hpending e)
  · intro x hx
    obtain ⟨e, rfl, hcurrent | hdelete⟩ := h.sound x hx
    · refine ⟨e, rfl, ?_⟩
      by_cases hpkey : e.pkey = p.op.pkey
      · exact Or.inr ((deletePending_appendStep hkind).mpr (Or.inr ⟨hpkey, hcurrent⟩))
      · exact Or.inl ((current_appendStep hkind).mpr (Or.inr ⟨hpkey, hcurrent⟩))
    · exact ⟨e, rfl, Or.inr ((deletePending_appendStep hkind).mpr (Or.inl hdelete))⟩
  · -- the new entry was not drawn before, so it is not among those to be deleted
    intro e hdelete hcurrent
    have hmem : e ∈ σ.drawn := by
      rcases (deletePending_appendStep hkind).mp hdelete with hold | ⟨-, hold⟩
      · exact h.delete_drawn e hold
      · exact h.current_drawn e hold
    rcases (current_appendStep hkind).mp hcurrent with rfl | ⟨hpkey, hold⟩
    · exact hfresh hmem
    · rcases (deletePending_appendStep hkind).mp hdelete with hdel | ⟨hpkey', -⟩
      · exact h.superseded e hdel hold
      · exact hpkey hpkey'
  · intro e he
    rw [hdrawn]
    rcases (current_appendStep hkind).mp he with rfl | ⟨-, hcurrent⟩
    · exact List.mem_append_right _ List.mem_cons_self
    · exact List.mem_append_left _ (h.current_drawn e hcurrent)
  · intro e he
    rw [hdrawn]
    refine List.mem_append_left _ ?_
    rcases (deletePending_appendStep hkind).mp he with hold | ⟨-, hold⟩
    · exact h.delete_drawn e hold
    · exact h.current_drawn e hold

/-- What was outstanding before an insertion is outstanding after it, except its own. -/
theorem State.InsertPending.take {e : Entry} (h : σ.InsertPending e) {ℓ : Loc} {p : Packet}
    {rest new : List (Loc × Packet)} (htake : Take σ.net ℓ p rest) (hnet : σ'.net = rest ++ new) :
    e = p.entry ∨ σ'.InsertPending e := by
  obtain ⟨ℓ₀, q, hq, hkind, rfl⟩ := h
  rcases List.mem_cons.mp (htake.perm.mem_iff.mp hq) with heq | hrest
  · obtain ⟨rfl, rfl⟩ := Prod.mk.inj heq
    exact Or.inl rfl
  · exact Or.inr ⟨ℓ₀, q, hnet ▸ List.mem_append_left _ hrest, hkind, rfl⟩

theorem State.Exact.insert (h : σ.Exact) {p : Packet} {rest : List (Loc × Packet)}
    {buf : ℕ → UInt64} (htake : Take σ.net .index p rest) (hkind : p.kind.IsInsert)
    (hok : GuardDecides f σ (.insert p buf)) : (σ.insertStep f entrySize p rest buf).Exact := by
  obtain ⟨hcopy, hpass, hstop⟩ := hok
  set σ' := σ.insertStep f entrySize p rest buf with hσ'
  have hpending (e : Entry) (he : σ.InsertPending e) : e = p.entry ∨ σ'.InsertPending e :=
    he.take htake rfl
  by_cases hguard : σ.local_max_del_timestamp (p.op.indexThread f) < p.version
  · have hsindex : σ'.sindex = σ.sindex.put p.entry.record.1 p.entry.record.2 := by
      simp only [hσ', State.insertStep, inserted_eq hkind hcopy, if_pos hguard]
    refine ⟨fun e he ↦ ?_, fun x hx ↦ ?_, h.superseded, h.current_drawn, h.delete_drawn⟩
    · rw [hsindex, OrderedMap.mem_put]
      by_cases hrecord : e.record.1 = p.entry.record.1
      · obtain rfl : e = p.entry := keyBytes_entrySize_inj hrecord
        exact Or.inl (Or.inl rfl)
      · rcases h.complete e he with hmem | hold
        · exact Or.inl (Or.inr ⟨hmem, hrecord⟩)
        · rcases hpending e hold with rfl | hnew
          · exact absurd rfl hrecord
          · exact Or.inr hnew
    · rw [hsindex, OrderedMap.mem_put] at hx
      rcases hx with rfl | ⟨hx, -⟩
      · refine ⟨p.entry, rfl, ?_⟩
        by_contra hneither
        rw [not_or] at hneither
        exact absurd hguard (UInt64.not_lt.mpr (hstop hneither.1 hneither.2))
      · exact h.sound x hx
  · have hsindex : σ'.sindex = σ.sindex := by
      simp only [hσ', State.insertStep, inserted_eq hkind hcopy, if_neg hguard]
    refine ⟨fun e he ↦ ?_, fun x hx ↦ ?_, h.superseded, h.current_drawn, h.delete_drawn⟩
    · rw [hsindex]
      rcases h.complete e he with hmem | hold
      · exact Or.inl hmem
      · rcases hpending e hold with rfl | hnew
        · exact absurd (hpass he) hguard
        · exact Or.inr hnew
    · rw [hsindex] at hx
      exact h.sound x hx

theorem State.Exact.del (h : σ.Exact) {t : UInt8} {batch : List Entry}
    {rest : List (UInt8 × List Entry)} (htake : Take σ.dels t batch rest) :
    (σ.delStep t batch rest).Exact := by
  have hdelete (e : Entry) (he : (σ.delStep t batch rest).DeletePending e) : σ.DeletePending e :=
    he.imp_right fun ⟨u, b, hb, hmem⟩ ↦ ⟨u, b, htake.mem_of_mem hb, hmem⟩
  have hbatch (e : Entry) (he : e ∈ batch) : σ.DeletePending e := Or.inr ⟨t, batch, htake.mem, he⟩
  refine ⟨fun e he ↦ ?_, fun x hx ↦ ?_, fun e he ↦ h.superseded e (hdelete e he),
    h.current_drawn, fun e he ↦ h.delete_drawn e (hdelete e he)⟩
  · refine (h.complete e he).imp_left fun hmem ↦ mem_process_sindex_del.mpr ⟨hmem, ?_⟩
    intro e' he' hkey
    obtain rfl : e = e' := keyBytes_entrySize_inj hkey
    exact h.superseded e (hbatch e he') he
  · obtain ⟨hx, hnot⟩ := mem_process_sindex_del.mp hx
    obtain ⟨e, rfl, hcurrent | hold⟩ := h.sound x hx
    · exact ⟨e, rfl, Or.inl hcurrent⟩
    · refine ⟨e, rfl, Or.inr ?_⟩
      rcases hold with hqueue | ⟨u, b, hb, hmem⟩
      · exact Or.inl hqueue
      · rcases List.mem_cons.mp (htake.perm.mem_iff.mp hb) with heq | hrest
        · obtain ⟨rfl, rfl⟩ := Prod.mk.inj heq
          exact absurd rfl (hnot e hmem)
        · exact Or.inr ⟨u, b, hrest, hmem⟩

/-- Sending a queue of deletions changes where they are. -/
theorem deletePending_send {t : UInt8} {e : Entry} :
    (σ.send_sindex_del f t).DeletePending e ↔ σ.DeletePending e := by
  unfold State.DeletePending State.send_sindex_del
  dsimp only
  constructor
  · rintro (⟨u, hu⟩ | ⟨u, b, hb, hmem⟩)
    · by_cases hut : u = t
      · subst hut
        simp at hu
      · rw [Function.update_of_ne hut] at hu
        exact Or.inl ⟨u, hu⟩
    · rcases List.mem_append.mp hb with hb | hb
      · exact Or.inr ⟨u, b, hb, hmem⟩
      · obtain ⟨rfl, rfl⟩ := Prod.mk.inj (List.mem_singleton.mp hb)
        exact Or.inl ⟨t, hmem⟩
  · rintro (⟨u, hu⟩ | ⟨u, b, hb, hmem⟩)
    · by_cases hut : u = t
      · subst hut
        exact Or.inr ⟨_, _, List.mem_append_right _ List.mem_cons_self, hu⟩
      · exact Or.inl ⟨u, by rwa [Function.update_of_ne hut]⟩
    · exact Or.inr ⟨u, b, List.mem_append_left _ hb, hmem⟩

/-- The invariant is kept by every step that the version test decides as it should. -/
theorem State.Exact.step (h : σ.Exact) (hsound : σ.Sound) (hok : GuardDecides f σ label)
    (hstep : Step f secondary_test entrySize σ label σ') : σ'.Exact := by
  have hmove {ℓ : Loc} {p : Packet} {rest new : List (Loc × Packet)}
      (htake : Take σ.net ℓ p rest) (hnet : σ'.net = rest ++ new)
      (hnew : p.kind.IsUninserted →
        ∃ ℓ' q, (ℓ', q) ∈ new ∧ q.kind.IsUninserted ∧ q.entry = p.entry)
      (e : Entry) (he : σ.InsertPending e) : σ'.InsertPending e :=
    he.move htake hnet hnew
  cases hstep with
  | write | read =>
    refine h.frame rfl rfl rfl rfl rfl fun e ⟨ℓ, p, hp, hkind, hentry⟩ ↦ ?_
    exact ⟨ℓ, p, List.mem_append_left _ hp, hkind, hentry⟩
  | @pass p rest dest htake =>
    exact h.frame rfl rfl rfl rfl rfl
      (hmove htake rfl fun hun ↦ ⟨dest, p, List.mem_cons_self, hun, rfl⟩)
  | @install p rest toIndex toClient htake hinstalled =>
    refine h.frame rfl rfl rfl rfl rfl (hmove htake rfl fun _ ↦
      ⟨.index, { p with kind := toIndex }, List.mem_cons_self, ?_, rfl⟩)
    rcases Kind.installed_eq_some hinstalled with ⟨-, rfl, -⟩ | ⟨-, rfl, -⟩ <;>
      simp [Kind.IsUninserted]
  | hit htake hkind | scan buf htake hkind =>
    exact h.frame rfl rfl rfl rfl rfl
      (hmove htake rfl fun hun ↦ absurd hun (by simp [Kind.IsUninserted, hkind]))
  | clear htake hkind =>
    exact h.frame rfl rfl rfl rfl rfl (hmove htake (List.append_nil _).symm
      fun hun ↦ absurd hun (by simp [Kind.IsUninserted, hkind]))
  | append time_ns buf htake hkind => exact h.append htake hkind hok
  | insert buf htake hkind => exact h.insert htake hkind hok
  | send =>
    refine ⟨h.complete, fun x hx ↦ ?_, fun e he ↦ h.superseded e (deletePending_send.mp he),
      h.current_drawn, fun e he ↦ h.delete_drawn e (deletePending_send.mp he)⟩
    obtain ⟨e, he, hcase⟩ := h.sound x hx
    exact ⟨e, he, hcase.imp_right deletePending_send.mpr⟩
  | del htake => exact h.del htake
  | @client p rest pc op htake hcoro =>
    obtain ⟨rfl, hpc⟩ := hsound.resumed htake hcoro
    have hplaced := hsound.placed _ _ htake.mem
    unfold State.resume at hmove ⊢
    cases pc with
    | put_primary =>
      dsimp only at hmove ⊢
      split_ifs at hmove ⊢ with hfast
      · refine h.frame rfl rfl rfl rfl rfl (hmove htake (List.append_nil _).symm fun hun ↦ ?_)
        cases hkind : p.kind <;>
          simp_all [Kind.pc, Placed, Kind.IsUninserted, Packet.msg, appendReply, reply_to]
      · exact h.frame rfl rfl rfl rfl rfl (hmove htake rfl fun _ ↦
          ⟨.switch, _, List.mem_cons_self, by simp [Kind.IsUninserted], rfl⟩)
    | put_secondary =>
      refine h.frame rfl rfl rfl rfl rfl (hmove htake (List.append_nil _).symm fun hun ↦ ?_)
      cases hkind : p.kind <;> simp_all [Kind.pc, Placed, Kind.IsUninserted]
    | get_secondary =>
      have hun : ¬ p.kind.IsUninserted := by
        cases hkind : p.kind <;> simp_all [Kind.pc, Kind.IsUninserted]
      dsimp only at hmove ⊢
      split_ifs at hmove ⊢
      · exact h.frame rfl rfl rfl rfl rfl
          (hmove htake (List.append_nil _).symm fun h' ↦ absurd h' hun)
      · exact h.frame rfl rfl rfl rfl rfl
          (hmove htake (List.append_nil _).symm fun h' ↦ absurd h' hun)

/-- In a run in which the version test decides each insertion as it should, the index holds exactly
one entry for each primary record, and nothing else, whenever nothing is outstanding. -/
theorem sindex_exact
    (h : Reachable State.initial (Step f secondary_test entrySize) (GuardDecides f) σ)
    (hquiet : σ.Quiet) :
    (∀ e : Entry, e.record ∈ σ.sindex.entries ↔ σ.Current e) ∧
      (∀ x ∈ σ.sindex.entries, ∃ e : Entry, x = e.record) ∧
      ∀ pkey record, σ.pindex pkey = some record →
        ∃! e : Entry, e.pkey = pkey ∧ e.record ∈ σ.sindex.entries := by
  obtain ⟨-, hexact⟩ := h.invariant (fun σ ↦ σ.Sound ∧ σ.Exact)
    ⟨State.Sound.initial, State.Exact.initial⟩ fun _ _ _ _ hinv hok hstep ↦
      ⟨hinv.1.step hstep, hinv.2.step hinv.1 hok hstep⟩
  obtain ⟨hnet, hdels, hqueue⟩ := hquiet
  have hinsert (e : Entry) : ¬ σ.InsertPending e := by
    rintro ⟨ℓ, p, hp, -⟩
    rw [hnet] at hp
    exact List.not_mem_nil hp
  have hdelete (e : Entry) : ¬ σ.DeletePending e := by
    rintro (⟨t, ht⟩ | ⟨t, batch, hbatch, -⟩)
    · rw [hqueue] at ht
      exact List.not_mem_nil ht
    · rw [hdels] at hbatch
      exact List.not_mem_nil hbatch
  have hiff (e : Entry) : e.record ∈ σ.sindex.entries ↔ σ.Current e := by
    constructor
    · intro hmem
      obtain ⟨e', he', hcurrent | hold⟩ := hexact.sound _ hmem
      · exact Entry.record_injective he' ▸ hcurrent
      · exact absurd hold (hdelete e')
    · intro hcurrent
      exact (hexact.complete e hcurrent).resolve_right (hinsert e)
  refine ⟨hiff, fun x hx ↦ ?_, fun pkey record hrecord ↦ ?_⟩
  · obtain ⟨e, he, -⟩ := hexact.sound x hx
    exact ⟨e, he⟩
  · refine ⟨⟨record.value, record.version, pkey⟩, ⟨rfl, (hiff _).mpr hrecord⟩, ?_⟩
    rintro ⟨skey, version, pkey'⟩ ⟨hpkey, hmem⟩
    obtain rfl : pkey' = pkey := hpkey
    have hcurrent : σ.pindex pkey' = some ⟨skey, version⟩ := (hiff _).mp hmem
    obtain rfl := Option.some.inj (hrecord.symm.trans hcurrent)
    rfl

/-- One thread at each node, and a switch that is not used. -/
def plainFlags : Flags := ⟨1, 1, 1, 2, 1, 1, false, false, 1⟩

/-- The eight deliveries of a slow write whose packet is at a position, at a time. -/
def slowWrite (op : Op) (position : ℕ) (time_ns : UInt64) : List Move :=
  .write op :: List.replicate 8 (.deliver position false time_ns)

/-- The step draws a new version, or inserts the entry of a primary record. -/
def insertsCurrent (f : Flags) (σ : State) : Label → Bool
  | .append p time_ns => decide
    (⟨p.op.skey, get_version time_ns (get_data_thread_id_by_load f p.op.coro), p.op.pkey⟩ ∉ σ.drawn)
  | .insert p _ => decide (p.kind ≠ .copy ∧ σ.Current p.entry ∧
      σ.local_max_del_timestamp (p.op.indexThread f) < p.version)
  | _ => true

theorem guardDecides_of_insertsCurrent (h : insertsCurrent f σ label = true) :
    GuardDecides f σ label := by
  cases label with
  | append p time_ns => exact of_decide_eq_true (p := _ ∉ σ.drawn) h
  | insert p buf =>
    obtain ⟨hkind, hcurrent, hguard⟩ := of_decide_eq_true (p := _ ∧ _ ∧ _) h
    exact ⟨fun hcopy ↦ absurd hcopy hkind, fun _ ↦ hguard, fun hnot ↦ absurd hcurrent hnot⟩
  | _ => trivial

theorem sindex_exact_one_write : ∃ σ : State, σ.Quiet ∧ σ.Current ⟨9, get_version 1 0, 7⟩ ∧
    (⟨9, get_version 1 0, 7⟩ : Entry).record ∈ σ.sindex.entries := by
  have hsome : ((execAll plainFlags true entrySize (insertsCurrent plainFlags) State.initial
      (slowWrite ⟨⟨2, 0, 0⟩, 7, 9⟩ 0 1)).map fun σ ↦
        decide (σ.net = [] ∧ σ.dels = [] ∧ (∀ t, σ.del_queue t = []) ∧
          σ.Current ⟨9, get_version 1 0, 7⟩)) = some true := by
    decide +kernel
  obtain ⟨σ, hexec, hσ⟩ := Option.map_eq_some_iff.mp hsome
  obtain ⟨hnet, hdels, hqueue, hcurrent⟩ := of_decide_eq_true hσ
  have hreach := execAll_reachable (fun _ _ _ h ↦ guardDecides_of_insertsCurrent h)
    Reachable.init hexec
  exact ⟨σ, ⟨hnet, hdels, hqueue⟩, hcurrent,
    ((sindex_exact hreach ⟨hnet, hdels, hqueue⟩).1 _).mpr hcurrent⟩

/-- A write waits at the index node while another record is rewritten so often that the deletion of
its entries is sent. -/
def overtakenMoves : List Move :=
  .write ⟨⟨2, 0, 0⟩, 7, 9⟩ :: List.replicate 5 (.deliver 0 false 1) ++
    (List.range 33).flatMap (fun n ↦ slowWrite ⟨⟨2, 0, 1⟩, 8, 9⟩ 1 (UInt64.ofNat (n + 2))) ++
    [.send 0, .del 0] ++ List.replicate 3 (.deliver 0 false 0)

/-- The entry of a primary record is refused, since its version is below one that was deleted for
another record. -/
theorem current_entry_suppressed : ∃ σ : State,
    Reachable State.initial (Step plainFlags true entrySize) (fun _ _ ↦ True) σ ∧ σ.Quiet ∧
      σ.Current ⟨9, get_version 1 0, 7⟩ ∧
      (⟨9, get_version 1 0, 7⟩ : Entry).record ∉ σ.sindex.entries := by
  have hsome : ((execAll plainFlags true entrySize (fun _ _ ↦ true) State.initial
      overtakenMoves).map fun σ ↦
        decide (σ.net = [] ∧ σ.dels = [] ∧ (∀ t, σ.del_queue t = []) ∧
          σ.Current ⟨9, get_version 1 0, 7⟩ ∧
          (⟨9, get_version 1 0, 7⟩ : Entry).record ∉ σ.sindex.entries)) = some true := by
    decide +kernel
  obtain ⟨σ, hexec, hσ⟩ := Option.map_eq_some_iff.mp hsome
  obtain ⟨hnet, hdels, hqueue, hcurrent, hmissing⟩ := of_decide_eq_true hσ
  exact ⟨σ, execAll_reachable (fun _ _ _ _ ↦ trivial) Reachable.init hexec, ⟨hnet, hdels, hqueue⟩,
    hcurrent, hmissing⟩

end SwitchDelta.Secondary
