import SwitchDelta.Secondary.Exactness

/-!
# What a read of the secondary index finds

A write names its slot in the switch by its primary key and a read by its secondary key, so a read
does not find a write in the switch but only in the index. A fast write ends before it is inserted,
and so does a slow one whose `UpdateIndexReq` the switch has installed. In a run in which writes end
that way only after they were inserted, every read finds the writes that had ended before it began.

The keys in the index are the first twelve bytes of an entry, so a read finds an entry only if no
other one has taken its place, and if the low half of its version is not zero: the scan starts behind
such a key.
-/

set_option autoImplicit false
set_option relaxedAutoImplicit false

namespace SwitchDelta.Secondary

open Foundation Kv

/-- An entry under the key that is inserted for it. -/
def Entry.short (e : Entry) : List ℕ × UInt64 :=
  (keyBytes insertKeySize e.skey e.version e.pkey, e.pkey)

/-- Fewer than ten entries have the secondary key. -/
def State.Few (σ : State) (skey : UInt64) : Prop :=
  (σ.sindex.entries.filter fun x ↦ bytesLE skey <+: x.1).length < 10

/-- A read is answered with every write of its secondary key that had ended when it began and whose
record was not replaced. The answer of the switch is the request itself. -/
def ReadsFresh (f : Flags) (σ : State) : Label → Prop
  | .scan p buf => ∀ e ∈ σ.floor p.op.coro, e.skey = p.op.skey → σ.Current e → σ.Few p.op.skey →
      e.pkey ∈ secondary_scan f σ.sindex p buf
  | .hit p => ∀ e ∈ σ.floor p.op.coro, e.skey = p.op.skey → σ.Current e → σ.Few p.op.skey →
      e.pkey ∈ p.keys
  | _ => True

/-- A write ends through the switch only after it was inserted, the insertion of the entry of a
primary record is not refused and takes no other's place, a read is not answered by the switch while
there is a write to be found, and versions are new and do not end in four zero bytes. -/
def EndsInserted (f : Flags) (σ : State) : Label → Prop
  | .append p time_ns =>
    let version := get_version time_ns (get_data_thread_id_by_load f p.op.coro)
    ⟨p.op.skey, version, p.op.pkey⟩ ∉ σ.drawn ∧ version.toUInt32 ≠ 0
  | .insert p buf =>
    (p.kind = .updateReq → σ.Current p.entry →
      σ.local_max_del_timestamp (p.op.indexThread f) < p.version) ∧
      ∀ key value, inserted insertKeySize (σ.local_max_del_timestamp (p.op.indexThread f)) (p.msg f)
        buf = some (key, value) → ∀ e, σ.Current e → e.short.1 = key → value = e.pkey
  | .client p => p.kind = .answer ∨ p.kind = .updateAnswer → σ.Current p.entry →
      p.entry.short ∈ σ.sindex.entries
  | .hit p => ∀ e ∈ σ.floor p.op.coro, e.skey = p.op.skey → ¬ σ.Current e
  | _ => True

/-! ### The scan -/

theorem keyBytes_scan (skey : UInt64) :
    keyBytes 24 skey 0 0 = bytesLE skey ++ List.replicate 16 0 := rfl

/-- A list is behind as many zeros as it has places if one of them is not zero. -/
theorem replicate_zero_le {l : List ℕ} {n : ℕ} (h : ∃ b ∈ l, b ≠ 0) : List.replicate n 0 ≤ l := by
  induction l generalizing n with
  | nil => simp at h
  | cons b l ih =>
    cases n with
    | zero => exact (List.nil_lt_cons b l).le
    | succ n =>
      rw [List.replicate_succ, cons_le_cons_iff]
      rcases Nat.eq_zero_or_pos b with rfl | hpos
      · refine Or.inr ⟨rfl, ih ?_⟩
        simpa using h
      · exact Or.inl hpos

/-- A read finds an entry of its secondary key when there are fewer than ten. -/
theorem mem_secondary_scan {f : Flags} {σ : State} {p : Packet} {buf : ℕ → UInt64} {e : Entry}
    (hkind : p.kind = .readReq) (hskey : e.skey = p.op.skey) (hlow : e.version.toUInt32 ≠ 0)
    (hmem : e.short ∈ σ.sindex.entries) (hfew : σ.Few p.op.skey) :
    e.pkey ∈ secondary_scan f σ.sindex p buf := by
  have hwords : (p.msg f).words = [p.op.skey] := by rw [Packet.msg, hkind]; rfl
  have hkey : e.short.1 = bytesLE p.op.skey ++ (bytesLE e.version).take 4 := by
    rw [Entry.short, keyBytes_twelve, hskey]
  have hbyte : ∃ b ∈ (bytesLE e.version).take 4, b ≠ 0 := by
    by_contra hzero
    push Not at hzero
    refine hlow ((take_bytesLE_eq_iff (w := 0)).mp ?_)
    rw [List.eq_replicate_of_mem hzero]
    rfl
  have hstart : bytesLE p.op.skey ++ List.replicate 16 0 ≤ e.short.1 :=
    hkey ▸ append_le_append (replicate_zero_le hbyte)
  unfold secondary_scan
  rw [Msg.word, hwords]
  refine OrderedMap.mem_scan hmem hstart (lt_of_le_of_lt ?_ hfew)
  refine (List.monotone_filter_right _ fun x hx ↦ ?_).length_le
  obtain ⟨hlo, hhi⟩ : keyBytes 24 p.op.skey 0 0 ≤ x.1 ∧ x.1 < e.short.1 := by
    simpa using hx
  rw [decide_eq_true_eq]
  exact isPrefix_of_between (keyBytes_scan p.op.skey ▸ hlo) (hkey ▸ hhi.le)

/-! ### The invariant -/

/-- The kinds of packets that carry a version. -/
def Kind.HasVersion (kind : Kind) : Prop :=
  kind ∉ [.appendReq, .readReq, .readHit, .readReply]

/-- The writes that have ended and those whose insertion is acknowledged are in the index, if their
records were not replaced. -/
structure State.Visible (σ : State) : Prop where
  completed : ∀ e ∈ σ.completed, σ.Current e → e.short ∈ σ.sindex.entries
  replied : ∀ ℓ p, (ℓ, p) ∈ σ.net → p.kind = .updateReply → σ.Current p.entry →
    p.entry.short ∈ σ.sindex.entries
  net_drawn : ∀ ℓ p, (ℓ, p) ∈ σ.net → p.kind.HasVersion → p.entry ∈ σ.drawn
  completed_drawn : ∀ e ∈ σ.completed, e ∈ σ.drawn
  current_drawn : ∀ e, σ.Current e → e ∈ σ.drawn
  low : ∀ e ∈ σ.drawn, e.version.toUInt32 ≠ 0
  floor : ∀ c, ∀ e ∈ σ.floor c, e ∈ σ.completed

theorem State.Visible.initial : State.initial.Visible where
  completed := fun _ h ↦ absurd h List.not_mem_nil
  replied := fun _ _ h ↦ absurd h List.not_mem_nil
  net_drawn := fun _ _ h ↦ absurd h List.not_mem_nil
  completed_drawn := fun _ h ↦ absurd h List.not_mem_nil
  current_drawn := fun _ h ↦ absurd h (by simp [State.Current, State.initial])
  low := fun _ h ↦ absurd h List.not_mem_nil
  floor := fun _ _ h ↦ absurd h List.not_mem_nil

variable {f : Flags} {secondary_test : Bool} {σ σ' : State} {label : Label}

/-- A step that changes neither index: packets keep their entries, and a write that ends was in the
index if its record is there. -/
theorem State.Visible.frame (h : σ.Visible) (hpindex : σ'.pindex = σ.pindex)
    (hsindex : σ'.sindex = σ.sindex) (hdrawn : σ'.drawn = σ.drawn)
    (hnet : ∀ ℓ q, (ℓ, q) ∈ σ'.net → q.kind.HasVersion →
      ∃ ℓ' p, (ℓ', p) ∈ σ.net ∧ p.kind.HasVersion ∧ p.entry = q.entry ∧
        (q.kind = .updateReply → p.kind = .updateReply))
    (hcompleted : ∀ e ∈ σ'.completed, e ∈ σ.completed ∨ e ∈ σ.drawn ∧
      (σ.Current e → e.short ∈ σ.sindex.entries))
    (hgrows : ∀ e ∈ σ.completed, e ∈ σ'.completed)
    (hfloor : ∀ c, ∀ e ∈ σ'.floor c, e ∈ σ.completed) : σ'.Visible := by
  have hcurrent (e : Entry) : σ'.Current e ↔ σ.Current e := by
    rw [State.Current, State.Current, hpindex]
  refine ⟨?_, ?_, ?_, ?_, ?_, ?_, ?_⟩
  · intro e he hcur
    rw [hsindex]
    rcases hcompleted e he with hold | ⟨-, hin⟩
    · exact h.completed e hold ((hcurrent e).mp hcur)
    · exact hin ((hcurrent e).mp hcur)
  · intro ℓ q hq hkind hcur
    obtain ⟨ℓ', p, hp, -, hentry, hreply⟩ := hnet ℓ q hq (by simp [Kind.HasVersion, hkind])
    rw [hsindex, ← hentry]
    rw [← hentry] at hcur
    exact h.replied ℓ' p hp (hreply hkind) ((hcurrent _).mp hcur)
  · intro ℓ q hq hversion
    obtain ⟨ℓ', p, hp, hpversion, hentry, -⟩ := hnet ℓ q hq hversion
    rw [hdrawn, ← hentry]
    exact h.net_drawn ℓ' p hp hpversion
  · intro e he
    rw [hdrawn]
    rcases hcompleted e he with hold | ⟨hmem, -⟩
    · exact h.completed_drawn e hold
    · exact hmem
  · exact fun e he ↦ hdrawn ▸ h.current_drawn e ((hcurrent e).mp he)
  · exact fun e he ↦ h.low e (hdrawn ▸ he)
  · exact fun c e he ↦ hgrows e (hfloor c e he)

/-- The packets after a step are old ones, or new ones with the entry of the one that was taken. -/
theorem exists_packet {ℓ : Loc} {p : Packet} {rest new : List (Loc × Packet)}
    (htake : Take σ.net ℓ p rest) (hnet : σ'.net = rest ++ new)
    (hnew : ∀ ℓ' q, (ℓ', q) ∈ new → q.kind.HasVersion → p.kind.HasVersion ∧ q.entry = p.entry ∧
      (q.kind = .updateReply → p.kind = .updateReply)) (ℓ' : Loc) (q : Packet)
    (hq : (ℓ', q) ∈ σ'.net) (hversion : q.kind.HasVersion) :
    ∃ ℓ'' p, (ℓ'', p) ∈ σ.net ∧ p.kind.HasVersion ∧ p.entry = q.entry ∧
      (q.kind = .updateReply → p.kind = .updateReply) := by
  rw [hnet] at hq
  rcases List.mem_append.mp hq with hq | hq
  · exact ⟨ℓ', q, htake.mem_of_mem hq, hversion, rfl, id⟩
  · obtain ⟨hp, hentry, hreply⟩ := hnew ℓ' q hq hversion
    exact ⟨ℓ, p, htake.mem, hp, hentry.symm, hreply⟩

theorem State.Visible.append (h : σ.Visible) {p : Packet} {rest : List (Loc × Packet)}
    {time_ns : UInt64} {buf : ℕ → UInt64} (htake : Take σ.net .data p rest)
    (hkind : p.kind = .appendReq) (hok : EndsInserted f σ (.append p time_ns)) :
    (σ.appendStep f p rest time_ns buf).Visible := by
  set e₀ : Entry :=
    ⟨p.op.skey, get_version time_ns (get_data_thread_id_by_load f p.op.coro), p.op.pkey⟩ with he₀
  obtain ⟨hfresh, hlow⟩ := hok
  have hdrawn : (σ.appendStep f p rest time_ns buf).drawn = σ.drawn ++ [e₀] := rfl
  -- an entry that was drawn before has not become current
  have hcurrent (e : Entry) (he : e ∈ σ.drawn)
      (hcur : (σ.appendStep f p rest time_ns buf).Current e) : σ.Current e := by
    rcases (current_appendStep hkind).mp hcur with rfl | ⟨-, hold⟩
    · exact absurd he hfresh
    · exact hold
  refine ⟨?_, ?_, ?_, ?_, ?_, ?_, h.floor⟩
  · exact fun e he hcur ↦ h.completed e he (hcurrent e (h.completed_drawn e he) hcur)
  · intro ℓ q hq hreply hcur
    rcases List.mem_append.mp hq with hq | hq
    · have hmem := htake.mem_of_mem hq
      refine h.replied ℓ q hmem hreply (hcurrent _ (h.net_drawn ℓ q hmem ?_) hcur)
      simp [Kind.HasVersion, hreply]
    · obtain ⟨rfl, rfl⟩ := Prod.mk.inj (List.mem_singleton.mp hq)
      cases hreply
  · intro ℓ q hq hversion
    rw [hdrawn]
    rcases List.mem_append.mp hq with hq | hq
    · exact List.mem_append_left _ (h.net_drawn ℓ q (htake.mem_of_mem hq) hversion)
    · obtain ⟨rfl, rfl⟩ := Prod.mk.inj (List.mem_singleton.mp hq)
      exact List.mem_append_right _ List.mem_cons_self
  · exact fun e he ↦ List.mem_append_left _ (h.completed_drawn e he)
  · intro e he
    rw [hdrawn]
    rcases (current_appendStep hkind).mp he with rfl | ⟨-, hold⟩
    · exact List.mem_append_right _ List.mem_cons_self
    · exact List.mem_append_left _ (h.current_drawn e hold)
  · intro e he
    rw [hdrawn] at he
    rcases List.mem_append.mp he with he | he
    · exact h.low e he
    · rw [List.mem_singleton.mp he]
      exact hlow

/-- A step that changes the index keeps the entries of the primary records that are there. -/
theorem State.Visible.reindex (h : σ.Visible) (hpindex : σ'.pindex = σ.pindex)
    (hdrawn : σ'.drawn = σ.drawn) (hcompleted : σ'.completed = σ.completed)
    (hfloor : σ'.floor = σ.floor)
    (hkeep : ∀ e, σ.Current e → e.short ∈ σ.sindex.entries → e.short ∈ σ'.sindex.entries)
    (hnet : ∀ ℓ q, (ℓ, q) ∈ σ'.net → q.kind.HasVersion → q.entry ∈ σ.drawn ∧
      (q.kind = .updateReply → σ.Current q.entry → q.entry.short ∈ σ'.sindex.entries)) :
    σ'.Visible := by
  have hcurrent (e : Entry) : σ'.Current e ↔ σ.Current e := by
    rw [State.Current, State.Current, hpindex]
  refine ⟨?_, ?_, ?_, ?_, ?_, ?_, ?_⟩
  · intro e he hcur
    rw [hcompleted] at he
    rw [hcurrent] at hcur
    exact hkeep e hcur (h.completed e he hcur)
  · intro ℓ q hq hkind hcur
    exact (hnet ℓ q hq (by simp [Kind.HasVersion, hkind])).2 hkind ((hcurrent _).mp hcur)
  · exact fun ℓ q hq hversion ↦ hdrawn ▸ (hnet ℓ q hq hversion).1
  · exact fun e he ↦ hdrawn ▸ h.completed_drawn e (hcompleted ▸ he)
  · exact fun e he ↦ hdrawn ▸ h.current_drawn e ((hcurrent e).mp he)
  · exact fun e he ↦ h.low e (hdrawn ▸ he)
  · rw [hfloor, hcompleted]
    exact h.floor

theorem State.Visible.insert (h : σ.Visible) {p : Packet} {rest : List (Loc × Packet)}
    {buf : ℕ → UInt64} (htake : Take σ.net .index p rest) (hkind : p.kind.IsInsert)
    (hok : EndsInserted f σ (.insert p buf)) :
    (σ.insertStep f insertKeySize p rest buf).Visible := by
  obtain ⟨hpass, hplace⟩ := hok
  have hversion : p.kind.HasVersion := by
    rcases hkind with hkind | hkind | hkind <;> simp [Kind.HasVersion, hkind]
  have hkeep (e : Entry) (hcur : σ.Current e) (hmem : e.short ∈ σ.sindex.entries) :
      e.short ∈ (σ.insertStep f insertKeySize p rest buf).sindex.entries := by
    simp only [State.insertStep]
    split
    · rename_i key value hinserted
      rw [OrderedMap.mem_put]
      by_cases hkey : e.short.1 = key
      · refine Or.inl (Prod.ext hkey ?_)
        exact (hplace key value hinserted e hcur hkey).symm
      · exact Or.inr ⟨hmem, hkey⟩
    · exact hmem
  refine h.reindex rfl rfl rfl rfl hkeep fun ℓ q hq hqversion ↦ ?_
  rcases List.mem_append.mp hq with hq | hq
  · have hmem := htake.mem_of_mem hq
    exact ⟨h.net_drawn ℓ q hmem hqversion, fun hreply hcur ↦
      hkeep _ hcur (h.replied ℓ q hmem hreply hcur)⟩
  · obtain ⟨rfl, rfl⟩ := Prod.mk.inj (List.mem_singleton.mp hq)
    refine ⟨h.net_drawn .index p htake.mem hversion, fun hreply hcur ↦ ?_⟩
    -- only the reply to an `UpdateIndexReq` is waited for, and this was not refused
    have hupdate : p.kind = .updateReq := by
      rcases hkind with hkind | hkind | hkind <;> simp_all [Kind.indexReply]
    have hguard := hpass hupdate hcur
    have hwords : (p.msg f).words = [p.op.skey, p.version, p.op.pkey] := by
      rw [Packet.msg, hupdate]; rfl
    have hinserted : inserted insertKeySize (σ.local_max_del_timestamp (p.op.indexThread f))
        (p.msg f) buf = some (p.entry.short.1, p.entry.short.2) := by
      simp [inserted, Msg.word, hwords, hguard, Entry.short, Packet.entry]
    simp only [State.insertStep, hinserted]
    exact OrderedMap.mem_put.mpr (Or.inl rfl)

/-- A deletion removes keys of whole entries, and finds none. -/
theorem State.Visible.del (h : σ.Visible) {t : UInt8} {batch : List Entry}
    {rest : List (UInt8 × List Entry)} : (σ.delStep t batch rest).Visible := by
  have hkeep (e : Entry) (hmem : e.short ∈ σ.sindex.entries) :
      e.short ∈ (σ.delStep t batch rest).sindex.entries := by
    refine mem_process_sindex_del.mpr ⟨hmem, fun e' _ hkey ↦ ?_⟩
    have hlength := congrArg List.length hkey
    simp [Entry.short, keyBytes_twelve, keyBytes_entrySize] at hlength
  refine h.reindex rfl rfl rfl rfl (fun e _ hmem ↦ hkeep e hmem) fun ℓ q hq hversion ↦ ?_
  exact ⟨h.net_drawn ℓ q hq hversion, fun hreply hcur ↦ hkeep _ (h.replied ℓ q hq hreply hcur)⟩

/-- The invariant is kept by every step that meets the condition. -/
theorem State.Visible.step (h : σ.Visible) (hsound : σ.Sound) (hok : EndsInserted f σ label)
    (hstep : Step f secondary_test insertKeySize σ label σ') : σ'.Visible := by
  cases hstep with
  | write | read =>
    refine h.frame rfl rfl rfl (fun ℓ q hq hversion ↦ ?_) (fun e he ↦ Or.inl he)
      (fun e he ↦ he) (fun c e he ↦ ?_)
    · rcases List.mem_append.mp hq with hq | hq
      · exact ⟨ℓ, q, hq, hversion, rfl, id⟩
      · obtain ⟨rfl, rfl⟩ := Prod.mk.inj (List.mem_singleton.mp hq)
        simp [Kind.HasVersion] at hversion
    · simp only [State.begin, Function.update_apply] at he
      split_ifs at he
      · exact he
      · exact h.floor c e he
  | pass htake =>
    refine h.frame rfl rfl rfl (exists_packet htake rfl fun ℓ' q hq hversion ↦ ?_)
      (fun e he ↦ Or.inl he) (fun e he ↦ he) h.floor
    obtain ⟨rfl, rfl⟩ := Prod.mk.inj (List.mem_singleton.mp hq)
    exact ⟨hversion, rfl, id⟩
  | @install p rest toIndex toClient htake hinstalled =>
    refine h.frame rfl rfl rfl (exists_packet htake rfl fun ℓ' q hq hversion ↦ ?_)
      (fun e he ↦ Or.inl he) (fun e he ↦ he) h.floor
    simp only [List.mem_cons, Prod.mk.injEq, List.not_mem_nil, or_false] at hq
    rcases Kind.installed_eq_some hinstalled with ⟨hkind, rfl, rfl⟩ | ⟨hkind, rfl, rfl⟩ <;>
      rcases hq with ⟨rfl, rfl⟩ | ⟨rfl, rfl⟩ <;> simp [hkind, Kind.HasVersion, Packet.entry]
  | hit htake hkind | scan buf htake hkind =>
    refine h.frame rfl rfl rfl (exists_packet htake rfl fun ℓ' q hq hversion ↦ ?_)
      (fun e he ↦ Or.inl he) (fun e he ↦ he) h.floor
    obtain ⟨rfl, rfl⟩ := Prod.mk.inj (List.mem_singleton.mp hq)
    simp [Kind.HasVersion] at hversion
  | clear htake hkind =>
    exact h.frame rfl rfl rfl (exists_packet htake (List.append_nil _).symm
      fun ℓ' q hq ↦ absurd hq List.not_mem_nil) (fun e he ↦ Or.inl he) (fun e he ↦ he) h.floor
  | append time_ns buf htake hkind => exact h.append htake hkind hok
  | insert buf htake hkind => exact h.insert htake hkind hok
  | send =>
    exact h.frame rfl rfl rfl (fun ℓ q hq hversion ↦ ⟨ℓ, q, hq, hversion, rfl, id⟩)
      (fun e he ↦ Or.inl he) (fun e he ↦ he) h.floor
  | del => exact h.del
  | @client p rest pc op htake hcoro =>
    obtain ⟨rfl, hpc⟩ := hsound.resumed htake hcoro
    have hplaced := hsound.placed _ _ htake.mem
    -- a write that ends is in the index, by the condition or because its insertion was acknowledged
    have hends (hkind : p.kind ∈ [.answer, .updateAnswer, .updateReply]) :
        p.entry ∈ σ.drawn ∧ (σ.Current p.entry → p.entry.short ∈ σ.sindex.entries) := by
      simp only [List.mem_cons, List.not_mem_nil, or_false] at hkind
      refine ⟨h.net_drawn _ _ htake.mem ?_, fun hcur ↦ ?_⟩
      · rcases hkind with hkind | hkind | hkind <;> simp [Kind.HasVersion, hkind]
      · rcases hkind with hkind | hkind | hkind
        · exact hok (Or.inl hkind) hcur
        · exact hok (Or.inr hkind) hcur
        · exact h.replied _ _ htake.mem hkind hcur
    have hgone : ∀ ℓ' q, (ℓ', q) ∈ rest → q.kind.HasVersion → ∃ ℓ'' r, (ℓ'', r) ∈ σ.net ∧
        r.kind.HasVersion ∧ r.entry = q.entry ∧ (q.kind = .updateReply → r.kind = .updateReply) :=
      fun ℓ' q hq hversion ↦ ⟨ℓ', q, htake.mem_of_mem hq, hversion, rfl, id⟩
    have hended (hkind : p.kind ∈ [.answer, .updateAnswer, .updateReply]) (e : Entry)
        (he : e ∈ σ.completed ++ [p.entry]) : e ∈ σ.completed ∨ e ∈ σ.drawn ∧
          (σ.Current e → e.short ∈ σ.sindex.entries) := by
      rcases List.mem_append.mp he with he | he
      · exact Or.inl he
      · rw [List.mem_singleton.mp he]
        exact Or.inr (hends hkind)
    unfold State.resume
    cases pc with
    | put_primary =>
      dsimp only
      split_ifs with hfast
      · refine h.frame rfl rfl rfl hgone (hended ?_) (fun e he ↦ List.mem_append_left _ he) h.floor
        cases hkind : p.kind <;>
          simp_all [Kind.pc, Placed, Packet.msg, appendReply, reply_to]
      · refine h.frame rfl rfl rfl (exists_packet htake rfl fun ℓ' q hq hversion ↦ ?_)
          (fun e he ↦ Or.inl he) (fun e he ↦ he) h.floor
        obtain ⟨rfl, rfl⟩ := Prod.mk.inj (List.mem_singleton.mp hq)
        refine ⟨?_, rfl, fun hreply ↦ by cases hreply⟩
        cases hkind : p.kind <;> simp_all [Kind.pc, Placed, Kind.HasVersion]
    | put_secondary =>
      refine h.frame rfl rfl rfl hgone (hended ?_) (fun e he ↦ List.mem_append_left _ he) h.floor
      cases hkind : p.kind <;> simp_all [Kind.pc, Placed]
    | get_secondary =>
      dsimp only
      split_ifs
      · exact h.frame rfl rfl rfl hgone (fun e he ↦ Or.inl he) (fun e he ↦ he) h.floor
      · exact h.frame rfl rfl rfl hgone (fun e he ↦ Or.inl he) (fun e he ↦ he) h.floor

theorem State.Visible.of_reachable
    (h : Reachable State.initial (Step f secondary_test insertKeySize) (EndsInserted f) σ) :
    σ.Visible := by
  refine (h.invariant (fun σ ↦ σ.Sound ∧ σ.Visible) ⟨State.Sound.initial, State.Visible.initial⟩
    fun _ _ _ _ hinv hok hstep ↦ ?_).2
  exact ⟨hinv.1.step hstep, hinv.2.step hinv.1 hok hstep⟩

/-- In a run in which writes end through the switch only after they were inserted, every read is
answered with the writes that had ended before it began. -/
theorem secondary_reads_fresh
    (h : Reachable State.initial (Step f secondary_test insertKeySize) (EndsInserted f) σ)
    (hok : EndsInserted f σ label) (hstep : Step f secondary_test insertKeySize σ label σ') :
    ReadsFresh f σ label := by
  have hvisible := State.Visible.of_reachable h
  cases hstep with
  | scan buf htake hkind =>
    intro e he hskey hcurrent hfew
    have hcompleted := hvisible.floor _ e he
    exact mem_secondary_scan hkind hskey (hvisible.low e (hvisible.completed_drawn e hcompleted))
      (hvisible.completed e hcompleted hcurrent) hfew
  | hit => exact fun e he hskey hcurrent ↦ absurd hcurrent (hok e he hskey)
  | _ => trivial

/-- One thread at each node, and a switch that is used. -/
def visibleFlags : Flags := ⟨1, 1, 1, 2, 1, 1, true, false, 1⟩

/-- The step draws the first version, inserts its entry, or ends a write that was inserted. -/
def firstWriteSlow (σ : State) : Label → Bool
  | .append p time_ns => decide (σ.drawn = [] ∧
      (get_version time_ns (get_data_thread_id_by_load visibleFlags p.op.coro)).toUInt32 ≠ 0)
  | .insert p _ => decide (p.kind = .updateReq ∧ σ.drawn = [p.entry] ∧
      σ.local_max_del_timestamp (p.op.indexThread visibleFlags) < p.version)
  | .client p => decide (p.kind ≠ .answer ∧ p.kind ≠ .updateAnswer)
  | .hit _ => false
  | _ => true

theorem endsInserted_of_firstWriteSlow
    (hσ : Reachable State.initial (Step visibleFlags secondary_test insertKeySize)
      (EndsInserted visibleFlags) σ) (h : firstWriteSlow σ label = true) :
    EndsInserted visibleFlags σ label := by
  cases label with
  | append p time_ns =>
    obtain ⟨hdrawn, hlow⟩ := of_decide_eq_true (p := _ ∧ _) h
    exact ⟨by simp [hdrawn], hlow⟩
  | insert p buf =>
    obtain ⟨hkind, hdrawn, hguard⟩ := of_decide_eq_true (p := _ ∧ _ ∧ _) h
    refine ⟨fun _ _ ↦ hguard, fun key value hinserted e hcurrent _ ↦ ?_⟩
    have hentry : e = p.entry := by
      simpa [hdrawn] using (State.Visible.of_reachable hσ).current_drawn e hcurrent
    have hwords : (p.msg visibleFlags).words = [p.op.skey, p.version, p.op.pkey] := by
      rw [Packet.msg, hkind]; rfl
    simp only [inserted, Msg.word, hwords, Option.ite_none_right_eq_some, Option.some.injEq,
      Prod.mk.injEq] at hinserted
    rw [hentry, ← hinserted.2.2]
    rfl
  | client p =>
    obtain ⟨hanswer, hupdate⟩ := of_decide_eq_true (p := _ ∧ _) h
    rintro (hkind | hkind)
    · exact absurd hkind hanswer
    · exact absurd hkind hupdate
  | hit p => cases h
  | _ => trivial

/-- A read of the secondary key nine. -/
def readOfNine : Packet := ⟨.readReq, ⟨⟨2, 0, 1⟩, 5, 9⟩, 0, []⟩

/-- A write of the primary key seven under the secondary key nine that the switch refuses, and a read
that has come to the index node. -/
def refusedMoves : List Move :=
  slowWrite ⟨⟨2, 0, 0⟩, 7, 9⟩ 0 1 ++ [.read ⟨⟨2, 0, 1⟩, 5, 9⟩, .deliver 0 false 0]

theorem secondary_reads_fresh_refused : ∃ σ : State,
    ⟨9, get_version 1 0, 7⟩ ∈ σ.floor ⟨2, 0, 1⟩ ∧ σ.Current ⟨9, get_version 1 0, 7⟩ ∧
      7 ∈ secondary_scan visibleFlags σ.sindex readOfNine fun _ ↦ 0 := by
  have hsome : ((execAll visibleFlags true insertKeySize firstWriteSlow State.initial
      refusedMoves).map fun σ ↦ decide (σ.net = [(.index, readOfNine)] ∧
        ⟨9, get_version 1 0, 7⟩ ∈ σ.floor ⟨2, 0, 1⟩ ∧ σ.Current ⟨9, get_version 1 0, 7⟩ ∧
        (σ.sindex.entries.filter fun x ↦ bytesLE 9 <+: x.1).length < 10)) = some true := by
    decide +kernel
  obtain ⟨σ, hexec, hσ⟩ := Option.map_eq_some_iff.mp hsome
  obtain ⟨hnet, hfloor, hcurrent, hfew⟩ := of_decide_eq_true hσ
  have hreach := execAll_reachable (fun _ _ hσ h ↦ endsInserted_of_firstWriteSlow hσ h)
    Reachable.init hexec
  have hfresh : ReadsFresh visibleFlags σ (.scan readOfNine fun _ ↦ 0) :=
    secondary_reads_fresh hreach trivial (Step.scan _ ⟨[], [], hnet, rfl⟩ rfl)
  exact ⟨σ, hfloor, hcurrent, hfresh _ hfloor rfl hcurrent hfew⟩

/-- The same write, which the switch installs: its client is told that it has ended before the index
node has seen it. -/
def installedMoves : List Move :=
  [.write ⟨⟨2, 0, 0⟩, 7, 9⟩, .deliver 0 false 0, .deliver 0 false 1, .deliver 0 true 0,
    .deliver 1 false 0, .read ⟨⟨2, 0, 1⟩, 5, 9⟩, .deliver 1 false 0]

/-- A read that begins after a fast write has ended does not find it. -/
theorem fast_write_not_found : ∃ (σ σ' : State) (label : Label),
    Reachable State.initial (Step visibleFlags true insertKeySize) (fun _ _ ↦ True) σ ∧
      Step visibleFlags true insertKeySize σ label σ' ∧ ¬ ReadsFresh visibleFlags σ label := by
  let copied : Packet := ⟨.copy, ⟨⟨2, 0, 0⟩, 7, 9⟩, get_version 1 0, []⟩
  have hsome : ((execAll visibleFlags true insertKeySize (fun _ _ ↦ true) State.initial
      installedMoves).map fun σ ↦ decide (σ.net = [(.index, copied), (.index, readOfNine)] ∧
        ⟨9, get_version 1 0, 7⟩ ∈ σ.floor ⟨2, 0, 1⟩ ∧ σ.Current ⟨9, get_version 1 0, 7⟩ ∧
        (σ.sindex.entries.filter fun x ↦ bytesLE 9 <+: x.1).length < 10 ∧
        7 ∉ secondary_scan visibleFlags σ.sindex readOfNine fun _ ↦ 0)) = some true := by
    decide +kernel
  obtain ⟨σ, hexec, hσ⟩ := Option.map_eq_some_iff.mp hsome
  obtain ⟨hnet, hfloor, hcurrent, hfew, hmissing⟩ := of_decide_eq_true hσ
  refine ⟨σ, _, .scan readOfNine fun _ ↦ 0,
    execAll_reachable (fun _ _ _ _ ↦ trivial) Reachable.init hexec,
    Step.scan _ ⟨[(.index, copied)], [], hnet, rfl⟩ rfl, fun hfresh ↦ ?_⟩
  exact hmissing (hfresh _ hfloor rfl hcurrent hfew)

end SwitchDelta.Secondary
