import SwitchDelta.Protocol.KeyInvariant
import SwitchDelta.Protocol.Tokens

/-!
# A batch of requests for a key

An index thread applies the newest update of a batch and answers all reads of the batch with it. The
slow updates of the batch get their tags here (`Inv.exists_applied`): the newest one becomes the tag
of the index, below the copies in the inbox, and the others come before it.

One thing can go wrong. The replies are posted in the order of arrival, so a read that arrived before
the copy of the entry is answered ahead of its `ReplySwitch`, and if the newest update is a slow one
it is answered with a write that reads at the switch do not see yet. `KeyState.Orderly` excludes that.
With it every step keeps the invariant (`Inv.step`), and the history of the key is that of an atomic
register.
-/

set_option autoImplicit false
set_option relaxedAutoImplicit false

namespace SwitchDelta.Protocol

open Foundation Kv

variable {T : Type*} [LinearOrder T] [OrderBot T]

/-! ### The tags of a batch -/

/-- Two members of a list that satisfies a relation pairwise are the same or in the relation. -/
theorem pairwise_cases {α : Type*} {R : α → α → Prop} {l : List α} (h : l.Pairwise R) {a b : α}
    (ha : a ∈ l) (hb : b ∈ l) : a = b ∨ R a b ∨ R b a := by
  have hsymm : Std.Symm fun a b ↦ a = b ∨ R a b ∨ R b a :=
    ⟨fun _ _ hab ↦ hab.imp Eq.symm Or.symm⟩
  have hpairs : l.Pairwise fun a b ↦ a = b ∨ R a b ∨ R b a := h.imp fun hab ↦ Or.inr (Or.inl hab)
  have hrefl : ∀ a ∈ l, a = a ∨ R a a ∨ R a a := fun _ _ ↦ Or.inl rfl
  exact hpairs.forall_of_forall hrefl ha hb

/-- The operations of the slow updates of a batch. -/
def slowOps (batch : List Item) : List OpId :=
  (batch.filter fun x ↦ x.kind = .updateReq).map Item.op

theorem mem_slowOps {batch : List Item} {o : OpId} :
    o ∈ slowOps batch ↔ ∃ x ∈ batch, x.kind = .updateReq ∧ x.op = o := by
  simp [slowOps, and_assoc]

/-- No read of the batch is answered ahead of the `ReplySwitch` of the entry with a write that is newer
than the entry. -/
def KeyState.Orderly (v : KeyState) : Prop :=
  v.batch.Pairwise fun r c ↦ r.kind = .readReq → c.kind = .copy → v.entry = some c.write →
    ∀ s ∈ v.batch, s.kind = .updateReq → s.ts < c.ts

/-- The tags after the batch has been applied, where the index is `index`. -/
structure Tags.Applied (g : Tags T) (v : KeyState) (index : UInt64) (g' : Tags T) : Prop where
  tagged : Tagged 0 v.hist g'.writes g'.tag g'.floor g'.done
  writes : g'.writes = g.writes ∪ {o | o ∈ slowOps v.batch}
  tag : ∀ w ∈ g.writes, g'.tag w = g.tag w
  floor : g'.floor = g.floor
  done : g'.done = g.done
  index : g'.ValueAt v.hist g'.top index
  top : g.top ≤ g'.top
  below : ∀ x ∈ v.batch, x.IsUpdate → g'.tag x.op ≤ g'.top
  above : ∀ x ∈ v.inbox, x.kind = .copy → g'.top < g.tag x.op
  ahead : v.batch.Pairwise fun x c ↦ c.kind = .copy → v.entry = some c.write →
    (x.IsUpdate → g'.tag x.op ≤ g.tag c.op) ∧ (x.kind = .readReq → g'.top ≤ g.tag c.op)

section Batch

variable {ordered : Prop} {v v' : KeyState} {g g' : Tags T} {x y : Item} {rest : List Item}
  {index : UInt64}

/-- A request in the batch is at the index thread. -/
theorem mem_waiting_of_batch (hx : x ∈ v.batch) : x ∈ v.waiting := List.mem_append_left _ hx

theorem mem_waiting_of_inbox (hx : x ∈ v.inbox) : x ∈ v.waiting := List.mem_append_right _ hx

/-- What holds pairwise at the index thread holds in the batch. -/
theorem pairwise_batch {R : Item → Item → Prop} (h : v.waiting.Pairwise R) : v.batch.Pairwise R :=
  (List.pairwise_append.mp h).1

theorem Inv.nodup_slowOps (h : Inv ordered v g) : (slowOps v.batch).Nodup := by
  refine List.pairwise_map.mpr (List.pairwise_filter.mpr ?_)
  exact (pairwise_batch h.slow_ne).imp fun hne hx hy ↦ hne (by simpa using hx) (by simpa using hy)

theorem Inv.slowOps_spec (h : Inv ordered v g) {o : OpId} (ho : o ∈ slowOps v.batch) :
    o ∉ g.writes ∧ ∃ log, .assign o log ∈ v.hist := by
  obtain ⟨x, hx, hkind, rfl⟩ := mem_slowOps.mp ho
  obtain ⟨hw, hassign, -⟩ := h.slow x (mem_waiting_of_batch hx) hkind
  exact ⟨hw, x.log, hassign⟩

/-- The entry has the greatest tag of the copies at the index thread. -/
theorem Inv.copy_le_entry (h : Inv ordered v g) (hx : x ∈ v.waiting) (hkind : x.kind = .copy)
    (hentry : v.entry = some y.write) : g.tag x.op ≤ g.tag y.op := by
  have hle := (h.copy x hx hkind).2.2.2
  rwa [hentry] at hle

/-- A batch without an update needs no tags. -/
theorem Inv.applied_of_reads (h : Inv ordered v g) (hnone : ∀ x ∈ v.batch, ¬ x.IsUpdate) :
    g.Applied v v.index g where
  tagged := h.tagged
  writes := by
    have hempty : {o | o ∈ slowOps v.batch} = ∅ := by
      refine Set.eq_empty_of_forall_notMem fun o ho ↦ ?_
      obtain ⟨x, hx, hkind, -⟩ := mem_slowOps.mp ho
      exact hnone x hx (Or.inr hkind)
    rw [hempty, Set.union_empty]
  tag := fun _ _ ↦ rfl
  floor := rfl
  done := rfl
  index := h.index
  top := le_rfl
  below := fun x hx hupdate ↦ absurd hupdate (hnone x hx)
  above := fun x hx hkind ↦ (h.copy x (mem_waiting_of_inbox hx) hkind).2.2.1
  ahead := List.Pairwise.imp_of_mem (fun _ hc _ hkind ↦ absurd (Or.inl hkind) (hnone _ hc))
    (List.pairwise_of_forall fun _ _ ↦ trivial)

/-- The newest update of the batch is a copy: the slow updates come before it. -/
theorem Inv.applied_of_copy [DenselyOrdered T] (h : Inv ordered v g) {c : Item} (hc : c ∈ v.batch)
    (hkind : c.kind = .copy) (hnewest : ∀ x ∈ v.batch, x.IsUpdate → x.ts ≤ c.ts)
    (hstamps : v.batch.Pairwise fun x y ↦ x.IsUpdate → y.kind = .copy → x.ts < y.ts)
    (hissued : ∀ s ∈ v.batch, s.kind = .updateReq → s.ts ≤ c.ts → g.floor s.op < g.tag c.op) :
    ∃ g', g.Applied v c.log g' := by
  obtain ⟨hw, hassign, htop, -⟩ := h.copy c (mem_waiting_of_batch hc) hkind
  have hfloor (o : OpId) (ho : o ∈ slowOps v.batch) : g.floor o < g.tag c.op := by
    obtain ⟨s, hs, hslow, rfl⟩ := mem_slowOps.mp ho
    exact hissued s hs hslow (hnewest s hs (Or.inr hslow))
  obtain ⟨tag', htagged, hsame, hbetween⟩ := h.tagged.enter_all h.finite h.nodup_slowOps
    (fun o ho ↦ (h.slowOps_spec ho).2) (fun o ho ↦ (h.slowOps_spec ho).1) (fun _ _ ↦ htop) hfloor
  have htag (w : OpId) (hw : w ∈ g.writes) : tag' w = g.tag w :=
    hsame w fun ho ↦ (h.slowOps_spec ho).1 hw
  have hbelow (x : Item) (hx : x ∈ v.batch) (hupdate : x.IsUpdate) : tag' x.op ≤ g.tag c.op := by
    rcases hupdate with hcopy | hslow
    · rw [htag _ (h.copy x (mem_waiting_of_batch hx) hcopy).1]
      rcases pairwise_cases ((pairwise_batch h.copies).and hstamps) hx hc with
        rfl | ⟨hlt, -⟩ | ⟨-, hlt⟩
      · exact le_rfl
      · exact (hlt hcopy hkind).le
      · exact absurd (hnewest x hx (Or.inl hcopy)) (hlt (Or.inl hkind) hcopy).not_ge
    · exact (hbetween x.op (mem_slowOps.mpr ⟨x, hx, hslow, rfl⟩)).2.le
  refine ⟨{ g with
    writes := g.writes ∪ {o | o ∈ slowOps v.batch}
    tag := tag'
    top := g.tag c.op }, htagged, rfl, htag, rfl, rfl, Or.inr ⟨c.op, Or.inl hw, htag _ hw, hassign⟩,
    htop.le, hbelow, fun x hx hcopy ↦ ?_, ?_⟩
  · exact (List.pairwise_append.mp h.copies).2.2 c hc x hx hkind hcopy
  · refine List.Pairwise.imp_of_mem (fun hx hy _ hcopy hentry ↦ ?_)
      (List.pairwise_of_forall fun _ _ ↦ trivial)
    have hle := h.copy_le_entry (mem_waiting_of_batch hc) hkind hentry
    exact ⟨fun hupdate ↦ (hbelow _ hx hupdate).trans hle, fun _ ↦ hle⟩

/-- The slow updates of the batch get tags so that one of them comes last in the batch, before the
copies in the inbox. The others come before the entry if its copy is in the batch and their floors
allow it. -/
theorem Inv.exists_slow_tags [DenselyOrdered T] [NoMaxOrder T] (h : Inv ordered v g) {s : Item}
    (hs : s ∈ v.batch) (hkind : s.kind = .updateReq) :
    ∃ tag', Tagged 0 v.hist (g.writes ∪ {o | o ∈ slowOps v.batch}) tag' g.floor g.done ∧
      (∀ w ∈ g.writes, tag' w = g.tag w) ∧ g.top < tag' s.op ∧
      (∀ o ∈ slowOps v.batch, tag' o ≤ tag' s.op) ∧
      (∀ c ∈ v.batch, c.kind = .copy → g.tag c.op < tag' s.op) ∧
      (∀ c ∈ v.inbox, c.kind = .copy → tag' s.op < g.tag c.op) ∧
      ∀ o ∈ slowOps v.batch, o ≠ s.op → ∀ c ∈ v.batch, c.kind = .copy → v.entry = some c.write →
        g.floor o < g.tag c.op → tag' o < g.tag c.op := by
  classical
  have hs' : s.op ∈ slowOps v.batch := mem_slowOps.mpr ⟨s, hs, hkind, rfl⟩
  -- a tag above those of the batch and below those of the copies in the inbox
  let lower : Set T := insert g.top ((g.floor '' {o | o ∈ slowOps v.batch}) ∪
    (fun x : Item ↦ g.tag x.op) '' {x | x ∈ v.batch ∧ x.kind = .copy})
  let upper : Set T := (fun x : Item ↦ g.tag x.op) '' {x | x ∈ v.inbox ∧ x.kind = .copy}
  have hlower : lower.Finite := by
    refine (((List.finite_toSet _).image _).union (Set.Finite.image _ ?_)).insert _
    exact v.batch.finite_toSet.subset fun x hx ↦ hx.1
  have hupper : upper.Finite :=
    Set.Finite.image _ (v.inbox.finite_toSet.subset fun x hx ↦ hx.1)
  have hlt : ∀ a ∈ lower, ∀ b ∈ upper, a < b := by
    rintro a ha b ⟨c, ⟨hc, hcopy⟩, rfl⟩
    rcases ha with rfl | ⟨o, ho, rfl⟩ | ⟨x, ⟨hx, hcopy'⟩, rfl⟩
    · exact (h.copy c (mem_waiting_of_inbox hc) hcopy).2.2.1
    · obtain ⟨x, hx, hslow, rfl⟩ := mem_slowOps.mp ho
      exact (List.pairwise_append.mp h.behind).2.2 x hx c hc hslow hcopy
    · exact (List.pairwise_append.mp h.copies).2.2 x hx c hc hcopy' hcopy
  obtain ⟨mid, hmid, hmid'⟩ := exists_between_finite hlower ⟨g.top, Or.inl rfl⟩ hupper hlt
  obtain ⟨last, hlast, hlast'⟩ := exists_between_finite (Set.finite_singleton mid)
    (Set.singleton_nonempty mid) hupper (by simpa using hmid')
  have hlast := hlast mid rfl
  have htop : g.top < mid := hmid _ (Or.inl rfl)
  have hfloor {o : OpId} (ho : o ∈ slowOps v.batch) : g.floor o < mid :=
    hmid _ (Or.inr (Or.inl ⟨o, ho, rfl⟩))
  have hcopy {c : Item} (hc : c ∈ v.batch) (hc' : c.kind = .copy) : g.tag c.op < mid :=
    hmid _ (Or.inr (Or.inr ⟨c, ⟨hc, hc'⟩, rfl⟩))
  -- the bound of a slow update is the entry, if its copy is in the batch and the floor allows it
  let early (o : OpId) : Prop := (∃ c ∈ v.batch, c.kind = .copy ∧ v.entry = some c.write) ∧
    g.floor o < g.seen v.entry
  let bound (o : OpId) : T := if early o then g.seen v.entry else mid
  have hseen {c : Item} (hentry : v.entry = some c.write) : g.seen v.entry = g.tag c.op := by
    rw [hentry]
    rfl
  have hbound_le (o : OpId) : bound o ≤ mid := by
    by_cases ho : early o
    · obtain ⟨⟨c, hc, hc', hentry⟩, -⟩ := id ho
      rw [show bound o = g.seen v.entry from if_pos ho, hseen hentry]
      exact (hcopy hc hc').le
    · exact (if_neg ho).le
  have hbound {o : OpId} (ho : o ∈ slowOps v.batch) : g.top < bound o ∧ g.floor o < bound o := by
    by_cases ho' : early o
    · rw [show bound o = g.seen v.entry from if_pos ho']
      obtain ⟨⟨c, hc, hc', -⟩, hlt⟩ := ho'
      exact ⟨h.top_lt_seen (mem_waiting_of_batch hc) hc', hlt⟩
    · rw [show bound o = mid from if_neg ho']
      exact ⟨htop, hfloor ho⟩
  -- first all slow updates but the last one get their tags, then that one
  have hothers {o : OpId} (ho : o ∈ (slowOps v.batch).erase s.op) : o ∈ slowOps v.batch :=
    List.mem_of_mem_erase ho
  obtain ⟨tag₁, htagged₁, hsame₁, hbetween₁⟩ := h.tagged.enter_all h.finite
    (h.nodup_slowOps.erase s.op) (fun o ho ↦ (h.slowOps_spec (hothers ho)).2)
    (fun o ho ↦ (h.slowOps_spec (hothers ho)).1) (fun o ho ↦ (hbound (hothers ho)).1)
    fun o ho ↦ (hbound (hothers ho)).2
  have hnot₁ : s.op ∉ g.writes ∪ {o | o ∈ (slowOps v.batch).erase s.op} := by
    rintro (hw | ho)
    · exact (h.slowOps_spec hs').1 hw
    · exact h.nodup_slowOps.not_mem_erase ho
  obtain ⟨tag₂, htagged₂, hsame₂, hbetween₂⟩ := htagged₁.enter_all
    (h.finite.union (List.finite_toSet _)) (List.nodup_singleton s.op)
    (fun o ho ↦ by rw [List.mem_singleton.mp ho]; exact (h.slowOps_spec hs').2)
    (fun o ho ↦ by rw [List.mem_singleton.mp ho]; exact hnot₁) (fun _ _ ↦ hlast) fun o ho ↦ by
      rw [List.mem_singleton.mp ho]
      exact (hfloor hs').trans hlast
  obtain ⟨hmid₂, hlast₂⟩ := hbetween₂ s.op (List.mem_singleton_self _)
  have hother {o : OpId} (ho : o ∈ slowOps v.batch) (hne : o ≠ s.op) : tag₂ o < bound o := by
    rw [hsame₂ o (by simpa using hne)]
    exact (hbetween₁ o ((List.mem_erase_of_ne hne).mpr ho)).2
  refine ⟨tag₂, ?_, fun w hw ↦ ?_, htop.trans hmid₂, fun o ho ↦ ?_,
    fun c hc hc' ↦ (hcopy hc hc').trans hmid₂,
    fun c hc hc' ↦ hlast₂.trans (hlast' _ ⟨c, ⟨hc, hc'⟩, rfl⟩), ?_⟩
  · have hset : g.writes ∪ {o | o ∈ (slowOps v.batch).erase s.op} ∪ {o | o ∈ [s.op]} =
        g.writes ∪ {o | o ∈ slowOps v.batch} := by
      ext o
      simp only [Set.mem_union, Set.mem_ofPred_eq, List.mem_singleton, or_assoc]
      refine or_congr_right ⟨?_, fun ho ↦ ?_⟩
      · rintro (ho | rfl)
        · exact hothers ho
        · exact hs'
      · exact (eq_or_ne o s.op).symm.imp_left fun hne ↦ (List.mem_erase_of_ne hne).mpr ho
    rwa [hset] at htagged₂
  · have hne : w ∉ slowOps v.batch := fun ho ↦ (h.slowOps_spec ho).1 hw
    rw [hsame₂ w fun ho ↦ hne (by rwa [List.mem_singleton.mp ho]), hsame₁ w fun ho ↦ hne (hothers ho)]
  · rcases eq_or_ne o s.op with rfl | hne
    · exact le_rfl
    · exact ((hother ho hne).trans_le (hbound_le o)).le.trans hmid₂.le
  · intro o ho hne c hc hc' hentry hlt
    rw [← hseen hentry] at hlt ⊢
    exact (hother ho hne).trans_eq (if_pos ⟨⟨c, hc, hc', hentry⟩, hlt⟩)

/-- The newest update of the batch is a slow one: it becomes the tag of the index. -/
theorem Inv.applied_of_slow [DenselyOrdered T] [NoMaxOrder T] (h : Inv ordered v g) {s : Item}
    (hs : s ∈ v.batch) (hkind : s.kind = .updateReq)
    (hnewest : ∀ x ∈ v.batch, x.IsUpdate → x.ts ≤ s.ts)
    (hstamps : v.batch.Pairwise fun x y ↦ x.IsUpdate → y.kind = .copy → x.ts < y.ts)
    (horderly : v.Orderly) : ∃ g', g.Applied v s.log g' := by
  obtain ⟨tag', htagged, htag, htop, hslow, hcopy, hinbox, hahead⟩ := h.exists_slow_tags hs hkind
  have hs' : s.op ∈ slowOps v.batch := mem_slowOps.mpr ⟨s, hs, hkind, rfl⟩
  have htag' {x : Item} (hx : x ∈ v.batch) (hx' : x.kind = .copy) : tag' x.op = g.tag x.op :=
    htag _ (h.copy x (mem_waiting_of_batch hx) hx').1
  refine ⟨{ g with
    writes := g.writes ∪ {o | o ∈ slowOps v.batch}
    tag := tag'
    top := tag' s.op }, htagged, rfl, htag, rfl, rfl,
    Or.inr ⟨s.op, Or.inr hs', rfl, (h.slow s (mem_waiting_of_batch hs) hkind).2.1⟩, htop.le,
    fun x hx hupdate ↦ ?_, hinbox, ?_⟩
  · rcases hupdate with hx' | hx'
    · exact (htag' hx hx').trans_le (hcopy x hx hx').le
    · exact hslow _ (mem_slowOps.mpr ⟨x, hx, hx', rfl⟩)
  · refine ((pairwise_batch h.behind).and (hstamps.and horderly)).imp_of_mem
      fun {x c} hx hc ⟨hbehind, hstamp, hread⟩ hc' hentry ↦ ⟨?_, fun hx' ↦ ?_⟩
    · rintro (hx' | hx')
      · exact (htag' hx hx').trans_le (h.copy_le_entry (mem_waiting_of_batch hx) hx' hentry)
      · -- the last of the slow updates is behind the copy, since it is newer
        refine (hahead _ (mem_slowOps.mpr ⟨x, hx, hx', rfl⟩) ?_ c hc hc' hentry (hbehind hx' hc')).le
        intro hop
        rcases pairwise_cases (pairwise_batch h.slow_ne) hx hs with rfl | hne | hne
        · exact (hstamp (Or.inr hx') hc').not_ge (hnewest c hc (Or.inl hc'))
        · exact hne hx' hkind hop
        · exact hne hkind hx' hop.symm
    · exact absurd (hread hx' hc' hentry s hs hkind) (hnewest c hc (Or.inl hc')).not_gt

/-- The batch is applied to the index. -/
theorem Inv.exists_applied [DenselyOrdered T] [NoMaxOrder T] (h : Inv ordered v g)
    (hindex : NewestIndex v.batch v.index index)
    (hstamps : v.batch.Pairwise fun x y ↦ x.IsUpdate → y.kind = .copy → x.ts < y.ts)
    (hissued : ∀ s ∈ v.batch, s.kind = .updateReq → ∀ c ∈ v.batch, c.kind = .copy → s.ts ≤ c.ts →
      g.floor s.op < g.tag c.op)
    (horderly : v.Orderly) : ∃ g', g.Applied v index g' := by
  rcases hindex with ⟨hnone, rfl⟩ | ⟨newest, hmem, hkind | hkind, hnewest, rfl⟩
  · exact ⟨g, h.applied_of_reads hnone⟩
  · exact h.applied_of_copy hmem hkind hnewest hstamps fun s hs hslow ↦
      hissued s hs hslow newest hmem hkind
  · exact h.applied_of_slow hmem hkind hnewest hstamps horderly

/-- The reply to a request of the batch brings an outcome that is not newer than the index. -/
theorem Inv.upTo_reply (h : Inv ordered v g) (happlied : g.Applied v index g') (hx : x ∈ v.batch) {t : T}
    (hread : x.kind = .readReq → g'.top ≤ t) (hupdate : x.IsUpdate → g'.tag x.op ≤ t) :
    g'.UpTo v.hist t (x.reply fun _ ↦ index) := by
  have hx' := mem_waiting_of_batch hx
  rcases h.atIndex x hx' with hkind | hkind | hkind
  · refine ⟨by simp [Item.reply, hkind], fun _ ↦ ?_⟩
    simp only [Item.reply, hkind]
    obtain ⟨hw, hassign, -⟩ := h.copy x hx' hkind
    exact ⟨by rw [happlied.writes]; exact Or.inl hw, hassign, hupdate (Or.inl hkind)⟩
  · refine ⟨by simp [Item.reply, hkind], fun _ ↦ ?_⟩
    simp only [Item.reply, hkind]
    refine ⟨?_, (h.slow x hx' hkind).2.1, hupdate (Or.inr hkind)⟩
    rw [happlied.writes]
    exact Or.inr (mem_slowOps.mpr ⟨x, hx, hkind, rfl⟩)
  · refine ⟨fun _ ↦ ?_, by simp [Item.reply, hkind]⟩
    simp only [Item.reply, hkind]
    refine ⟨g'.top, ?_, hread hkind, happlied.index⟩
    rw [happlied.floor]
    exact (h.read x hx' hkind).trans happlied.top

/-- The index thread applies a batch and posts its replies. -/
theorem Inv.flush (h : Inv ordered v g) (happlied : g.Applied v index g') :
    Inv ordered { v with
      batch := []
      outbox := v.outbox ++ v.batch.map (Item.reply fun _ ↦ index)
      index := index } g' := by
  have hext : g.Extends g' := ⟨by rw [happlied.writes]; exact Set.subset_union_left, happlied.tag⟩
  have hseen : g.seen v.entry ≤ g'.seen v.entry := hext.seen_le happlied.top h.entry_mem
  have hupTo {t t' : T} {y : Item} (hy : g.UpTo v.hist t y) (hle : t ≤ t') : g'.UpTo v.hist t' y :=
    hy.mono hext (List.Subset.refl _) (fun _ ↦ by rw [happlied.floor]) hle
  have hnot {o : OpId} (hw : o ∉ g.writes) (hslow : ∀ x ∈ v.batch, x.kind = .updateReq → x.op ≠ o) :
      o ∉ g'.writes := by
    rw [happlied.writes]
    rintro (hw' | ho)
    · exact hw hw'
    · obtain ⟨x, hx, hkind, rfl⟩ := mem_slowOps.mp ho
      exact hslow x hx hkind rfl
  have hinbox {R : Item → Item → Prop} (hR : v.waiting.Pairwise R) : v.inbox.Pairwise R :=
    (List.pairwise_append.mp hR).2.1
  have hcopy {x : Item} (hx : x ∈ v.inbox) (hkind : x.kind = .copy) : g'.tag x.op = g.tag x.op :=
    happlied.tag _ (h.copy x (mem_waiting_of_inbox hx) hkind).1
  have hswitch {x : Item} (hx : x ∈ v.batch) (hkind : (x.reply fun _ ↦ index).kind = .replySwitch) :
      x.kind = .copy ∧ (x.reply fun _ ↦ index).write = x.write := by
    rcases h.atIndex x (mem_waiting_of_batch hx) with hx' | hx' | hx' <;>
      simp [Item.reply, hx', Item.write] at hkind ⊢
  refine
    { finite := by rw [happlied.writes]; exact h.finite.union (List.finite_toSet _)
      tagged := happlied.tagged
      floor_le := by rw [happlied.floor, happlied.done]; exact h.floor_le
      done_le := by rw [happlied.done]; exact h.done_le.trans hseen
      index := happlied.index
      entry := fun e he ↦ ?_
      early := fun x hx ↦ hnot (h.early x hx) fun y hy hkind ↦
        ((h.slow y (mem_waiting_of_batch hy) hkind).2.2 x hx).symm
      atIndex := fun x hx ↦ h.atIndex x (mem_waiting_of_inbox hx)
      copy := fun x hx hkind ↦ ?_
      slow := fun x hx hkind ↦ ?_
      read := fun x hx hkind ↦ ?_
      slow_ne := hinbox h.slow_ne
      copies := (hinbox h.copies).imp_of_mem fun hx hy hlt hkind hkind' ↦ ?_
      behind := (hinbox h.behind).imp_of_mem fun _ hy hlt hkind hkind' ↦ ?_
      stamps := fun ho ↦ hinbox (h.stamps ho)
      issued := fun ho x hx y hy hkind hle ↦ ?_
      outbox := fun x hx ↦ ?_
      ahead := ?_
      late := fun x hx ↦ hupTo (h.late x hx) hseen }
  · obtain ⟨hw, hassign, hwhere⟩ := h.entry e he
    refine ⟨hext.writes hw, hassign, ?_⟩
    rcases hwhere with ⟨x, hx, hkind, hwrite⟩ | ⟨x, hx, hkind⟩
    · rcases List.mem_append.mp hx with hx | hx
      · refine Or.inr ⟨_, List.mem_append_right _ (List.mem_map_of_mem hx), ?_⟩
        simpa [Item.reply, hkind, Item.write] using hwrite
      · exact Or.inl ⟨x, hx, hkind, hwrite⟩
    · exact Or.inr ⟨x, List.mem_append_left _ hx, hkind⟩
  · obtain ⟨hw, hassign, -, hle⟩ := h.copy x (mem_waiting_of_inbox hx) hkind
    have htag := hcopy hx hkind
    exact ⟨hext.writes hw, hassign, (happlied.above x hx hkind).trans_eq htag.symm,
      htag.trans_le (hle.trans hseen)⟩
  · obtain ⟨hw, hassign, hne⟩ := h.slow x (mem_waiting_of_inbox hx) hkind
    refine ⟨hnot hw fun y hy hkind' ↦ ?_, hassign, hne⟩
    exact (List.pairwise_append.mp h.slow_ne).2.2 y hy x hx hkind' hkind
  · rw [happlied.floor]
    exact (h.read x (mem_waiting_of_inbox hx) hkind).trans happlied.top
  · rw [hcopy hx hkind, hcopy hy hkind']
    exact hlt hkind hkind'
  · rw [happlied.floor, hcopy hy hkind']
    exact hlt hkind hkind'
  · rw [happlied.floor, hcopy hy hkind]
    exact h.issued ho x (hx.imp_right fun hx ↦ ⟨mem_waiting_of_inbox hx.1, hx.2⟩) y
      (mem_waiting_of_inbox hy) hkind hle
  · rcases List.mem_append.mp hx with hx | hx
    · exact hupTo (h.outbox x hx) happlied.top
    · obtain ⟨y, hy, rfl⟩ := List.mem_map.mp hx
      exact h.upTo_reply happlied hy (fun _ ↦ le_rfl) (happlied.below y hy)
  · refine List.pairwise_append.mpr ⟨?_, List.pairwise_map.mpr ?_, fun x hx y hy hkind hentry ↦ ?_⟩
    · refine h.ahead.imp_of_mem fun _ hy hupto hkind hentry ↦ ?_
      exact hupTo (hupto hkind hentry)
        (happlied.tag _ ((h.outbox _ hy).write (Or.inr (Or.inr hkind))).1).ge
    · refine happlied.ahead.imp_of_mem fun {x c} hx hc hahead hkind hentry ↦ ?_
      obtain ⟨hc', hwrite⟩ := hswitch hc hkind
      obtain ⟨hupdate, hread⟩ := hahead hc' (hwrite ▸ hentry)
      rw [Item.reply_op, happlied.tag _ (h.copy c (mem_waiting_of_batch hc) hc').1]
      exact h.upTo_reply happlied hx hread hupdate
    · obtain ⟨c, hc, rfl⟩ := List.mem_map.mp hy
      obtain ⟨hc', -⟩ := hswitch hc hkind
      obtain ⟨hw, -, htop, -⟩ := h.copy c (mem_waiting_of_batch hc) hc'
      rw [Item.reply_op, happlied.tag _ hw]
      exact hupTo (h.outbox x hx) htop.le

/-! ### Steps -/

/-- The index thread takes a request into its batch. -/
theorem Inv.collect (h : Inv ordered v g) (hinbox : v.inbox = x :: rest) :
    Inv ordered { v with inbox := rest, batch := v.batch ++ [x] } g :=
  h.mono subset_rfl (by simp [KeyState.waiting, hinbox]) rfl subset_rfl rfl rfl rfl

/-- Every step keeps the invariant, if a batch of more than one request is orderly. -/
theorem Inv.step [DenselyOrdered T] [NoMaxOrder T] (h : Inv ordered v g)
    (hflush : v.batch ≠ [] → v'.batch = [] → ordered ∧ v.Orderly) (hstep : KStep ordered v v') :
    ∃ g' : Tags T, Inv ordered v' g' := by
  cases hstep with
  | other hwithin => exact ⟨g, h.within hwithin⟩
  | @start x e hkind hfresh hearly hwaiting houtbox hlate hwithin =>
    refine ⟨_, (h.start (hkind.imp And.right And.right) hfresh hearly hwaiting houtbox hlate
      ?_).within hwithin⟩
    rcases hkind with ⟨hkind, -⟩ | ⟨hkind, -⟩ <;> simp [hkind]
  | append hx _ hinvoked hfresh _ hop hstamps hwithin =>
    refine ⟨g, ((h.insert_early hx hop fun ho _ z hz hkind hle ↦ ?_).assign (hop ▸ hinvoked)
      (hop ▸ hfresh)).within hwithin⟩
    exact absurd hle (hstamps ho z hz (Or.inl hkind)).not_ge
  | @refused x hx hkind hwithin =>
    refine ⟨g, (h.insert_early (y := { x with kind := .updateReq }) hx rfl
      fun ho _ ↦ h.issued ho x (Or.inl ⟨hx, Or.inl hkind⟩)).within hwithin⟩
  | install hx _ hassign hstamps hwithin =>
    obtain ⟨g', -, h'⟩ := h.install hx hassign hstamps
    exact ⟨g', h'.within hwithin⟩
  | update hx hkind hassign hwithin => exact ⟨g, (h.update hx hkind hassign).within hwithin⟩
  | read _ hkind hentry hwithin => exact ⟨g, (h.read_enter hkind hentry).within hwithin⟩
  | hit _ _ hentry hwithin => exact ⟨g, (h.hit hentry).within hwithin⟩
  | @serve x rest index hbatch hinbox hindex hwithin =>
    have hcollect := h.collect hinbox
    rw [hbatch, List.nil_append] at hcollect
    have hissued (s : Item) (hs : s ∈ [x]) (hslow : s.kind = .updateReq) (c : Item) (hc : c ∈ [x])
        (hcopy : c.kind = .copy) : g.floor s.op < g.tag c.op := by
      rw [List.mem_singleton.mp hs] at hslow
      rw [List.mem_singleton.mp hc, hslow] at hcopy
      cases hcopy
    obtain ⟨g', happlied⟩ := hcollect.exists_applied hindex (List.pairwise_singleton _ _)
      (fun s hs hslow c hc hcopy _ ↦ hissued s hs hslow c hc hcopy) (List.pairwise_singleton _ _)
    exact ⟨g', (hcollect.flush happlied).within ⟨hwithin.early, hwithin.inbox,
      hwithin.batch.trans hbatch, hwithin.outbox, hwithin.late, hwithin.entry, hwithin.index,
      hwithin.hist⟩⟩
  | collect hinbox hwithin => exact ⟨g, (h.collect hinbox).within hwithin⟩
  | @flush index hindex hwithin =>
    rcases eq_or_ne v.batch [] with hbatch | hne
    · obtain ⟨g', happlied⟩ := h.exists_applied hindex (by simp [hbatch]) (by simp [hbatch])
        (by simp [KeyState.Orderly, hbatch])
      exact ⟨g', (h.flush happlied).within hwithin⟩
    · obtain ⟨ho, horderly⟩ := hflush hne hwithin.batch
      obtain ⟨g', happlied⟩ := h.exists_applied hindex (pairwise_batch (h.stamps ho))
        (fun s hs hslow c hc hcopy ↦ h.issued ho s (Or.inr ⟨mem_waiting_of_batch hs, hslow⟩) c
          (mem_waiting_of_batch hc) hcopy) horderly
      exact ⟨g', (h.flush happlied).within hwithin⟩
  | clear houtbox hkind hown hwithin => exact ⟨g, (h.clear houtbox hkind hown).within hwithin⟩
  | keep houtbox _ hne hwithin => exact ⟨g, (h.keep houtbox hne).within hwithin⟩
  | reply houtbox hkind hwithin =>
    refine ⟨g, (h.reply houtbox ?_).within hwithin⟩
    rcases hkind with hkind | hkind <;> simp [hkind]
  | @respond x hx hpending hinvoked hwithin =>
    by_cases hwrite : x.kind = .answer ∨ x.kind = .updateReply
    · have hresponse : x.response = [.respondWrite x.op x.log] := by
        rcases hwrite with hwrite | hwrite <;> simp [Item.response, hwrite]
      rw [hresponse] at hwithin
      exact ⟨_, (h.respond_write hx hwrite).within hwithin⟩
    · by_cases hread : x.kind = .readHit ∨ x.kind = .readReply
      · have hresponse : x.response = [.respondRead x.op x.log] := by
          rcases hread with hread | hread <;> simp [Item.response, hread]
        rw [hresponse] at hwithin
        obtain ⟨n, h'⟩ := h.respond_read hx hread hpending (hinvoked hread)
        exact ⟨_, h'.within hwithin⟩
      · have hresponse : x.response = [] := by
          cases hkind : x.kind <;> simp_all [Item.response]
        rw [hresponse, List.append_nil] at hwithin
        exact ⟨g, h.within hwithin⟩

end Batch

end SwitchDelta.Protocol
