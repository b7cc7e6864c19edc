import SwitchDelta.Protocol.OneKey

/-!
# The order of the writes of a key

A write of the key has its place among the others from the moment it is installed in the slot, or
from the moment its update is applied to the index. The places are tags: those of installs grow, a
slow update gets its tag when its batch is applied, below the copies that are still in the inbox. A
read has the tag of the write it returns.

`Inv` is the invariant behind this. `top` is the tag of the index. A read that passes the switch sees
the write of the entry, or what is in the index (`Tags.seen`), and nothing that a client has received
is newer. In the outbox, what is ahead of the `ReplySwitch` of the entry is not newer than that entry,
for it is received while reads may still find the entry.
-/

set_option autoImplicit false
set_option relaxedAutoImplicit false

namespace SwitchDelta.Protocol

open Foundation Kv

variable {T : Type*} [LinearOrder T] [OrderBot T]

/-! ### Tags -/

/-- The tags of the operations on a key, with the tag of the index. -/
structure Tags (T : Type*) where
  writes : Set OpId
  tag : OpId → T
  floor : OpId → T
  done : T
  top : T

/-- The tag of what a read sees that passes the switch now. -/
def Tags.seen (g : Tags T) : Option (OpId × UInt64) → T
  | none => g.top
  | some e => g.tag e.1

/-- The log position is that of the write with this tag, or the initial one. -/
def Tags.ValueAt (g : Tags T) (hist : List (Event OpId UInt64)) (t : T) (log : UInt64) : Prop :=
  (t = ⊥ ∧ log = 0) ∨ ∃ w ∈ g.writes, g.tag w = t ∧ .assign w log ∈ hist

/-- The outcome that the item brings is not newer than the tag. -/
structure Tags.UpTo (g : Tags T) (hist : List (Event OpId UInt64)) (t : T) (x : Item) : Prop where
  read : x.kind = .readHit ∨ x.kind = .readReply →
    ∃ n, g.floor x.op ≤ n ∧ n ≤ t ∧ g.ValueAt hist n x.log
  write : x.kind = .answer ∨ x.kind = .updateReply ∨ x.kind = .replySwitch →
    x.op ∈ g.writes ∧ .assign x.op x.log ∈ hist ∧ g.tag x.op ≤ t

/-- The writes with a tag keep it. -/
structure Tags.Extends (g g' : Tags T) : Prop where
  writes : g.writes ⊆ g'.writes
  tag : ∀ w ∈ g.writes, g'.tag w = g.tag w

section Tags

variable {g g' : Tags T} {hist hist' : List (Event OpId UInt64)} {t t' : T} {x : Item}
  {log : UInt64} {entry : Option (OpId × UInt64)}

omit [LinearOrder T] [OrderBot T] in
theorem Tags.Extends.refl (g : Tags T) : g.Extends g := ⟨subset_rfl, fun _ _ ↦ rfl⟩

theorem Tags.ValueAt.mono (h : g.ValueAt hist t log) (hext : g.Extends g') (hhist : hist ⊆ hist') :
    g'.ValueAt hist' t log := by
  rcases h with h | ⟨w, hw, htag, hassign⟩
  · exact Or.inl h
  · exact Or.inr ⟨w, hext.writes hw, (hext.tag w hw).trans htag, hhist hassign⟩

theorem Tags.UpTo.mono (h : g.UpTo hist t x) (hext : g.Extends g') (hhist : hist ⊆ hist')
    (hfloor : x.kind = .readHit ∨ x.kind = .readReply → g'.floor x.op ≤ g.floor x.op)
    (hle : t ≤ t') : g'.UpTo hist' t' x where
  read hkind := by
    obtain ⟨n, hn, hnt, hvalue⟩ := h.read hkind
    exact ⟨n, (hfloor hkind).trans hn, hnt.trans hle, hvalue.mono hext hhist⟩
  write hkind := by
    obtain ⟨hw, hassign, htag⟩ := h.write hkind
    exact ⟨hext.writes hw, hhist hassign, (hext.tag _ hw).trans_le (htag.trans hle)⟩

omit [LinearOrder T] [OrderBot T] in
theorem Tags.Extends.seen_some (h : g.Extends g') {e : OpId × UInt64} (he : e.1 ∈ g.writes) :
    g'.seen (some e) = g.seen (some e) :=
  h.tag e.1 he

omit [OrderBot T] in
/-- What a read sees at the switch only gets newer while the entry stays. -/
theorem Tags.Extends.seen_le (h : g.Extends g') (htop : g.top ≤ g'.top)
    (hentry : ∀ e, entry = some e → e.1 ∈ g.writes) : g.seen entry ≤ g'.seen entry := by
  cases entry with
  | none => exact htop
  | some e => exact (h.seen_some (hentry e rfl)).ge

end Tags

/-! ### The invariant -/

/-- The item belongs to a write that has its timestamp and no tag. -/
def KeyState.Slow (v : KeyState) (x : Item) : Prop :=
  (x ∈ v.early ∧ (x.kind = .appendReply ∨ x.kind = .updateReq)) ∨
    (x ∈ v.waiting ∧ x.kind = .updateReq)

/-- The invariant of a key. -/
structure Inv (ordered : Prop) (v : KeyState) (g : Tags T) : Prop where
  finite : g.writes.Finite
  tagged : Tagged 0 v.hist g.writes g.tag g.floor g.done
  floor_le : ∀ o, g.floor o ≤ g.done
  done_le : g.done ≤ g.seen v.entry
  index : g.ValueAt v.hist g.top v.index
  entry : ∀ e, v.entry = some e → e.1 ∈ g.writes ∧ .assign e.1 e.2 ∈ v.hist ∧
    ((∃ x ∈ v.waiting, x.kind = .copy ∧ x.write = e) ∨
      ∃ x ∈ v.outbox, x.kind = .replySwitch ∧ x.write = e)
  early : ∀ x ∈ v.early, x.op ∉ g.writes
  atIndex : ∀ x ∈ v.waiting, x.kind.AtIndex
  copy : ∀ x ∈ v.waiting, x.kind = .copy → x.op ∈ g.writes ∧ .assign x.op x.log ∈ v.hist ∧
    g.top < g.tag x.op ∧ g.tag x.op ≤ g.seen v.entry
  slow : ∀ x ∈ v.waiting, x.kind = .updateReq → x.op ∉ g.writes ∧ .assign x.op x.log ∈ v.hist ∧
    ∀ y ∈ v.early, y.op ≠ x.op
  read : ∀ x ∈ v.waiting, x.kind = .readReq → g.floor x.op ≤ g.top
  slow_ne : v.waiting.Pairwise fun x y ↦ x.kind = .updateReq → y.kind = .updateReq → x.op ≠ y.op
  copies : v.waiting.Pairwise fun x y ↦ x.kind = .copy → y.kind = .copy → g.tag x.op < g.tag y.op
  behind : v.waiting.Pairwise fun x y ↦ x.kind = .updateReq → y.kind = .copy →
    g.floor x.op < g.tag y.op
  stamps : ordered → v.waiting.Pairwise fun x y ↦ x.IsUpdate → y.kind = .copy → x.ts < y.ts
  issued : ordered → ∀ x, v.Slow x → ∀ y ∈ v.waiting, y.kind = .copy → x.ts ≤ y.ts →
    g.floor x.op < g.tag y.op
  outbox : ∀ x ∈ v.outbox, g.UpTo v.hist g.top x
  ahead : v.outbox.Pairwise fun x y ↦ y.kind = .replySwitch → v.entry = some y.write →
    g.UpTo v.hist (g.tag y.op) x
  late : ∀ x ∈ v.late, g.UpTo v.hist (g.seen v.entry) x

section Steps

variable {ordered : Prop} {v v' : KeyState} {g g' : Tags T} {x y : Item} {rest : List Item}

theorem Inv.initial (ordered : Prop) :
    Inv ordered .initial (⟨∅, fun _ ↦ ⊥, fun _ ↦ ⊥, ⊥, ⊥⟩ : Tags T) where
  finite := Set.finite_empty
  tagged := Tagged.nil 0 _
  floor_le := fun _ ↦ le_rfl
  done_le := le_rfl
  index := Or.inl ⟨rfl, rfl⟩
  entry := by simp [KeyState.initial]
  early := by simp
  atIndex := by simp [KeyState.initial, KeyState.waiting]
  copy := by simp [KeyState.initial, KeyState.waiting]
  slow := by simp [KeyState.initial, KeyState.waiting]
  read := by simp [KeyState.initial, KeyState.waiting]
  slow_ne := List.Pairwise.nil
  copies := List.Pairwise.nil
  behind := List.Pairwise.nil
  stamps := fun _ ↦ List.Pairwise.nil
  issued := by simp [KeyState.initial, KeyState.waiting]
  outbox := by simp [KeyState.initial]
  ahead := List.Pairwise.nil
  late := by simp [KeyState.initial]

/-- The invariant does not need the items of the two sets, and does not say where in its queue the
index thread is. -/
theorem Inv.mono (h : Inv ordered v g) (hearly : v'.early ⊆ v.early)
    (hwaiting : v'.waiting = v.waiting) (houtbox : v'.outbox = v.outbox) (hlate : v'.late ⊆ v.late)
    (hentry : v'.entry = v.entry) (hindex : v'.index = v.index) (hhist : v'.hist = v.hist) :
    Inv ordered v' g where
  finite := h.finite
  tagged := hhist ▸ h.tagged
  floor_le := h.floor_le
  done_le := hentry ▸ h.done_le
  index := by rw [hhist, hindex]; exact h.index
  entry := by rw [hentry, hhist, hwaiting, houtbox]; exact h.entry
  early := fun x hx ↦ h.early x (hearly hx)
  atIndex := hwaiting ▸ h.atIndex
  copy := by rw [hentry, hhist, hwaiting]; exact h.copy
  slow := by
    rw [hhist, hwaiting]
    exact fun x hx hkind ↦ ⟨(h.slow x hx hkind).1, (h.slow x hx hkind).2.1,
      fun y hy ↦ (h.slow x hx hkind).2.2 y (hearly hy)⟩
  read := hwaiting ▸ h.read
  slow_ne := hwaiting ▸ h.slow_ne
  copies := hwaiting ▸ h.copies
  behind := hwaiting ▸ h.behind
  stamps := hwaiting ▸ h.stamps
  issued := fun ho x hx ↦ by
    rw [hwaiting]
    refine h.issued ho x ?_
    rw [KeyState.Slow, hwaiting] at hx
    exact hx.imp_left fun hx ↦ ⟨hearly hx.1, hx.2⟩
  outbox := by rw [hhist, houtbox]; exact h.outbox
  ahead := by rw [hhist, houtbox, hentry]; exact h.ahead
  late := by rw [hhist, hentry]; exact fun x hx ↦ h.late x (hlate hx)

theorem Inv.within (h : Inv ordered v g) (hwithin : v'.Within v) : Inv ordered v' g :=
  h.mono hwithin.early hwithin.waiting hwithin.outbox hwithin.late hwithin.entry hwithin.index
    hwithin.hist

/-- The entry is that of a write with a tag. -/
theorem Inv.entry_mem (h : Inv ordered v g) (e : OpId × UInt64) (he : v.entry = some e) :
    e.1 ∈ g.writes :=
  (h.entry e he).1

/-- While a copy of the entry is at the index thread, its tag is above that of the index. -/
theorem Inv.top_lt_seen (h : Inv ordered v g) (hx : x ∈ v.waiting) (hkind : x.kind = .copy) :
    g.top < g.seen v.entry :=
  (h.copy x hx hkind).2.2.1.trans_le (h.copy x hx hkind).2.2.2

/-! ### Operations start -/

/-- A coroutine starts an operation. -/
theorem Inv.start (h : Inv ordered v g) {e : Event OpId UInt64}
    (he : e = .invokeWrite x.op ∨ e = .invokeRead x.op) (hfresh : ∀ e' ∈ v.hist, e'.op ≠ x.op)
    (hearly : ∀ y ∈ v.early, y.op ≠ x.op) (hwaiting : ∀ y ∈ v.waiting, y.op ≠ x.op)
    (houtbox : ∀ y ∈ v.outbox, y.kind = .readHit ∨ y.kind = .readReply → y.op ≠ x.op)
    (hlate : ∀ y ∈ v.late, y.op ≠ x.op) (hkind : x.kind ≠ .appendReply ∧ x.kind ≠ .updateReq) :
    Inv ordered { v with early := insert x v.early, hist := v.hist ++ [e] }
      { g with floor := Function.update g.floor x.op g.done } := by
  have hhist : v.hist ⊆ v.hist ++ [e] := List.subset_append_left _ _
  have hnot : x.op ∉ g.writes := fun hw ↦ by
    obtain ⟨log, hassign⟩ := h.tagged.write_assigned _ hw
    exact hfresh _ hassign rfl
  have hkept {o : OpId} (ho : o ≠ x.op) : Function.update g.floor x.op g.done o = g.floor o :=
    Function.update_of_ne ho _ _
  have hupTo {t : T} {y : Item} (hy : g.UpTo v.hist t y)
      (hne : y.kind = .readHit ∨ y.kind = .readReply → y.op ≠ x.op) :
      Tags.UpTo { g with floor := Function.update g.floor x.op g.done } (v.hist ++ [e]) t y :=
    hy.mono ⟨subset_rfl, fun _ _ ↦ rfl⟩ hhist
      (fun hread ↦ (hkept (hne hread)).le) le_rfl
  refine
    { finite := h.finite
      tagged := h.tagged.invoke he hfresh
      floor_le := fun o ↦ ?_
      done_le := h.done_le
      index := h.index.mono ⟨subset_rfl, fun _ _ ↦ rfl⟩ hhist
      entry := fun e he ↦ ⟨(h.entry e he).1, hhist (h.entry e he).2.1, (h.entry e he).2.2⟩
      early := ?_
      atIndex := h.atIndex
      copy := fun y hy hcopy ↦ ⟨(h.copy y hy hcopy).1, hhist (h.copy y hy hcopy).2.1,
        (h.copy y hy hcopy).2.2⟩
      slow := fun y hy hslow ↦ ⟨(h.slow y hy hslow).1, hhist (h.slow y hy hslow).2.1, ?_⟩
      read := fun y hy hread ↦ ?_
      slow_ne := h.slow_ne
      copies := h.copies
      behind := ?_
      stamps := h.stamps
      issued := fun ho y hy ↦ ?_
      outbox := fun y hy ↦ hupTo (h.outbox y hy) (houtbox y hy)
      ahead := ?_
      late := fun y hy ↦ hupTo (h.late y hy) fun _ ↦ hlate y hy }
  · by_cases ho : o = x.op
    · subst ho
      exact (Function.update_self _ _ _).le
    · exact (hkept ho).trans_le (h.floor_le o)
  · rintro y (rfl | hy)
    · exact hnot
    · exact h.early y hy
  · rintro z (rfl | hz)
    · exact (hwaiting y hy).symm
    · exact (h.slow y hy hslow).2.2 z hz
  · exact (hkept (hwaiting y hy)).trans_le (h.read y hy hread)
  · refine h.behind.imp_of_mem fun hy _ hlt hslow hcopy ↦ ?_
    exact (hkept (hwaiting _ hy)).trans_lt (hlt hslow hcopy)
  · have hslow : v.Slow y := by
      refine hy.imp_left fun hy ↦ ⟨hy.1.resolve_left ?_, hy.2⟩
      rintro rfl
      exact hy.2.elim hkind.1 hkind.2
    have hne : y.op ≠ x.op := hslow.elim (fun hy ↦ hearly y hy.1) fun hy ↦ hwaiting y hy.1
    intro z hz hcopy hle
    exact (hkept hne).trans_lt (h.issued ho y hslow z hz hcopy hle)
  · exact h.ahead.imp_of_mem fun hy _ hupto hkind hentry ↦ hupTo (hupto hkind hentry)
      (houtbox _ hy)

/-- An early item becomes another one of its operation. -/
theorem Inv.insert_early (h : Inv ordered v g) (hx : x ∈ v.early) (hop : y.op = x.op)
    (hissued : ordered → y.kind = .appendReply ∨ y.kind = .updateReq → ∀ z ∈ v.waiting,
      z.kind = .copy → y.ts ≤ z.ts → g.floor y.op < g.tag z.op) :
    Inv ordered { v with early := insert y v.early } g :=
  { h with
    early := by
      rintro z (rfl | hz)
      · rw [hop]
        exact h.early x hx
      · exact h.early z hz
    slow := fun z hz hslow ↦ ⟨(h.slow z hz hslow).1, (h.slow z hz hslow).2.1, by
      rintro u (rfl | hu)
      · rw [hop]
        exact (h.slow z hz hslow).2.2 x hx
      · exact (h.slow z hz hslow).2.2 u hu⟩
    issued := fun ho z hz ↦ by
      rcases hz with ⟨rfl | hz, hkind⟩ | hz
      · exact hissued ho hkind
      · exact h.issued ho z (Or.inl ⟨hz, hkind⟩)
      · exact h.issued ho z (Or.inr hz) }

/-! ### The history grows -/

/-- The history grows and operations complete. Tags of writes, floors and the tag of the index are
kept. -/
theorem Inv.grow (h : Inv ordered v g) {hist : List (Event OpId UInt64)} {tag : OpId → T} {done : T}
    (hhist : v.hist ⊆ hist) (htag : ∀ w ∈ g.writes, tag w = g.tag w)
    (htagged : Tagged 0 hist g.writes tag g.floor done) (hle : g.done ≤ done)
    (hseen : done ≤ g.seen v.entry) :
    Inv ordered { v with hist := hist } { g with tag := tag, done := done } := by
  have hext : g.Extends { g with tag := tag, done := done } := ⟨subset_rfl, htag⟩
  have hupTo {t t' : T} {y : Item} (hy : g.UpTo v.hist t y) (hle : t ≤ t') :
      Tags.UpTo { g with tag := tag, done := done } hist t' y :=
    hy.mono hext hhist (fun _ ↦ le_rfl) hle
  have hseen' : g.seen v.entry ≤ Tags.seen { g with tag := tag, done := done } v.entry :=
    hext.seen_le le_rfl h.entry_mem
  refine
    { h with
      tagged := htagged
      floor_le := fun o ↦ (h.floor_le o).trans hle
      done_le := hseen.trans hseen'
      index := h.index.mono hext hhist
      entry := fun e he ↦ ⟨(h.entry e he).1, hhist (h.entry e he).2.1, (h.entry e he).2.2⟩
      copy := fun y hy hcopy ↦ ?_
      slow := fun y hy hslow ↦ ⟨(h.slow y hy hslow).1, hhist (h.slow y hy hslow).2.1,
        (h.slow y hy hslow).2.2⟩
      copies := ?_
      behind := ?_
      issued := fun ho y hy z hz hcopy hle ↦ ?_
      outbox := fun y hy ↦ hupTo (h.outbox y hy) le_rfl
      ahead := ?_
      late := fun y hy ↦ hupTo (h.late y hy) hseen' }
  · obtain ⟨hw, hassign, htop, hle⟩ := h.copy y hy hcopy
    exact ⟨hw, hhist hassign, htop.trans_eq (htag _ hw).symm,
      (htag _ hw).trans_le (hle.trans hseen')⟩
  · refine h.copies.imp_of_mem fun hy hz hlt hcopy hcopy' ↦ ?_
    exact (htag _ (h.copy _ hy hcopy).1).trans_lt
      ((hlt hcopy hcopy').trans_eq (htag _ (h.copy _ hz hcopy').1).symm)
  · refine h.behind.imp_of_mem fun _ hz hlt hslow hcopy ↦ ?_
    exact (hlt hslow hcopy).trans_eq (htag _ (h.copy _ hz hcopy).1).symm
  · exact (h.issued ho y hy z hz hcopy hle).trans_eq (htag _ (h.copy _ hz hcopy).1).symm
  · refine h.ahead.imp_of_mem fun _ hz hupto hkind hentry ↦ ?_
    exact hupTo (hupto hkind hentry)
      (htag _ ((h.outbox _ hz).write (Or.inr (Or.inr hkind))).1).ge

/-- The data node assigns a write its log position. -/
theorem Inv.assign (h : Inv ordered v g) {o : OpId} {log : UInt64}
    (hinvoked : .invokeWrite o ∈ v.hist) (hfresh : ∀ log', .assign o log' ∉ v.hist) :
    Inv ordered { v with hist := v.hist ++ [.assign o log] } g :=
  h.grow (List.subset_append_left _ _) (fun _ _ ↦ rfl) (h.tagged.assign hinvoked hfresh) le_rfl
    h.done_le

/-- A coroutine receives the outcome of a write. -/
theorem Inv.respond_write (h : Inv ordered v g) (hx : x ∈ v.late)
    (hkind : x.kind = .answer ∨ x.kind = .updateReply) :
    Inv ordered { v with hist := v.hist ++ [.respondWrite x.op x.log] }
      { g with done := max g.done (g.tag x.op) } := by
  obtain ⟨hw, hassign, hle⟩ := (h.late x hx).write (hkind.imp_right Or.inl)
  exact h.grow (List.subset_append_left _ _) (fun _ _ ↦ rfl)
    (h.tagged.respondWrite hw hassign (le_max_left _ _) (le_max_right _ _)) (le_max_left _ _)
    (max_le h.done_le hle)

/-- A coroutine receives the outcome of a read. -/
theorem Inv.respond_read (h : Inv ordered v g) (hx : x ∈ v.late)
    (hkind : x.kind = .readHit ∨ x.kind = .readReply) (hpending : ¬ Responded v.hist x.op)
    (hinvoked : .invokeRead x.op ∈ v.hist) :
    ∃ n, Inv ordered { v with hist := v.hist ++ [.respondRead x.op x.log] }
      { g with tag := Function.update g.tag x.op n, done := max g.done n } := by
  obtain ⟨n, hfloor, hle, hvalue⟩ := (h.late x hx).read hkind
  have hnot : x.op ∉ g.writes := fun hw ↦
    h.tagged.read_ne_write _ hinvoked (h.tagged.write_invoked hw)
  exact ⟨n, h.grow (List.subset_append_left _ _)
    (fun w hw ↦ Function.update_of_ne (ne_of_mem_of_not_mem hw hnot) _ _)
    (h.tagged.respondRead hinvoked hpending hfloor hvalue (le_max_left _ _) (le_max_right _ _))
    (le_max_left _ _) (max_le h.done_le hle)⟩

/-! ### Requests enter the inbox -/

/-- The requests at the index thread after one more has entered the inbox. -/
theorem waiting_concat (v : KeyState) (y : Item) (early late : Set Item)
    (entry : Option (OpId × UInt64)) :
    KeyState.waiting { v with
      early := early
      inbox := v.inbox ++ [y]
      late := late
      entry := entry } = v.waiting ++ [y] :=
  (List.append_assoc _ _ _).symm

/-- The switch installs a write. Its tag is above all others. -/
theorem Inv.install [NoMaxOrder T] (h : Inv ordered v g) (hx : x ∈ v.early)
    (hassign : .assign x.op x.log ∈ v.hist)
    (hstamps : ordered → ∀ z ∈ v.waiting, z.IsUpdate → z.ts < x.ts) :
    ∃ g' : Tags T, g.Extends g' ∧ Inv ordered { v with
      early := {z ∈ v.early | z.op ≠ x.op}
      inbox := v.inbox ++ [{ x with kind := .copy }]
      late := insert { x with kind := .answer } v.late
      entry := some x.write } g' := by
  obtain ⟨bound, hbound⟩ :=
    ((h.finite.image g.tag).insert (max g.top (g.seen v.entry))).bddAbove
  obtain ⟨t, ht⟩ := exists_gt bound
  have htag {w : OpId} (hw : w ∈ g.writes) : g.tag w < t :=
    (hbound (Set.mem_insert_of_mem _ ⟨w, hw, rfl⟩)).trans_lt ht
  have hmax : max g.top (g.seen v.entry) < t := (hbound (Set.mem_insert _ _)).trans_lt ht
  have htop : g.top < t := (le_max_left _ _).trans_lt hmax
  have hseen : g.seen v.entry < t := (le_max_right _ _).trans_lt hmax
  have hfloor (o : OpId) : g.floor o < t := ((h.floor_le o).trans h.done_le).trans_lt hseen
  have hnot : x.op ∉ g.writes := h.early x hx
  set g' : Tags T := { g with
    writes := insert x.op g.writes
    tag := Function.update g.tag x.op t } with hg'
  have hself : g'.tag x.op = t := Function.update_self _ _ _
  have hext : g.Extends g' :=
    ⟨Set.subset_insert _ _, fun w hw ↦ Function.update_of_ne (ne_of_mem_of_not_mem hw hnot) _ _⟩
  have hupTo {t t' : T} {y : Item} (hy : g.UpTo v.hist t y) (hle : t ≤ t') :
      g'.UpTo v.hist t' y :=
    hy.mono hext (List.Subset.refl _) (fun _ ↦ le_rfl) hle
  have hcopy (y : Item) (hy : y ∈ v.waiting) (hkind : y.kind = .copy) : g'.tag y.op < t :=
    (hext.tag _ (h.copy y hy hkind).1).trans_lt (htag (h.copy y hy hkind).1)
  refine ⟨g', hext, ?_⟩
  refine
    { finite := h.finite.insert _
      tagged := h.tagged.enter hassign (h.tagged.not_responded hassign hnot) hnot (hfloor _)
        fun w hw ↦ (htag hw).ne
      floor_le := h.floor_le
      done_le := h.done_le.trans (hseen.le.trans_eq hself.symm)
      index := h.index.mono hext (List.Subset.refl _)
      entry := fun e he ↦ ?_
      early := fun y hy ↦ ?_
      atIndex := ?_
      copy := ?_
      slow := ?_
      read := ?_
      slow_ne := ?_
      copies := ?_
      behind := ?_
      stamps := ?_
      issued := ?_
      outbox := fun y hy ↦ hupTo (h.outbox y hy) le_rfl
      ahead := ?_
      late := ?_ }
  all_goals try rw [waiting_concat]
  · obtain rfl := Option.some.inj he
    refine ⟨Set.mem_insert _ _, hassign, Or.inl ⟨{ x with kind := .copy }, ?_, rfl, rfl⟩⟩
    exact List.mem_append_right _ (List.mem_singleton_self _)
  · rintro (heq | hmem)
    · exact hy.2 heq
    · exact h.early y hy.1 hmem
  · intro y hy
    rcases List.mem_append.mp hy with hy | hy
    · exact h.atIndex y hy
    · rw [List.mem_singleton.mp hy]
      exact Or.inl rfl
  · intro y hy hkind
    rcases List.mem_append.mp hy with hy | hy
    · obtain ⟨hw, hassign', htop', -⟩ := h.copy y hy hkind
      exact ⟨Or.inr hw, hassign', htop'.trans_eq (hext.tag _ hw).symm,
        (hcopy y hy hkind).le.trans_eq hself.symm⟩
    · rw [List.mem_singleton.mp hy]
      exact ⟨Or.inl rfl, hassign, htop.trans_eq hself.symm, le_rfl⟩
  · intro y hy hkind
    rcases List.mem_append.mp hy with hy | hy
    · obtain ⟨hw, hassign', hne⟩ := h.slow y hy hkind
      refine ⟨?_, hassign', fun z hz ↦ hne z hz.1⟩
      rintro (heq | hmem)
      · exact hne x hx heq.symm
      · exact hw hmem
    · rw [List.mem_singleton.mp hy] at hkind
      cases hkind
  · intro y hy hkind
    rcases List.mem_append.mp hy with hy | hy
    · exact h.read y hy hkind
    · rw [List.mem_singleton.mp hy] at hkind
      cases hkind
  · refine List.pairwise_append.mpr ⟨h.slow_ne, List.pairwise_singleton _ _, fun y _ z hz _ hkind ↦ ?_⟩
    rw [List.mem_singleton.mp hz] at hkind
    cases hkind
  · refine List.pairwise_append.mpr ⟨?_, List.pairwise_singleton _ _, fun y hy z hz hkind _ ↦ ?_⟩
    · refine h.copies.imp_of_mem fun hy hz hlt hkind hkind' ↦ ?_
      rw [hext.tag _ (h.copy _ hy hkind).1, hext.tag _ (h.copy _ hz hkind').1]
      exact hlt hkind hkind'
    · rw [List.mem_singleton.mp hz]
      exact (hcopy y hy hkind).trans_eq hself.symm
  · refine List.pairwise_append.mpr ⟨?_, List.pairwise_singleton _ _, fun y hy z hz _ _ ↦ ?_⟩
    · refine h.behind.imp_of_mem fun _ hz hlt hkind hkind' ↦ ?_
      rw [hext.tag _ (h.copy _ hz hkind').1]
      exact hlt hkind hkind'
    · rw [List.mem_singleton.mp hz]
      exact (hfloor _).trans_eq hself.symm
  · intro ho
    refine List.pairwise_append.mpr ⟨h.stamps ho, List.pairwise_singleton _ _,
      fun y hy z hz hkind _ ↦ ?_⟩
    rw [List.mem_singleton.mp hz]
    exact hstamps ho y hy hkind
  · intro ho y hy z hz hkind hle
    rcases List.mem_append.mp hz with hz | hz
    · rw [hext.tag _ (h.copy _ hz hkind).1]
      refine h.issued ho y ?_ z hz hkind hle
      rcases hy with ⟨hy, hslow⟩ | ⟨hy, hslow⟩
      · exact Or.inl ⟨hy.1, hslow⟩
      · rw [waiting_concat] at hy
        rcases List.mem_append.mp hy with hy | hy
        · exact Or.inr ⟨hy, hslow⟩
        · rw [List.mem_singleton.mp hy] at hslow
          cases hslow
    · rw [List.mem_singleton.mp hz]
      exact (hfloor _).trans_eq hself.symm
  · -- no `ReplySwitch` of the new entry is in the outbox yet
    refine h.ahead.imp_of_mem fun _ hz _ hkind hentry ↦ ?_
    have hop : x.op = _ := congrArg Prod.fst (Option.some.inj hentry)
    exact absurd (hop ▸ ((h.outbox _ hz).write (Or.inr (Or.inr hkind))).1) hnot
  · rintro y (rfl | hy)
    · exact ⟨by simp, fun _ ↦ ⟨Or.inl rfl, hassign, le_rfl⟩⟩
    · exact hupTo (h.late y hy) (hseen.le.trans_eq hself.symm)

/-- A slow update enters the inbox. It gets no tag there. -/
theorem Inv.update (h : Inv ordered v g) (hx : x ∈ v.early) (hkind : x.kind = .updateReq)
    (hassign : .assign x.op x.log ∈ v.hist) :
    Inv ordered { v with
      early := {z ∈ v.early | z.op ≠ x.op}
      inbox := v.inbox ++ [x] } g := by
  have hnotCopy {z : Item} (hz : z ∈ [x]) : z.kind ≠ .copy := by
    rw [List.mem_singleton.mp hz, hkind]
    simp
  refine
    { h with
      entry := fun e he ↦ ?_
      early := fun y hy ↦ h.early y hy.1
      atIndex := ?_
      copy := ?_
      slow := ?_
      read := ?_
      slow_ne := ?_
      copies := ?_
      behind := ?_
      stamps := ?_
      issued := ?_ }
  all_goals try rw [waiting_concat]
  · refine ⟨(h.entry e he).1, (h.entry e he).2.1, (h.entry e he).2.2.imp_left ?_⟩
    rintro ⟨y, hy, hcopy⟩
    exact ⟨y, List.mem_append_left _ hy, hcopy⟩
  · intro y hy
    rcases List.mem_append.mp hy with hy | hy
    · exact h.atIndex y hy
    · rw [List.mem_singleton.mp hy, hkind]
      exact Or.inr (Or.inl rfl)
  · intro y hy hcopy
    rcases List.mem_append.mp hy with hy | hy
    · exact h.copy y hy hcopy
    · exact absurd hcopy (hnotCopy hy)
  · intro y hy hslow
    rcases List.mem_append.mp hy with hy | hy
    · obtain ⟨hw, hassign', hne⟩ := h.slow y hy hslow
      exact ⟨hw, hassign', fun z hz ↦ hne z hz.1⟩
    · rw [List.mem_singleton.mp hy]
      exact ⟨h.early x hx, hassign, fun z hz ↦ hz.2⟩
  · intro y hy hread
    rcases List.mem_append.mp hy with hy | hy
    · exact h.read y hy hread
    · rw [List.mem_singleton.mp hy, hkind] at hread
      cases hread
  · refine List.pairwise_append.mpr ⟨h.slow_ne, List.pairwise_singleton _ _, fun y hy z hz hslow _ ↦ ?_⟩
    rw [List.mem_singleton.mp hz]
    exact ((h.slow y hy hslow).2.2 x hx).symm
  · exact List.pairwise_append.mpr ⟨h.copies, List.pairwise_singleton _ _,
      fun y _ z hz _ hcopy ↦ absurd hcopy (hnotCopy hz)⟩
  · exact List.pairwise_append.mpr ⟨h.behind, List.pairwise_singleton _ _,
      fun y _ z hz _ hcopy ↦ absurd hcopy (hnotCopy hz)⟩
  · exact fun ho ↦ List.pairwise_append.mpr ⟨h.stamps ho, List.pairwise_singleton _ _,
      fun y _ z hz _ hcopy ↦ absurd hcopy (hnotCopy hz)⟩
  · intro ho y hy z hz hcopy
    refine h.issued ho y ?_ z ((List.mem_append.mp hz).resolve_right fun hz ↦ hnotCopy hz hcopy) hcopy
    rcases hy with ⟨hy, hslow⟩ | ⟨hy, hslow⟩
    · exact Or.inl ⟨hy.1, hslow⟩
    · rw [waiting_concat] at hy
      rcases List.mem_append.mp hy with hy | hy
      · exact Or.inr ⟨hy, hslow⟩
      · rw [List.mem_singleton.mp hy]
        exact Or.inl ⟨hx, Or.inr hkind⟩

/-- A read passes the switch when no entry answers it. It will see at least what is in the index. -/
theorem Inv.read_enter (h : Inv ordered v g) (hkind : x.kind = .readReq) (hentry : v.entry = none) :
    Inv ordered { v with inbox := v.inbox ++ [x] } g := by
  have hne {z : Item} (hz : z ∈ [x]) {kind : Kind} (hz' : z.kind = kind) : kind = .readReq := by
    rw [← hz', List.mem_singleton.mp hz, hkind]
  have hfloor (o : OpId) : g.floor o ≤ g.top := by
    have hle := (h.floor_le o).trans h.done_le
    rwa [hentry] at hle
  refine
    { h with
      entry := fun e he ↦ ?_
      atIndex := ?_
      copy := ?_
      slow := ?_
      read := ?_
      slow_ne := ?_
      copies := ?_
      behind := ?_
      stamps := ?_
      issued := ?_ }
  all_goals try rw [waiting_concat]
  · exact absurd (hentry.symm.trans he) (by simp)
  · intro y hy
    rcases List.mem_append.mp hy with hy | hy
    · exact h.atIndex y hy
    · rw [List.mem_singleton.mp hy, hkind]
      exact Or.inr (Or.inr rfl)
  · intro y hy hcopy
    exact h.copy y ((List.mem_append.mp hy).resolve_right fun hy ↦ by cases hne hy hcopy) hcopy
  · intro y hy hslow
    exact h.slow y ((List.mem_append.mp hy).resolve_right fun hy ↦ by cases hne hy hslow) hslow
  · exact fun y _ _ ↦ hfloor _
  · exact List.pairwise_append.mpr ⟨h.slow_ne, List.pairwise_singleton _ _,
      fun y _ z hz _ hslow ↦ by cases hne hz hslow⟩
  · exact List.pairwise_append.mpr ⟨h.copies, List.pairwise_singleton _ _,
      fun y _ z hz _ hcopy ↦ by cases hne hz hcopy⟩
  · exact List.pairwise_append.mpr ⟨h.behind, List.pairwise_singleton _ _,
      fun y _ z hz _ hcopy ↦ by cases hne hz hcopy⟩
  · exact fun ho ↦ List.pairwise_append.mpr ⟨h.stamps ho, List.pairwise_singleton _ _,
      fun y _ z hz _ hcopy ↦ by cases hne hz hcopy⟩
  · intro ho y hy z hz hcopy
    refine h.issued ho y (hy.imp_right fun hy ↦ ⟨?_, hy.2⟩) z
      ((List.mem_append.mp hz).resolve_right fun hz ↦ by cases hne hz hcopy) hcopy
    rw [waiting_concat] at hy
    exact (List.mem_append.mp hy.1).resolve_right fun hmem ↦ by cases hne hmem hy.2

/-! ### Outcomes -/

/-- A read that finds the entry returns its write. -/
theorem Inv.hit (h : Inv ordered v g) {w : OpId} {log : UInt64} (hentry : v.entry = some (w, log)) :
    Inv ordered { v with late := insert { x with kind := .readHit, log := log } v.late } g :=
  { h with
    late := by
      rintro y (rfl | hy)
      · obtain ⟨hw, hassign, -⟩ := h.entry _ hentry
        refine ⟨fun _ ↦ ⟨g.seen v.entry, (h.floor_le _).trans h.done_le, le_rfl, Or.inr ⟨w, hw, ?_,
          hassign⟩⟩, by simp⟩
        rw [hentry]
        rfl
      · exact h.late y hy }

/-- A `ReplySwitch` clears the entry of its own write, or finds none. -/
theorem Inv.clear (h : Inv ordered v g) (houtbox : v.outbox = x :: rest)
    (hkind : x.kind = .replySwitch) (hown : ∀ w log, v.entry = some (w, log) → w = x.op) :
    Inv ordered { v with outbox := rest, entry := none } g := by
  have hle : g.seen v.entry ≤ g.top := by
    cases hentry : v.entry with
    | none => exact le_rfl
    | some e =>
      have htag := ((h.outbox x (by rw [houtbox]; exact List.mem_cons_self)).write
        (Or.inr (Or.inr hkind))).2.2
      rwa [← hown e.1 e.2 hentry] at htag
  have hmem {y : Item} (hy : y ∈ rest) : y ∈ v.outbox := by
    rw [houtbox]
    exact List.mem_cons_of_mem x hy
  exact
    { h with
      done_le := h.done_le.trans hle
      entry := by simp
      copy := fun y hy hcopy ↦ absurd hle (h.top_lt_seen hy hcopy).not_ge
      outbox := fun y hy ↦ h.outbox y (hmem hy)
      ahead := (List.pairwise_cons.mp (houtbox ▸ h.ahead)).2.imp fun _ _ he ↦ by cases he
      late := fun y hy ↦ (h.late y hy).mono (Tags.Extends.refl g) (List.Subset.refl _)
        (fun _ ↦ le_rfl) hle }

/-- A `ReplySwitch` leaves the entry of another write alone. -/
theorem Inv.keep (h : Inv ordered v g) (houtbox : v.outbox = x :: rest)
    (hne : ∀ log, v.entry ≠ some (x.op, log)) : Inv ordered { v with outbox := rest } g :=
  { h with
    entry := fun e he ↦ by
      obtain ⟨hw, hassign, hwhere⟩ := h.entry e he
      refine ⟨hw, hassign, hwhere.imp_right ?_⟩
      rintro ⟨y, hy, hkind, rfl⟩
      rw [houtbox] at hy
      rcases List.mem_cons.mp hy with rfl | hy
      · exact absurd he (hne y.log)
      · exact ⟨y, hy, hkind, rfl⟩
    outbox := fun y hy ↦ h.outbox y (by rw [houtbox]; exact List.mem_cons_of_mem x hy)
    ahead := (List.pairwise_cons.mp (houtbox ▸ h.ahead)).2 }

/-- A reply to a client passes the switch. It is not newer than what a read sees there: either the
`ReplySwitch` of the entry is behind it, or the copy of the entry has not been applied. -/
theorem Inv.reply (h : Inv ordered v g) (houtbox : v.outbox = x :: rest)
    (hkind : x.kind ≠ .replySwitch) :
    Inv ordered { v with outbox := rest, late := insert x v.late } g := by
  have hx : x ∈ v.outbox := by
    rw [houtbox]
    exact List.mem_cons_self
  obtain ⟨hahead, hrest⟩ := List.pairwise_cons.mp (houtbox ▸ h.ahead)
  have hupTo : g.UpTo v.hist (g.seen v.entry) x := by
    cases hentry : v.entry with
    | none => exact h.outbox x hx
    | some e =>
      obtain ⟨-, -, ⟨y, hy, hcopy, -⟩ | ⟨y, hy, hswitch, rfl⟩⟩ := h.entry e hentry
      · rw [← hentry]
        exact (h.outbox x hx).mono (Tags.Extends.refl g) (List.Subset.refl _) (fun _ ↦ le_rfl)
          (h.top_lt_seen hy hcopy).le
      · rw [houtbox] at hy
        rcases List.mem_cons.mp hy with rfl | hy
        · exact absurd hswitch hkind
        · exact hahead y hy hswitch hentry
  exact
    { h with
      entry := fun e he ↦ by
        obtain ⟨hw, hassign, hwhere⟩ := h.entry e he
        refine ⟨hw, hassign, hwhere.imp_right ?_⟩
        rintro ⟨y, hy, hswitch, rfl⟩
        rw [houtbox] at hy
        rcases List.mem_cons.mp hy with rfl | hy
        · exact absurd hswitch hkind
        · exact ⟨y, hy, hswitch, rfl⟩
      outbox := fun y hy ↦ h.outbox y (by rw [houtbox]; exact List.mem_cons_of_mem x hy)
      ahead := hrest
      late := by
        rintro y (rfl | hy)
        · exact hupTo
        · exact h.late y hy }

end Steps

end SwitchDelta.Protocol
