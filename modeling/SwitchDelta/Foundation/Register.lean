import Mathlib

/-!
# Linearizable registers

A history of an atomic register is a list of events: an operation is invoked, a write is assigned the
value it writes at some point before it responds, and operations respond. `Linearizable` is the usual
condition: all completed operations and some pending writes can be put in one sequence that keeps the
order of operations which do not overlap and in which every read returns the value of the latest
write before it.

`Tagged` is a proof rule for it. Writes carry distinct tags from a linear order, a read carries the
tag of the write it returns (or the least tag for the initial value), and every operation carries a
floor, which is at least the tag of every operation that responded before it was invoked. If reads
are not below their floor and writes are above it, the history is linearizable
(`Tagged.linearizable`). The lemmas `Tagged.invoke` to `Tagged.respondRead` extend a tagged history
by one event, so a system can carry `Tagged` as an invariant. Tags need not be assigned in order, and
`Tagged.enter_all` assigns many at once between two bounds.

`not_linearizable_of_stale` is for the other direction: a read that returns the later of two writes,
followed by one that returns the earlier one.
-/

set_option autoImplicit false
set_option relaxedAutoImplicit false

namespace SwitchDelta.Foundation

variable {O V T : Type*}

/-! ### Histories -/

/-- An event of a register history. -/
inductive Event (O V : Type*)
  | invokeWrite (o : O)
  | assign (o : O) (v : V)
  | respondWrite (o : O) (v : V)
  | invokeRead (o : O)
  | respondRead (o : O) (v : V)
  deriving DecidableEq

namespace Event

/-- The operation of an event. -/
def op : Event O V → O
  | invokeWrite o | assign o _ | respondWrite o _ | invokeRead o | respondRead o _ => o

/-- The operation that an event invokes. -/
def invoked : Event O V → Option O
  | invokeWrite o | invokeRead o => some o
  | _ => none

/-- The operation that an event completes. -/
def responded : Event O V → Option O
  | respondWrite o _ | respondRead o _ => some o
  | _ => none

/-- The read that an event completes. -/
def readResponded : Event O V → Option O
  | respondRead o _ => some o
  | _ => none

end Event

/-- The operation is invoked in the history. -/
def Invoked (H : List (Event O V)) (o : O) : Prop :=
  ∃ e ∈ H, e.invoked = some o

/-- The operation is complete in the history. -/
def Responded (H : List (Event O V)) (o : O) : Prop :=
  ∃ e ∈ H, e.responded = some o

/-- The operation `a` responds before `b` is invoked. -/
def Precedes (H : List (Event O V)) (a b : O) : Prop :=
  ∃ before after, H = before ++ after ∧ Responded before a ∧ Invoked after b

/-- The sequence of operations is a run of an atomic register that holds the given value. -/
inductive Legal (H : List (Event O V)) : V → List O → Prop
  | nil (current : V) : Legal H current []
  | write {current v : V} {o : O} {rest : List O} :
      Event.assign o v ∈ H → Legal H v rest → Legal H current (o :: rest)
  | read {current : V} {o : O} {rest : List O} :
      Event.respondRead o current ∈ H → Legal H current rest → Legal H current (o :: rest)

/-- The sequence `order` is a linearization of the history. -/
structure Linearizes (init : V) (H : List (Event O V)) (order : List O) : Prop where
  nodup : order.Nodup
  invoked : ∀ o ∈ order, Invoked H o
  complete : ∀ o, Responded H o → o ∈ order
  written : ∀ o v, Event.respondWrite o v ∈ H → Event.assign o v ∈ H
  legal : Legal H init order
  realTime : order.Pairwise fun a b ↦ ¬ Precedes H b a

/-- The history is that of an atomic register with the given initial value. -/
def Linearizable (init : V) (H : List (Event O V)) : Prop :=
  ∃ order, Linearizes init H order

theorem Invoked.append_left {H : List (Event O V)} {o : O} (h : Invoked H o)
    (H' : List (Event O V)) : Invoked (H ++ H') o := by
  obtain ⟨e, he, heq⟩ := h
  exact ⟨e, List.mem_append_left _ he, heq⟩

theorem invoked_concat {H : List (Event O V)} {e : Event O V} {o : O} :
    Invoked (H ++ [e]) o ↔ Invoked H o ∨ e.invoked = some o := by
  simp only [Invoked, List.mem_append, List.mem_singleton, or_and_right, exists_or,
    exists_eq_left]

theorem responded_concat {H : List (Event O V)} {e : Event O V} {o : O} :
    Responded (H ++ [e]) o ↔ Responded H o ∨ e.responded = some o := by
  simp only [Responded, List.mem_append, List.mem_singleton, or_and_right, exists_or,
    exists_eq_left]

/-- Appending an event adds precedences only towards the operation it invokes. -/
theorem precedes_concat {H : List (Event O V)} {e : Event O V} {a b : O} :
    Precedes (H ++ [e]) a b ↔ Precedes H a b ∨ (Responded H a ∧ e.invoked = some b) := by
  constructor
  · rintro ⟨before, after, hsplit, hres, hinv⟩
    rcases List.eq_nil_or_concat after with rfl | ⟨after, e', rfl⟩
    · obtain ⟨e', he', -⟩ := hinv
      simp at he'
    · rw [List.concat_eq_append, ← List.append_assoc] at hsplit
      obtain ⟨rfl, he⟩ := List.append_inj' hsplit rfl
      obtain rfl : e = e' := by simpa using he
      rw [List.concat_eq_append, invoked_concat] at hinv
      rcases hinv with hinv | hinv
      · exact Or.inl ⟨before, after, rfl, hres, hinv⟩
      · obtain ⟨e', he', heq⟩ := hres
        exact Or.inr ⟨⟨e', List.mem_append_left _ he', heq⟩, hinv⟩
  · rintro (⟨before, after, rfl, hres, hinv⟩ | ⟨hres, hinv⟩)
    · exact ⟨before, after ++ [e], by simp, hres, hinv.append_left _⟩
    · exact ⟨H, [e], rfl, hres, e, by simp, hinv⟩

/-! ### Tagged histories -/

/-- There is a tag between finitely many lower and finitely many upper ones. -/
theorem exists_between_finite [LinearOrder T] [DenselyOrdered T] [NoMaxOrder T] {lo hi : Set T}
    (hlo : lo.Finite) (hne : lo.Nonempty) (hhi : hi.Finite) (hlt : ∀ a ∈ lo, ∀ b ∈ hi, a < b) :
    ∃ t, (∀ a ∈ lo, a < t) ∧ ∀ b ∈ hi, t < b := by
  obtain ⟨a, ha, hmax⟩ := Set.exists_max_image lo id hlo hne
  rcases hi.eq_empty_or_nonempty with rfl | hne'
  · obtain ⟨t, ht⟩ := exists_gt a
    exact ⟨t, fun a' ha' ↦ (hmax a' ha').trans_lt ht, by simp⟩
  · obtain ⟨b, hb, hmin⟩ := Set.exists_min_image hi id hhi hne'
    obtain ⟨t, hlower, hupper⟩ := exists_between (hlt a ha b hb)
    exact ⟨t, fun a' ha' ↦ (hmax a' ha').trans_lt hlower, fun b' hb' ↦ hupper.trans_le (hmin b' hb')⟩

/-- A history with tags. `writes` are the writes that have a tag, `done` bounds the tags of the
completed operations. -/
structure Tagged [LinearOrder T] [OrderBot T] (init : V) (H : List (Event O V)) (writes : Set O)
    (tag floor : O → T) (done : T) : Prop where
  invoked_once : (H.filterMap Event.invoked).Nodup
  responded_invoked : ∀ before after o, H = before ++ after → Responded before o → Invoked before o
  read_ne_write : ∀ o, Event.invokeRead o ∈ H → Event.invokeWrite o ∉ H
  assign_unique : ∀ o v v', Event.assign o v ∈ H → Event.assign o v' ∈ H → v = v'
  assign_invoked : ∀ o v, Event.assign o v ∈ H → Event.invokeWrite o ∈ H
  write_assigned : ∀ w ∈ writes, ∃ v, Event.assign w v ∈ H
  write_floor : ∀ w ∈ writes, floor w < tag w
  tag_inj : ∀ w ∈ writes, ∀ w' ∈ writes, tag w = tag w' → w = w'
  written : ∀ w v, Event.respondWrite w v ∈ H → w ∈ writes ∧ Event.assign w v ∈ H
  returned : ∀ r v, Event.respondRead r v ∈ H → Event.invokeRead r ∈ H ∧ floor r ≤ tag r ∧
    ((tag r = ⊥ ∧ v = init) ∨ ∃ w ∈ writes, tag w = tag r ∧ Event.assign w v ∈ H)
  precedes_floor : ∀ a b, Precedes H a b → tag a ≤ floor b
  responded_done : ∀ a, Responded H a → tag a ≤ done

namespace Tagged

variable [LinearOrder T] [OrderBot T] {init : V} {H : List (Event O V)} {writes : Set O}
  {tag floor : O → T} {done : T}

theorem write_invoked (h : Tagged init H writes tag floor done) {w : O} (hw : w ∈ writes) :
    Event.invokeWrite w ∈ H := by
  obtain ⟨v, hv⟩ := h.write_assigned w hw
  exact h.assign_invoked w v hv

theorem read_notMem_writes (h : Tagged init H writes tag floor done) {r : O} {v : V}
    (hr : Event.respondRead r v ∈ H) : r ∉ writes := fun hw ↦
  h.read_ne_write r (h.returned r v hr).1 (h.write_invoked hw)

section Linearization

open Classical in
/-- The sort key of an operation: its tag, then writes before reads, then reads by invocation. -/
noncomputable def sortKey (H : List (Event O V)) (writes : Set O) (tag : O → T) (o : O) : T ×ₗ ℕ :=
  toLex (tag o, if o ∈ writes then 0 else H.findIdx (fun e ↦ e.invoked = some o) + 1)

omit [OrderBot T] in
theorem tag_le_of_sortKey_le {a b : O}
    (hle : sortKey H writes tag a ≤ sortKey H writes tag b) : tag a ≤ tag b := by
  rcases (Prod.Lex.toLex_le_toLex).mp hle with hlt | ⟨heq, -⟩
  · exact hlt.le
  · exact heq.le

/-- A read that responded before another was invoked was invoked before it. -/
theorem findIdx_lt_of_precedes (h : Tagged init H writes tag floor done) {a b : O}
    (hprecedes : Precedes H b a) : open Classical in
    H.findIdx (fun e ↦ e.invoked = some b) < H.findIdx (fun e ↦ e.invoked = some a) := by
  classical
  obtain ⟨before, after, rfl, hres, hinv⟩ := hprecedes
  obtain ⟨e, he, heq⟩ := h.responded_invoked before after b rfl hres
  have hb : before.findIdx (fun e ↦ e.invoked = some b) < before.length :=
    List.findIdx_lt_length_of_exists ⟨e, he, by simpa using heq⟩
  have ha : ∀ e ∈ before, ¬ e.invoked = some a := by
    intro e' he' heq'
    obtain ⟨e'', he'', heq''⟩ := hinv
    have honce := h.invoked_once
    rw [List.filterMap_append] at honce
    exact (List.nodup_append.mp honce).2.2 a (List.mem_filterMap.mpr ⟨e', he', heq'⟩) a
      (List.mem_filterMap.mpr ⟨e'', he'', heq''⟩) rfl
  have hnone : before.findIdx (fun e ↦ e.invoked = some a) = before.length :=
    List.findIdx_eq_length.mpr fun e' he' ↦ by simpa using ha e' he'
  rw [List.findIdx_append, List.findIdx_append, if_pos hb, if_neg (by rw [hnone]; omega)]
  omega

/-- In a sequence sorted by key, the value before each read is the one it returned. -/
theorem legal_of_sorted (h : Tagged init H writes tag floor done) {l : List O} {current : V}
    (currentTag : T)
    (hsorted : l.Pairwise fun a b ↦ sortKey H writes tag a ≤ sortKey H writes tag b)
    (hnodup : l.Nodup)
    (hkind : ∀ o ∈ l, o ∈ writes ∨ ∃ v, Event.respondRead o v ∈ H)
    (hwrites : ∀ w ∈ l, w ∈ writes → currentTag < tag w)
    (hreads : ∀ r ∈ l, r ∉ writes → (∃ w ∈ l, w ∈ writes ∧ tag w = tag r) ∨
      (tag r = currentTag ∧ Event.respondRead r current ∈ H)) : Legal H current l := by
  induction l generalizing current currentTag with
  | nil => exact Legal.nil current
  | cons o rest ih =>
    obtain ⟨hhead, htail⟩ := List.pairwise_cons.mp hsorted
    obtain ⟨hfresh, hrest⟩ := List.nodup_cons.mp hnodup
    have hkind' : ∀ o' ∈ rest, o' ∈ writes ∨ ∃ v, Event.respondRead o' v ∈ H := fun o' ho' ↦
      hkind o' (List.mem_cons_of_mem _ ho')
    by_cases ho : o ∈ writes
    · obtain ⟨v, hv⟩ := h.write_assigned o ho
      refine Legal.write hv (ih (tag o) htail hrest hkind' ?_ ?_)
      · intro w hw hww
        have hne : tag o ≠ tag w := fun heq ↦
          hfresh (h.tag_inj o ho w hww heq ▸ hw)
        exact lt_of_le_of_ne (tag_le_of_sortKey_le (hhead w hw)) hne
      · intro r hr hrw
        have hle := tag_le_of_sortKey_le (hhead r hr)
        rcases hreads r (List.mem_cons_of_mem _ hr) hrw with ⟨w, hw, hww, heq⟩ | ⟨heq, -⟩
        · rcases List.mem_cons.mp hw with rfl | hw
          · -- the read returns the value of the write just passed
            obtain ⟨u, hu⟩ := (hkind' r hr).resolve_left hrw
            refine Or.inr ⟨heq.symm, ?_⟩
            rcases (h.returned r u hu).2.2 with ⟨hbot, -⟩ | ⟨w', hw', heq', hassign⟩
            · have hlt := hwrites w List.mem_cons_self ho
              rw [heq, hbot] at hlt
              exact absurd hlt not_lt_bot
            · obtain rfl := h.tag_inj w' hw' w ho (heq'.trans heq.symm)
              exact h.assign_unique w' u v hassign hv ▸ hu
          · exact Or.inl ⟨w, hw, hww, heq⟩
        · have hlt := hwrites o List.mem_cons_self ho
          exact absurd (heq ▸ hle) (not_le.mpr hlt)
    · -- a write with the tag of this read would have been sorted before it
      have hcurrent := (hreads o List.mem_cons_self ho).resolve_left (by
        rintro ⟨w, hw, hww, heq⟩
        rcases List.mem_cons.mp hw with rfl | hw
        · exact ho hww
        · rcases Prod.Lex.toLex_le_toLex.mp (hhead w hw) with hlt | ⟨-, hle⟩
          · exact absurd heq hlt.ne'
          · simp [ho, hww] at hle)
      refine Legal.read hcurrent.2 (ih currentTag htail hrest hkind' ?_ ?_)
      · exact fun w hw ↦ hwrites w (List.mem_cons_of_mem _ hw)
      · intro r hr hrw
        rcases hreads r (List.mem_cons_of_mem _ hr) hrw with ⟨w, hw, hww, heq⟩ | hcur
        · rcases List.mem_cons.mp hw with rfl | hw
          · exact absurd hww ho
          · exact Or.inl ⟨w, hw, hww, heq⟩
        · exact Or.inr hcur

/-- A sequence sorted by key keeps the order of operations that do not overlap. -/
theorem not_precedes_of_sortKey_le (h : Tagged init H writes tag floor done) {a b : O}
    (ha : a ∈ writes ∨ ∃ v, Event.respondRead a v ∈ H)
    (hle : sortKey H writes tag a ≤ sortKey H writes tag b) : ¬ Precedes H b a := by
  classical
  intro hprecedes
  have hfloor := h.precedes_floor b a hprecedes
  by_cases haw : a ∈ writes
  · exact absurd (hfloor.trans_lt (h.write_floor a haw)) (not_lt.mpr (tag_le_of_sortKey_le hle))
  · obtain ⟨v, hv⟩ := ha.resolve_left haw
    have htag : tag b ≤ tag a := hfloor.trans (h.returned a v hv).2.1
    rcases Prod.Lex.toLex_le_toLex.mp hle with hlt | ⟨-, hidx⟩
    · exact absurd htag (not_le.mpr hlt)
    · by_cases hbw : b ∈ writes
      · simp [haw, hbw] at hidx
      · simp only [haw, hbw, if_false, Nat.add_le_add_iff_right] at hidx
        exact absurd (h.findIdx_lt_of_precedes hprecedes) (not_lt.mpr hidx)

/-- The rule: a tagged history is linearizable. -/
theorem linearizable (h : Tagged init H writes tag floor done) : Linearizable init H := by
  classical
  let assigned := (H.filterMap Event.invoked).filter (· ∈ writes)
  let returned := (H.filterMap Event.readResponded).dedup
  have hassigned {o : O} : o ∈ assigned ↔ o ∈ writes := by
    simp only [assigned, List.mem_filter, List.mem_filterMap, decide_eq_true_eq]
    exact ⟨fun h' ↦ h'.2, fun hw ↦ ⟨⟨_, h.write_invoked hw, rfl⟩, hw⟩⟩
  have hreturned {o : O} : o ∈ returned ↔ ∃ v, Event.respondRead o v ∈ H := by
    simp only [returned, List.mem_dedup, List.mem_filterMap]
    constructor
    · rintro ⟨e, he, heq⟩
      cases e with
      | respondRead o' v =>
        obtain rfl : o' = o := Option.some.inj heq
        exact ⟨v, he⟩
      | _ => exact absurd heq (by simp [Event.readResponded])
    · rintro ⟨v, hv⟩
      exact ⟨_, hv, rfl⟩
  let order := (assigned ++ returned).insertionSort
    fun a b ↦ sortKey H writes tag a ≤ sortKey H writes tag b
  have hmem {o : O} : o ∈ order ↔ o ∈ writes ∨ ∃ v, Event.respondRead o v ∈ H := by
    rw [List.mem_insertionSort, List.mem_append, hassigned, hreturned]
  have hsorted : order.Pairwise fun a b ↦ sortKey H writes tag a ≤ sortKey H writes tag b :=
    List.pairwise_insertionSort _ _
  have hnodup : order.Nodup := by
    refine (List.perm_insertionSort _ _).nodup_iff.mpr ?_
    refine List.nodup_append.mpr ⟨h.invoked_once.filter _, List.nodup_dedup _, ?_⟩
    rintro o ho o' ho' rfl
    obtain ⟨v, hv⟩ := hreturned.mp ho'
    exact h.read_notMem_writes hv (hassigned.mp ho)
  refine ⟨order, hnodup, fun o ho ↦ ?_, fun o ho ↦ ?_, fun o v hv ↦ (h.written o v hv).2, ?_, ?_⟩
  · rcases hmem.mp ho with hw | ⟨v, hv⟩
    · exact ⟨_, h.write_invoked hw, rfl⟩
    · exact ⟨_, (h.returned o v hv).1, rfl⟩
  · obtain ⟨e, he, heq⟩ := ho
    refine hmem.mpr ?_
    cases e with
    | respondWrite o' v =>
      obtain rfl : o' = o := Option.some.inj heq
      exact Or.inl (h.written o' v he).1
    | respondRead o' v =>
      obtain rfl : o' = o := Option.some.inj heq
      exact Or.inr ⟨v, he⟩
    | _ => exact absurd heq (by simp [Event.responded])
  · refine h.legal_of_sorted ⊥ hsorted hnodup (fun o ho ↦ hmem.mp ho) ?_ ?_
    · exact fun w _ hw ↦ (bot_le.trans_lt (h.write_floor w hw))
    · intro r hr hrw
      obtain ⟨v, hv⟩ := (hmem.mp hr).resolve_left hrw
      rcases (h.returned r v hv).2.2 with ⟨hbot, rfl⟩ | ⟨w, hw, heq, -⟩
      · exact Or.inr ⟨hbot, hv⟩
      · exact Or.inl ⟨w, hmem.mpr (Or.inl hw), hw, heq⟩
  · exact hsorted.imp_of_mem fun {a b} ha _ hle ↦
      h.not_precedes_of_sortKey_le (hmem.mp ha) hle

end Linearization

/-! ### One event more -/

/-- Events that invoke nothing keep the order of the history. -/
theorem precedes_concat_of_not_invoked {e : Event O V} (he : e.invoked = none) {a b : O} :
    Precedes (H ++ [e]) a b ↔ Precedes H a b := by
  rw [precedes_concat, he]
  simp

theorem invoked_once_concat (h : Tagged init H writes tag floor done) {e : Event O V}
    (he : e.invoked = none) : ((H ++ [e]).filterMap Event.invoked).Nodup := by
  rw [List.filterMap_append, List.filterMap_cons_none he, List.filterMap_nil, List.append_nil]
  exact h.invoked_once

theorem responded_invoked_concat (h : Tagged init H writes tag floor done) {e : Event O V}
    (he : ∀ o, e.responded = some o → Invoked H o) (before after : List (Event O V)) (o : O)
    (hsplit : H ++ [e] = before ++ after) (hres : Responded before o) : Invoked before o := by
  rcases List.eq_nil_or_concat after with rfl | ⟨after, e', rfl⟩
  · rw [List.append_nil] at hsplit
    subst hsplit
    rcases responded_concat.mp hres with hres | hres
    · exact (h.responded_invoked H [] o (by simp) hres).append_left _
    · exact (he o hres).append_left _
  · rw [List.concat_eq_append, ← List.append_assoc] at hsplit
    obtain ⟨rfl, -⟩ := List.append_inj' hsplit rfl
    exact h.responded_invoked before after o rfl hres

/-- The floor of every operation but the invoked one is kept; a fresh operation gets `done`. -/
theorem invoke [DecidableEq O] (h : Tagged init H writes tag floor done) {e : Event O V} {o : O}
    (he : e = .invokeWrite o ∨ e = .invokeRead o) (hfresh : ∀ e' ∈ H, e'.op ≠ o) :
    Tagged init (H ++ [e]) writes tag (Function.update floor o done) done := by
  have hinvoked : e.invoked = some o := by rcases he with rfl | rfl <;> rfl
  have hresponded : e.responded = none := by rcases he with rfl | rfl <;> rfl
  have hassign (o' : O) (v : V) : Event.assign o' v ∈ H ++ [e] ↔ Event.assign o' v ∈ H := by
    rcases he with rfl | rfl <;> simp
  have hne {o' : O} {e' : Event O V} (he' : e' ∈ H) (hop : e'.op = o') : o' ≠ o := fun heq ↦
    hfresh e' he' (hop.trans heq)
  have hop {e' : Event O V} {o' : O} (h' : e'.invoked = some o' ∨ e'.responded = some o') :
      e'.op = o' := by
    cases e' <;> simp_all [Event.invoked, Event.responded, Event.op]
  have hwrites {w : O} (hw : w ∈ writes) : w ≠ o := hne (h.write_invoked hw) rfl
  refine ⟨?_, h.responded_invoked_concat (by simp [hresponded]), ?_, ?_, ?_, ?_, ?_, h.tag_inj, ?_,
    ?_, ?_, ?_⟩
  · rw [List.filterMap_append]
    refine List.nodup_append.mpr ⟨h.invoked_once, by simp [hinvoked], ?_⟩
    intro o' ho' o'' ho''
    obtain ⟨e', he', heq'⟩ := List.mem_filterMap.mp ho'
    obtain rfl : o'' = o := by simpa [hinvoked] using ho''
    exact hne he' (hop (Or.inl heq'))
  · intro o' hr hw
    rw [List.mem_append, List.mem_singleton] at hr hw
    rcases hr with hr | rfl
    · rcases hw with hw | rfl
      · exact h.read_ne_write o' hr hw
      · exact hne hr rfl (Option.some.inj hinvoked)
    · rcases hw with hw | hw
      · exact hne hw rfl (Option.some.inj hinvoked)
      · exact absurd hw (by simp)
  · intro o' v v' hv hv'
    exact h.assign_unique o' v v' ((hassign o' v).mp hv) ((hassign o' v').mp hv')
  · intro o' v hv
    exact List.mem_append_left _ (h.assign_invoked o' v ((hassign o' v).mp hv))
  · intro w hw
    obtain ⟨v, hv⟩ := h.write_assigned w hw
    exact ⟨v, List.mem_append_left _ hv⟩
  · intro w hw
    rw [Function.update_of_ne (hwrites hw)]
    exact h.write_floor w hw
  · intro w v hv
    have hv' : Event.respondWrite w v ∈ H := by rcases he with rfl | rfl <;> simpa using hv
    exact ⟨(h.written w v hv').1, List.mem_append_left _ (h.written w v hv').2⟩
  · intro r v hv
    have hv' : Event.respondRead r v ∈ H := by rcases he with rfl | rfl <;> simpa using hv
    obtain ⟨hinv, hfloor, hvalue⟩ := h.returned r v hv'
    have hrne : r ≠ o := hne hinv rfl
    rw [Function.update_of_ne hrne]
    refine ⟨List.mem_append_left _ hinv, hfloor, hvalue.imp_right ?_⟩
    rintro ⟨w, hw, htag, hv⟩
    exact ⟨w, hw, htag, List.mem_append_left _ hv⟩
  · intro a b hab
    rcases precedes_concat.mp hab with hab | ⟨hres, hinv⟩
    · obtain ⟨before, after, hsplit, -, e', he', heq'⟩ := id hab
      have he' : e' ∈ H := hsplit ▸ List.mem_append_right _ he'
      rw [Function.update_of_ne (hne he' (hop (Or.inl heq')))]
      exact h.precedes_floor a b hab
    · obtain rfl : o = b := by simpa [hinvoked] using hinv
      rw [Function.update_self]
      exact h.responded_done a hres
  · intro a hres
    rw [responded_concat, hresponded] at hres
    exact h.responded_done a (hres.resolve_right (by simp))

/-- A write is assigned its value. -/
theorem assign (h : Tagged init H writes tag floor done) {o : O} {v : V}
    (hinvoked : Event.invokeWrite o ∈ H) (hfresh : ∀ v', Event.assign o v' ∉ H) :
    Tagged init (H ++ [.assign o v]) writes tag floor done := by
  have hmem {e : Event O V} (he : e ∈ H) : e ∈ H ++ [.assign o v] := List.mem_append_left _ he
  refine ⟨h.invoked_once_concat rfl, h.responded_invoked_concat (by simp [Event.responded]), ?_, ?_,
    ?_, ?_, h.write_floor, h.tag_inj, ?_, ?_, ?_, ?_⟩
  · intro o' hr hw
    exact h.read_ne_write o' (by simpa using hr) (by simpa using hw)
  · intro o' u u' hu hu'
    simp only [List.mem_append, List.mem_singleton, Event.assign.injEq] at hu hu'
    rcases hu with hu | ⟨ho, hu⟩ <;> rcases hu' with hu' | ⟨ho', hu'⟩
    · exact h.assign_unique o' u u' hu hu'
    · exact absurd (ho' ▸ hu) (hfresh u)
    · exact absurd (ho ▸ hu') (hfresh u')
    · exact hu.trans hu'.symm
  · intro o' u hu
    simp only [List.mem_append, List.mem_singleton, Event.assign.injEq] at hu
    rcases hu with hu | ⟨rfl, -⟩
    · exact hmem (h.assign_invoked o' u hu)
    · exact hmem hinvoked
  · intro w hw
    obtain ⟨u, hu⟩ := h.write_assigned w hw
    exact ⟨u, hmem hu⟩
  · intro w u hu
    obtain ⟨hw, hu'⟩ := h.written w u (by simpa using hu)
    exact ⟨hw, hmem hu'⟩
  · intro r u hu
    obtain ⟨hinv, hfloor, hvalue⟩ := h.returned r u (by simpa using hu)
    refine ⟨hmem hinv, hfloor, hvalue.imp_right ?_⟩
    rintro ⟨w, hw, htag, hu'⟩
    exact ⟨w, hw, htag, hmem hu'⟩
  · intro a b hab
    exact h.precedes_floor a b ((precedes_concat_of_not_invoked rfl).mp hab)
  · intro a hres
    exact h.responded_done a ((responded_concat.mp hres).resolve_right (by simp [Event.responded]))

/-- A write that has its value and has not responded gets a tag of its own, above its floor. -/
theorem enter [DecidableEq O] (h : Tagged init H writes tag floor done) {o : O} {v : V} {t : T}
    (hassign : Event.assign o v ∈ H) (hpending : ¬ Responded H o) (hnew : o ∉ writes)
    (hfloor : floor o < t) (hfresh : ∀ w ∈ writes, tag w ≠ t) :
    Tagged init H (insert o writes) (Function.update tag o t) floor done := by
  have hresponded {a : O} (ha : Responded H a) : Function.update tag o t a = tag a := by
    refine Function.update_of_ne ?_ _ _
    rintro rfl
    exact hpending ha
  have hold {w : O} (hw : w ∈ writes) : Function.update tag o t w = tag w := by
    refine Function.update_of_ne ?_ _ _
    rintro rfl
    exact hnew hw
  refine ⟨h.invoked_once, h.responded_invoked, h.read_ne_write, h.assign_unique, h.assign_invoked,
    ?_, ?_, ?_, ?_, ?_, ?_, ?_⟩
  · rintro w (rfl | hw)
    · exact ⟨v, hassign⟩
    · exact h.write_assigned w hw
  · rintro w (rfl | hw)
    · rwa [Function.update_self]
    · rw [hold hw]
      exact h.write_floor w hw
  · rintro w (rfl | hw) w' (rfl | hw') htag
    · rfl
    · rw [Function.update_self, hold hw'] at htag
      exact absurd htag.symm (hfresh w' hw')
    · rw [Function.update_self, hold hw] at htag
      exact absurd htag (hfresh w hw)
    · rw [hold hw, hold hw'] at htag
      exact h.tag_inj w hw w' hw' htag
  · intro w u hu
    exact ⟨Or.inr (h.written w u hu).1, (h.written w u hu).2⟩
  · intro r u hu
    obtain ⟨hinv, hle, hvalue⟩ := h.returned r u hu
    rw [hresponded ⟨_, hu, rfl⟩]
    refine ⟨hinv, hle, hvalue.imp_right ?_⟩
    rintro ⟨w, hw, htag, hu'⟩
    exact ⟨w, Or.inr hw, by rw [hold hw, htag], hu'⟩
  · intro a b hab
    obtain ⟨before, after, rfl, ⟨e, he, heq⟩, -⟩ := id hab
    rw [hresponded ⟨e, List.mem_append_left _ he, heq⟩]
    exact h.precedes_floor a b hab
  · intro a ha
    rw [hresponded ha]
    exact h.responded_done a ha

/-- A tagged write responds. -/
theorem respondWrite (h : Tagged init H writes tag floor done) {o : O} {v : V} {done' : T}
    (hw : o ∈ writes) (hassign : Event.assign o v ∈ H) (hdone : done ≤ done')
    (htag : tag o ≤ done') :
    Tagged init (H ++ [.respondWrite o v]) writes tag floor done' := by
  have hmem {e : Event O V} (he : e ∈ H) : e ∈ H ++ [.respondWrite o v] :=
    List.mem_append_left _ he
  have hinvoked : Invoked H o := ⟨_, h.write_invoked hw, rfl⟩
  refine ⟨h.invoked_once_concat rfl, h.responded_invoked_concat ?_, ?_, ?_, ?_, ?_, h.write_floor,
    h.tag_inj, ?_, ?_, ?_, ?_⟩
  · rintro o' ho'
    obtain rfl : o = o' := Option.some.inj ho'
    exact hinvoked
  · intro o' hr hw'
    exact h.read_ne_write o' (by simpa using hr) (by simpa using hw')
  · intro o' u u' hu hu'
    exact h.assign_unique o' u u' (by simpa using hu) (by simpa using hu')
  · intro o' u hu
    exact hmem (h.assign_invoked o' u (by simpa using hu))
  · intro w hw'
    obtain ⟨u, hu⟩ := h.write_assigned w hw'
    exact ⟨u, hmem hu⟩
  · intro w u hu
    simp only [List.mem_append, List.mem_singleton, Event.respondWrite.injEq] at hu
    rcases hu with hu | ⟨rfl, rfl⟩
    · exact ⟨(h.written w u hu).1, hmem (h.written w u hu).2⟩
    · exact ⟨hw, hmem hassign⟩
  · intro r u hu
    obtain ⟨hinv, hle, hvalue⟩ := h.returned r u (by simpa using hu)
    refine ⟨hmem hinv, hle, hvalue.imp_right ?_⟩
    rintro ⟨w, hw', htag', hu'⟩
    exact ⟨w, hw', htag', hmem hu'⟩
  · intro a b hab
    exact h.precedes_floor a b ((precedes_concat_of_not_invoked rfl).mp hab)
  · intro a ha
    rcases responded_concat.mp ha with ha | ha
    · exact (h.responded_done a ha).trans hdone
    · obtain rfl : o = a := Option.some.inj ha
      exact htag

/-- A read responds with the value of a tagged write, or the initial value. -/
theorem respondRead [DecidableEq O] (h : Tagged init H writes tag floor done) {r : O} {v : V}
    {t done' : T} (hinvoked : Event.invokeRead r ∈ H) (hpending : ¬ Responded H r)
    (hfloor : floor r ≤ t)
    (hvalue : (t = ⊥ ∧ v = init) ∨ ∃ w ∈ writes, tag w = t ∧ Event.assign w v ∈ H)
    (hdone : done ≤ done') (htag : t ≤ done') :
    Tagged init (H ++ [.respondRead r v]) writes (Function.update tag r t) floor done' := by
  have hmem {e : Event O V} (he : e ∈ H) : e ∈ H ++ [.respondRead r v] :=
    List.mem_append_left _ he
  have hresponded {a : O} (ha : Responded H a) : Function.update tag r t a = tag a := by
    refine Function.update_of_ne ?_ _ _
    rintro rfl
    exact hpending ha
  have hold {w : O} (hw : w ∈ writes) : Function.update tag r t w = tag w := by
    refine Function.update_of_ne ?_ _ _
    rintro rfl
    exact h.read_ne_write w hinvoked (h.write_invoked hw)
  refine ⟨h.invoked_once_concat rfl, h.responded_invoked_concat ?_, ?_, ?_, ?_, ?_, ?_, ?_, ?_, ?_,
    ?_, ?_⟩
  · rintro o' ho'
    obtain rfl : r = o' := Option.some.inj ho'
    exact ⟨_, hinvoked, rfl⟩
  · intro o' hr hw'
    exact h.read_ne_write o' (by simpa using hr) (by simpa using hw')
  · intro o' u u' hu hu'
    exact h.assign_unique o' u u' (by simpa using hu) (by simpa using hu')
  · intro o' u hu
    exact hmem (h.assign_invoked o' u (by simpa using hu))
  · intro w hw'
    obtain ⟨u, hu⟩ := h.write_assigned w hw'
    exact ⟨u, hmem hu⟩
  · intro w hw
    rw [hold hw]
    exact h.write_floor w hw
  · intro w hw w' hw' heq
    rw [hold hw, hold hw'] at heq
    exact h.tag_inj w hw w' hw' heq
  · intro w u hu
    obtain ⟨hw, hu'⟩ := h.written w u (by simpa using hu)
    exact ⟨hw, hmem hu'⟩
  · intro o' u hu
    simp only [List.mem_append, List.mem_singleton, Event.respondRead.injEq] at hu
    rcases hu with hu | ⟨rfl, rfl⟩
    · obtain ⟨hinv, hle, hvalue'⟩ := h.returned o' u hu
      rw [hresponded ⟨_, hu, rfl⟩]
      refine ⟨hmem hinv, hle, hvalue'.imp_right ?_⟩
      rintro ⟨w, hw, htag', hu'⟩
      exact ⟨w, hw, by rw [hold hw, htag'], hmem hu'⟩
    · rw [Function.update_self]
      refine ⟨hmem hinvoked, hfloor, hvalue.imp_right ?_⟩
      rintro ⟨w, hw, htag', hu'⟩
      exact ⟨w, hw, by rw [hold hw, htag'], hmem hu'⟩
  · intro a b hab
    have hab := (precedes_concat_of_not_invoked rfl).mp hab
    obtain ⟨before, after, rfl, ⟨e, he, heq⟩, -⟩ := id hab
    rw [hresponded ⟨e, List.mem_append_left _ he, heq⟩]
    exact h.precedes_floor a b hab
  · intro a ha
    rcases responded_concat.mp ha with ha | ha
    · rw [hresponded ha]
      exact (h.responded_done a ha).trans hdone
    · obtain rfl : r = a := Option.some.inj ha
      rwa [Function.update_self]

/-- The empty history. -/
theorem nil (init : V) (tag : O → T) : Tagged init ([] : List (Event O V)) ∅ tag (fun _ ↦ ⊥) ⊥ where
  invoked_once := List.nodup_nil
  responded_invoked := by
    rintro before after o hsplit ⟨e, he, -⟩
    obtain rfl : before = [] := (List.append_eq_nil_iff.mp hsplit.symm).1
    simp at he
  read_ne_write := by simp
  assign_unique := by simp
  assign_invoked := by simp
  write_assigned := by simp
  write_floor := by simp
  tag_inj := by simp
  written := by simp
  returned := by simp
  precedes_floor := by
    rintro a b ⟨before, after, hsplit, ⟨e, he, -⟩, -⟩
    obtain rfl : before = [] := (List.append_eq_nil_iff.mp hsplit.symm).1
    simp at he
  responded_done := by
    rintro a ⟨e, he, -⟩
    simp at he

/-! ### Many tags at once -/

/-- A write without a tag has not responded. -/
theorem not_responded (h : Tagged init H writes tag floor done) {o : O} {v : V}
    (hassign : Event.assign o v ∈ H) (hnew : o ∉ writes) : ¬ Responded H o := by
  rintro ⟨e, he, heq⟩
  cases e with
  | respondWrite o' v' =>
    obtain rfl : o' = o := Option.some.inj heq
    exact hnew (h.written o' v' he).1
  | respondRead o' v' =>
    obtain rfl : o' = o := Option.some.inj heq
    exact h.read_ne_write o' (h.returned o' v' he).1 (h.assign_invoked o' v hassign)
  | _ => exact absurd heq (by simp [Event.responded])

/-- Writes that have their values and no tags get tags above one bound and below one of their own, if
that is above their floors. -/
theorem enter_all [DecidableEq O] [DenselyOrdered T] (h : Tagged init H writes tag floor done)
    (hfinite : writes.Finite) {lo : T} {hi : O → T} {l : List O} (hnodup : l.Nodup)
    (hassign : ∀ o ∈ l, ∃ v, Event.assign o v ∈ H) (hnew : ∀ o ∈ l, o ∉ writes)
    (hlt : ∀ o ∈ l, lo < hi o) (hfloor : ∀ o ∈ l, floor o < hi o) :
    ∃ tag', Tagged init H (writes ∪ {o | o ∈ l}) tag' floor done ∧ (∀ o ∉ l, tag' o = tag o) ∧
      ∀ o ∈ l, lo < tag' o ∧ tag' o < hi o := by
  induction l with
  | nil => exact ⟨tag, by simpa using h, fun _ _ ↦ rfl, by simp⟩
  | cons o l ih =>
    obtain ⟨hnotMem, hnodup⟩ := List.nodup_cons.mp hnodup
    have hmem {o' : O} (ho' : o' ∈ l) : o' ∈ o :: l := List.mem_cons_of_mem o ho'
    obtain ⟨tag', htagged, hsame, hbetween⟩ := ih hnodup (fun o' ho' ↦ hassign o' (hmem ho'))
      (fun o' ho' ↦ hnew o' (hmem ho')) (fun o' ho' ↦ hlt o' (hmem ho'))
      fun o' ho' ↦ hfloor o' (hmem ho')
    have hused : (Set.image tag' (writes ∪ {o | o ∈ l})).Finite :=
      (hfinite.union l.finite_toSet).image tag'
    obtain ⟨t, ⟨hlower, hupper⟩, hfresh⟩ := (Set.Ioo_infinite (max_lt (hlt o List.mem_cons_self)
      (hfloor o List.mem_cons_self))).exists_notMem_finite hused
    obtain ⟨v, hv⟩ := hassign o List.mem_cons_self
    have hnot : o ∉ writes ∪ {o | o ∈ l} := by
      rintro (hw | hw)
      · exact hnew o List.mem_cons_self hw
      · exact hnotMem hw
    have hset : writes ∪ {o' | o' ∈ o :: l} = insert o (writes ∪ {o | o ∈ l}) := by
      ext o'
      simp only [Set.mem_union, Set.mem_ofPred_eq, List.mem_cons, Set.mem_insert_iff]
      tauto
    refine ⟨Function.update tag' o t, ?_, fun o' ho' ↦ ?_, fun o' ho' ↦ ?_⟩
    · rw [hset]
      exact htagged.enter hv (htagged.not_responded hv hnot) hnot
        ((le_max_right lo (floor o)).trans_lt hlower) fun w hw heq ↦ hfresh ⟨w, hw, heq⟩
    · rw [List.mem_cons, not_or] at ho'
      rw [Function.update_of_ne ho'.1, hsame o' ho'.2]
    · by_cases heq : o' = o
      · subst heq
        rw [Function.update_self]
        exact ⟨(le_max_left lo _).trans_lt hlower, hupper⟩
      · rw [Function.update_of_ne heq]
        exact hbetween o' ((List.mem_cons.mp ho').resolve_left heq)

end Tagged

/-! ### Values of values -/

section Map

variable {V' : Type*} {H : List (Event O V)} {o a b : O}

/-- The event with another value. -/
def Event.map (f : V → V') : Event O V → Event O V'
  | .invokeWrite o => .invokeWrite o
  | .assign o v => .assign o (f v)
  | .respondWrite o v => .respondWrite o (f v)
  | .invokeRead o => .invokeRead o
  | .respondRead o v => .respondRead o (f v)

theorem Event.invoked_map (f : V → V') (e : Event O V) : (e.map f).invoked = e.invoked := by
  cases e <;> rfl

theorem Event.responded_map (f : V → V') (e : Event O V) : (e.map f).responded = e.responded := by
  cases e <;> rfl

theorem invoked_map (f : V → V') : Invoked (H.map (Event.map f)) o ↔ Invoked H o := by
  simp [Invoked, Event.invoked_map]

theorem responded_map (f : V → V') : Responded (H.map (Event.map f)) o ↔ Responded H o := by
  simp [Responded, Event.responded_map]

theorem Precedes.of_map {f : V → V'} (h : Precedes (H.map (Event.map f)) a b) : Precedes H a b := by
  obtain ⟨before, after, hsplit, hres, hinv⟩ := h
  obtain ⟨before, after, rfl, rfl, rfl⟩ := List.map_eq_append_iff.mp hsplit
  exact ⟨before, after, rfl, (responded_map f).mp hres, (invoked_map f).mp hinv⟩

theorem Legal.map {current : V} {order : List O} (h : Legal H current order) (f : V → V') :
    Legal (H.map (Event.map f)) (f current) order := by
  induction h with
  | nil => exact Legal.nil _
  | write hassign _ ih => exact Legal.write (List.mem_map_of_mem (f := Event.map f) hassign) ih
  | read hrespond _ ih => exact Legal.read (List.mem_map_of_mem (f := Event.map f) hrespond) ih

/-- A register of values is a register of what the values stand for. -/
theorem Linearizable.map {init : V} (h : Linearizable init H) (f : V → V') :
    Linearizable (f init) (H.map (Event.map f)) := by
  obtain ⟨order, h⟩ := h
  refine ⟨order, h.nodup, fun o ho ↦ (invoked_map f).mpr (h.invoked o ho),
    fun o ho ↦ h.complete o ((responded_map f).mp ho), fun o v hv ↦ ?_, h.legal.map f,
    h.realTime.imp fun hnot hprec ↦ hnot hprec.of_map⟩
  obtain ⟨e, he, heq⟩ := List.mem_map.mp hv
  cases e with
  | respondWrite o' v' =>
    obtain ⟨rfl, rfl⟩ := Event.respondWrite.inj heq
    exact List.mem_map_of_mem (f := Event.map f) (h.written _ _ he)
  | _ => cases heq

end Map

/-! ### Histories of no register -/

/-- In a run of a register a read returns the value of the last write before it, or the value at the
start if there is none. -/
theorem Legal.read_value {H : List (Event O V)} {current : V} {before after : List O} {r : O}
    (h : Legal H current (before ++ r :: after)) (hread : ∀ v, Event.assign r v ∉ H) :
    ∃ v, Event.respondRead r v ∈ H ∧ (v = current ∨ ∃ before' w between,
      before = before' ++ w :: between ∧ Event.assign w v ∈ H ∧
        ∀ o ∈ between, ∃ v', Event.respondRead o v' ∈ H) := by
  -- the induction keeps that only reads come before the value at the start is read
  suffices hvalue : ∃ v, Event.respondRead r v ∈ H ∧
      ((v = current ∧ ∀ o ∈ before, ∃ v', Event.respondRead o v' ∈ H) ∨ ∃ before' w between,
        before = before' ++ w :: between ∧ Event.assign w v ∈ H ∧
          ∀ o ∈ between, ∃ v', Event.respondRead o v' ∈ H) by
    obtain ⟨v, hv, hcases⟩ := hvalue
    exact ⟨v, hv, hcases.imp_left And.left⟩
  induction before generalizing current with
  | nil =>
    cases h with
    | write hassign => exact absurd hassign (hread _)
    | read hrespond => exact ⟨_, hrespond, Or.inl ⟨rfl, by simp⟩⟩
  | cons o before ih =>
    cases h with
    | write hassign hrest =>
      obtain ⟨v, hv, ⟨rfl, hreads⟩ | ⟨before', w, between, rfl, hw⟩⟩ := ih hrest
      · exact ⟨v, hv, Or.inr ⟨[], o, before, rfl, hassign, hreads⟩⟩
      · exact ⟨v, hv, Or.inr ⟨o :: before', w, between, rfl, hw⟩⟩
    | read hrespond hrest =>
      obtain ⟨v, hv, ⟨rfl, hreads⟩ | ⟨before', w, between, rfl, hw⟩⟩ := ih hrest
      · refine ⟨v, hv, Or.inl ⟨rfl, fun o' ho' ↦ ?_⟩⟩
        rcases List.mem_cons.mp ho' with rfl | ho'
        · exact ⟨_, hrespond⟩
        · exact hreads o' ho'
      · exact ⟨v, hv, Or.inr ⟨o :: before', w, between, rfl, hw⟩⟩

/-- The operation is a read, and the value is the only one that it returns. -/
structure OnlyReturns (H : List (Event O V)) (r : O) (v : V) : Prop where
  returns : Event.respondRead r v ∈ H
  only : ∀ v', Event.respondRead r v' ∈ H → v' = v
  read : ∀ v', Event.assign r v' ∉ H

/-- Two reads of different writes, one after the other, while the writes are one after the other the
other way round: this is no register. -/
theorem not_linearizable_of_stale {init : V} {H : List (Event O V)} {w w' r r' : O} {v v' : V}
    (hwrites : Precedes H w w') (hreads : Precedes H r r') (hr : OnlyReturns H r v')
    (hr' : OnlyReturns H r' v) (hv : v ≠ init) (hv' : v' ≠ init)
    (hw : ∀ o, Event.assign o v ∈ H → o = w) (hw' : ∀ o, Event.assign o v' ∈ H → o = w')
    (hwrite : ∀ u, Event.respondRead w' u ∉ H) (hne : w ≠ w') : ¬ Linearizable init H := by
  rintro ⟨order, h⟩
  have hmem {r : O} {v : V} (hr : OnlyReturns H r v) : r ∈ order :=
    h.complete r ⟨_, hr.returns, rfl⟩
  obtain ⟨before, after, rfl⟩ := List.append_of_mem (hmem hr')
  obtain ⟨u, hu, hcases⟩ := h.legal.read_value hr'.read
  obtain rfl := hr'.only u hu
  obtain ⟨before', x, between, hsplit, hx, hbetween⟩ := hcases.resolve_left hv
  obtain rfl := hw x hx
  -- the first read is before the second one
  have hbefore : r ∈ before := by
    rcases List.mem_append.mp (hmem hr) with hin | hin
    · exact hin
    · rcases List.mem_cons.mp hin with rfl | hin
      · exact absurd (hw' x ((hr'.only _ hr.returns).symm ▸ hx)) hne
      · exact absurd hreads ((List.pairwise_cons.mp (List.pairwise_append.mp h.realTime).2.1).1 r hin)
  obtain ⟨first, second, rfl⟩ := List.append_of_mem hbefore
  -- its write is before it
  have hlegal := h.legal
  rw [List.append_assoc, List.cons_append] at hlegal
  obtain ⟨u', hu', hcases'⟩ := hlegal.read_value hr.read
  obtain rfl := hr.only u' hu'
  obtain ⟨before'', y, between', rfl, hy, -⟩ := hcases'.resolve_left hv'
  obtain rfl := hw' y hy
  -- so it is before the write of the second read, which is the last one there
  have hy' : y ∈ before' := by
    have hin : y ∈ before' ++ x :: between := by
      rw [← hsplit]
      simp
    rcases List.mem_append.mp hin with hin | hin
    · exact hin
    · rcases List.mem_cons.mp hin with rfl | hin
      · exact absurd rfl hne
      · obtain ⟨u, hu⟩ := hbetween y hin
        exact absurd hu (hwrite u)
  have horder := h.realTime
  rw [hsplit, List.append_assoc] at horder
  exact (List.pairwise_append.mp horder).2.2 y hy' x (by simp) hwrites

end SwitchDelta.Foundation
