import SwitchDelta.Protocol.Stamps

/-!
# One key of the protocol

What concerns a key in a state of the protocol is a state of the protocol of one key (`view`). Every
step of the protocol is a step of that protocol (`PStep.view`), when a `ReplySwitch` clears no entry
but its own, one index thread serves the key, and no other key in use has its slot and fingerprint.
An index thread may handle its requests one by one or in batches, but not both.
-/

set_option autoImplicit false
set_option relaxedAutoImplicit false

namespace SwitchDelta.Protocol

open Foundation Kv

/-! ### The view -/

/-- The item has not passed the switch, or has been refused there. -/
def Item.IsEarly (ℓ : Loc) (x : Item) : Prop :=
  x.kind = .appendReq ∨ x.kind = .appendReply ∨
    ℓ = .up ∧ (x.kind = .updateReq ∨ x.kind = .readReq)

/-- The item is the outcome of an operation, on its way to the client. -/
def Item.IsLate (ℓ : Loc) (x : Item) : Prop :=
  x.kind = .answer ∨ x.kind = .readHit ∨
    ℓ = x.home ∧ (x.kind = .updateReply ∨ x.kind = .readReply)

/-- The items of a key that are early. -/
def earlyOf (k : KvKeyType) (net : List (Loc × Item)) : Set Item :=
  {x | x.op.key = k ∧ ∃ ℓ, (ℓ, x) ∈ net ∧ x.IsEarly ℓ}

/-- The items of a key that are late. -/
def lateOf (k : KvKeyType) (net : List (Loc × Item)) : Set Item :=
  {x | x.op.key = k ∧ ∃ ℓ, (ℓ, x) ∈ net ∧ x.IsLate ℓ}

/-- The items of a key on a link, in order. -/
def boxOf (k : KvKeyType) (ℓ : Loc) (net : List (Loc × Item)) : List Item :=
  (queue net ℓ).filter fun x ↦ x.op.key = k

/-- What concerns a key. -/
def view (M : Layout) (k : KvKeyType) (π : PState) : KeyState where
  early := earlyOf k π.net
  inbox := boxOf k (.ixIn (M.indexThread k)) π.net
  batch := boxOf k (.ixBatch (M.indexThread k)) π.net
  outbox := boxOf k (.ixOut (M.indexThread k)) π.net
  late := lateOf k π.net
  entry := (π.slot (M.slot k)).filter fun e ↦ e.1.key = k
  index := π.index k
  hist := π.hist.filter fun e ↦ e.op.key = k

/-- The keys in use have one index thread each, and no two of them a slot and a fingerprint. -/
structure Layout.Separates (M : Layout) : Prop where
  copyThread : ∀ k ∈ M.keys, M.copyThread k = M.indexThread k
  same : ∀ k ∈ M.keys, ∀ k' ∈ M.keys, M.Same k k' → k = k'
  refl : ∀ k, M.Same k k

/-- The links of the index thread of key `k`. -/
def Layout.IsBox (M : Layout) (k : KvKeyType) (ℓ : Loc) : Prop :=
  ℓ = .ixIn (M.indexThread k) ∨ ℓ = .ixBatch (M.indexThread k) ∨ ℓ = .ixOut (M.indexThread k)

/-! ### Sets and boxes of a network -/

section Net

variable {k : KvKeyType} {ℓ ℓ' : Loc} {x : Item} {net rest new : List (Loc × Item)}

@[simp] theorem boxOf_nil : boxOf k ℓ [] = [] := rfl

@[simp] theorem boxOf_append (net' : List (Loc × Item)) :
    boxOf k ℓ (net ++ net') = boxOf k ℓ net ++ boxOf k ℓ net' := by
  rw [boxOf, queue_append, List.filter_append, boxOf, boxOf]

@[simp] theorem boxOf_cons : boxOf k ℓ ((ℓ', x) :: net) =
    if ℓ' = ℓ ∧ x.op.key = k then x :: boxOf k ℓ net else boxOf k ℓ net := by
  by_cases hℓ : ℓ' = ℓ
  · subst hℓ
    rw [boxOf, queue_cons_self, List.filter_cons, boxOf]
    simp
  · rw [boxOf, queue_cons_of_ne hℓ, if_neg fun hboth ↦ hℓ hboth.1, boxOf]

theorem mem_boxOf : x ∈ boxOf k ℓ net ↔ (ℓ, x) ∈ net ∧ x.op.key = k := by
  rw [boxOf, List.mem_filter, mem_queue, decide_eq_true_iff]

theorem boxOf_of_keys (h : ∀ p ∈ new, p.2.op.key ≠ k) : boxOf k ℓ new = [] :=
  List.eq_nil_iff_forall_not_mem.mpr fun _ hx ↦ h _ (mem_boxOf.mp hx).1 (mem_boxOf.mp hx).2

theorem boxOf_take (htake : Take net ℓ' x rest) (h : ℓ' ≠ ℓ ∨ x.op.key ≠ k) :
    boxOf k ℓ rest = boxOf k ℓ net := by
  obtain ⟨before, after, rfl, rfl⟩ := htake
  rw [boxOf_append, boxOf_append, boxOf_cons, if_neg fun hboth ↦ h.elim (· hboth.1) (· hboth.2)]

/-- The box of another link gets what is new on it. -/
theorem boxOf_move (htake : Take net ℓ' x rest) (h : ℓ' ≠ ℓ ∨ x.op.key ≠ k) :
    boxOf k ℓ (rest ++ new) = boxOf k ℓ net ++ boxOf k ℓ new := by
  rw [boxOf_append, boxOf_take htake h]

theorem boxOf_takeFirst (htake : TakeFirst net ℓ x rest) (hkey : x.op.key = k) :
    boxOf k ℓ net = x :: boxOf k ℓ rest := by
  rw [boxOf, htake.queue_self, List.filter_cons, if_pos (decide_eq_true hkey), boxOf]

/-- After a move, the early items are early ones of before and among the new items. -/
theorem earlyOf_move {s : Set Item} (hrest : rest ⊆ net) (hold : earlyOf k net ⊆ s)
    (hnew : ∀ p ∈ new, p.2.op.key = k → p.2.IsEarly p.1 → p.2 ∈ s) :
    earlyOf k (rest ++ new) ⊆ s := by
  rintro y ⟨hkey, ℓ, hy, hearly⟩
  rcases List.mem_append.mp hy with hy | hy
  · exact hold ⟨hkey, ℓ, hrest hy, hearly⟩
  · exact hnew _ hy hkey hearly

theorem lateOf_move {s : Set Item} (hrest : rest ⊆ net) (hold : lateOf k net ⊆ s)
    (hnew : ∀ p ∈ new, p.2.op.key = k → p.2.IsLate p.1 → p.2 ∈ s) :
    lateOf k (rest ++ new) ⊆ s := by
  rintro y ⟨hkey, ℓ, hy, hlate⟩
  rcases List.mem_append.mp hy with hy | hy
  · exact hold ⟨hkey, ℓ, hrest hy, hlate⟩
  · exact hnew _ hy hkey hlate

theorem earlyOf_of_new (hrest : rest ⊆ net) (hnew : ∀ p ∈ new, ¬ p.2.IsEarly p.1) :
    earlyOf k (rest ++ new) ⊆ earlyOf k net :=
  earlyOf_move hrest subset_rfl fun p hp _ h ↦ absurd h (hnew p hp)

theorem lateOf_of_new (hrest : rest ⊆ net) (hnew : ∀ p ∈ new, ¬ p.2.IsLate p.1) :
    lateOf k (rest ++ new) ⊆ lateOf k net :=
  lateOf_move hrest subset_rfl fun p hp _ h ↦ absurd h (hnew p hp)

end Net

/-! ### Steps that leave the key alone -/

section Steps

variable {M : Layout} {D : Discipline} {π π' : PState} {ordered : Prop} {k : KvKeyType} {ℓ : Loc}
  {x : Item} {rest new : List (Loc × Item)} {w : OpId} {log : UInt64}

theorem view_entry : (view M k π).entry = some (w, log) ↔
    π.slot (M.slot k) = some (w, log) ∧ w.key = k := by
  rw [view, Option.filter_eq_some_iff, decide_eq_true_iff]

theorem view_entry_eq_none (h : ∀ w log, π.slot (M.slot k) = some (w, log) → w.key ≠ k) :
    (view M k π).entry = none := by
  by_contra hne
  obtain ⟨⟨w, log⟩, hsome⟩ := Option.ne_none_iff_exists'.mp hne
  obtain ⟨hslot, hkey⟩ := view_entry.mp hsome
  exact h w log hslot hkey

/-- What waits at the index thread is a request on one of its links. -/
theorem mem_net_of_waiting (hsound : π.Sound M D) (hx : x ∈ (view M k π).waiting) :
    ∃ ℓ, (ℓ, x) ∈ π.net ∧ x.op.key = k ∧ x.kind.AtIndex := by
  rcases List.mem_append.mp hx with hx | hx
  · obtain ⟨hmem, hkey⟩ := mem_boxOf.mp hx
    exact ⟨_, hmem, hkey, Placed.atIndex (Or.inr (hsound.placed _ _ hmem))⟩
  · obtain ⟨hmem, hkey⟩ := mem_boxOf.mp hx
    exact ⟨_, hmem, hkey, Placed.atIndex (Or.inl (hsound.placed _ _ hmem))⟩

/-- A step does not concern the key if it moves items of other keys and those that are neither
early nor late, and leaves the entry, the index and the history of the key. -/
theorem view_still (hrest : rest ⊆ π.net) (hnet : π'.net = rest ++ new)
    (hbox : ∀ ℓ, M.IsBox k ℓ → boxOf k ℓ rest = boxOf k ℓ π.net ∧ boxOf k ℓ new = [])
    (hnew : ∀ p ∈ new, p.2.op.key = k →
      (p.2.IsEarly p.1 → p.2 ∈ earlyOf k π.net) ∧ (p.2.IsLate p.1 → p.2 ∈ lateOf k π.net))
    (hentry : (view M k π').entry = (view M k π).entry) (hindex : π'.index k = π.index k)
    (hhist : (view M k π').hist = (view M k π).hist) :
    KStep ordered (view M k π) (view M k π') := by
  have hbox' (ℓ : Loc) (hℓ : M.IsBox k ℓ) : boxOf k ℓ π'.net = boxOf k ℓ π.net := by
    rw [hnet, boxOf_append, (hbox ℓ hℓ).1, (hbox ℓ hℓ).2, List.append_nil]
  refine KStep.other ⟨?_, hbox' _ (Or.inl rfl), hbox' _ (Or.inr (Or.inl rfl)),
    hbox' _ (Or.inr (Or.inr rfl)), ?_, hentry, hindex, hhist⟩
  · change earlyOf k π'.net ⊆ earlyOf k π.net
    rw [hnet]
    exact earlyOf_move hrest subset_rfl fun p hp hpkey ↦ (hnew p hp hpkey).1
  · change lateOf k π'.net ⊆ lateOf k π.net
    rw [hnet]
    exact lateOf_move hrest subset_rfl fun p hp hpkey ↦ (hnew p hp hpkey).2

/-- The history of the key does not have the events of another key. -/
theorem filter_events_eq_nil {events : List (Event OpId UInt64)} (h : ∀ e ∈ events, e.op.key ≠ k) :
    (events.filter fun e ↦ e.op.key = k) = [] :=
  List.filter_eq_nil_iff.mpr fun e he ↦ by simpa using h e he

/-- A step that takes an item of another key does not concern the key. -/
theorem view_of_key_ne (htake : Take π.net ℓ x rest) (hkey : x.op.key ≠ k)
    (hnet : π'.net = rest ++ new) (hnew : ∀ p ∈ new, p.2.op = x.op)
    (hentry : (view M k π').entry = (view M k π).entry) (hindex : π'.index k = π.index k)
    {events : List (Event OpId UInt64)} (hhist : π'.hist = π.hist ++ events)
    (hevents : ∀ e ∈ events, e.op = x.op) : KStep ordered (view M k π) (view M k π') := by
  have hnew' : ∀ p ∈ new, p.2.op.key ≠ k := fun p hp ↦ by rwa [hnew p hp]
  refine view_still (fun p hp ↦ htake.mem_of_mem hp) hnet
    (fun ℓ' _ ↦ ⟨boxOf_take htake (Or.inr hkey), boxOf_of_keys hnew'⟩)
    (fun p hp hpkey ↦ absurd hpkey (hnew' p hp)) hentry hindex ?_
  have hnone : (events.filter fun e ↦ e.op.key = k) = [] :=
    filter_events_eq_nil fun e he ↦ by rwa [hevents e he]
  change π'.hist.filter _ = π.hist.filter _
  rw [hhist, List.filter_append, hnone, List.append_nil]

/-- A move that puts an item of the key on a link outside of its boxes, where the item is early or
late only if it was before. -/
theorem view_carry {ℓ' : Loc} (htake : Take π.net ℓ x rest) (hnet : π'.net = rest ++ [(ℓ', x)])
    (hℓ : ¬ M.IsBox k ℓ) (hℓ' : ¬ M.IsBox k ℓ') (hearly : x.IsEarly ℓ' → x.IsEarly ℓ)
    (hlate : x.IsLate ℓ' → x.IsLate ℓ) (hentry : (view M k π').entry = (view M k π).entry)
    (hindex : π'.index k = π.index k) (hhist : (view M k π').hist = (view M k π).hist) :
    KStep ordered (view M k π) (view M k π') := by
  refine view_still (fun p hp ↦ htake.mem_of_mem hp) hnet (fun ℓ₀ hℓ₀ ↦ ⟨?_, ?_⟩)
    (fun p hp hkey ↦ ?_) hentry hindex hhist
  · exact boxOf_take htake (Or.inl fun heq ↦ hℓ (heq ▸ hℓ₀))
  · refine boxOf_cons.trans (if_neg fun hboth ↦ hℓ' ?_)
    rw [hboth.1]
    exact hℓ₀
  · obtain rfl := List.mem_singleton.mp hp
    exact ⟨fun h ↦ ⟨hkey, ℓ, htake.mem, hearly h⟩, fun h ↦ ⟨hkey, ℓ, htake.mem, hlate h⟩⟩

/-- What `view` is after a step, for each of its parts. -/
theorem view_within {u : KeyState} (hnet : π'.net = rest ++ new)
    (hearly : earlyOf k (rest ++ new) ⊆ u.early)
    (hinbox : boxOf k (.ixIn (M.indexThread k)) (rest ++ new) = u.inbox)
    (hbatch : boxOf k (.ixBatch (M.indexThread k)) (rest ++ new) = u.batch)
    (houtbox : boxOf k (.ixOut (M.indexThread k)) (rest ++ new) = u.outbox)
    (hlate : lateOf k (rest ++ new) ⊆ u.late)
    (hentry : (π'.slot (M.slot k)).filter (fun e ↦ e.1.key = k) = u.entry)
    (hindex : π'.index k = u.index) (hhist : π'.hist.filter (fun e ↦ e.op.key = k) = u.hist) :
    (view M k π').Within u :=
  ⟨by rw [view, hnet]; exact hearly, by rw [view, hnet]; exact hinbox,
    by rw [view, hnet]; exact hbatch, by rw [view, hnet]; exact houtbox,
    by rw [view, hnet]; exact hlate, hentry, hindex, hhist⟩

/-! ### Steps of the clients and of the data node -/

/-- Most items are of an operation that is in the history. -/
theorem Recorded.exists_event {hist : List (Event OpId UInt64)} (h : Recorded hist x)
    (hkind : x.kind ≠ .replySwitch ∧ x.kind ≠ .readLog ∧ x.kind ≠ .logReply ∧ x.kind ≠ .probe) :
    ∃ e ∈ hist, e.op = x.op := by
  unfold Recorded at h
  split at h
  · exact ⟨_, h.1, rfl⟩
  · exact ⟨_, h.1, rfl⟩
  · exact ⟨_, h.1, rfl⟩
  · exact ⟨_, h.1, rfl⟩
  · exact ⟨_, h.1, rfl⟩
  · exact ⟨_, h, rfl⟩
  · exact ⟨_, h.1, rfl⟩
  · exact ⟨_, h.1, rfl⟩
  · exact ⟨_, h.1, rfl⟩
  · cases hx : x.kind <;> simp_all

/-- A coroutine starts a write or a read of some key. -/
theorem view_start {c : CoroId} {k' : KvKeyType} {kind : Kind} {e : Event OpId UInt64}
    (hsound : π.Sound M D)
    (hkind : kind = .appendReq ∧ e = .invokeWrite ⟨c, π.seq c + 1, k'⟩ ∨
      kind = .readReq ∧ e = .invokeRead ⟨c, π.seq c + 1, k'⟩)
    (hnet : π'.net = π.net ++ [(.up, ⟨kind, ⟨c, π.seq c + 1, k'⟩, 0, 0⟩)])
    (hslot : π'.slot = π.slot) (hindex : π'.index = π.index) (hhist : π'.hist = π.hist ++ [e]) :
    KStep ordered (view M k π) (view M k π') := by
  have hop : e.op = ⟨c, π.seq c + 1, k'⟩ := by rcases hkind with ⟨-, rfl⟩ | ⟨-, rfl⟩ <;> rfl
  have hentry : (view M k π').entry = (view M k π).entry := by
    change (π'.slot _).filter _ = (π.slot _).filter _
    rw [hslot]
  by_cases hk : k' = k
  · subst hk
    have hfresh {o : OpId} (ho : ∃ e' ∈ π.hist, e'.op = o) : o ≠ ⟨c, π.seq c + 1, k'⟩ := by
      rintro rfl
      obtain ⟨e', he', heq⟩ := ho
      have hle := hsound.hist_seq e' he'
      rw [heq] at hle
      exact absurd hle (by simp)
    have hrecorded {ℓ : Loc} {y : Item} (hy : (ℓ, y) ∈ π.net)
        (hykind : y.kind ≠ .replySwitch ∧ y.kind ≠ .readLog ∧ y.kind ≠ .logReply ∧
          y.kind ≠ .probe) : y.op ≠ ⟨c, π.seq c + 1, k'⟩ :=
      hfresh ((hsound.recorded ℓ y hy).exists_event hykind)
    refine KStep.start (x := ⟨kind, ⟨c, π.seq c + 1, k'⟩, 0, 0⟩) (e := e) hkind ?_ ?_ ?_ ?_ ?_
      (view_within hnet ?_ (by simp [view]) (by simp [view]) (by simp [view]) ?_ hentry
        (congrFun hindex k') ?_)
    · exact fun e' he' ↦ hfresh ⟨e', (List.mem_filter.mp he').1, rfl⟩
    · rintro y ⟨-, ℓ, hy, hearly⟩
      refine hrecorded hy ?_
      rcases hearly with hy | hy | ⟨-, hy | hy⟩ <;> simp [hy]
    · intro y hy
      obtain ⟨ℓ, hmem, -, hyindex⟩ := mem_net_of_waiting hsound hy
      refine hrecorded hmem ?_
      rcases hyindex with hy | hy | hy <;> simp [hy]
    · intro y hy hread
      refine hrecorded (mem_boxOf.mp hy).1 ?_
      rcases hread with hy | hy <;> simp [hy]
    · rintro y ⟨-, ℓ, hy, hlate⟩
      refine hrecorded hy ?_
      rcases hlate with hy | hy | ⟨-, hy | hy⟩ <;> simp [hy]
    · refine earlyOf_move (fun p hp ↦ hp) (Set.subset_insert _ _) fun p hp _ _ ↦ Or.inl ?_
      rw [List.mem_singleton.mp hp]
    · refine lateOf_of_new (fun p hp ↦ hp) fun p hp hlate ↦ ?_
      rw [List.mem_singleton.mp hp] at hlate
      rcases hkind with ⟨rfl, -⟩ | ⟨rfl, -⟩ <;> simp [Item.IsLate] at hlate
    · rw [hhist, List.filter_append, List.filter_singleton, hop]
      simp [view]
  · refine view_still (fun p hp ↦ hp) hnet (fun ℓ _ ↦ ⟨rfl, by simp [hk]⟩) (fun p hp hkey ↦ ?_)
      hentry (congrFun hindex k) ?_
    · rw [List.mem_singleton.mp hp] at hkey
      exact absurd hkey hk
    · change π'.hist.filter _ = π.hist.filter _
      rw [hhist, List.filter_append, List.filter_singleton, hop]
      simp [hk]

/-- The data node appends a write of the key. -/
theorem view_append (hsound : π.Sound M D)
    (hordered : ordered → π.Stamped M ∧ ∀ c, (π.clock c).toNat + 1 < 2 ^ 31) {t : UInt8} {y : Item}
    {clock : UInt16 → UInt64} (htake : Take π.net (.dnIn t) x rest) (hkind : x.kind = .appendReq)
    (hkey : x.op.key = k) (hy : y.kind = .appendReply) (hop : y.op = x.op)
    (hts : y.ts = timestampValue (next_timestamp (π.clock (M.counter x.op.key))).2) :
    KStep ordered (view M k π) (view M k { π with
      net := rest ++ [(.dnOut t, y)]
      clock := clock
      hist := π.hist ++ [.assign y.op y.log] }) := by
  obtain ⟨hinvoked, -, hfresh⟩ : .invokeWrite x.op ∈ π.hist ∧ ¬ Responded π.hist x.op ∧
      ∀ v, .assign x.op v ∉ π.hist := by
    have hrec := hsound.recorded _ _ htake.mem
    simpa only [Recorded, hkind] using hrec
  refine KStep.append (x := x) (y := y) ⟨hkey, _, htake.mem, Or.inl hkind⟩ hkind
    (List.mem_filter.mpr ⟨hinvoked, decide_eq_true hkey⟩)
    (fun v hv ↦ hfresh v (List.mem_filter.mp hv).1) hy hop (fun ho z hz hupdate ↦ ?_)
    (view_within rfl ?_ ?_ ?_ ?_ ?_ rfl rfl ?_)
  · obtain ⟨ℓ, hmem, hzkey, -⟩ := mem_net_of_waiting hsound hz
    have hle := (hordered ho).1.le_clock _ hmem (Or.inr hupdate)
    rw [hts, (next_timestamp_of_lt ((hordered ho).2 _)).2, hkey, ← hzkey]
    exact Nat.lt_succ_of_le hle
  · refine earlyOf_move (fun p hp ↦ htake.mem_of_mem hp) (Set.subset_insert _ _)
      fun p hp _ _ ↦ Or.inl ?_
    rw [List.mem_singleton.mp hp]
  · exact (boxOf_move htake (Or.inl (by simp))).trans (by simp [view])
  · exact (boxOf_move htake (Or.inl (by simp))).trans (by simp [view])
  · exact (boxOf_move htake (Or.inl (by simp))).trans (by simp [view])
  · exact lateOf_of_new (fun p hp ↦ htake.mem_of_mem hp) (by simp [Item.IsLate, hy])
  · change (π.hist ++ [_]).filter _ = π.hist.filter _ ++ [_]
    rw [List.filter_append, List.filter_singleton]
    simp [Event.op, hop, hkey]

/-- After an item of a coroutine has been taken, no early item has its operation. -/
theorem early_op_ne (hsound : π.Sound M D) (htake : Take π.net ℓ x rest) (hpc : x.kind.pc ≠ none)
    {y : Item} (hy : y ∈ earlyOf k rest) : y.op ≠ x.op := by
  obtain ⟨-, ℓ', hmem, hearly⟩ := hy
  intro hop
  have hnone := hsound.pc_eq_none_of_take htake hpc hmem (by rw [hop])
  rcases hearly with hkind | hkind | ⟨-, hkind | hkind⟩ <;> simp [hkind, Kind.pc] at hnone

/-- After an item of a coroutine has been taken, the early items are those of other operations. -/
theorem earlyOf_of_taken (hsound : π.Sound M D) (htake : Take π.net ℓ x rest)
    (hpc : x.kind.pc ≠ none) (hnew : ∀ p ∈ new, ¬ p.2.IsEarly p.1) :
    earlyOf k (rest ++ new) ⊆ {z ∈ earlyOf k π.net | z.op ≠ x.op} := by
  have hrest : earlyOf k (rest ++ new) ⊆ earlyOf k rest :=
    earlyOf_of_new (fun _ hp ↦ hp) hnew
  rintro y hy
  obtain ⟨hkey, ℓ', hmem, hearly⟩ := hrest hy
  exact ⟨⟨hkey, ℓ', htake.mem_of_mem hmem, hearly⟩, early_op_ne hsound htake hpc (hrest hy)⟩

/-! ### Steps of the switch -/

/-- The switch passes on an item of the key from a client. -/
theorem view_passUp (hM : M.Separates) (hsound : π.Sound M D) {ℓ' : Loc}
    (htake : Take π.net .up x rest) (hpasses : Passes M D π .up x ℓ') (hkey : x.op.key = k) :
    KStep ordered (view M k π) (view M k { π with net := rest ++ [(ℓ', x)] }) := by
  have hrest : rest ⊆ π.net := fun p hp ↦ htake.mem_of_mem hp
  cases hpasses with
  | appendReq hk =>
    exact view_carry htake rfl (by simp [Layout.IsBox]) (by simp [Layout.IsBox])
      (fun _ ↦ Or.inl hk) (fun h ↦ by simp [Item.IsLate, hk] at h) rfl rfl rfl
  | readLog hk =>
    exact view_carry htake rfl (by simp [Layout.IsBox]) (by simp [Layout.IsBox])
      (fun h ↦ by simp [Item.IsEarly, hk] at h) (fun h ↦ by simp [Item.IsLate, hk] at h) rfl rfl rfl
  | probe hk =>
    exact view_carry htake rfl (by simp [Layout.IsBox]) (by simp [Layout.IsBox, Item.home])
      (fun h ↦ by simp [Item.IsEarly, hk] at h) (fun h ↦ by simp [Item.IsLate, hk] at h) rfl rfl rfl
  | updateReq hk =>
    have hassign : .assign x.op x.log ∈ π.hist := by
      have hrec := hsound.recorded _ _ htake.mem
      simp only [Recorded, hk] at hrec
      exact hrec.1
    refine KStep.update (x := x) ⟨hkey, .up, htake.mem, Or.inr (Or.inr ⟨rfl, Or.inl hk⟩)⟩ hk
      (List.mem_filter.mpr ⟨hassign, decide_eq_true hkey⟩)
      (view_within rfl ?_ ?_ ?_ ?_ ?_ rfl rfl rfl)
    · exact earlyOf_of_taken hsound htake (by simp [hk, Kind.pc]) (by simp [Item.IsEarly, hk])
    · exact (boxOf_move htake (Or.inl (by simp))).trans (by simp [view, hkey])
    · exact (boxOf_move htake (Or.inl (by simp))).trans (by simp [view])
    · exact (boxOf_move htake (Or.inl (by simp))).trans (by simp [view])
    · exact lateOf_of_new hrest (by simp [Item.IsLate, hk, Item.home])
  | readReq hk hnot =>
    have hentry : (view M k π).entry = none := by
      refine view_entry_eq_none fun w log hslot hw ↦ hnot ⟨w, log, ?_, ?_⟩
      · rw [hkey]
        exact hslot
      · rw [hkey, hw]
        exact hM.refl k
    refine KStep.read (x := x) ⟨hkey, .up, htake.mem, Or.inr (Or.inr ⟨rfl, Or.inr hk⟩)⟩ hk hentry
      (view_within rfl ?_ ?_ ?_ ?_ ?_ rfl rfl rfl)
    · exact earlyOf_of_new hrest (by simp [Item.IsEarly, hk])
    · exact (boxOf_move htake (Or.inl (by simp))).trans (by simp [view, hkey])
    · exact (boxOf_move htake (Or.inl (by simp))).trans (by simp [view])
    · exact (boxOf_move htake (Or.inl (by simp))).trans (by simp [view])
    · exact lateOf_of_new hrest (by simp [Item.IsLate, hk, Item.home])

/-- The switch passes on an item of the key from a server. -/
theorem view_passOut (hsound : π.Sound M D) {ℓ' : Loc}
    (htake : TakeFirst π.net ℓ x rest) (hpasses : Passes M D π ℓ x ℓ') (hup : ℓ ≠ .up)
    (hkey : x.op.key = k) :
    KStep ordered (view M k π) (view M k { π with net := rest ++ [(ℓ', x)] }) := by
  have hrest : rest ⊆ π.net := fun p hp ↦ htake.take.mem_of_mem hp
  cases hpasses with
  | appendReply hkind =>
    exact view_carry htake.take rfl (by simp [Layout.IsBox]) (by simp [Layout.IsBox, Item.home])
      (fun _ ↦ Or.inr (Or.inl hkind)) (fun h ↦ by simp [Item.IsLate, hkind] at h) rfl rfl rfl
  | logReply hkind =>
    exact view_carry htake.take rfl (by simp [Layout.IsBox]) (by simp [Layout.IsBox, Item.home])
      (fun h ↦ by simp [Item.IsEarly, hkind] at h) (fun h ↦ by simp [Item.IsLate, hkind] at h)
      rfl rfl rfl
  | @updateReply _ t hkind | @readReply _ t hkind =>
    have hthread : t = M.indexThread k := by
      have hplaced := hsound.placed _ _ htake.take.mem
      simp only [Placed, hkind, Item.home, reduceCtorEq, or_false, Loc.ixOut.injEq] at hplaced
      rw [hplaced, hkey]
    subst hthread
    refine KStep.reply (x := x) (boxOf_takeFirst htake hkey) (by simp [hkind])
      (view_within rfl ?_ ?_ ?_ ?_ ?_ rfl rfl rfl)
    · exact earlyOf_of_new hrest (by simp [Item.IsEarly, hkind])
    · exact (boxOf_move htake.take (Or.inl (by simp))).trans (by simp [view, Item.home])
    · exact (boxOf_move htake.take (Or.inl (by simp))).trans (by simp [view, Item.home])
    · simp [Item.home]
    · refine lateOf_move hrest (Set.subset_insert _ _) fun p hp _ _ ↦ Or.inl ?_
      rw [List.mem_singleton.mp hp]
  | _ => exact absurd rfl hup

/-- The switch installs a write of the key. -/
theorem view_install (hM : M.Separates) (hk : k ∈ M.keys) (hsound : π.Sound M D)
    (hordered : ordered → π.Stamped M) {t : UInt8} (htake : TakeFirst π.net (.dnOut t) x rest)
    (hkind : x.kind = .appendReply) (hkey : x.op.key = k) :
    KStep ordered (view M k π) (view M k { π with
      net := rest ++ [(.ixIn (M.copyThread x.op.key), { x with kind := .copy }),
        (x.home, { x with kind := .answer })]
      slot := Function.update π.slot (M.slot x.op.key) (some (x.op, x.log)) }) := by
  have hrest : rest ⊆ π.net := fun p hp ↦ htake.take.mem_of_mem hp
  have hcopy : M.copyThread x.op.key = M.indexThread x.op.key := by rw [hkey, hM.copyThread k hk]
  have hassign : .assign x.op x.log ∈ π.hist := by
    have hrec := hsound.recorded _ _ htake.take.mem
    simp only [Recorded, hkind] at hrec
    exact hrec.1
  refine KStep.install (x := x) ⟨hkey, _, htake.take.mem, Or.inr (Or.inl hkind)⟩ hkind
    (List.mem_filter.mpr ⟨hassign, decide_eq_true hkey⟩) (fun ho z hz hupdate ↦ ?_)
    (view_within rfl ?_ ?_ ?_ ?_ ?_ ?_ rfl rfl)
  · obtain ⟨ℓ, hmem, hzkey, -⟩ := mem_net_of_waiting hsound hz
    exact (hordered ho).passed _ hmem (Or.inl hupdate) t x htake.take.mem hkind
      (hkey.trans hzkey.symm)
  · exact earlyOf_of_taken hsound htake.take (by simp [hkind, Kind.pc]) (by simp [Item.IsEarly])
  · exact (boxOf_move htake.take (Or.inl (by simp))).trans (by simp [view, hcopy, ← hkey, Item.home])
  · exact (boxOf_move htake.take (Or.inl (by simp))).trans (by simp [view, Item.home])
  · exact (boxOf_move htake.take (Or.inl (by simp))).trans (by simp [view, Item.home])
  · refine lateOf_move hrest (Set.subset_insert _ _) fun p hp _ hlate ↦ ?_
    rcases List.mem_cons.mp hp with rfl | hp
    · simp [Item.IsLate] at hlate
    · rw [List.mem_singleton.mp hp]
      exact Or.inl rfl
  · change (Function.update π.slot _ _ _).filter _ = some x.write
    rw [hkey, Function.update_self]
    simp [Item.write, hkey]

/-- The switch answers a read of the key. -/
theorem view_hit (hM : M.Separates) (hsound : π.Sound M D) (htake : Take π.net .up x rest)
    (hkind : x.kind = .readReq) (hkey : x.op.key = k)
    (hslot : π.slot (M.slot x.op.key) = some (w, log)) (hsame : M.Same w.key x.op.key) :
    KStep ordered (view M k π)
      (view M k { π with net := rest ++ [(x.home, { x with kind := .readHit, log := log })] }) := by
  have hrest : rest ⊆ π.net := fun p hp ↦ htake.mem_of_mem hp
  have hwkey : w.key = k := by
    rw [← hkey]
    exact hM.same _ (hsound.slot_owner _ w log hslot).2.1 _ (hsound.item_key _ _ htake.mem) hsame
  refine KStep.hit (x := x) (w := w) ⟨hkey, _, htake.mem, Or.inr (Or.inr ⟨rfl, Or.inr hkind⟩)⟩ hkind
    (view_entry.mpr ⟨hkey ▸ hslot, hwkey⟩) (view_within rfl ?_ ?_ ?_ ?_ ?_ rfl rfl rfl)
  · exact earlyOf_of_new hrest (by simp [Item.IsEarly])
  · exact (boxOf_move htake (Or.inl (by simp))).trans (by simp [view, Item.home])
  · exact (boxOf_move htake (Or.inl (by simp))).trans (by simp [view, Item.home])
  · exact (boxOf_move htake (Or.inl (by simp))).trans (by simp [view, Item.home])
  · refine lateOf_move hrest (Set.subset_insert _ _) fun p hp _ _ ↦ Or.inl ?_
    rw [List.mem_singleton.mp hp]

/-- A `ReplySwitch` of the key is at the head of the replies of its index thread. -/
theorem boxOf_replySwitch (hM : M.Separates) (hk : k ∈ M.keys) (hsound : π.Sound M D) {t : UInt8}
    (htake : TakeFirst π.net (.ixOut t) x rest) (hkind : x.kind = .replySwitch)
    (hkey : x.op.key = k) : boxOf k (.ixOut (M.indexThread k)) π.net =
      x :: boxOf k (.ixOut (M.indexThread k)) rest := by
  have hplaced := hsound.placed _ _ htake.take.mem
  simp only [Placed, hkind, Loc.ixOut.injEq] at hplaced
  rw [hplaced, hkey, hM.copyThread k hk] at htake
  exact boxOf_takeFirst htake hkey

/-- A `ReplySwitch` of the key clears the entry of its write. -/
theorem view_clear (hM : M.Separates) (hk : k ∈ M.keys) (hsound : π.Sound M D) {t : UInt8}
    (htake : TakeFirst π.net (.ixOut t) x rest) (hkind : x.kind = .replySwitch)
    (hkey : x.op.key = k) (hown : ∀ w log, π.slot (M.slot k) = some (w, log) → w = x.op) :
    KStep ordered (view M k π) (view M k { π with
      net := rest, slot := Function.update π.slot (M.slot x.op.key) none }) := by
  have hrest : rest ⊆ π.net := fun p hp ↦ htake.take.mem_of_mem hp
  refine KStep.clear (x := x) (boxOf_replySwitch hM hk hsound htake hkind hkey) hkind
    (fun w log hentry ↦ hown w log (view_entry.mp hentry).1)
    (view_within (List.append_nil rest).symm (earlyOf_of_new hrest (by simp)) ?_ ?_ ?_
      (lateOf_of_new hrest (by simp)) ?_ rfl rfl)
  · exact (boxOf_move htake.take (Or.inl (by simp))).trans (List.append_nil _)
  · exact (boxOf_move htake.take (Or.inl (by simp))).trans (List.append_nil _)
  · rw [List.append_nil]
  · change (Function.update π.slot _ _ _).filter _ = none
    rw [hkey, Function.update_self]
    rfl

/-- A `ReplySwitch` of the key leaves the entry of another write. -/
theorem view_keep (hM : M.Separates) (hk : k ∈ M.keys) (hsound : π.Sound M D) {t : UInt8}
    (htake : TakeFirst π.net (.ixOut t) x rest) (hkind : x.kind = .replySwitch)
    (hkey : x.op.key = k) (hne : ∀ log, π.slot (M.slot k) ≠ some (x.op, log)) :
    KStep ordered (view M k π) (view M k { π with net := rest }) := by
  have hrest : rest ⊆ π.net := fun p hp ↦ htake.take.mem_of_mem hp
  refine KStep.keep (x := x) (boxOf_replySwitch hM hk hsound htake hkind hkey) hkind
    (fun log hentry ↦ hne log (view_entry.mp hentry).1)
    (view_within (List.append_nil rest).symm (earlyOf_of_new hrest (by simp)) ?_ ?_ ?_
      (lateOf_of_new hrest (by simp)) rfl rfl rfl)
  · exact (boxOf_move htake.take (Or.inl (by simp))).trans (List.append_nil _)
  · exact (boxOf_move htake.take (Or.inl (by simp))).trans (List.append_nil _)
  · rw [List.append_nil]

/-! ### Steps of the index threads -/

/-- The index of a key after a batch is that of the newest update of the key. -/
theorem BatchIndex.newest {batch : List Item} {index index' : KvKeyType → UInt64}
    (h : BatchIndex batch index index' k) :
    NewestIndex (batch.filter fun x ↦ x.op.key = k) (index k) (index' k) := by
  have hmem {x : Item} : x ∈ batch.filter (fun x ↦ x.op.key = k) ↔ x ∈ batch ∧ x.op.key = k := by
    rw [List.mem_filter, decide_eq_true_iff]
  rcases h with ⟨hnone, hsame⟩ | ⟨newest, hnewest, hupdates, hmax, hlog⟩
  · exact Or.inl ⟨fun x hx hupdate ↦ hnone x (hmem.mp hx).1 ⟨hupdate, (hmem.mp hx).2⟩, hsame⟩
  · exact Or.inr ⟨newest, hmem.mpr ⟨hnewest, hupdates.2⟩, hupdates.1,
      fun x hx hupdate ↦ hmax x (hmem.mp hx).1 ⟨hupdate, (hmem.mp hx).2⟩, hlog⟩

/-- A request for the key is at the index thread of the key. -/
theorem thread_of_request (hM : M.Separates) (hk : k ∈ M.keys) {t : UInt8}
    (hplaced : Placed M (.ixIn t) x ∨ Placed M (.ixBatch t) x) (hkey : x.op.key = k) :
    t = M.indexThread k := by
  have hcopy := hM.copyThread k hk
  rw [← hkey] at hcopy ⊢
  unfold Placed Item.home at hplaced
  cases hkind : x.kind <;> simp_all

/-- A reply only needs the index of its own key. -/
theorem Item.reply_const (index : KvKeyType → UInt64) (hkey : x.op.key = k) :
    x.reply index = x.reply fun _ ↦ index k := by
  unfold Item.reply
  rw [hkey]

/-- The reply to a request is neither early nor late. -/
theorem reply_not_early {t : UInt8} {index : KvKeyType → UInt64} (hkind : x.kind.AtIndex) :
    ¬ (x.reply index).IsEarly (.ixOut t) ∧ ¬ (x.reply index).IsLate (.ixOut t) := by
  rcases hkind with hkind | hkind | hkind <;>
    simp [Item.reply, Item.IsEarly, Item.IsLate, Item.home, hkind]

/-- The index thread handles a request for the key. -/
theorem view_serve (hM : M.Separates) (hk : k ∈ M.keys) (hsound : π.Sound M D) {t : UInt8}
    {index : KvKeyType → UInt64} (hbatch : (view M k π).batch = [])
    (htake : TakeFirst π.net (.ixIn t) x rest) (hkind : x.kind.AtIndex) (hkey : x.op.key = k)
    (hindex : BatchIndex [x] π.index index k) :
    KStep ordered (view M k π)
      (view M k { π with net := rest ++ [(.ixOut t, x.reply index)], index := index }) := by
  have hrest : rest ⊆ π.net := fun p hp ↦ htake.take.mem_of_mem hp
  obtain rfl := thread_of_request hM hk (Or.inl (hsound.placed _ _ htake.take.mem)) hkey
  have hreply : x.reply index = x.reply fun _ ↦ index k := Item.reply_const index hkey
  have hnewest : NewestIndex [x] (π.index k) (index k) := by
    simpa [hkey] using hindex.newest
  refine KStep.serve (x := x) hbatch (boxOf_takeFirst htake hkey) hnewest
    (view_within rfl ?_ ?_ ?_ ?_ ?_ rfl rfl rfl)
  · exact earlyOf_of_new hrest (by simpa using (reply_not_early hkind).1)
  · simp
  · exact (boxOf_move htake.take (Or.inl (by simp))).trans (by simp [view])
  · exact (boxOf_move htake.take (Or.inl (by simp))).trans
      (by simp [view, Item.reply_op, hkey, ← hreply])
  · exact lateOf_of_new hrest (by simpa using (reply_not_early hkind).2)

/-- The index thread polls a request for the key into its batch. -/
theorem view_collect (hM : M.Separates) (hk : k ∈ M.keys) (hsound : π.Sound M D) {t : UInt8}
    (htake : TakeFirst π.net (.ixIn t) x rest) (hkind : x.kind.AtIndex) (hkey : x.op.key = k) :
    KStep ordered (view M k π) (view M k { π with net := rest ++ [(.ixBatch t, x)] }) := by
  have hrest : rest ⊆ π.net := fun p hp ↦ htake.take.mem_of_mem hp
  obtain rfl := thread_of_request hM hk (Or.inl (hsound.placed _ _ htake.take.mem)) hkey
  refine KStep.collect (x := x) (boxOf_takeFirst htake hkey)
    (view_within rfl ?_ ?_ ?_ ?_ ?_ rfl rfl rfl)
  · refine earlyOf_of_new hrest ?_
    rcases hkind with hkind | hkind | hkind <;> simp [Item.IsEarly, hkind]
  · simp
  · exact (boxOf_move htake.take (Or.inl (by simp))).trans (by simp [view, hkey])
  · exact (boxOf_move htake.take (Or.inl (by simp))).trans (by simp [view])
  · refine lateOf_of_new hrest ?_
    rcases hkind with hkind | hkind | hkind <;> simp [Item.IsLate, hkind]

/-- The replies of a batch for the key, in order. -/
theorem boxOf_replies {t t' : UInt8} {batch : List Item} {index : KvKeyType → UInt64} :
    boxOf k (.ixOut t) (batch.map fun x ↦ (.ixOut t', x.reply index)) =
      if t' = t then (batch.filter fun x ↦ x.op.key = k).map (Item.reply fun _ ↦ index k)
      else [] := by
  induction batch with
  | nil => simp
  | cons x batch ih =>
    rw [List.map_cons, boxOf_cons, Item.reply_op, ih, List.filter_cons]
    by_cases ht : t' = t
    · by_cases hkey : x.op.key = k
      · simp [ht, hkey, Item.reply_const index hkey]
      · simp [ht, hkey]
    · simp [ht]

/-- Answering a batch takes all of it and keeps the other links. -/
theorem boxOf_filter_ne {ℓ' : Loc} {net : List (Loc × Item)} :
    boxOf k ℓ (net.filter fun p ↦ p.1 ≠ ℓ') = if ℓ = ℓ' then [] else boxOf k ℓ net := by
  induction net with
  | nil => simp
  | cons p net ih =>
    obtain ⟨ℓ₀, x⟩ := p
    by_cases hℓ : ℓ₀ = ℓ'
    · rw [List.filter_cons_of_neg (by simpa using hℓ), ih, boxOf_cons]
      by_cases hℓ' : ℓ = ℓ'
      · simp [hℓ']
      · simp [hℓ', hℓ, Ne.symm hℓ']
    · rw [List.filter_cons_of_pos (by simpa using hℓ), boxOf_cons, boxOf_cons, ih]
      by_cases hℓ' : ℓ = ℓ'
      · simp [hℓ', hℓ]
      · simp [hℓ']

/-- The index thread of another key answers its batch. -/
theorem view_flush_other (hM : M.Separates) (hk : k ∈ M.keys) (hsound : π.Sound M D) {t : UInt8}
    {index : KvKeyType → UInt64} (ht : t ≠ M.indexThread k)
    (hwrites : BatchWrites (queue π.net (.ixBatch t)) π.index index k) :
    KStep ordered (view M k π) (view M k { π with
      net := π.net.filter (fun p ↦ p.1 ≠ .ixBatch t) ++
        (queue π.net (.ixBatch t)).map fun x ↦ (.ixOut t, x.reply index)
      index := index }) := by
  have hkey (x : Item) (hx : x ∈ queue π.net (.ixBatch t)) : x.op.key ≠ k := fun hkey ↦
    ht (thread_of_request hM hk (Or.inr (hsound.placed _ _ (mem_queue.mp hx))) hkey)
  have hnew (p : Loc × Item)
      (hp : p ∈ (queue π.net (.ixBatch t)).map fun x ↦ (.ixOut t, x.reply index)) :
      p.2.op.key ≠ k := by
    obtain ⟨x, hx, rfl⟩ := List.mem_map.mp hp
    rw [Item.reply_op]
    exact hkey x hx
  refine view_still (List.filter_sublist.subset) rfl (fun ℓ hℓ ↦ ⟨?_, boxOf_of_keys hnew⟩)
    (fun p hp hpkey ↦ absurd hpkey (hnew p hp)) rfl ?_ rfl
  · rw [boxOf_filter_ne, if_neg]
    rintro rfl
    rcases hℓ with hℓ | hℓ | hℓ <;> simp at hℓ
    exact ht hℓ
  · rcases hwrites with hsame | ⟨x, hx, hupdates, -⟩
    · exact hsame
    · exact absurd hupdates.2 (hkey x hx)

/-- The index thread of the key answers its batch. -/
theorem view_flush (hsound : π.Sound M D) {index : KvKeyType → UInt64}
    (hmode : k ≠ 0 ∨ (view M k π).batch = [])
    (hwrites : BatchWrites (queue π.net (.ixBatch (M.indexThread k))) π.index index k)
    (hnewest : k ≠ 0 → BatchIndex (queue π.net (.ixBatch (M.indexThread k))) π.index index k) :
    KStep ordered (view M k π) (view M k { π with
      net := π.net.filter (fun p ↦ p.1 ≠ .ixBatch (M.indexThread k)) ++
        (queue π.net (.ixBatch (M.indexThread k))).map
          fun x ↦ (.ixOut (M.indexThread k), x.reply index)
      index := index }) := by
  set t := M.indexThread k with ht
  have hrest : (π.net.filter fun p ↦ p.1 ≠ .ixBatch t) ⊆ π.net := List.filter_sublist.subset
  have hnew (p : Loc × Item)
      (hp : p ∈ (queue π.net (.ixBatch t)).map fun x ↦ (.ixOut t, x.reply index)) :
      ¬ p.2.IsEarly p.1 ∧ ¬ p.2.IsLate p.1 := by
    obtain ⟨x, hx, rfl⟩ := List.mem_map.mp hp
    exact reply_not_early (Placed.atIndex (Or.inr (hsound.placed _ _ (mem_queue.mp hx))))
  have hbox (ℓ : Loc) (hℓ : ℓ ≠ .ixOut t) : boxOf k ℓ ((queue π.net (.ixBatch t)).map
      fun x ↦ (.ixOut t, x.reply index)) = [] := by
    refine List.eq_nil_iff_forall_not_mem.mpr fun x hx ↦ hℓ ?_
    obtain ⟨y, -, hy⟩ := List.mem_map.mp (mem_boxOf.mp hx).1
    exact (Prod.mk.inj hy).1.symm
  have hindex : NewestIndex (view M k π).batch (π.index k) (index k) := by
    rcases hmode with hk0 | hempty
    · exact (hnewest hk0).newest
    · refine Or.inl ⟨by simp [hempty], ?_⟩
      rcases hwrites with hsame | ⟨x, hx, hupdates, -⟩
      · exact hsame
      · have hmem : x ∈ (view M k π).batch := mem_boxOf.mpr ⟨mem_queue.mp hx, hupdates.2⟩
        rw [hempty] at hmem
        exact absurd hmem List.not_mem_nil
  refine KStep.flush hindex (view_within rfl (earlyOf_of_new hrest fun p hp ↦ (hnew p hp).1) ?_ ?_
    ?_ (lateOf_of_new hrest fun p hp ↦ (hnew p hp).2) rfl rfl rfl)
  · rw [boxOf_append, boxOf_filter_ne, if_neg (by simp), hbox _ (by simp), List.append_nil]
    rfl
  · rw [boxOf_append, boxOf_filter_ne, if_pos rfl, hbox _ (by simp), List.append_nil]
  · rw [boxOf_append, boxOf_filter_ne, if_neg (by simp), boxOf_replies, if_pos rfl]
    rfl

/-! ### Deliveries -/

/-- A coroutine receives an item of the key, and may send the next one. -/
theorem view_deliver (hsound : π.Sound M D) (htake : Take π.net x.home x rest)
    (hkey : x.op.key = k)
    (hnew : new = [] ∧ x.next = none ∨ ∃ y, new = [(.up, y)] ∧ x.next = some y)
    (hnet : π'.net = rest ++ new) (hslot : π'.slot = π.slot) (hindex : π'.index = π.index)
    (hhist : π'.hist = π.hist ++ x.response) : KStep ordered (view M k π) (view M k π') := by
  have hrest : rest ⊆ π.net := fun p hp ↦ htake.mem_of_mem hp
  have hbox (ℓ : Loc) (hℓ : M.IsBox k ℓ) : boxOf k ℓ (rest ++ new) = boxOf k ℓ π.net := by
    rw [boxOf_move htake (Or.inl (by rcases hℓ with rfl | rfl | rfl <;> simp [Item.home]))]
    rcases hnew with ⟨rfl, -⟩ | ⟨y, rfl, -⟩
    · simp
    · rcases hℓ with rfl | rfl | rfl <;> simp
  have hentry : (π'.slot (M.slot k)).filter (fun e ↦ e.1.key = k) = (view M k π).entry := by
    rw [hslot]
    rfl
  have hindex : π'.index k = (view M k π).index := congrFun hindex k
  have hhist : π'.hist.filter (fun e ↦ e.op.key = k) = (view M k π).hist ++ x.response := by
    rw [hhist, List.filter_append]
    refine congrArg _ (List.filter_eq_self.mpr fun e he ↦ ?_)
    rw [Item.response_op he]
    exact decide_eq_true hkey
  have hlate : lateOf k (rest ++ new) ⊆ lateOf k π.net := by
    refine lateOf_of_new hrest fun p hp h ↦ ?_
    rcases hnew with ⟨rfl, -⟩ | ⟨y, rfl, hy⟩
    · exact absurd hp List.not_mem_nil
    · rw [List.mem_singleton.mp hp] at h
      rcases Item.next_eq_some hy with ⟨-, rfl⟩ | ⟨-, -, rfl⟩ <;> simp [Item.IsLate] at h
  by_cases hrefused : x.kind = .appendReply
  · refine KStep.refused (x := x) ⟨hkey, _, htake.mem, Or.inr (Or.inl hrefused)⟩ hrefused
      (view_within hnet ?_ (hbox _ (Or.inl rfl)) (hbox _ (Or.inr (Or.inl rfl)))
        (hbox _ (Or.inr (Or.inr rfl))) hlate hentry hindex ?_)
    · refine earlyOf_move hrest (Set.subset_insert _ _) fun p hp _ _ ↦ Or.inl ?_
      rcases hnew with ⟨rfl, -⟩ | ⟨y, rfl, hy⟩
      · exact absurd hp List.not_mem_nil
      · rw [List.mem_singleton.mp hp]
        rcases Item.next_eq_some hy with ⟨-, rfl⟩ | ⟨hread, -⟩
        · rfl
        · simp [hrefused] at hread
    · refine hhist.trans ?_
      simp [Item.response, hrefused]
  · have hearly : earlyOf k (rest ++ new) ⊆ earlyOf k π.net := by
      refine earlyOf_of_new hrest fun p hp h ↦ ?_
      rcases hnew with ⟨rfl, -⟩ | ⟨y, rfl, hy⟩
      · exact absurd hp List.not_mem_nil
      · rw [List.mem_singleton.mp hp] at h
        rcases Item.next_eq_some hy with ⟨happend, -⟩ | ⟨-, -, rfl⟩
        · exact absurd happend hrefused
        · simp [Item.IsEarly] at h
    by_cases houtcome : x.kind = .answer ∨ x.kind = .readHit ∨ x.kind = .updateReply ∨
        x.kind = .readReply
    · have hrec := hsound.recorded _ _ htake.mem
      have hpending : ¬ Responded (view M k π).hist x.op := by
        have hnot : ¬ Responded π.hist x.op := by
          rcases houtcome with hkind | hkind | hkind | hkind <;>
            simp only [Recorded, hkind] at hrec <;> exact hrec.2
        rintro ⟨e, he, heq⟩
        exact hnot ⟨e, (List.mem_filter.mp he).1, heq⟩
      refine KStep.respond (x := x) ⟨hkey, _, htake.mem, ?_⟩ hpending (fun hread ↦ ?_)
        (view_within hnet hearly (hbox _ (Or.inl rfl)) (hbox _ (Or.inr (Or.inl rfl)))
          (hbox _ (Or.inr (Or.inr rfl))) hlate hentry hindex hhist)
      · rcases houtcome with hkind | hkind | hkind | hkind <;> simp [Item.IsLate, hkind]
      · refine List.mem_filter.mpr ⟨?_, decide_eq_true hkey⟩
        rcases hread with hkind | hkind <;> simp only [Recorded, hkind] at hrec <;> exact hrec.1
    · refine KStep.other (view_within hnet hearly (hbox _ (Or.inl rfl)) (hbox _ (Or.inr (Or.inl rfl)))
        (hbox _ (Or.inr (Or.inr rfl))) hlate hentry hindex (hhist.trans ?_))
      have hresponse : x.response = [] := by
        unfold Item.response
        split <;> simp_all
      rw [hresponse, List.append_nil]

/-- The entry of the key after a step that concerns the slot of another key. -/
theorem view_entry_update {k' : KvKeyType} (hne : k' ≠ k) {entry : Option (OpId × UInt64)}
    (hold : ∀ w log, π.slot (M.slot k') = some (w, log) → w.key = k')
    (hentry : ∀ w log, entry = some (w, log) → w.key = k') :
    (Function.update π.slot (M.slot k') entry (M.slot k)).filter (fun e ↦ e.1.key = k) =
      (π.slot (M.slot k)).filter fun e ↦ e.1.key = k := by
  by_cases hslot : M.slot k = M.slot k'
  · have hnone {o : Option (OpId × UInt64)} (ho : ∀ w log, o = some (w, log) → w.key = k') :
        o.filter (fun e ↦ e.1.key = k) = none := by
      refine Option.filter_eq_none_iff.mpr fun ⟨w, log⟩ he ↦ ?_
      simpa [ho w log he] using hne
    rw [hslot, Function.update_self, hnone hentry, hnone hold]
  · rw [Function.update_of_ne hslot]

/-- The requests of the key are handled one by one, or in batches. -/
def HandlesRequests (M : Layout) (k : KvKeyType) (π : PState) (action : Action) (π' : PState) :
    Prop :=
  (view M k π).batch = [] ∨ k ≠ 0 ∧
    ∀ t x, action = .move (.ixIn t) x → ∃ net y, π'.net = net ++ [(.ixBatch t, y)]

/-- Every step of the protocol is one of the protocol of the key. -/
theorem PStep.view {action : Action} (hM : M.Separates) (hown : D.clearOwn) (hk : k ∈ M.keys)
    (hsound : π.Sound M D)
    (hordered : ordered → π.Stamped M ∧ ∀ c, (π.clock c).toNat + 1 < 2 ^ 31)
    (hmode : HandlesRequests M k π action π') (hstep : PStep M D π action π') :
    KStep ordered (Protocol.view M k π) (Protocol.view M k π') := by
  have hitem {ℓ : Loc} {x : Item} {rest : List (Loc × Item)} (htake : Take π.net ℓ x rest) :
      x.op.key ∈ M.keys := hsound.item_key _ _ htake.mem
  -- the owner of a slot that holds a key is a write of that key
  have howner {k' : KvKeyType} (hk' : k' ∈ M.keys)
      (hholds : π.slot (M.slot k') = none ∨ π.Holds M k') (w : OpId) (log : UInt64)
      (hslot : π.slot (M.slot k') = some (w, log)) : w.key = k' := by
    rcases hholds with hnone | ⟨w', log', hslot', hsame⟩
    · simp [hnone] at hslot
    · obtain ⟨rfl, rfl⟩ := Prod.mk.inj (Option.some.inj (hslot'.symm.trans hslot))
      exact hM.same _ (hsound.slot_owner _ _ _ hslot).2.1 _ hk' hsame
  have hboxes {ℓ : Loc} (hℓ : M.IsBox k ℓ) :
      ℓ ≠ .up ∧ ∀ t, ℓ ≠ .dnIn t ∧ ℓ ≠ .dnOut t := by
    rcases hℓ with rfl | rfl | rfl <;> simp
  cases hstep with
  | write => exact view_start hsound (Or.inl ⟨rfl, rfl⟩) rfl rfl rfl rfl
  | read => exact view_start hsound (Or.inr ⟨rfl, rfl⟩) rfl rfl rfl rfl
  | probe =>
    refine view_still (fun p hp ↦ hp) rfl
      (fun ℓ hℓ ↦ ⟨rfl, by simp [(hboxes hℓ).1.symm]⟩) (fun p hp _ ↦ ?_) rfl rfl rfl
    rw [List.mem_singleton.mp hp]
    exact ⟨fun h ↦ by simp [Item.IsEarly] at h, fun h ↦ by simp [Item.IsLate] at h⟩
  | @passUp x _ _ htake hpasses =>
    by_cases hkey : x.op.key = k
    · exact view_passUp hM hsound htake hpasses hkey
    · exact view_of_key_ne htake hkey rfl (by simp) rfl rfl (List.append_nil _).symm (by simp)
  | @passOut x _ _ _ hup htake hpasses =>
    by_cases hkey : x.op.key = k
    · exact view_passOut hsound htake hpasses hup hkey
    · exact view_of_key_ne htake.take hkey rfl (by simp) rfl rfl (List.append_nil _).symm (by simp)
  | @lose x rest htake hkind =>
    exact view_still (fun p hp ↦ htake.mem_of_mem hp) (List.append_nil _).symm
      (fun ℓ hℓ ↦ ⟨boxOf_take htake (Or.inl (hboxes hℓ).1.symm), rfl⟩) (by simp) rfl rfl rfl
  | @install x _ _ htake hkind hfree =>
    by_cases hkey : x.op.key = k
    · exact view_install hM hk hsound (fun ho ↦ (hordered ho).1) htake hkind hkey
    · refine view_of_key_ne htake.take hkey rfl (by simp) ?_ rfl (List.append_nil _).symm (by simp)
      refine view_entry_update hkey (howner (hitem htake.take) hfree) fun w log hsome ↦ ?_
      obtain ⟨rfl, -⟩ := Prod.mk.inj (Option.some.inj hsome)
      rfl
  | @hit x w log _ htake hkind hslot hsame =>
    by_cases hkey : x.op.key = k
    · exact view_hit hM hsound htake hkind hkey hslot hsame
    · exact view_of_key_ne htake hkey rfl (by simp) rfl rfl (List.append_nil _).symm (by simp)
  | @clear x _ rest htake hkind hclear =>
    by_cases hkey : x.op.key = k
    · exact view_clear hM hk hsound htake hkind hkey fun w log hslot ↦
        hclear hown w log (by rw [hkey]; exact hslot)
    · refine view_of_key_ne htake.take hkey (List.append_nil _).symm (by simp) ?_ rfl
        (List.append_nil _).symm (by simp)
      exact view_entry_update hkey (fun w log hslot ↦ by rw [hclear hown w log hslot]) (by simp)
  | @keep x _ rest htake hkind hne =>
    by_cases hkey : x.op.key = k
    · exact view_keep hM hk hsound htake hkind hkey (hkey ▸ hne)
    · exact view_of_key_ne htake.take hkey (List.append_nil _).symm (by simp) rfl rfl
        (List.append_nil _).symm (by simp)
  | @append x t log rest htake hkind =>
    by_cases hkey : x.op.key = k
    · exact view_append hsound hordered (y := ⟨.appendReply, x.op, log,
        timestampValue (next_timestamp (π.clock (M.counter x.op.key))).2⟩) htake hkind hkey rfl rfl
        rfl
    · exact view_of_key_ne htake hkey rfl (by simp) rfl rfl rfl (by simp [Event.op])
  | @serveLog x t rest htake hkind =>
    by_cases hkey : x.op.key = k
    · refine view_still (fun p hp ↦ htake.mem_of_mem hp) rfl
        (fun ℓ hℓ ↦ ⟨boxOf_take htake (Or.inl ((hboxes hℓ).2 t).1.symm),
          by simp [((hboxes hℓ).2 t).2.symm]⟩) (fun p hp _ ↦ ?_) rfl rfl rfl
      rw [List.mem_singleton.mp hp]
      exact ⟨fun h ↦ by simp [Item.IsEarly] at h, fun h ↦ by simp [Item.IsLate] at h⟩
    · exact view_of_key_ne htake hkey rfl (by simp) rfl rfl (List.append_nil _).symm (by simp)
  | @serve x t index rest htake hkind hindex =>
    by_cases hkey : x.op.key = k
    · rcases hmode with hempty | ⟨-, hbatches⟩
      · exact view_serve hM hk hsound hempty htake hkind hkey (hindex k)
      · obtain ⟨net, y, hnet⟩ := hbatches t x rfl
        have hlast := congrArg (fun l ↦ l.getLast?.map Prod.fst) hnet
        simp at hlast
    · refine view_of_key_ne htake.take hkey rfl (by simp [Item.reply_op]) rfl ?_
        (List.append_nil _).symm (by simp)
      rcases hindex k with ⟨-, hsame⟩ | ⟨newest, hmem, hupdates, -⟩
      · exact hsame
      · rw [List.mem_singleton.mp hmem] at hupdates
        exact absurd hupdates.2 hkey
  | @collect x t rest htake hkind =>
    by_cases hkey : x.op.key = k
    · exact view_collect hM hk hsound htake hkind hkey
    · exact view_of_key_ne htake.take hkey rfl (by simp) rfl rfl (List.append_nil _).symm (by simp)
  | @flush t index hwrites hnewest =>
    by_cases ht : t = M.indexThread k
    · subst ht
      exact view_flush hsound (hmode.symm.imp_left And.left) (hwrites k hk) (hnewest k hk)
    · exact view_flush_other hM hk hsound ht (hwrites k hk)
  | @finish x rest htake hnext =>
    by_cases hkey : x.op.key = k
    · exact view_deliver hsound htake hkey (Or.inl ⟨rfl, hnext⟩) (List.append_nil _).symm rfl rfl rfl
    · exact view_of_key_ne htake hkey (List.append_nil _).symm (by simp) rfl rfl rfl
        fun e he ↦ Item.response_op he
  | @goOn x y pc rest htake hnext =>
    by_cases hkey : x.op.key = k
    · exact view_deliver hsound htake hkey (Or.inr ⟨y, rfl, hnext⟩) rfl rfl rfl rfl
    · exact view_of_key_ne htake hkey rfl (by simpa using Item.next_op hnext) rfl rfl rfl
        fun e he ↦ Item.response_op he

end Steps

end SwitchDelta.Protocol
