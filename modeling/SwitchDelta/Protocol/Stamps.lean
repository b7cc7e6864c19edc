import SwitchDelta.Protocol.OneKey
import SwitchDelta.Protocol.Tokens

/-!
# The order of the timestamps of a key

The data node stamps the writes of a key one after the other, and one of its threads posts all of
them. So as long as no counter ends its round, the writes of a key pass the switch in the order of
their timestamps (`PState.Stamped`), whatever happens to them there.
-/

set_option autoImplicit false
set_option relaxedAutoImplicit false

namespace SwitchDelta.Protocol

open Foundation Kv

/-- Of two items on a link from a data thread, that of the earlier write of a key comes first. -/
def PostedBefore (p q : Loc × Item) : Prop :=
  ∀ t, p.1 = .dnOut t → q.1 = .dnOut t → p.2.kind = .appendReply → q.2.kind = .appendReply →
    p.2.op.key = q.2.op.key → p.2.ts < q.2.ts

/-- The item belongs to a write that has passed the switch on its way from the data node. -/
def HasPassed (p : Loc × Item) : Prop :=
  p.2.IsUpdate ∨ (p.2.kind = .appendReply ∧ p.1 = p.2.home)

/-- The timestamps of the writes of a key follow the order in which they come to the switch. -/
structure PState.Stamped (M : Layout) (π : PState) : Prop where
  le_clock : ∀ p ∈ π.net, p.2.kind = .appendReply ∨ p.2.IsUpdate →
    p.2.ts ≤ (π.clock (M.counter p.2.op.key)).toNat
  posted : π.net.Pairwise PostedBefore
  passed : ∀ p ∈ π.net, HasPassed p → ∀ t y, (.dnOut t, y) ∈ π.net → y.kind = .appendReply →
    y.op.key = p.2.op.key → p.2.ts < y.ts

variable {M : Layout} {D : Discipline} {π π' : PState} {action : Action} {ℓ : Loc} {x : Item}
  {rest new : List (Loc × Item)}

theorem PState.Stamped.initial (M : Layout) : PState.initial.Stamped M where
  le_clock := by simp [PState.initial]
  posted := List.Pairwise.nil
  passed := by simp [PState.initial]

/-- A step that posts no write keeps the order, if the new items of writes that have passed the switch
are in order. -/
theorem PState.Stamped.move (h : π.Stamped M) (hrest : rest.Sublist π.net)
    (hnet : π'.net = rest ++ new) (hclock : π'.clock = π.clock)
    (hout : ∀ p ∈ new, ∀ t, p.1 = .dnOut t → p.2.kind ≠ .appendReply)
    (hnew : ∀ p ∈ new, p.2.kind = .appendReply ∨ p.2.IsUpdate →
      p.2.ts ≤ (π.clock (M.counter p.2.op.key)).toNat ∧ ∀ t y, (.dnOut t, y) ∈ rest →
        y.kind = .appendReply → y.op.key = p.2.op.key → p.2.ts < y.ts) : π'.Stamped M where
  le_clock p hp hkind := by
    rw [hnet] at hp
    rw [hclock]
    rcases List.mem_append.mp hp with hp | hp
    · exact h.le_clock p (hrest.subset hp) hkind
    · exact (hnew p hp hkind).1
  posted := by
    rw [hnet]
    refine List.pairwise_append.mpr ⟨h.posted.sublist hrest, ?_, fun p _ q hq t _ hq' _ hkind ↦
      absurd hkind (hout q hq t hq')⟩
    exact List.Pairwise.imp_of_mem (fun _ hq _ t _ hq' _ hkind ↦ absurd hkind (hout _ hq t hq'))
      (List.pairwise_of_forall fun _ _ ↦ trivial)
  passed p hp hpassed t y hy hkind hkey := by
    rw [hnet] at hp hy
    have hy := (List.mem_append.mp hy).resolve_right fun hy ↦ hout _ hy t rfl hkind
    rcases List.mem_append.mp hp with hp | hp
    · exact h.passed p (hrest.subset hp) hpassed t y (hrest.subset hy) hkind hkey
    · exact (hnew p hp (hpassed.symm.imp_left And.left)).2 t y hy hkind hkey

/-- New items of a write that has passed the switch are in order. -/
theorem PState.Stamped.of_passed (h : π.Stamped M) (htake : Take π.net ℓ x rest)
    (hpassed : HasPassed (ℓ, x)) {y : Item} (hop : y.op = x.op) (hts : y.ts = x.ts) :
    y.ts ≤ (π.clock (M.counter y.op.key)).toNat ∧ ∀ t z, (.dnOut t, z) ∈ rest →
      z.kind = .appendReply → z.op.key = y.op.key → y.ts < z.ts := by
  rw [hop, hts]
  exact ⟨h.le_clock _ htake.mem (hpassed.symm.imp_left And.left), fun t z hz hkind hkey ↦
    h.passed _ htake.mem hpassed t z (htake.mem_of_mem hz) hkind hkey⟩

/-- The write at the head of a link from the data node is older than the others of its key there. -/
theorem PState.Stamped.of_posted (h : π.Stamped M) (hsound : π.Sound M D) {t : UInt8}
    (htake : TakeFirst π.net (.dnOut t) x rest) (hkind : x.kind = .appendReply) {y : Item}
    (hop : y.op = x.op) (hts : y.ts = x.ts) :
    y.ts ≤ (π.clock (M.counter y.op.key)).toNat ∧ ∀ t' z, (.dnOut t', z) ∈ rest →
      z.kind = .appendReply → z.op.key = y.op.key → y.ts < z.ts := by
  rw [hop, hts]
  refine ⟨h.le_clock _ htake.take.mem (Or.inl hkind), fun t' z hz hzkind hkey ↦ ?_⟩
  have hthread {t : UInt8} {z : Item} (hz : (.dnOut t, z) ∈ π.net) (hzkind : z.kind = .appendReply) :
      t = M.dataThread z.op.key := by
    have hplaced := hsound.placed _ _ hz
    simpa [Placed, hzkind, Item.home] using hplaced
  obtain ⟨before, after, hnet, rfl, hfirst⟩ := id htake
  have hsame : t' = t := by
    rw [hthread (htake.take.mem_of_mem hz) hzkind, hkey, ← hthread htake.take.mem hkind]
  subst hsame
  have hafter := (List.mem_append.mp hz).resolve_left fun hz ↦ hfirst _ hz rfl
  have hposted := h.posted
  rw [hnet] at hposted
  exact (List.pairwise_cons.mp (List.pairwise_append.mp hposted).2.1).1 _ hafter t' rfl rfl hkind
    hzkind hkey.symm

/-- A step that moves an item on keeps the order, if its write has passed the switch or the item is of
no write with a timestamp. -/
theorem PState.Stamped.carry (h : π.Stamped M) (htake : Take π.net ℓ x rest)
    (hnet : π'.net = rest ++ new) (hclock : π'.clock = π.clock)
    (hnew : ∀ p ∈ new, ¬ (p.2.kind = .appendReply ∨ p.2.IsUpdate) ∨
      (∀ t, p.1 ≠ .dnOut t) ∧ HasPassed (ℓ, x) ∧ p.2.op = x.op ∧ p.2.ts = x.ts) : π'.Stamped M := by
  refine h.move htake.sublist hnet hclock (fun p hp t hout hkind ↦ ?_) fun p hp hkind ↦ ?_
  · rcases hnew p hp with hnot | ⟨hplace, -⟩
    · exact hnot (Or.inl hkind)
    · exact hplace t hout
  · rcases hnew p hp with hnot | ⟨-, hpassed, hop, hts⟩
    · exact absurd hkind hnot
    · exact h.of_passed htake hpassed hop hts

/-- A step that takes a write from the data node past the switch keeps the order. -/
theorem PState.Stamped.pass (h : π.Stamped M) (hsound : π.Sound M D) {t : UInt8}
    (htake : TakeFirst π.net (.dnOut t) x rest) (hkind : x.kind = .appendReply)
    (hnet : π'.net = rest ++ new) (hclock : π'.clock = π.clock)
    (hnew : ∀ p ∈ new, (∀ t, p.1 ≠ .dnOut t) ∧ p.2.op = x.op ∧ p.2.ts = x.ts) : π'.Stamped M :=
  h.move htake.take.sublist hnet hclock (fun p hp t hout _ ↦ (hnew p hp).1 t hout) fun p hp _ ↦
    h.of_posted hsound htake hkind (hnew p hp).2.1 (hnew p hp).2.2

/-- The data node stamps a write with a number above all those of its counter. -/
theorem PState.Stamped.append (h : π.Stamped M) {t : UInt8} {y : Item}
    (htake : Take π.net (.dnIn t) x rest) (hop : y.op = x.op) (hkind : y.kind = .appendReply)
    (hts : y.ts = (π.clock (M.counter x.op.key)).toNat + 1) (hnet : π'.net = rest ++ [(.dnOut t, y)])
    (hclock : ∀ c, (π.clock c).toNat ≤ (π'.clock c).toNat)
    (hnext : (π'.clock (M.counter x.op.key)).toNat = (π.clock (M.counter x.op.key)).toNat + 1) :
    π'.Stamped M := by
  -- what carries a timestamp for the key has a smaller one
  have hbelow {p : Loc × Item} (hp : p ∈ rest) (hpkind : p.2.kind = .appendReply ∨ p.2.IsUpdate)
      (hkey : p.2.op.key = y.op.key) : p.2.ts < y.ts := by
    have hle := h.le_clock p (htake.mem_of_mem hp) hpkind
    rw [hkey, hop] at hle
    rw [hts]
    exact Nat.lt_succ_of_le hle
  refine ⟨fun p hp hpkind ↦ ?_, ?_, fun p hp hpassed t' z hz hzkind hkey ↦ ?_⟩
  · rw [hnet] at hp
    rcases List.mem_append.mp hp with hp | hp
    · exact (h.le_clock p (htake.mem_of_mem hp) hpkind).trans (hclock _)
    · rw [List.mem_singleton.mp hp, hop, hnext, hts]
  · rw [hnet]
    refine List.pairwise_append.mpr ⟨h.posted.sublist htake.sublist, List.pairwise_singleton _ _,
      fun p hp q hq ↦ ?_⟩
    obtain rfl := List.mem_singleton.mp hq
    exact fun _ _ _ hpkind _ hkey ↦ hbelow hp (Or.inl hpkind) hkey
  · rw [hnet] at hp hz
    have hold : p ∈ rest := by
      refine (List.mem_append.mp hp).resolve_right fun hp ↦ ?_
      obtain rfl := List.mem_singleton.mp hp
      rcases hpassed with hupdate | ⟨-, hhome⟩
      · rcases hupdate with hupdate | hupdate <;> simp [hkind] at hupdate
      · simp [Item.home] at hhome
    rcases List.mem_append.mp hz with hz | hz
    · exact h.passed p (htake.mem_of_mem hold) hpassed t' z (htake.mem_of_mem hz) hzkind hkey
    · obtain ⟨-, rfl⟩ := Prod.mk.inj (List.mem_singleton.mp hz)
      exact hbelow hold (hpassed.symm.imp_left And.left) hkey.symm

/-- A request that is no update of the index gets a reply that is none either. -/
theorem Item.reply_not_stamped {index : KvKeyType → UInt64} (hkind : x.kind.AtIndex) :
    ¬ ((x.reply index).kind = .appendReply ∨ (x.reply index).IsUpdate) := by
  rcases hkind with hkind | hkind | hkind <;> simp [Item.reply, Item.IsUpdate, hkind]

/-- Every step keeps the order while no counter ends its round. -/
theorem PState.Stamped.step (h : π.Stamped M) (hsound : π.Sound M D)
    (hround : ∀ c, (π.clock c).toNat + 1 < 2 ^ 31) (hstep : PStep M D π action π') :
    π'.Stamped M := by
  cases hstep with
  | write | read | probe =>
    exact h.move (List.Sublist.refl _) rfl rfl (by simp) (by simp [Item.IsUpdate])
  | passUp htake hpasses =>
    refine h.carry htake rfl rfl fun p hp ↦ ?_
    obtain rfl := List.mem_singleton.mp hp
    cases hpasses with
    | updateReq hkind => exact Or.inr ⟨by simp, Or.inl (Or.inr hkind), rfl, rfl⟩
    | appendReq hkind | readLog hkind | probe hkind | readReq hkind =>
      exact Or.inl (by simp [Item.IsUpdate, hkind])
  | @passOut x ℓ ℓ' rest hup htake hpasses =>
    cases hpasses with
    | appendReply hkind =>
      exact h.pass hsound htake hkind rfl rfl (by simp [Item.home])
    | logReply hkind | updateReply hkind | readReply hkind =>
      exact h.carry htake.take rfl rfl (by simp [Item.IsUpdate, hkind])
    | _ => exact absurd rfl hup
  | lose htake =>
    exact h.carry htake (List.append_nil _).symm rfl (by simp)
  | install htake hkind => exact h.pass hsound htake hkind rfl rfl (by simp [Item.home])
  | hit htake => exact h.carry htake rfl rfl (by simp [Item.IsUpdate])
  | clear htake | keep htake =>
    exact h.carry htake.take (List.append_nil _).symm rfl (by simp)
  | @append x t log rest htake =>
    obtain ⟨hvalue, hstamp⟩ := next_timestamp_of_lt (hround (M.counter x.op.key))
    refine h.append (y := ⟨.appendReply, x.op, log, timestampValue _⟩) htake rfl rfl hstamp rfl
      (fun c ↦ ?_) ?_
    · change _ ≤ (Function.update π.clock _ _ c).toNat
      by_cases hc : c = M.counter x.op.key
      · rw [hc, Function.update_self, hvalue]
        exact Nat.le_succ _
      · rw [Function.update_of_ne hc]
    · change (Function.update π.clock _ _ (M.counter x.op.key)).toNat = _
      rw [Function.update_self, hvalue]
  | serveLog htake hkind => exact h.carry htake rfl rfl (by simp [Item.IsUpdate])
  | serve htake hkind =>
    exact h.carry htake.take rfl rfl (by simpa using Or.inl (Item.reply_not_stamped hkind))
  | @collect x t rest htake hkind =>
    refine h.carry htake.take rfl rfl fun p hp ↦ ?_
    obtain rfl := List.mem_singleton.mp hp
    rcases hkind with hkind | hkind | hkind
    · exact Or.inr ⟨by simp, Or.inl (Or.inl hkind), rfl, rfl⟩
    · exact Or.inr ⟨by simp, Or.inl (Or.inr hkind), rfl, rfl⟩
    · exact Or.inl (by simp [Item.IsUpdate, hkind])
  | flush =>
    have hnot {p : Loc × Item} {t : UInt8} {index : KvKeyType → UInt64}
        (hp : p ∈ (queue π.net (.ixBatch t)).map fun x ↦ (.ixOut t, x.reply index)) :
        ¬ (p.2.kind = .appendReply ∨ p.2.IsUpdate) := by
      obtain ⟨x, hx, rfl⟩ := List.mem_map.mp hp
      exact Item.reply_not_stamped (Placed.atIndex (Or.inr (hsound.placed _ _ (mem_queue.mp hx))))
    exact h.move List.filter_sublist rfl rfl (fun p hp t _ hkind ↦ hnot hp (Or.inl hkind))
      fun p hp hkind ↦ absurd hkind (hnot hp)
  | finish htake =>
    exact h.carry htake (List.append_nil _).symm rfl (by simp)
  | @goOn x y pc rest htake hnext =>
    refine h.carry htake rfl rfl fun p hp ↦ ?_
    obtain rfl := List.mem_singleton.mp hp
    rcases Item.next_eq_some hnext with ⟨hkind, rfl⟩ | ⟨-, -, rfl⟩
    · exact Or.inr ⟨by simp, Or.inr ⟨hkind, rfl⟩, rfl, rfl⟩
    · exact Or.inl (by simp [Item.IsUpdate])

end SwitchDelta.Protocol
