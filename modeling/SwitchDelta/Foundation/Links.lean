import Mathlib

/-!
# Packets on links

The network of a message-passing system is one list of packets, each tagged with the link it is on.
A link that may reorder gives up any of its packets (`Take`), a link that is first-in first-out gives
up the first one (`TakeFirst`). New packets are appended to the list. `queue net ℓ` is the content of
link `ℓ` in order.

`Forall₂` over two networks relates a concrete and an abstract network packet by packet, and
`Take.forall₂` and `TakeFirst.forall₂` let the abstract network follow the concrete one.
-/

set_option autoImplicit false
set_option relaxedAutoImplicit false

namespace SwitchDelta.Foundation

variable {L α β : Type*}

/-! ### Taking packets -/

/-- The packet `x` on link `ℓ` is removed from the network. -/
def Take (net : List (L × α)) (ℓ : L) (x : α) (rest : List (L × α)) : Prop :=
  ∃ before after, net = before ++ (ℓ, x) :: after ∧ rest = before ++ after

/-- The first packet on link `ℓ` is removed from the network. -/
def TakeFirst (net : List (L × α)) (ℓ : L) (x : α) (rest : List (L × α)) : Prop :=
  ∃ before after, net = before ++ (ℓ, x) :: after ∧ rest = before ++ after ∧
    ∀ p ∈ before, p.1 ≠ ℓ

theorem TakeFirst.take {net rest : List (L × α)} {ℓ : L} {x : α} (h : TakeFirst net ℓ x rest) :
    Take net ℓ x rest := by
  obtain ⟨before, after, hnet, hrest, -⟩ := h
  exact ⟨before, after, hnet, hrest⟩

theorem Take.perm {net rest : List (L × α)} {ℓ : L} {x : α} (h : Take net ℓ x rest) :
    net.Perm ((ℓ, x) :: rest) := by
  obtain ⟨before, after, rfl, rfl⟩ := h
  exact List.perm_middle

theorem Take.mem {net rest : List (L × α)} {ℓ : L} {x : α} (h : Take net ℓ x rest) :
    (ℓ, x) ∈ net :=
  h.perm.mem_iff.mpr List.mem_cons_self

theorem take_eraseIdx {net : List (L × α)} {position : ℕ} {ℓ : L} {x : α}
    (h : net[position]? = some (ℓ, x)) : Take net ℓ x (net.eraseIdx position) := by
  obtain ⟨hlt, hvalue⟩ := List.getElem?_eq_some_iff.mp h
  refine ⟨_, _, ?_, List.eraseIdx_eq_take_drop_succ net position⟩
  rw [← hvalue, ← List.drop_eq_getElem_cons hlt, List.take_append_drop]

theorem Take.countP {net rest : List (L × α)} {ℓ : L} {x : α} (h : Take net ℓ x rest)
    (f : L × α → Bool) : net.countP f = rest.countP f + if f (ℓ, x) then 1 else 0 := by
  rw [h.perm.countP_eq, List.countP_cons]

theorem Take.mem_of_mem {net rest : List (L × α)} {ℓ : L} {x : α} (h : Take net ℓ x rest)
    {p : L × α} (hp : p ∈ rest) : p ∈ net :=
  h.perm.mem_iff.mpr (List.mem_cons_of_mem _ hp)

/-- A link that is not empty has a first item. -/
theorem exists_takeFirst {net : List (L × α)} {ℓ : L} {x : α} (h : (ℓ, x) ∈ net) :
    ∃ y rest, TakeFirst net ℓ y rest := by
  induction net with
  | nil => cases h
  | cons p net ih =>
    obtain ⟨ℓ', y⟩ := p
    by_cases hℓ : ℓ' = ℓ
    · subst hℓ
      exact ⟨y, net, [], net, rfl, rfl, by simp⟩
    · have hmem : (ℓ, x) ∈ net :=
        (List.mem_cons.mp h).resolve_left fun heq ↦ hℓ (Prod.mk.inj heq).1.symm
      obtain ⟨z, rest, before, after, rfl, rfl, hbefore⟩ := ih hmem
      refine ⟨z, _, (ℓ', y) :: before, after, rfl, rfl, fun q hq ↦ ?_⟩
      rcases List.mem_cons.mp hq with rfl | hq
      · exact hℓ
      · exact hbefore q hq

theorem Take.sublist {net rest : List (L × α)} {ℓ : L} {x : α} (h : Take net ℓ x rest) :
    rest.Sublist net := by
  obtain ⟨before, after, rfl, rfl⟩ := h
  exact (List.sublist_cons_self _ after).append_left before

theorem Take.filterMap {net rest : List (L × α)} {ℓ : L} {x : α} (h : Take net ℓ x rest)
    {f : L × α → Option β} (hf : f (ℓ, x) = none) : rest.filterMap f = net.filterMap f := by
  obtain ⟨before, after, rfl, rfl⟩ := h
  simp [List.filterMap_append, List.filterMap_cons_none hf]

/-- A list related to a concatenation is itself a concatenation of related parts. -/
theorem exists_append_of_forall₂ {R : α → β → Prop} {before after : List α} {l : List β}
    (h : List.Forall₂ R (before ++ after) l) :
    ∃ before' after', List.Forall₂ R before before' ∧ List.Forall₂ R after after' ∧
      l = before' ++ after' := by
  induction before generalizing l with
  | nil => exact ⟨[], l, List.Forall₂.nil, h, rfl⟩
  | cons x before ih =>
    cases h with
    | @cons _ y _ tail hxy htail =>
      obtain ⟨before', after', hbefore, hafter, rfl⟩ := ih htail
      exact ⟨y :: before', after', List.Forall₂.cons hxy hbefore, hafter, rfl⟩

/-- The abstract network gives up the packet that corresponds to the concrete one. -/
theorem Take.forall₂ {R : L × α → L × β → Prop} {net rest : List (L × α)} {ℓ : L} {x : α}
    {net' : List (L × β)} (hloc : ∀ p q, R p q → p.1 = q.1) (hnet : List.Forall₂ R net net')
    (h : Take net ℓ x rest) :
    ∃ y rest', Take net' ℓ y rest' ∧ R (ℓ, x) (ℓ, y) ∧ List.Forall₂ R rest rest' := by
  obtain ⟨before, after, rfl, rfl⟩ := h
  obtain ⟨before', tail', hbefore, htail, rfl⟩ := exists_append_of_forall₂ hnet
  cases htail with
  | @cons _ q _ after' hhead hafter =>
    obtain ⟨ℓ', y⟩ := q
    obtain rfl : ℓ = ℓ' := hloc _ _ hhead
    exact ⟨y, before' ++ after', ⟨before', after', rfl, rfl⟩, hhead,
      List.rel_append hbefore hafter⟩

theorem TakeFirst.forall₂ {R : L × α → L × β → Prop} {net rest : List (L × α)} {ℓ : L} {x : α}
    {net' : List (L × β)} (hloc : ∀ p q, R p q → p.1 = q.1) (hnet : List.Forall₂ R net net')
    (h : TakeFirst net ℓ x rest) :
    ∃ y rest', TakeFirst net' ℓ y rest' ∧ R (ℓ, x) (ℓ, y) ∧ List.Forall₂ R rest rest' := by
  obtain ⟨before, after, rfl, rfl, hfirst⟩ := h
  obtain ⟨before', tail', hbefore, htail, rfl⟩ := exists_append_of_forall₂ hnet
  have hfirst' : ∀ q ∈ before', q.1 ≠ ℓ := by
    clear hnet htail
    induction hbefore with
    | nil => simp
    | @cons p q _ _ hpq _ ih =>
      intro q' hq'
      rcases List.mem_cons.mp hq' with rfl | hq'
      · rw [← hloc _ _ hpq]
        exact hfirst p List.mem_cons_self
      · exact ih (fun p' hp' ↦ hfirst p' (List.mem_cons_of_mem _ hp')) q' hq'
  cases htail with
  | @cons _ q _ after' hhead hafter =>
    obtain ⟨ℓ', y⟩ := q
    obtain rfl : ℓ = ℓ' := hloc _ _ hhead
    exact ⟨y, before' ++ after', ⟨before', after', rfl, rfl, hfirst'⟩, hhead,
      List.rel_append hbefore hafter⟩

/-- Every member of the first list is related to a member of the second. -/
theorem exists_right_of_forall₂ {R : α → β → Prop} {l : List α} {l' : List β}
    (h : List.Forall₂ R l l') {x : α} (hx : x ∈ l) : ∃ y ∈ l', R x y := by
  induction h with
  | nil => simp at hx
  | cons hhead _ ih =>
    rcases List.mem_cons.mp hx with rfl | hx
    · exact ⟨_, List.mem_cons_self, hhead⟩
    · obtain ⟨y, hy, hxy⟩ := ih hx
      exact ⟨y, List.mem_cons_of_mem _ hy, hxy⟩

theorem exists_left_of_forall₂ {R : α → β → Prop} {l : List α} {l' : List β}
    (h : List.Forall₂ R l l') {y : β} (hy : y ∈ l') : ∃ x ∈ l, R x y :=
  exists_right_of_forall₂ h.flip hy

/-! ### The content of a link -/

section Queue

variable [DecidableEq L]

/-- The packets on link `ℓ`, in order. -/
def queue (net : List (L × α)) (ℓ : L) : List α :=
  net.filterMap fun p ↦ if p.1 = ℓ then some p.2 else none

@[simp] theorem queue_nil (ℓ : L) : queue ([] : List (L × α)) ℓ = [] := rfl

@[simp] theorem queue_append (net net' : List (L × α)) (ℓ : L) :
    queue (net ++ net') ℓ = queue net ℓ ++ queue net' ℓ :=
  List.filterMap_append

@[simp] theorem queue_cons_self (net : List (L × α)) (ℓ : L) (x : α) :
    queue ((ℓ, x) :: net) ℓ = x :: queue net ℓ := by
  simp [queue]

theorem queue_cons_of_ne {net : List (L × α)} {ℓ ℓ' : L} {x : α} (hne : ℓ' ≠ ℓ) :
    queue ((ℓ', x) :: net) ℓ = queue net ℓ := by
  simp [queue, hne]

theorem mem_queue {net : List (L × α)} {ℓ : L} {x : α} : x ∈ queue net ℓ ↔ (ℓ, x) ∈ net := by
  simp only [queue, List.mem_filterMap, Option.ite_none_right_eq_some, Option.some.injEq]
  constructor
  · rintro ⟨⟨ℓ', y⟩, hp, rfl, rfl⟩
    exact hp
  · exact fun hp ↦ ⟨_, hp, rfl, rfl⟩

theorem queue_eq_nil_of_forall_ne {net : List (L × α)} {ℓ : L} (h : ∀ p ∈ net, p.1 ≠ ℓ) :
    queue net ℓ = [] := by
  refine List.filterMap_eq_nil_iff.mpr fun p hp ↦ ?_
  rw [if_neg (h p hp)]

theorem TakeFirst.queue_self {net rest : List (L × α)} {ℓ : L} {x : α}
    (h : TakeFirst net ℓ x rest) : queue net ℓ = x :: queue rest ℓ := by
  obtain ⟨before, after, rfl, rfl, hfirst⟩ := h
  simp [queue_eq_nil_of_forall_ne hfirst]

theorem Take.queue_of_ne {net rest : List (L × α)} {ℓ ℓ' : L} {x : α} (h : Take net ℓ x rest)
    (hne : ℓ ≠ ℓ') : queue rest ℓ' = queue net ℓ' := by
  obtain ⟨before, after, rfl, rfl⟩ := h
  simp [queue_cons_of_ne hne]

/-- When a link is emptied, the others keep their content. -/
theorem queue_filter_ne (net : List (L × α)) (ℓ ℓ' : L) :
    queue (net.filter fun p ↦ p.1 ≠ ℓ') ℓ = if ℓ = ℓ' then [] else queue net ℓ := by
  split_ifs with hℓ
  · subst hℓ
    exact queue_eq_nil_of_forall_ne fun p hp ↦ of_decide_eq_true (List.mem_filter.mp hp).2
  · rw [queue, List.filterMap_filter]
    refine List.filterMap_congr fun p _ ↦ ?_
    by_cases hp : p.1 = ℓ
    · simp [hp, hℓ]
    · simp [hp]

/-- Every packet is on a link or elsewhere. -/
theorem countP_filter_add_queue (net : List (L × α)) (ℓ : L) (f : L × α → Bool) :
    (net.filter fun p ↦ p.1 ≠ ℓ).countP f + (queue net ℓ).countP (fun x ↦ f (ℓ, x)) =
      net.countP f := by
  induction net with
  | nil => rfl
  | cons p net ih =>
    obtain ⟨ℓ', x⟩ := p
    by_cases hℓ : ℓ' = ℓ
    · subst hℓ
      rw [List.filter_cons_of_neg (by simp), queue_cons_self, List.countP_cons, List.countP_cons,
        ← ih]
      omega
    · rw [List.filter_cons_of_pos (by simpa using hℓ), queue_cons_of_ne hℓ, List.countP_cons,
        List.countP_cons, ← ih]
      omega

/-- Related networks have related contents on each link. -/
theorem queue_forall₂ {R : L × α → L × β → Prop} {Q : α → β → Prop}
    (hR : ∀ p q, R p q → p.1 = q.1 ∧ Q p.2 q.2) {net : List (L × α)} {net' : List (L × β)}
    (h : List.Forall₂ R net net') (ℓ : L) : List.Forall₂ Q (queue net ℓ) (queue net' ℓ) := by
  induction h with
  | nil => exact List.Forall₂.nil
  | @cons p q _ _ hhead _ ih =>
    obtain ⟨hloc, hpq⟩ := hR p q hhead
    obtain ⟨ℓ', x⟩ := p
    obtain ⟨ℓ'', y⟩ := q
    obtain rfl : ℓ' = ℓ'' := hloc
    by_cases hℓ : ℓ' = ℓ
    · subst hℓ
      rw [queue_cons_self, queue_cons_self]
      exact List.Forall₂.cons hpq ih
    · rwa [queue_cons_of_ne hℓ, queue_cons_of_ne hℓ]

/-- Related networks stay related when a link is emptied. -/
theorem filter_ne_forall₂ {R : L × α → L × β → Prop} (hloc : ∀ p q, R p q → p.1 = q.1)
    {net : List (L × α)} {net' : List (L × β)} (h : List.Forall₂ R net net') (ℓ : L) :
    List.Forall₂ R (net.filter fun p ↦ p.1 ≠ ℓ) (net'.filter fun q ↦ q.1 ≠ ℓ) := by
  refine List.rel_filter (fun p q hpq ↦ ?_) h
  simp [hloc p q hpq]

end Queue

end SwitchDelta.Foundation
