import Mathlib

/-!
# Ranges one after another

Items of given lengths are placed in a region in their order, each where the last one ends. The ranges
do not overlap, and an item is at the beginning exactly if all before it are empty.
-/

set_option autoImplicit false
set_option relaxedAutoImplicit false

namespace SwitchDelta.Foundation

variable {α : Type*} (len : α → ℕ)

/-- The items with the offsets at which they are placed, from `total` on. -/
def place : ℕ → List α → List (α × ℕ)
  | _, [] => []
  | total, a :: items => (a, total) :: place (total + len a) items

variable {len} {a : α} {offset total : ℕ} {items : List α}

theorem mem_of_mem_place (h : (a, offset) ∈ place len total items) : a ∈ items := by
  induction items generalizing total with
  | nil => exact absurd h List.not_mem_nil
  | cons b items ih =>
    rcases List.mem_cons.mp h with heq | h
    · obtain ⟨rfl, -⟩ := Prod.mk.inj heq
      exact List.mem_cons_self
    · exact List.mem_cons_of_mem _ (ih h)

theorem exists_mem_place (h : a ∈ items) (total : ℕ) :
    ∃ offset, (a, offset) ∈ place len total items := by
  induction items generalizing total with
  | nil => exact absurd h List.not_mem_nil
  | cons b items ih =>
    rcases List.mem_cons.mp h with rfl | h
    · exact ⟨total, List.mem_cons_self⟩
    · obtain ⟨offset, hmem⟩ := ih h (total + len b)
      exact ⟨offset, List.mem_cons_of_mem _ hmem⟩

/-- An item lies within the region that is taken. -/
theorem place_bound (h : (a, offset) ∈ place len total items) :
    total ≤ offset ∧ offset + len a ≤ total + (items.map len).sum := by
  induction items generalizing total with
  | nil => exact absurd h List.not_mem_nil
  | cons b items ih =>
    rw [List.map_cons, List.sum_cons]
    rcases List.mem_cons.mp h with heq | h
    · obtain ⟨rfl, rfl⟩ := Prod.mk.inj heq
      exact ⟨le_rfl, by omega⟩
    · have hbound := ih h
      omega

/-- Two items that are not at the same place do not overlap. -/
theorem place_apart {b : α} {other : ℕ} (ha : (a, offset) ∈ place len total items)
    (hb : (b, other) ∈ place len total items) (hne : (a, offset) ≠ (b, other)) :
    offset + len a ≤ other ∨ other + len b ≤ offset := by
  induction items generalizing total with
  | nil => exact absurd ha List.not_mem_nil
  | cons c items ih =>
    rcases List.mem_cons.mp ha with heq | ha
    · rcases List.mem_cons.mp hb with heq' | hb
      · exact absurd (heq.trans heq'.symm) hne
      · obtain ⟨rfl, rfl⟩ := Prod.mk.inj heq
        exact Or.inl (place_bound hb).1
    · rcases List.mem_cons.mp hb with heq' | hb
      · obtain ⟨rfl, rfl⟩ := Prod.mk.inj heq'
        exact Or.inr (place_bound ha).1
      · exact ih ha hb

/-- Where an item is not at the beginning, another one that is not empty is. -/
theorem exists_first (h : (a, offset) ∈ place len 0 items) (hoffset : offset ≠ 0) :
    ∃ b, (b, 0) ∈ place len 0 items ∧ len b ≠ 0 := by
  induction items with
  | nil => exact absurd h List.not_mem_nil
  | cons b items ih =>
    by_cases hb : len b = 0
    · rcases List.mem_cons.mp h with heq | h
      · exact absurd (Prod.mk.inj heq).2 hoffset
      · rw [hb] at h
        obtain ⟨first, hfirst, hne⟩ := ih h
        refine ⟨first, List.mem_cons_of_mem _ ?_, hne⟩
        rwa [hb]
    · exact ⟨b, List.mem_cons_self, hb⟩

/-- All items of a kind are at the beginning if those before them are empty. -/
theorem forall_first_iff (kind : α → Prop) :
    (∀ a offset, (a, offset) ∈ place len 0 items → kind a → offset = 0) ↔
      items.Pairwise fun a b ↦ kind b → len a = 0 := by
  induction items with
  | nil => exact iff_of_true (fun _ _ h ↦ absurd h List.not_mem_nil) List.Pairwise.nil
  | cons b items ih =>
    rw [List.pairwise_cons]
    by_cases hb : len b = 0
    · rw [and_iff_right fun _ _ _ ↦ hb, ← ih]
      refine forall₂_congr fun a offset ↦ ?_
      rw [place, List.mem_cons, hb]
      refine ⟨fun h hmem ↦ h (Or.inr hmem), fun h hmem hkind ↦ ?_⟩
      rcases hmem with heq | hmem
      · exact (Prod.mk.inj heq).2
      · exact h hmem hkind
    · constructor
      · intro h
        have hnone : ∀ a ∈ items, ¬ kind a := by
          intro a ha hkind
          obtain ⟨offset, hmem⟩ : ∃ offset, (a, offset) ∈ place len (0 + len b) items :=
            exists_mem_place ha _
          have hzero := h a offset (List.mem_cons_of_mem _ hmem) hkind
          have hbound := (place_bound hmem).1
          omega
        refine ⟨fun a ha hkind ↦ absurd hkind (hnone a ha), ?_⟩
        exact List.pairwise_of_forall_mem_list fun _ _ a ha hkind ↦ absurd hkind (hnone a ha)
      · rintro ⟨hnone, -⟩ a offset hmem hkind
        rcases List.mem_cons.mp hmem with heq | hmem
        · exact (Prod.mk.inj heq).2
        · exact absurd (hnone a (mem_of_mem_place hmem) hkind) hb

end SwitchDelta.Foundation
