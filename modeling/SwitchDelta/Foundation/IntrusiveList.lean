import Mathlib

/-!
# Intrusive lists

Nodes that carry the link to their successor themselves, with one value reserved for the end. The
nodes that a walk visits are a list; what an update of the links does to a walk is said in terms of
that list, and a walk that meets no updated node is left alone.
-/

set_option autoImplicit false
set_option relaxedAutoImplicit false

namespace SwitchDelta.Foundation

variable {ι : Type*}

/-- The walk along `next` from `head` visits the nodes of the list in order and ends at `nil`. -/
def Chain (next : ι → ι) (nil : ι) : ι → List ι → Prop
  | head, [] => head = nil
  | head, i :: l => head = i ∧ i ≠ nil ∧ Chain next nil (next i) l

namespace Chain

variable {next next' : ι → ι} {nil head : ι} {l : List ι}

@[simp] theorem nil_iff : Chain next nil head [] ↔ head = nil := Iff.rfl

@[simp] theorem cons_iff {i : ι} :
    Chain next nil head (i :: l) ↔ head = i ∧ i ≠ nil ∧ Chain next nil (next i) l := Iff.rfl

/-- A walk that starts at the reserved value is empty, and only that one. -/
theorem eq_nil_iff (h : Chain next nil head l) : l = [] ↔ head = nil := by
  cases l with
  | nil => exact ⟨fun _ ↦ h, fun _ ↦ rfl⟩
  | cons i l =>
    obtain ⟨rfl, hne, -⟩ := h
    exact ⟨fun hnil ↦ absurd hnil (List.cons_ne_nil _ _), fun hnil ↦ absurd hnil hne⟩

theorem ne_nil_of_mem (h : Chain next nil head l) {i : ι} (hi : i ∈ l) : i ≠ nil := by
  induction l generalizing head with
  | nil => exact absurd hi List.not_mem_nil
  | cons j l ih =>
    obtain ⟨-, hne, hrest⟩ := h
    rcases List.mem_cons.mp hi with rfl | hi
    · exact hne
    · exact ih hrest hi

/-- The frame rule: only the links of the nodes on a walk matter to it. -/
theorem frame (h : Chain next nil head l) (hagree : ∀ i ∈ l, next' i = next i) :
    Chain next' nil head l := by
  induction l generalizing head with
  | nil => exact h
  | cons i l ih =>
    obtain ⟨rfl, hne, hrest⟩ := h
    refine ⟨rfl, hne, ?_⟩
    rw [hagree _ List.mem_cons_self]
    exact ih hrest fun j hj ↦ hagree j (List.mem_cons_of_mem _ hj)

variable [DecidableEq ι]

/-- The link to a node that is not on a walk does not matter to the walk. -/
theorem update_of_notMem (h : Chain next nil head l) {i : ι} (hi : i ∉ l) (j : ι) :
    Chain (Function.update next i j) nil head l := by
  refine h.frame fun k hk ↦ Function.update_of_ne ?_ _ _
  rintro rfl
  exact hi hk

/-- A new last node: its own link ends the walk and the link of the former last node leads to it. -/
theorem append {last i : ι} (h : Chain next nil head (l ++ [last])) (hnodup : (l ++ [last]).Nodup)
    (hi : i ≠ nil) (hfresh : i ∉ l ++ [last]) :
    Chain (Function.update (Function.update next i nil) last i) nil head (l ++ [last] ++ [i]) := by
  induction l generalizing head with
  | nil =>
    obtain ⟨rfl, hne, -⟩ := h
    have hdiff : i ≠ head := fun heq ↦ hfresh (heq ▸ List.mem_cons_self)
    refine ⟨rfl, hne, ?_⟩
    rw [Function.update_self]
    refine ⟨rfl, hi, ?_⟩
    rw [Function.update_of_ne hdiff, Function.update_self]
    exact rfl
  | cons j l ih =>
    obtain ⟨rfl, hne, hrest⟩ := h
    obtain ⟨hhead, htail⟩ := List.nodup_cons.mp hnodup
    obtain ⟨hdiff, hfresh⟩ := not_or.mp (mt List.mem_cons.mpr hfresh)
    have hlast : head ≠ last := fun heq ↦ hhead (by rw [heq]; simp)
    refine ⟨rfl, hne, ?_⟩
    rw [Function.update_of_ne hlast, Function.update_of_ne (Ne.symm hdiff)]
    exact ih hrest htail hfresh

/-- A node is taken out of the middle: its predecessor inherits its link. -/
theorem unlink {pre post : List ι} {before i : ι}
    (h : Chain next nil head (pre ++ before :: i :: post))
    (hnodup : (pre ++ before :: i :: post).Nodup) :
    Chain (Function.update next before (next i)) nil head (pre ++ before :: post) := by
  induction pre generalizing head with
  | nil =>
    obtain ⟨rfl, hne, hnext, -, hrest⟩ := h
    obtain ⟨hhead, -⟩ := List.nodup_cons.mp hnodup
    refine ⟨rfl, hne, ?_⟩
    rw [Function.update_self]
    exact hrest.update_of_notMem (fun hmem ↦ hhead (List.mem_cons_of_mem _ hmem)) _
  | cons j pre ih =>
    obtain ⟨rfl, hne, hrest⟩ := h
    obtain ⟨hhead, htail⟩ := List.nodup_cons.mp hnodup
    have hbefore : head ≠ before := fun heq ↦ hhead (by rw [heq]; simp)
    refine ⟨rfl, hne, ?_⟩
    rw [Function.update_of_ne hbefore]
    exact ih hrest htail

end Chain

end SwitchDelta.Foundation
