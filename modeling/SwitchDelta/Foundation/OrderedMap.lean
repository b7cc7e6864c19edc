import Mathlib

/-!
# Ordered maps

A finite map that keeps its entries in the order of their keys, with insertion, removal and a scan
that starts at a key. The order of the entries is a field, so that a scan can be cut after a number
of entries and still be known to hold the smallest keys.

Where the keys are lists, all keys between two that start with `p` start with `p` as well, so a scan
that starts at the first of them sees them before any other.
-/

set_option autoImplicit false
set_option relaxedAutoImplicit false

namespace SwitchDelta.Foundation

variable {κ ν : Type*} [LinearOrder κ]

/-- A finite map, with its entries in the order of their keys. -/
structure OrderedMap (κ ν : Type*) [LinearOrder κ] where
  entries : List (κ × ν)
  sorted : entries.Pairwise fun x y ↦ x.1 < y.1

namespace OrderedMap

/-- The map without entries. -/
def empty : OrderedMap κ ν := ⟨[], List.Pairwise.nil⟩

/-- Put an entry at its place in a list. -/
def insertEntry (k : κ) (v : ν) : List (κ × ν) → List (κ × ν)
  | [] => [(k, v)]
  | (k', v') :: l =>
    if k < k' then (k, v) :: (k', v') :: l
    else if k = k' then (k, v) :: l
    else (k', v') :: insertEntry k v l

theorem mem_of_mem_insertEntry {k : κ} {v : ν} {l : List (κ × ν)} {x : κ × ν}
    (h : x ∈ insertEntry k v l) : x = (k, v) ∨ x ∈ l := by
  induction l with
  | nil => exact Or.inl (List.mem_singleton.mp h)
  | cons y l ih =>
    rw [insertEntry] at h
    split_ifs at h with hlt heq
    · exact List.mem_cons.mp h
    · rcases List.mem_cons.mp h with hx | hx
      · exact Or.inl hx
      · exact Or.inr (List.mem_cons_of_mem y hx)
    · rcases List.mem_cons.mp h with hx | hx
      · exact Or.inr (hx ▸ List.mem_cons_self)
      · exact (ih hx).imp_right (List.mem_cons_of_mem y)

theorem mem_insertEntry_self (k : κ) (v : ν) (l : List (κ × ν)) : (k, v) ∈ insertEntry k v l := by
  induction l with
  | nil => exact List.mem_singleton_self _
  | cons y l ih =>
    rw [insertEntry]
    split_ifs
    · exact List.mem_cons_self
    · exact List.mem_cons_self
    · exact List.mem_cons_of_mem _ ih

theorem mem_insertEntry_of_ne {k : κ} {v : ν} {l : List (κ × ν)} {x : κ × ν} (hx : x ∈ l)
    (hne : x.1 ≠ k) : x ∈ insertEntry k v l := by
  induction l with
  | nil => exact absurd hx List.not_mem_nil
  | cons y l ih =>
    rw [insertEntry]
    split_ifs with hlt heq
    · exact List.mem_cons_of_mem _ hx
    · rcases List.mem_cons.mp hx with rfl | hx
      · exact absurd heq.symm hne
      · exact List.mem_cons_of_mem _ hx
    · rcases List.mem_cons.mp hx with rfl | hx
      · exact List.mem_cons_self
      · exact List.mem_cons_of_mem _ (ih hx)

theorem insertEntry_sorted (k : κ) (v : ν) {l : List (κ × ν)}
    (h : l.Pairwise fun x y ↦ x.1 < y.1) : (insertEntry k v l).Pairwise fun x y ↦ x.1 < y.1 := by
  induction l with
  | nil => exact List.pairwise_singleton _ _
  | cons y l ih =>
    obtain ⟨hhead, htail⟩ := List.pairwise_cons.mp h
    rw [insertEntry]
    split_ifs with hlt heq
    · refine List.pairwise_cons.mpr ⟨fun x hx ↦ ?_, h⟩
      rcases List.mem_cons.mp hx with rfl | hx
      · exact hlt
      · exact hlt.trans (hhead x hx)
    · exact List.pairwise_cons.mpr ⟨fun x hx ↦ heq ▸ hhead x hx, htail⟩
    · refine List.pairwise_cons.mpr ⟨fun x hx ↦ ?_, ih htail⟩
      rcases mem_of_mem_insertEntry hx with rfl | hx
      · exact lt_of_le_of_ne (not_lt.mp hlt) (Ne.symm heq)
      · exact hhead x hx

/-- Insert an entry, in the place of the old one with this key. -/
def put (m : OrderedMap κ ν) (k : κ) (v : ν) : OrderedMap κ ν :=
  ⟨insertEntry k v m.entries, insertEntry_sorted k v m.sorted⟩

/-- Remove the entry with a key, if there is one. -/
def remove (m : OrderedMap κ ν) (k : κ) : OrderedMap κ ν :=
  ⟨m.entries.filter fun x ↦ x.1 ≠ k, m.sorted.filter _⟩

/-- The values of the first `n` entries from `start` on. -/
def scan (m : OrderedMap κ ν) (start : κ) (n : ℕ) : List ν :=
  ((m.entries.filter fun x ↦ start ≤ x.1).take n).map Prod.snd

/-- There is one entry for each key. -/
theorem eq_of_key_eq {m : OrderedMap κ ν} {x y : κ × ν} (hx : x ∈ m.entries) (hy : y ∈ m.entries)
    (h : x.1 = y.1) : x = y := by
  have hnodup : (m.entries.map Prod.fst).Nodup :=
    List.pairwise_map.mpr (m.sorted.imp fun hlt ↦ hlt.ne)
  exact List.inj_on_of_nodup_map hnodup hx hy h

/-- An entry after an insertion is the new one or an old one with another key. -/
theorem mem_put {m : OrderedMap κ ν} {k : κ} {v : ν} {x : κ × ν} :
    x ∈ (m.put k v).entries ↔ x = (k, v) ∨ x ∈ m.entries ∧ x.1 ≠ k := by
  constructor
  · intro hx
    by_cases hk : x.1 = k
    · exact Or.inl (eq_of_key_eq hx (mem_insertEntry_self k v m.entries) hk)
    · exact (mem_of_mem_insertEntry hx).imp_right fun h ↦ ⟨h, hk⟩
  · rintro (rfl | ⟨hx, hne⟩)
    · exact mem_insertEntry_self _ _ _
    · exact mem_insertEntry_of_ne hx hne

theorem mem_remove {m : OrderedMap κ ν} {k : κ} {x : κ × ν} :
    x ∈ (m.remove k).entries ↔ x ∈ m.entries ∧ x.1 ≠ k := by
  simp [remove]

/-- In a sorted list an entry is among the first `n` if fewer than `n` come before it. -/
theorem mem_take_of_length_lt {l : List (κ × ν)} (hsorted : l.Pairwise fun x y ↦ x.1 < y.1)
    {x : κ × ν} (hx : x ∈ l) {n : ℕ} (hn : (l.filter fun y ↦ y.1 < x.1).length < n) :
    x ∈ l.take n := by
  induction l generalizing n with
  | nil => exact absurd hx List.not_mem_nil
  | cons y l ih =>
    obtain ⟨n, rfl⟩ := Nat.exists_eq_add_one_of_ne_zero (Nat.ne_zero_of_lt hn)
    obtain ⟨hhead, htail⟩ := List.pairwise_cons.mp hsorted
    rw [List.take_succ_cons]
    rcases List.mem_cons.mp hx with rfl | hx
    · exact List.mem_cons_self
    · rw [List.filter_cons_of_pos (by simpa using hhead x hx), List.length_cons,
        Nat.add_lt_add_iff_right] at hn
      exact List.mem_cons_of_mem _ (ih htail hx hn)

/-- A scan sees an entry if fewer than `n` of those in its range come before it. -/
theorem mem_scan {m : OrderedMap κ ν} {start : κ} {n : ℕ} {x : κ × ν} (hx : x ∈ m.entries)
    (hstart : start ≤ x.1)
    (hn : (m.entries.filter fun y ↦ start ≤ y.1 ∧ y.1 < x.1).length < n) :
    x.2 ∈ m.scan start n := by
  refine List.mem_map_of_mem (mem_take_of_length_lt (m.sorted.filter _) ?_ ?_)
  · exact List.mem_filter.mpr ⟨hx, by simpa using hstart⟩
  · rw [List.filter_filter]
    convert hn using 3
    ext y
    simp [Bool.and_comm]

end OrderedMap

theorem cons_le_cons_iff {c d : κ} {a x : List κ} :
    c :: a ≤ d :: x ↔ c < d ∨ c = d ∧ a ≤ x := by
  rw [le_iff_lt_or_eq, List.cons_lt_cons_iff, le_iff_lt_or_eq, List.cons.injEq]
  tauto

theorem append_le_append {p a b : List κ} (h : a ≤ b) : p ++ a ≤ p ++ b := by
  induction p with
  | nil => exact h
  | cons c p ih => exact cons_le_cons_iff.mpr (Or.inr ⟨rfl, ih⟩)

/-- A list between two lists that start with `p` starts with `p`. -/
theorem isPrefix_of_between {p a b x : List κ} (ha : p ++ a ≤ x) (hb : x ≤ p ++ b) : p <+: x := by
  induction p generalizing x with
  | nil => exact List.nil_prefix
  | cons c p ih =>
    cases x with
    | nil => exact absurd ha (by simp)
    | cons d x =>
      rw [List.cons_append, cons_le_cons_iff] at ha hb
      rcases ha with ha | ⟨rfl, ha⟩
      · rcases hb with hb | ⟨rfl, -⟩
        · exact absurd (ha.trans hb) (lt_irrefl c)
        · exact absurd ha (lt_irrefl _)
      · rcases hb with hb | ⟨-, hb⟩
        · exact absurd hb (lt_irrefl _)
        · exact List.cons_prefix_cons.mpr ⟨rfl, ih ha hb⟩

end SwitchDelta.Foundation
