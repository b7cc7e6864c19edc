import Mathlib

/-!
# Copies between ranges of a memory

`store` overwrites a range of a memory, `copy` moves a range within it. `scatter` copies a buffer into
a list of ranges one after the other, and `gather` collects the ranges again. Both go through the same
cells in the same order (`cells`), so what is said about the cells holds of both.

A range of positions that is cut at the multiples of a block size falls into pieces. `mark` has the
ends of the pieces, and `cells_pieces` says where the cells of the pieces are when each piece lies at
its own place in a block of its own.
-/

set_option autoImplicit false
set_option relaxedAutoImplicit false

namespace SwitchDelta.Foundation

variable {α : Type*}

/-! ### Single ranges -/

/-- The memory with the values of `f` in the `size` cells from `start` on. -/
def store (mem : ℕ → α) (start : ℕ) (f : ℕ → α) (size : ℕ) : ℕ → α :=
  fun a ↦ if start ≤ a ∧ a < start + size then f (a - start) else mem a

/-- The memory after `size` cells from `src` on have been copied to `dst`. -/
def copy (mem : ℕ → α) (dst src size : ℕ) : ℕ → α :=
  store mem dst (fun i ↦ mem (src + i)) size

section

variable {mem : ℕ → α} {f : ℕ → α} {start size dst src a i : ℕ}

theorem store_inside (hi : i < size) : store mem start f size (start + i) = f i := by
  rw [store, if_pos ⟨Nat.le_add_right _ _, Nat.add_lt_add_left hi _⟩, Nat.add_sub_cancel_left]

theorem store_outside (ha : a < start ∨ start + size ≤ a) : store mem start f size a = mem a := by
  refine if_neg fun hin ↦ ?_
  omega

theorem copy_inside (hi : i < size) : copy mem dst src size (dst + i) = mem (src + i) :=
  store_inside hi

theorem copy_outside (ha : a < dst ∨ dst + size ≤ a) : copy mem dst src size a = mem a :=
  store_outside ha

/-- A store, cell by cell. -/
theorem store_eq_foldl (mem : ℕ → α) (start : ℕ) (f : ℕ → α) (size : ℕ) :
    store mem start f size =
      (List.range size).foldl (fun mem i ↦ Function.update mem (start + i) (f i)) mem := by
  induction size with
  | zero =>
    funext a
    exact store_outside (by omega)
  | succ size ih =>
    rw [List.range_succ, List.foldl_append, ← ih, List.foldl_cons, List.foldl_nil]
    funext a
    by_cases ha : a = start + size
    · subst ha
      rw [Function.update_self, store_inside (Nat.lt_succ_self size)]
    · rw [Function.update_of_ne ha, store, store]
      have hiff : (start ≤ a ∧ a < start + (size + 1)) ↔ (start ≤ a ∧ a < start + size) := by omega
      rw [if_congr hiff rfl rfl]

end

/-! ### Lists of ranges -/

/-- The cells of a list of ranges, each given by its start and its size, with the positions in the
buffer that they take part in. -/
def cells : ℕ → List (ℕ × ℕ) → List (ℕ × ℕ)
  | _, [] => []
  | pos, (start, size) :: ranges =>
    (List.range size).map (fun i ↦ (start + i, pos + i)) ++ cells (pos + size) ranges

/-- The memory after a buffer has been copied into a list of ranges. -/
def scatter (buffer : ℕ → α) : (ℕ → α) → ℕ → List (ℕ × ℕ) → ℕ → α
  | mem, _, [] => mem
  | mem, pos, (start, size) :: ranges =>
    scatter buffer (store mem start (fun i ↦ buffer (pos + i)) size) (pos + size) ranges

/-- The values in a list of ranges. -/
def gather (mem : ℕ → α) (ranges : List (ℕ × ℕ)) : List α :=
  ranges.flatMap fun range ↦ (List.range range.2).map fun i ↦ mem (range.1 + i)

/-- The values of the buffer at the positions of a list of cells are written into the cells. -/
def writeCells (buffer : ℕ → α) (mem : ℕ → α) (l : List (ℕ × ℕ)) : ℕ → α :=
  l.foldl (fun mem cell ↦ Function.update mem cell.1 (buffer cell.2)) mem

section

variable {buffer mem : ℕ → α} {l : List (ℕ × ℕ)} {a : ℕ}

theorem scatter_eq_writeCells (buffer mem : ℕ → α) (pos : ℕ) (ranges : List (ℕ × ℕ)) :
    scatter buffer mem pos ranges = writeCells buffer mem (cells pos ranges) := by
  induction ranges generalizing mem pos with
  | nil => rfl
  | cons range ranges ih =>
    rw [scatter, ih, cells, writeCells, writeCells, List.foldl_append, List.foldl_map,
      store_eq_foldl]

theorem gather_eq_map (mem : ℕ → α) (pos : ℕ) (ranges : List (ℕ × ℕ)) :
    gather mem ranges = (cells pos ranges).map fun cell ↦ mem cell.1 := by
  induction ranges generalizing pos with
  | nil => rfl
  | cons range ranges ih =>
    rw [gather, List.flatMap_cons, ← gather, ih (pos + range.2), cells, List.map_append,
      List.map_map]
    rfl

theorem writeCells_of_notMem (ha : a ∉ l.map Prod.fst) : writeCells buffer mem l a = mem a := by
  induction l generalizing mem with
  | nil => rfl
  | cons cell l ih =>
    rw [List.map_cons, List.mem_cons, not_or] at ha
    rw [writeCells, List.foldl_cons, ← writeCells, ih ha.2, Function.update_of_ne ha.1]

theorem writeCells_of_mem (hnodup : (l.map Prod.fst).Nodup) {pos : ℕ} (hmem : (a, pos) ∈ l) :
    writeCells buffer mem l a = buffer pos := by
  induction l generalizing mem with
  | nil => exact absurd hmem List.not_mem_nil
  | cons cell l ih =>
    obtain ⟨hnot, hnodup⟩ := List.nodup_cons.mp hnodup
    rw [writeCells, List.foldl_cons, ← writeCells]
    rcases List.mem_cons.mp hmem with rfl | hmem
    · rw [writeCells_of_notMem hnot, Function.update_self]
    · exact ih hnodup hmem

theorem cells_append (pos : ℕ) (ranges ranges' : List (ℕ × ℕ)) :
    cells pos (ranges ++ ranges') =
      cells pos ranges ++ cells (pos + (ranges.map Prod.snd).sum) ranges' := by
  induction ranges generalizing pos with
  | nil => rfl
  | cons range ranges ih =>
    rw [List.cons_append, cells, ih, cells, List.append_assoc, List.map_cons, List.sum_cons,
      Nat.add_assoc]

end

/-! ### The pieces of a range -/

section Pieces

variable (B off size : ℕ)

/-- The number of blocks of size `B` that the range of `size` positions from `off` on touches. -/
def touched : ℕ := (off + size - 1) / B - off / B + 1

/-- The ends of the pieces: piece `i` goes from `mark i` to `mark (i + 1)`. -/
def mark (i : ℕ) : ℕ := min (off + size) (max off ((off / B + i) * B))

/-- A piece at its own place in the block `c i`. -/
def piece (c : ℕ → ℕ) (i : ℕ) : ℕ × ℕ :=
  (c i * B + (mark B off size i - (off / B + i) * B), mark B off size (i + 1) - mark B off size i)

/-- All pieces, each in a block of its own. -/
def pieces (c : ℕ → ℕ) : List (ℕ × ℕ) := (List.range (touched B off size)).map (piece B off size c)

/-- Where the position `off + j` is when each piece is in a block of its own. -/
def locate (c : ℕ → ℕ) (j : ℕ) : ℕ := c ((off + j) / B - off / B) * B + (off + j) % B

variable {B off size} {c : ℕ → ℕ} {i j k : ℕ}

theorem touched_pos : 0 < touched B off size := Nat.succ_pos _

/-- The first and the last block of the range, and the blocks between them. -/
theorem div_add_touched (hsize : 0 < size) :
    off / B + touched B off size = (off + size - 1) / B + 1 := by
  have hle : off / B ≤ (off + size - 1) / B := Nat.div_le_div_right (by omega)
  rw [touched]
  omega

theorem lt_touched_iff (hB : 0 < B) (hsize : 0 < size) :
    i < touched B off size ↔ (off / B + i) * B < off + size := by
  have hend : off / B + touched B off size = (off + size - 1) / B + 1 := div_add_touched hsize
  have hiff : (off / B + i) ≤ (off + size - 1) / B ↔ (off / B + i) * B ≤ off + size - 1 :=
    Nat.le_div_iff_mul_le hB
  omega

theorem mark_zero : mark B off size 0 = off := by
  have hle := Nat.div_mul_le_self off B
  rw [mark, Nat.add_zero, max_eq_left hle]
  exact min_eq_right (Nat.le_add_right _ _)

theorem mark_touched (hB : 0 < B) (hsize : 0 < size) :
    mark B off size (touched B off size) = off + size := by
  have hnot : ¬(off / B + touched B off size) * B < off + size :=
    (lt_touched_iff hB hsize).not.mp (Nat.lt_irrefl _)
  exact min_eq_left (le_max_of_le_right (Nat.not_lt.mp hnot))

theorem le_mark : off ≤ mark B off size i :=
  le_min (Nat.le_add_right _ _) (le_max_left _ _)

theorem mark_le : mark B off size i ≤ off + size := min_le_left _ _

theorem mark_mono (hij : i ≤ j) : mark B off size i ≤ mark B off size j :=
  min_le_min_left _ (max_le_max_left _ (Nat.mul_le_mul_right _ (Nat.add_le_add_left hij _)))

/-- A piece begins in its block. -/
theorem block_le_mark (hB : 0 < B) (hsize : 0 < size) (hi : i < touched B off size) :
    (off / B + i) * B ≤ mark B off size i :=
  le_min ((lt_touched_iff hB hsize).mp hi).le (le_max_right _ _)

/-- A piece ends in its block. -/
theorem mark_succ_le (hB : 0 < B) : mark B off size (i + 1) ≤ (off / B + i + 1) * B := by
  have hlt : off < (off / B + 1) * B := Nat.lt_mul_of_div_lt (Nat.lt_succ_self _) hB
  have hle : (off / B + 1) * B ≤ (off / B + i + 1) * B := Nat.mul_le_mul_right _ (by omega)
  exact (min_le_right _ _).trans (max_le (hlt.le.trans hle) le_rfl)

/-- No piece is empty. -/
theorem mark_lt_succ (hB : 0 < B) (hsize : 0 < size) (hi : i < touched B off size) :
    mark B off size i < mark B off size (i + 1) := by
  have hin := (lt_touched_iff hB hsize).mp hi
  have hlt : off < (off / B + 1) * B := Nat.lt_mul_of_div_lt (Nat.lt_succ_self _) hB
  have hle : (off / B + 1) * B ≤ (off / B + i + 1) * B := Nat.mul_le_mul_right _ (by omega)
  have hnext : (off / B + i) * B < (off / B + i + 1) * B :=
    Nat.mul_lt_mul_of_pos_right (Nat.lt_succ_self _) hB
  refine (min_le_right _ _).trans_lt (lt_min ?_ (lt_max_of_lt_right ?_))
  · exact max_lt (by omega) hin
  · exact max_lt (hlt.trans_le hle) hnext

/-- Between the ends of the range, it is cut at the multiples of the block size. -/
theorem mark_inner (hB : 0 < B) (hsize : 0 < size) (hpos : 0 < i) (hi : i < touched B off size) :
    mark B off size i = (off / B + i) * B := by
  have hin := (lt_touched_iff hB hsize).mp hi
  have hlt : off < (off / B + 1) * B := Nat.lt_mul_of_div_lt (Nat.lt_succ_self _) hB
  have hle : (off / B + 1) * B ≤ (off / B + i) * B := Nat.mul_le_mul_right _ (by omega)
  rw [mark, max_eq_right (hlt.le.trans hle), min_eq_right hin.le]

/-- The sizes of the first pieces add up. -/
theorem sum_sizes (k : ℕ) :
    (((List.range k).map (piece B off size c)).map Prod.snd).sum = mark B off size k - off := by
  induction k with
  | zero => rw [mark_zero, Nat.sub_self]; rfl
  | succ k ih =>
    have hmono : mark B off size k ≤ mark B off size (k + 1) := mark_mono (Nat.le_succ k)
    have hle : off ≤ mark B off size k := le_mark
    rw [List.range_succ, List.map_append, List.map_append, List.sum_append, ih, List.map_singleton,
      List.map_singleton, List.sum_singleton, piece]
    omega

/-- Where a position of a piece is. -/
theorem locate_of_mark (hB : 0 < B) (hsize : 0 < size) (hi : i < touched B off size)
    (hj : mark B off size i + j < mark B off size (i + 1)) :
    locate B off c (mark B off size i - off + j) = (piece B off size c i).1 + j := by
  have hlo : (off / B + i) * B ≤ mark B off size i := block_le_mark hB hsize hi
  have hhi : mark B off size (i + 1) ≤ (off / B + i + 1) * B := mark_succ_le hB
  have hle : off ≤ mark B off size i := le_mark
  have hpos : off + (mark B off size i - off + j) = mark B off size i + j := by omega
  have hdiv : (mark B off size i + j) / B = off / B + i :=
    Nat.div_eq_of_lt_le (by omega) (by rw [Nat.succ_mul] at *; omega)
  have hmod := Nat.div_add_mod' (mark B off size i + j) B
  rw [hdiv] at hmod
  rw [locate, hpos, hdiv, Nat.add_sub_cancel_left, piece]
  dsimp only
  omega

/-- The cells of the pieces are the places of the positions, in order. -/
theorem cells_pieces (hB : 0 < B) (hsize : 0 < size) :
    cells 0 (pieces B off size c) = (List.range size).map fun j ↦ (locate B off c j, j) := by
  have hprefix : ∀ k ≤ touched B off size, cells 0 ((List.range k).map (piece B off size c)) =
      (List.range (mark B off size k - off)).map fun j ↦ (locate B off c j, j) := by
    intro k hk
    induction k with
    | zero => rw [mark_zero, Nat.sub_self]; rfl
    | succ k ih =>
      have hmono : mark B off size k ≤ mark B off size (k + 1) := mark_mono (Nat.le_succ k)
      have hle : off ≤ mark B off size k := le_mark
      have hsplit : mark B off size (k + 1) - off =
          (mark B off size k - off) + (mark B off size (k + 1) - mark B off size k) := by omega
      rw [List.range_succ, List.map_append, cells_append, ih (Nat.le_of_succ_le hk), sum_sizes,
        hsplit, List.range_add, List.map_append, List.map_map]
      refine congrArg _ ?_
      rw [List.map_singleton, cells, cells, List.append_nil]
      refine List.map_congr_left fun j hj ↦ Prod.ext ?_ (Nat.zero_add _ ▸ rfl)
      have hj : j < mark B off size (k + 1) - mark B off size k := List.mem_range.mp hj
      exact (locate_of_mark hB hsize hk (by omega)).symm
  rw [pieces, hprefix _ le_rfl, mark_touched hB hsize, Nat.add_sub_cancel_left]

theorem locate_div (hB : 0 < B) : locate B off c j / B = c ((off + j) / B - off / B) := by
  rw [locate, Nat.add_comm, Nat.add_mul_div_right _ _ hB, Nat.div_eq_of_lt (Nat.mod_lt _ hB),
    Nat.zero_add]

theorem locate_mod : locate B off c j % B = (off + j) % B := by
  rw [locate, Nat.mul_add_mod_self_right, Nat.mod_mod]

/-- Blocks of their own keep the positions apart. -/
theorem locate_injOn (hB : 0 < B) (hsize : 0 < size)
    (hc : Set.InjOn c {i | i < touched B off size}) :
    Set.InjOn (locate B off c) {j | j < size} := by
  have hblock : ∀ j < size, (off + j) / B - off / B < touched B off size := by
    intro j hj
    have hle : (off + j) / B ≤ (off + size - 1) / B := Nat.div_le_div_right (by omega)
    rw [touched]
    omega
  intro j hj j' hj' heq
  have hmod : (off + j) % B = (off + j') % B := by
    exact locate_mod.symm.trans ((congrArg (· % B) heq).trans locate_mod)
  have hdiv : c ((off + j) / B - off / B) = c ((off + j') / B - off / B) := by
    exact (locate_div hB).symm.trans ((congrArg (· / B) heq).trans (locate_div hB))
  have hindex := hc (hblock j hj) (hblock j' hj') hdiv
  have hle : off / B ≤ (off + j) / B := Nat.div_le_div_right (Nat.le_add_right _ _)
  have hle' : off / B ≤ (off + j') / B := Nat.div_le_div_right (Nat.le_add_right _ _)
  have hquot : (off + j) / B = (off + j') / B := by omega
  have hj := Nat.div_add_mod' (off + j) B
  have hj' := Nat.div_add_mod' (off + j') B
  rw [hquot, hmod] at hj
  omega

end Pieces

end SwitchDelta.Foundation
