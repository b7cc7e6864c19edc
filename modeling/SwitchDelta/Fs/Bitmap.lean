import Mathlib

/-!
# The bitmap of the file system's tables

`Bitmap` of the file system: a byte array with the bit of position `pos` in byte `pos / 8`, the
first position of a byte in its highest bit, and a counter of the clear bits that is kept beside
the bytes.
-/

set_option autoImplicit false
set_option relaxedAutoImplicit false

namespace SwitchDelta.Fs

/-- `Bitmap`. The counters are `uint64_t`s that stay between zero and the length of the bitmap. -/
structure Bitmap where
  bytes : ℕ → UInt8
  varCountFree : ℕ
  varCountTotal : ℕ

namespace Bitmap

/-- `1 << (7 - offset)`, the mask of a position within its byte. -/
def mask (offset : ℕ) : UInt8 := 1 <<< UInt8.ofNat (7 - offset)

/-- The test of `get`, `set` and `clear`: whether the bit of a position is set. -/
def bit (b : Bitmap) (pos : ℕ) : Bool := decide (b.bytes (pos / 8) &&& mask (pos % 8) ≠ 0)

/-- `Bitmap::get`, which fails out of range. -/
def get (b : Bitmap) (pos : ℕ) : Option Bool :=
  if pos < b.varCountTotal then some (b.bit pos) else none

/-- `Bitmap::set`. -/
def set (b : Bitmap) (pos : ℕ) : Bitmap × Bool :=
  if pos < b.varCountTotal then
    if b.bit pos then (b, true)
    else
      ({ b with
          bytes := Function.update b.bytes (pos / 8) (b.bytes (pos / 8) ||| mask (pos % 8))
          varCountFree := b.varCountFree - 1 }, true)
  else (b, false)

/-- `Bitmap::clear`. -/
def clear (b : Bitmap) (pos : ℕ) : Bitmap × Bool :=
  if pos < b.varCountTotal then
    if b.bit pos then
      ({ b with
          bytes := Function.update b.bytes (pos / 8) (b.bytes (pos / 8) &&& ~~~ mask (pos % 8))
          varCountFree := b.varCountFree + 1 }, true)
    else (b, true)
  else (b, false)

/-- `Bitmap::countFree`. -/
def countFree (b : Bitmap) : ℕ := b.varCountFree

/-- `Bitmap::countTotal`. -/
def countTotal (b : Bitmap) : ℕ := b.varCountTotal

/-- The constructor, which counts the clear bits of the buffer. It exits where the length is no
multiple of eight, and it does not return where the `unsigned int` that counts the bytes wraps
around before it reaches their number. -/
def construct (count : ℕ) (buffer : ℕ → UInt8) : Option Bitmap :=
  if count % 8 = 0 ∧ count / 8 < 2 ^ 32 then
    some {
      bytes := buffer
      varCountTotal := count
      varCountFree := (List.range (count / 8)).foldl (fun free index ↦
        (List.range 8).foldl (fun free offset ↦
          if buffer index &&& mask offset = 0 then free + 1 else free) free) 0 }
  else none

/-! ### Single bits of a byte -/

theorem mask_toBitVec : ∀ o : Fin 8, (mask o).toBitVec = BitVec.twoPow 8 (7 - o) := by
  decide

/-- The masked byte is zero exactly where the bit under the mask is. -/
theorem and_mask_ne_zero (x : UInt8) (o : Fin 8) :
    x &&& mask o ≠ 0 ↔ x.toBitVec.getLsbD (7 - o) = true := by
  rw [ne_eq, ← UInt8.toBitVec_inj, UInt8.toBitVec_and, mask_toBitVec, BitVec.and_twoPow]
  have hpow : ∀ o : Fin 8, BitVec.twoPow 8 (7 - o) ≠ (0 : UInt8).toBitVec := by
    decide
  split_ifs with hbit
  · exact iff_of_true (hpow o) hbit
  · exact iff_of_false (not_not_intro rfl) hbit

theorem or_mask_getLsbD (x : UInt8) (o o' : Fin 8) :
    (x ||| mask o).toBitVec.getLsbD (7 - o') = true ↔
      o' = o ∨ x.toBitVec.getLsbD (7 - o') = true := by
  rw [UInt8.toBitVec_or, BitVec.getLsbD_or, mask_toBitVec, BitVec.getLsbD_twoPow]
  have hsame : (7 - (o : ℕ) < 8 ∧ 7 - (o : ℕ) = 7 - o') ↔ o' = o := by omega
  rw [Bool.or_eq_true, Bool.and_eq_true, decide_eq_true_eq, decide_eq_true_eq, hsame]
  exact or_comm

theorem and_not_mask_getLsbD (x : UInt8) (o o' : Fin 8) :
    (x &&& ~~~ mask o).toBitVec.getLsbD (7 - o') = true ↔
      o' ≠ o ∧ x.toBitVec.getLsbD (7 - o') = true := by
  rw [UInt8.toBitVec_and, UInt8.toBitVec_not, BitVec.getLsbD_and, BitVec.getLsbD_not,
    mask_toBitVec, BitVec.getLsbD_twoPow]
  have hsame : (7 - (o : ℕ) < 8 ∧ 7 - (o : ℕ) = 7 - o') ↔ o' = o := by omega
  have hrange : 7 - (o' : ℕ) < 8 := by omega
  simp only [← Bool.decide_and, hsame, hrange, decide_true, Bool.true_and, Bool.and_eq_true,
    Bool.not_eq_true', decide_eq_false_iff_not, ne_eq]
  exact and_comm

/-- The bit of a position, as a bit of its byte. -/
theorem bit_iff (b : Bitmap) (pos : ℕ) :
    b.bit pos = true ↔ (b.bytes (pos / 8)).toBitVec.getLsbD (7 - pos % 8) = true := by
  rw [bit, decide_eq_true_iff]
  exact and_mask_ne_zero _ ⟨pos % 8, Nat.mod_lt _ (by decide)⟩

/-! ### Setting and clearing -/

variable {b : Bitmap} {pos : ℕ}

/-- A byte is updated at one position. -/
theorem bit_update (b : Bitmap) (pos pos' : ℕ) (x : UInt8) (free : ℕ) :
    ({ b with bytes := Function.update b.bytes (pos / 8) x, varCountFree := free } : Bitmap).bit pos'
      = true ↔ if pos' / 8 = pos / 8 then x.toBitVec.getLsbD (7 - pos' % 8) = true
        else b.bit pos' = true := by
  rw [bit_iff, bit_iff]
  change (Function.update b.bytes (pos / 8) x (pos' / 8)).toBitVec.getLsbD (7 - pos' % 8) = true ↔ _
  split_ifs with hbyte
  · rw [hbyte, Function.update_self]
  · rw [Function.update_of_ne hbyte]

/-- `set` at a clear bit in range: it succeeds, sets that bit and counts it. -/
theorem set_of_clear (hpos : pos < b.varCountTotal) (hclear : b.bit pos = false) :
    (b.set pos).2 = true ∧ (∀ pos', (b.set pos).1.bit pos' = true ↔ pos' = pos ∨ b.bit pos' = true) ∧
      (b.set pos).1.varCountFree = b.varCountFree - 1 ∧
      (b.set pos).1.varCountTotal = b.varCountTotal := by
  rw [set, if_pos hpos, if_neg (by simp [hclear])]
  refine ⟨rfl, fun pos' ↦ ?_, rfl, rfl⟩
  rw [bit_update]
  split_ifs with hbyte
  · refine (or_mask_getLsbD _ ⟨pos % 8, Nat.mod_lt _ (by decide)⟩
      ⟨pos' % 8, Nat.mod_lt _ (by decide)⟩).trans ?_
    rw [Fin.mk.injEq, bit_iff, hbyte]
    have hsame : pos' % 8 = pos % 8 ↔ pos' = pos := by omega
    rw [hsame]
  · have hne : pos' ≠ pos := fun heq ↦ hbyte (heq ▸ rfl)
    simp [hne]

theorem set_snd (hpos : pos < b.varCountTotal) : (b.set pos).2 = true := by
  rw [set, if_pos hpos]
  split_ifs <;> rfl

theorem set_varCountTotal : (b.set pos).1.varCountTotal = b.varCountTotal := by
  rw [set]
  split_ifs <;> rfl

/-- `set` leaves a bit that is set as it is. -/
theorem set_of_set (hset : b.bit pos = true) : (b.set pos).1 = b := by
  rw [set, hset, if_pos rfl]
  split_ifs <;> rfl

/-- The bits that are set after `set`. -/
theorem set_bit_iff {pos' : ℕ} : (b.set pos).1.bit pos' = true ↔
    pos < b.varCountTotal ∧ pos' = pos ∨ b.bit pos' = true := by
  by_cases hpos : pos < b.varCountTotal
  · by_cases hset : b.bit pos = true
    · rw [set_of_set hset]
      exact ⟨Or.inr, fun hor ↦ hor.elim (fun heq ↦ heq.2 ▸ hset) id⟩
    · obtain ⟨-, hbits, -⟩ := set_of_clear hpos (Bool.eq_false_iff.mpr hset)
      rw [hbits, and_iff_right hpos]
  · rw [set, if_neg hpos]
    exact ⟨Or.inr, fun hor ↦ hor.elim (fun heq ↦ absurd heq.1 hpos) id⟩

/-- `clear` at a set bit in range: it succeeds, clears that bit and counts it. -/
theorem clear_of_set (hpos : pos < b.varCountTotal) (hset : b.bit pos = true) :
    (b.clear pos).2 = true ∧
      (∀ pos', (b.clear pos).1.bit pos' = true ↔ pos' ≠ pos ∧ b.bit pos' = true) ∧
      (b.clear pos).1.varCountFree = b.varCountFree + 1 ∧
      (b.clear pos).1.varCountTotal = b.varCountTotal := by
  rw [clear, if_pos hpos, if_pos hset]
  refine ⟨rfl, fun pos' ↦ ?_, rfl, rfl⟩
  rw [bit_update]
  split_ifs with hbyte
  · refine (and_not_mask_getLsbD _ ⟨pos % 8, Nat.mod_lt _ (by decide)⟩
      ⟨pos' % 8, Nat.mod_lt _ (by decide)⟩).trans ?_
    rw [ne_eq, Fin.mk.injEq, bit_iff, hbyte]
    have hsame : pos' % 8 = pos % 8 ↔ pos' = pos := by omega
    rw [hsame]
  · have hne : pos' ≠ pos := fun heq ↦ hbyte (heq ▸ rfl)
    simp [hne]

/-! ### The zeroed bitmap -/

theorem count_zeroed_byte : ∀ free : ℕ, (List.range 8).foldl (fun free offset ↦
    if (0 : UInt8) &&& mask offset = 0 then free + 1 else free) free = free + 8 := by
  intro free
  simp [List.range_succ]

theorem construct_isSome {count : ℕ} (h : count % 8 = 0 ∧ count / 8 < 2 ^ 32)
    (buffer : ℕ → UInt8) : (construct count buffer).isSome = true := by
  rw [construct, if_pos h]
  rfl

/-- On a zeroed buffer the constructor counts every bit as free. -/
theorem construct_zeroed {count : ℕ} {b : Bitmap}
    (h : construct count (fun _ ↦ 0) = some b) :
    b.varCountTotal = count ∧ b.varCountFree = count ∧ ∀ pos, b.bit pos = false := by
  rw [construct] at h
  split_ifs at h with hcount
  obtain rfl := Option.some.inj h
  refine ⟨rfl, ?_, fun pos ↦ ?_⟩
  · have hbytes : ∀ n free : ℕ, (List.range n).foldl (fun free (_ : ℕ) ↦ free + 8) free
        = free + 8 * n := by
      intro n free
      induction n with
      | zero => rfl
      | succ n ih =>
        rw [List.range_succ, List.foldl_append, ih]
        exact (by omega : free + 8 * n + 8 = free + 8 * (n + 1))
    simp only [count_zeroed_byte, hbytes]
    omega
  · simp [bit]

end Bitmap

end SwitchDelta.Fs
