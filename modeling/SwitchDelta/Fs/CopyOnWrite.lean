import SwitchDelta.Fs.ClientChunks
import SwitchDelta.Fs.ExtentWrite

/-!
# Copy on write

Where a write covers only a part of a block, `extentWrite` copies the rest from the old block of the
file. After that and the loop of the server, each new block should hold the bytes of the request
within the written range and those of the old block elsewhere (`Preserved`), and no copy should read
from a block that the file does not have (`NamedSources`).

Two slips stand against this. The copy behind the end of the range goes to an address that is
computed from the first tuple instead of the last one. And the address of an old block is computed
with 32 bits, which are not enough for block ids from `2 ^ 20` on, and turn the mark of an absent
block, which the test for it does not recognize, into the address of block `2 ^ 20 - 1`.
-/

set_option autoImplicit false
set_option relaxedAutoImplicit false

namespace SwitchDelta.Fs

open Foundation

namespace ExtentWrite

variable (w : ExtentWrite)

/-! ### What the new blocks should hold -/

/-- The position in the file of a position in block `i` of the write. -/
def filePos (i p : ℕ) : ℕ := (w.off / BLOCK_SIZE.toNat + i) * BLOCK_SIZE.toNat + p

/-- The written range contains a position of block `i`. -/
def InRange (i p : ℕ) : Prop := w.off ≤ w.filePos i p ∧ w.filePos i p < w.off + w.size.toNat

instance (i p : ℕ) : Decidable (w.InRange i p) := inferInstanceAs (Decidable (_ ∧ _))

/-- The old block for block `i`. -/
def oldBlock (i : ℕ) : ℕ := (w.fei_in.tuple i).toNat

/-- A byte of the new block `i`: that of the request within the range, that of the old block
elsewhere. -/
def overwritten (data_buffer data : ℕ → UInt8) (i p : ℕ) : UInt8 :=
  if w.InRange i p then data_buffer (w.filePos i p - w.off)
  else data (w.oldBlock i * BLOCK_SIZE.toNat + p)

/-- The law of copy on write, for all data: the new blocks were free and are apart, they hold what
they should, and nothing else has changed. -/
def Preserved (t : Table Unit) : Prop :=
  ∀ (x x' : WriteState) (data_buffer : ℕ → UInt8), x.tableBlock = t →
    w.extentWrite x = some (x', true) →
      (x'.created.Nodup ∧ ∀ index ∈ x'.created, t.Free index) ∧
        (∀ i < w.blocks, ∀ p < BLOCK_SIZE.toNat,
          x'.fpi.write data_buffer x'.data (x'.newBlock i * BLOCK_SIZE.toNat + p) =
            w.overwritten data_buffer x.data i p) ∧
        ∀ a, a / BLOCK_SIZE.toNat ∉ x'.created → x'.fpi.write data_buffer x'.data a = x.data a

/-- When the law holds: there are enough free blocks, a write of several blocks ends with a block,
and the first block is written as a whole or its old block has an address of 32 bits. -/
def Keeps (t : Table Unit) : Prop :=
  w.blocks ≤ t.bitmapItems.countFree ∧ (w.blocks = 1 ∨ w.tail = 0) ∧
    (w.head = 0 ∧ BLOCK_SIZE ≤ w.size ∨ w.oldBlock 0 < 2 ^ 20)

/-! ### The merged data -/

section Merge

variable {w} {x x' : WriteState} {t : Table Unit} {new : List ℕ} {i p : ℕ} {data : ℕ → UInt8}

/-- A write to the block table succeeds. -/
theorem extentWrite_succeeds (h : ¬w.Rejected) (ht : x.tableBlock.BlockTable) :
    ∃ x', w.extentWrite x = some (x', true) := by
  obtain ⟨t', new, hcreate, -⟩ := ht.createAll w.blocks
  exact ⟨_, by rw [extentWrite_eq h, hcreate, Option.map_some]⟩

/-- The blocks that it creates are new exactly if there are enough of them. -/
theorem created_new_iff (ht : x.tableBlock.BlockTable) (h : w.extentWrite x = some (x', true)) :
    (x'.created.Nodup ∧ ∀ index ∈ x'.created, x.tableBlock.Free index) ↔
      w.blocks ≤ x.tableBlock.bitmapItems.countFree := by
  obtain ⟨-, t', hcreate, -⟩ := result_of_success h
  obtain ⟨t'', new, hcreate', -, -, hiff⟩ := ht.createAll w.blocks
  obtain ⟨-, hsame⟩ := Prod.mk.inj (Option.some.inj (hcreate.symm.trans hcreate'))
  rwa [(Prod.mk.inj hsame).1]

/-- The address of an old block has 32 bits. -/
theorem source_eq (i : ℕ) : w.source i = w.oldBlock i % 2 ^ 20 * BLOCK_SIZE.toNat := by
  have hblock : BLOCK_SIZE.toNat = 4096 := rfl
  have hsize : BLOCK_SIZE.toUInt32.toNat = 4096 := rfl
  rw [source, UInt32.toNat_mul, hsize, hblock, oldBlock]
  omega

/-- Where the range begins and ends: in its first block, and in its last one or with it. -/
theorem range_ends (h : ¬w.Rejected) :
    w.off = w.filePos 0 w.head ∧ w.head < BLOCK_SIZE.toNat ∧ w.tail < BLOCK_SIZE.toNat ∧
      w.off + w.size.toNat = if w.tail = 0 then w.filePos w.blocks 0
        else w.filePos (w.blocks - 1) w.tail := by
  have hblock : BLOCK_SIZE.toNat = 4096 := rfl
  have hsize := size_pos h
  have hend : w.off / BLOCK_SIZE.toNat + w.blocks =
      (w.off + w.size.toNat - 1) / BLOCK_SIZE.toNat + 1 := div_add_touched hsize
  have hpos := blocks_pos (w := w)
  rw [filePos, filePos, filePos, tail_eq h, head_eq]
  rw [hblock] at hend ⊢
  split_ifs <;> omega

/-- Where the last block is written as a whole, or is the first one, the range leaves nothing of the
other blocks. -/
theorem inRange_of_pos (h : ¬w.Rejected) (hkept : w.blocks = 1 ∨ w.tail = 0) (hpos : 0 < i)
    (hi : i < w.blocks) (hp : p < BLOCK_SIZE.toNat) : w.InRange i p := by
  have hblock : BLOCK_SIZE.toNat = 4096 := rfl
  obtain ⟨hfirst, hhead, -, hend⟩ := range_ends h
  have htail : w.tail = 0 := hkept.resolve_left (by omega)
  rw [if_pos htail, filePos] at hend
  rw [filePos] at hfirst
  rw [InRange, filePos]
  rw [hblock] at hfirst hhead hend hp ⊢
  omega

/-- What the range leaves of the first block is copied from its old block. -/
theorem merge_first (h : ¬w.Rejected) (hkept : w.blocks = 1 ∨ w.tail = 0)
    (hlength : new.length = w.blocks) (hp : p < BLOCK_SIZE.toNat) (hout : ¬w.InRange 0 p) :
    w.merge data new (new.getD 0 0 * BLOCK_SIZE.toNat + p) = data (w.source 0 + p) := by
  have hblock : BLOCK_SIZE.toNat = 4096 := rfl
  obtain ⟨hfirst, hhead, htail, hend⟩ := range_ends h
  have hpos := blocks_pos (w := w)
  rw [InRange, filePos, not_and_or] at hout
  cases new with
  | nil => exact absurd hlength hpos.ne
  | cons first rest =>
    rw [List.getD_cons_zero]
    unfold merge
    by_cases hone : w.blocks = 1
    · have hpart : w.size ≠ BLOCK_SIZE := by
        intro hwhole
        have hwhole := congrArg UInt64.toNat hwhole
        rw [hone] at hend
        rw [filePos] at hfirst
        rw [filePos, filePos] at hend
        rw [hblock] at hfirst hhead hend hp hout hwhole
        split_ifs at hend <;> omega
      rw [if_pos hone]
      dsimp only
      rw [if_pos hpart]
      exact copy_inside hp
    · have htail : w.tail = 0 := hkept.resolve_left hone
      rw [if_pos htail] at hend
      have hless : p < w.head := by
        rw [filePos] at hfirst hend
        rw [hblock] at hfirst hhead hend hp hout
        omega
      have hhead : w.head ≠ 0 := Nat.ne_zero_of_lt hless
      rw [if_neg hone, dataAfter, copyTail, copyHead, if_neg (not_not.mpr htail), if_pos hhead,
        ite_self]
      exact copy_inside hless

/-- Nothing is copied outside the first block. -/
theorem merge_other (hkept : w.blocks = 1 ∨ w.tail = 0) (hhead : w.head < BLOCK_SIZE.toNat)
    {a : ℕ} (ha : a / BLOCK_SIZE.toNat ≠ new.getD 0 0) : w.merge data new a = data a := by
  have hblock : BLOCK_SIZE.toNat = 4096 := rfl
  cases new with
  | nil =>
    unfold merge
    split_ifs <;> rfl
  | cons first rest =>
    rw [List.getD_cons_zero] at ha
    unfold merge
    by_cases hone : w.blocks = 1
    · rw [if_pos hone]
      dsimp only
      split_ifs with hpart
      · exact copy_outside (by rw [hblock] at hhead ha ⊢; omega)
      · rfl
    · have htail : w.tail = 0 := hkept.resolve_left hone
      rw [if_neg hone, dataAfter, copyTail, copyHead, if_neg (not_not.mpr htail), ite_self]
      split_ifs with hpart
      · exact copy_outside (by rw [hblock] at hhead ha ⊢; omega)
      · rfl

/-- The copy behind the end of a range of several blocks does not reach the end of its last
block. -/
theorem merge_last (hseveral : w.blocks ≠ 1) (hlength : new.length = w.blocks) (hnodup : new.Nodup)
    (hhead : w.head < BLOCK_SIZE.toNat) (htail : w.tail < BLOCK_SIZE.toNat) :
    w.merge data new
        (new.getD (w.blocks - 1) 0 * BLOCK_SIZE.toNat + (BLOCK_SIZE.toNat - 1)) =
      data (new.getD (w.blocks - 1) 0 * BLOCK_SIZE.toNat + (BLOCK_SIZE.toNat - 1)) := by
  have hblock : BLOCK_SIZE.toNat = 4096 := rfl
  have hpos := blocks_pos (w := w)
  have hlast : w.blocks - 1 < new.length := by omega
  have hapart : new.getD 0 0 ≠ new.getD (w.blocks - 1) 0 := fun heq ↦ by
    have hsame := getD_injOn hnodup (hlength ▸ hpos : 0 < new.length) hlast heq
    omega
  cases new with
  | nil => exact absurd hlength hpos.ne
  | cons first rest =>
    rw [List.getD_cons_zero] at hapart
    unfold merge
    have hall : rest.length + 1 = w.blocks := hlength
    rw [if_neg hseveral, dataAfter, if_pos hall, copyTail, copyHead]
    generalize (first :: rest).getD (w.blocks - 1) 0 = last at hapart
    rw [hblock] at hhead htail ⊢
    have hfirst : (if w.head ≠ 0 then copy data (first * 4096) (w.source 0) w.head else data)
        (last * 4096 + (4096 - 1)) = data (last * 4096 + (4096 - 1)) := by
      split_ifs with hpart
      · exact copy_outside (by omega)
      · rfl
    by_cases hpart : w.tail ≠ 0
    · rw [if_pos hpart, copy_outside (by omega)]
      exact hfirst
    · rw [if_neg hpart]
      exact hfirst

end Merge

/-! ### The loop of the server -/

section Loop

variable {w} {x y : WriteState} {new : List ℕ} {i p : ℕ}

/-- The block of the write that a byte of the range is in. -/
theorem blockOf_lt (h : ¬w.Rejected) {j : ℕ} (hj : j < w.size.toNat) :
    (w.off + j) / BLOCK_SIZE.toNat - w.off / BLOCK_SIZE.toNat < w.blocks := by
  have hend : w.off / BLOCK_SIZE.toNat + w.blocks =
      (w.off + w.size.toNat - 1) / BLOCK_SIZE.toNat + 1 := div_add_touched (size_pos h)
  have hle : (w.off + j) / BLOCK_SIZE.toNat ≤ (w.off + w.size.toNat - 1) / BLOCK_SIZE.toNat :=
    Nat.div_le_div_right (by omega)
  have hpos := blocks_pos (w := w)
  omega

theorem filePos_div (hp : p < BLOCK_SIZE.toNat) :
    w.filePos i p / BLOCK_SIZE.toNat = w.off / BLOCK_SIZE.toNat + i := by
  rw [filePos, Nat.add_comm, Nat.add_mul_div_right _ _ (by decide), Nat.div_eq_of_lt hp,
    Nat.zero_add]

theorem filePos_mod (hp : p < BLOCK_SIZE.toNat) : w.filePos i p % BLOCK_SIZE.toNat = p := by
  rw [filePos, Nat.mul_add_mod_self_right, Nat.mod_eq_of_lt hp]

/-- A position of a new block after the loop of the server. -/
theorem Result.write_block (hresult : Result w x new y) (h : ¬w.Rejected)
    (hlength : new.length = w.blocks) (hless : w.blocks < 2 ^ 32) (hnodup : new.Nodup)
    (hi : i < w.blocks) (hp : p < BLOCK_SIZE.toNat) (data_buffer data : ℕ → UInt8) :
    y.fpi.write data_buffer data (new.getD i 0 * BLOCK_SIZE.toNat + p) =
      if w.InRange i p then data_buffer (w.filePos i p - w.off)
      else data (new.getD i 0 * BLOCK_SIZE.toNat + p) := by
  have hdiv := filePos_div (w := w) (i := i) hp
  have hmod := filePos_mod (w := w) (i := i) hp
  split_ifs with hrange
  · have hpos : w.off + (w.filePos i p - w.off) = w.filePos i p := Nat.add_sub_cancel' hrange.1
    have hplace := hresult.write_place h hlength hless hnodup data_buffer data
      (Nat.sub_lt_left_of_lt_add hrange.1 hrange.2)
    rwa [locate, hpos, hdiv, hmod, Nat.add_sub_cancel_left] at hplace
  · refine hresult.write_other h hlength hless data_buffer data fun j hj heq ↦ hrange ?_
    have hquot : (new.getD i 0 * BLOCK_SIZE.toNat + p) / BLOCK_SIZE.toNat = new.getD i 0 := by
      rw [Nat.add_comm, Nat.add_mul_div_right _ _ (by decide), Nat.div_eq_of_lt hp, Nat.zero_add]
    have hrest : (new.getD i 0 * BLOCK_SIZE.toNat + p) % BLOCK_SIZE.toNat = p := by
      rw [Nat.mul_add_mod_self_right, Nat.mod_eq_of_lt hp]
    have hblock := congrArg (· / BLOCK_SIZE.toNat) heq
    have hoffset := congrArg (· % BLOCK_SIZE.toNat) heq
    rw [locate_div (by decide), hquot] at hblock
    rw [locate_mod, hrest] at hoffset
    -- the byte is in the same block at the same place
    have hindex := getD_injOn hnodup (hlength ▸ blockOf_lt h hj) (hlength ▸ hi) hblock
    have hle : w.off / BLOCK_SIZE.toNat ≤ (w.off + j) / BLOCK_SIZE.toNat :=
      Nat.div_le_div_right (Nat.le_add_right _ _)
    have hsame : w.off + j = w.filePos i p := by
      rw [← Nat.div_add_mod' (w.off + j) BLOCK_SIZE.toNat, hoffset, filePos]
      congr 2
      omega
    rw [InRange, ← hsame]
    omega

/-- The loop of the server stays within the new blocks. -/
theorem Result.write_outside (hresult : Result w x new y) (h : ¬w.Rejected)
    (hlength : new.length = w.blocks) (hless : w.blocks < 2 ^ 32) (data_buffer data : ℕ → UInt8)
    {a : ℕ} (ha : a / BLOCK_SIZE.toNat ∉ new) : y.fpi.write data_buffer data a = data a := by
  refine hresult.write_other h hlength hless data_buffer data fun j hj heq ↦ ha ?_
  have hbound : (w.off + j) / BLOCK_SIZE.toNat - w.off / BLOCK_SIZE.toNat < new.length :=
    hlength ▸ blockOf_lt h hj
  rw [← heq, locate_div (by decide), List.getD_eq_getElem _ _ hbound]
  exact List.getElem_mem hbound

end Loop

/-! ### The law of copy on write -/

section Law

variable {w} {t : Table Unit}

/-- The law from its condition. -/
theorem preserved_of_keeps (ht : t.BlockTable) (hblocks : w.blocks ≤ MAX_MESSAGE_BLOCK_COUNT.toNat)
    (hkeeps : w.Keeps t) : w.Preserved t := by
  rintro x x' data_buffer rfl hwrite
  obtain ⟨hroom, hkept, hfirst⟩ := hkeeps
  obtain ⟨h, -, -, hlength, hresult⟩ := result_of_success hwrite
  obtain ⟨hstart, hhead, -, -⟩ := range_ends h
  have hless : w.blocks < 2 ^ 32 := hblocks.trans_lt (by decide)
  have hnew := (created_new_iff ht hwrite).mpr hroom
  refine ⟨hnew, fun i hi p hp ↦ ?_, fun a ha ↦ ?_⟩
  · have hblock := hresult.write_block h hlength hless hnew.1 hi hp data_buffer x'.data
    rw [WriteState.newBlock, hblock, overwritten]
    refine ite_congr rfl (fun _ ↦ rfl) fun hout ↦ ?_
    obtain rfl : i = 0 := by
      by_contra hne
      exact hout (inRange_of_pos h hkept (Nat.pos_of_ne_zero hne) hi hp)
    have hold : w.oldBlock 0 < 2 ^ 20 := by
      refine hfirst.resolve_left fun hboth ↦ hout ?_
      obtain ⟨haligned, hwhole⟩ := hboth
      have hwhole := UInt64.le_iff_toNat_le.mp hwhole
      rw [haligned] at hstart
      rw [InRange, filePos]
      rw [filePos] at hstart
      have hB : BLOCK_SIZE.toNat = 4096 := rfl
      rw [hB] at hstart hwhole hp ⊢
      omega
    rw [hresult.data, merge_first h hkept hlength hp hout, source_eq, Nat.mod_eq_of_lt hold]
  · rw [hresult.write_outside h hlength hless data_buffer x'.data ha, hresult.data]
    refine merge_other hkept hhead fun heq ↦ ha ?_
    have hpos : 0 < x'.created.length := hlength ▸ blocks_pos
    rw [heq, List.getD_eq_getElem _ _ hpos]
    exact List.getElem_mem hpos

/-- Data with a single mark. -/
def marked (a : ℕ) : ℕ → UInt8 := Function.update (fun _ ↦ 0) a 1

theorem eq_of_marked {a a' : ℕ} (h : marked a a' = 1) : a' = a := by
  by_contra hne
  rw [marked, Function.update_of_ne hne] at h
  exact absurd h (by decide)

/-- Under the law, a mark on a byte of an old block outside the range comes into the new block. -/
theorem Preserved.merge_marked (hlaw : w.Preserved t) (ht : t.BlockTable) (h : ¬w.Rejected)
    (hblocks : w.blocks ≤ MAX_MESSAGE_BLOCK_COUNT.toNat) {i p : ℕ} (hi : i < w.blocks)
    (hp : p < BLOCK_SIZE.toNat) (hout : ¬w.InRange i p) :
    ∃ new : List ℕ, new.length = w.blocks ∧ new.Nodup ∧ (∀ index ∈ new, t.Free index) ∧
      w.merge (marked (w.oldBlock i * BLOCK_SIZE.toNat + p)) new
        (new.getD i 0 * BLOCK_SIZE.toNat + p) = 1 := by
  have hless : w.blocks < 2 ^ 32 := hblocks.trans_lt (by decide)
  obtain ⟨x', hwrite⟩ := extentWrite_succeeds (x := firstCall t
    (marked (w.oldBlock i * BLOCK_SIZE.toNat + p))) h ht
  obtain ⟨-, -, -, hlength, hresult⟩ := result_of_success hwrite
  obtain ⟨⟨hnodup, hfree⟩, hblock, -⟩ := hlaw _ x' (fun _ ↦ 0) rfl hwrite
  refine ⟨x'.created, hlength, hnodup, hfree, ?_⟩
  have hbyte := hblock i hi p hp
  rw [WriteState.newBlock, hresult.write_block h hlength hless hnodup hi hp, if_neg hout,
    overwritten, if_neg hout, hresult.data] at hbyte
  have hmark : marked (w.oldBlock i * BLOCK_SIZE.toNat + p)
      (w.oldBlock i * BLOCK_SIZE.toNat + p) = 1 := Function.update_self _ _ _
  exact hbyte.trans hmark

/-- The condition from the law. -/
theorem keeps_of_preserved (ht : t.BlockTable) (h : ¬w.Rejected)
    (hblocks : w.blocks ≤ MAX_MESSAGE_BLOCK_COUNT.toNat)
    (hold : ∀ i < w.blocks, t.InUse (w.oldBlock i)) (hlaw : w.Preserved t) : w.Keeps t := by
  have hB : BLOCK_SIZE.toNat = 4096 := rfl
  have hpos := blocks_pos (w := w)
  obtain ⟨hstart, hhead, htail, hend⟩ := range_ends h
  have hroom : w.blocks ≤ t.bitmapItems.countFree := by
    obtain ⟨x', hwrite⟩ := extentWrite_succeeds (x := firstCall t fun _ ↦ 0) h ht
    exact (created_new_iff (x := firstCall t fun _ ↦ 0) ht hwrite).mp
      (hlaw _ x' (fun _ ↦ 0) rfl hwrite).1
  have hkept : w.blocks = 1 ∨ w.tail = 0 := by
    by_contra hboth
    obtain ⟨hseveral, hpart⟩ := not_or.mp hboth
    rw [if_neg hpart] at hend
    have hout : ¬w.InRange (w.blocks - 1) (BLOCK_SIZE.toNat - 1) := by
      rw [InRange, hend, filePos, filePos]
      rw [hB] at htail ⊢
      omega
    obtain ⟨new, hlength, hnodup, hfree, hmarked⟩ :=
      hlaw.merge_marked ht h hblocks (Nat.sub_one_lt_of_lt hpos) (by decide) hout
    rw [merge_last hseveral hlength hnodup hhead htail] at hmarked
    have hsame : new.getD (w.blocks - 1) 0 = w.oldBlock (w.blocks - 1) := by
      have heq := eq_of_marked hmarked
      rw [hB] at heq
      omega
    have hbound : w.blocks - 1 < new.length := by omega
    have hmem : w.oldBlock (w.blocks - 1) ∈ new := by
      rw [← hsame, List.getD_eq_getElem _ _ hbound]
      exact List.getElem_mem hbound
    have hused := (hold _ (Nat.sub_one_lt_of_lt hpos)).2
    exact absurd hused (Bool.eq_false_iff.mp (hfree _ hmem).2)
  refine ⟨hroom, hkept, ?_⟩
  by_contra hboth
  obtain ⟨hpart, hfar⟩ := not_or.mp hboth
  -- a byte that the range leaves of the first block
  obtain ⟨p, hp, hout⟩ : ∃ p, p < BLOCK_SIZE.toNat ∧ ¬w.InRange 0 p := by
    by_cases haligned : w.head = 0
    · refine ⟨BLOCK_SIZE.toNat - 1, by decide, fun hrange ↦ hpart ⟨haligned, ?_⟩⟩
      rw [UInt64.le_iff_toNat_le]
      rw [InRange, filePos] at hrange
      rw [haligned, filePos] at hstart
      rw [hB] at hrange hstart ⊢
      omega
    · refine ⟨0, by decide, fun hrange ↦ haligned ?_⟩
      rw [InRange, filePos] at hrange
      rw [filePos] at hstart
      omega
  obtain ⟨new, hlength, -, -, hmarked⟩ := hlaw.merge_marked ht h hblocks hpos hp hout
  rw [merge_first h hkept hlength hp hout] at hmarked
  have heq := eq_of_marked hmarked
  rw [source_eq, hB] at heq
  omega

end Law

/-- Copy on write keeps the old data exactly if there are enough free blocks, a write of several
blocks ends with a block, and the first block is written as a whole or its old block is among the
first `2 ^ 20` ones. -/
theorem preserved_iff (t : Table Unit) (ht : t.BlockTable)
    (hblocks : w.blocks ≤ MAX_MESSAGE_BLOCK_COUNT.toNat)
    (hold : ∀ i < w.blocks, t.InUse (w.oldBlock i)) :
    w.Preserved t ↔ w.Rejected ∨ w.Keeps t := by
  by_cases h : w.Rejected
  · refine iff_of_true (fun x x' _ _ hwrite ↦ ?_) (Or.inl h)
    exact absurd h (result_of_success hwrite).1
  · rw [or_iff_right h]
    exact ⟨keeps_of_preserved ht h hblocks hold, preserved_of_keeps ht hblocks⟩

/-- A write within the first block of a file. -/
def withinOne : ExtentWrite where
  size := 100
  offset := 50
  fei_in := ⟨0, 1, UInt32.ofNat⟩

/-- It keeps the rest of the block. -/
theorem preserved_iff_one : ∃ t, eightBlocks 1 = some t ∧ withinOne.Preserved t := by
  have hroom : (eightBlocks 1).map (fun t ↦ t.bitmapItems.countFree) = some 7 := by decide +kernel
  have hbits : (eightBlocks 1).map (fun t ↦
      (decide (0 < t.bitmapItems.varCountTotal), t.bitmapItems.bit 0)) = some (true, true) := by
    decide +kernel
  obtain ⟨t, ht, hroom⟩ := Option.map_eq_some_iff.mp hroom
  rw [ht] at hbits
  obtain ⟨htotal, hbit⟩ := Prod.mk.inj (Option.some.inj hbits)
  have hone : withinOne.blocks = 1 := by decide +kernel
  refine ⟨t, ht, (preserved_iff withinOne t (eightBlocks_blockTable ht) (by decide +kernel)
    fun i hi ↦ ?_).mpr (Or.inr ⟨?_, Or.inl hone, Or.inr (by decide)⟩)⟩
  · obtain rfl : i = 0 := by omega
    exact ⟨of_decide_eq_true htotal, hbit⟩
  · rw [hone, hroom]
    decide

/-- A write across the end of a block loses the last byte of the second one. -/
theorem loses_last_byte : ∃ t, eightBlocks 2 = some t ∧
    (∀ i < acrossTwo.blocks, t.InUse (acrossTwo.oldBlock i)) ∧ ¬acrossTwo.Preserved t := by
  have hrun : (eightBlocks 2).map (fun t ↦ (
      (List.range acrossTwo.blocks).map (fun i ↦
        decide (acrossTwo.oldBlock i < t.bitmapItems.varCountTotal) &&
          t.bitmapItems.bit (acrossTwo.oldBlock i)),
      (acrossTwo.extentWrite (firstCall t (marked 8191))).map fun result ↦
        (result.2, result.1.fpi.write (fun _ ↦ 0) result.1.data
          (result.1.newBlock 1 * 4096 + 4095))))
      = some ([true, true], some (true, 0)) := by
    decide +kernel
  obtain ⟨t, ht, hrun⟩ := Option.map_eq_some_iff.mp hrun
  obtain ⟨hused, hwrite⟩ := Prod.mk.inj hrun
  refine ⟨t, ht, fun i hi ↦ ?_, fun hlaw ↦ ?_⟩
  · have hmem := List.mem_map_of_mem (f := fun i ↦
      decide (acrossTwo.oldBlock i < t.bitmapItems.varCountTotal) &&
        t.bitmapItems.bit (acrossTwo.oldBlock i)) (List.mem_range.mpr hi)
    rw [hused] at hmem
    have htrue : (decide (acrossTwo.oldBlock i < t.bitmapItems.varCountTotal) &&
        t.bitmapItems.bit (acrossTwo.oldBlock i)) = true := by simpa using hmem
    obtain ⟨hless, hbit⟩ := Bool.and_eq_true_iff.mp htrue
    exact ⟨of_decide_eq_true hless, hbit⟩
  · obtain ⟨⟨x', ok⟩, hwrite, heq⟩ := Option.map_eq_some_iff.mp hwrite
    obtain ⟨rfl, hbyte⟩ := Prod.mk.inj heq
    have hkept := (hlaw _ x' (fun _ ↦ 0) rfl hwrite).2.1 1 (by decide +kernel) 4095 (by decide)
    rw [show BLOCK_SIZE.toNat = 4096 from rfl, hbyte] at hkept
    change 0 = acrossTwo.overwritten (fun _ ↦ 0) (marked 8191) 1 4095 at hkept
    exact absurd hkept (by decide +kernel)

/-! ### What is copied -/

/-- The tuples name the old blocks as `nrfsWrite` should: by their index, or `UINT32_MAX` for a
block that is absent. -/
def Built (m : FileMeta) : Prop :=
  ∀ i < w.blocks, w.fei_in.tuple i = m.blockId (w.off / BLOCK_SIZE.toNat + i)

/-- The range leaves a part of block `i`. -/
def Partly (i : ℕ) : Prop := ∃ p < BLOCK_SIZE.toNat, ¬w.InRange i p

/-- Every range that is copied is inside the data area, and inside a block that the metadata
names. -/
def NamedSources (m : FileMeta) (t : Table Unit) : Prop :=
  ∀ (x x' : WriteState) (ok : Bool), x.tableBlock = t → w.extentWrite x = some (x', ok) →
    ∀ r ∈ x'.copies,
      r.1 + r.2 ≤ t.bitmapItems.varCountTotal * BLOCK_SIZE.toNat ∧
        ∃ b block_id, m.Names b block_id ∧ block_id.toNat * BLOCK_SIZE.toNat ≤ r.1 ∧
          r.1 + r.2 ≤ (block_id.toNat + 1) * BLOCK_SIZE.toNat

section Sources

variable {w} {m : FileMeta} {t : Table Unit} {new : List ℕ} {i : ℕ} {r : ℕ × ℕ}

/-- A part of the old block `i`, as far as its address has 32 bits. -/
def OfBlock (w : ExtentWrite) (i : ℕ) (r : ℕ × ℕ) : Prop :=
  w.source i ≤ r.1 ∧ r.1 + r.2 ≤ w.source i + BLOCK_SIZE.toNat ∧ 0 < r.2

/-- A write of one block copies the old one, if it leaves a part of it. -/
theorem partly_one_iff (h : ¬w.Rejected) (hone : w.blocks = 1) :
    w.Partly 0 ↔ w.size ≠ BLOCK_SIZE := by
  have hB : BLOCK_SIZE.toNat = 4096 := rfl
  obtain ⟨hstart, hhead, htail, hend⟩ := range_ends h
  rw [hone] at hend
  rw [filePos] at hstart
  rw [filePos, filePos] at hend
  constructor
  · rintro ⟨p, hp, hout⟩ hwhole
    have hwhole := congrArg UInt64.toNat hwhole
    rw [InRange, filePos] at hout
    rw [hB] at hstart hhead htail hend hp hout hwhole
    split_ifs at hend <;> omega
  · intro hpart
    have hless : w.size.toNat ≠ BLOCK_SIZE.toNat := fun heq ↦ hpart (UInt64.toNat_inj.mp heq)
    by_cases haligned : w.head = 0
    · refine ⟨BLOCK_SIZE.toNat - 1, by decide, ?_⟩
      rw [InRange, filePos]
      rw [hB] at hstart hend hless htail ⊢
      split_ifs at hend <;> omega
    · refine ⟨0, by decide, ?_⟩
      rw [InRange, filePos]
      omega

/-- The range may leave a part of the first and of the last block. -/
theorem partly_iff (h : ¬w.Rejected) (hi : i < w.blocks) :
    w.Partly i ↔ i = 0 ∧ w.head ≠ 0 ∨ i = w.blocks - 1 ∧ w.tail ≠ 0 := by
  have hB : BLOCK_SIZE.toNat = 4096 := rfl
  obtain ⟨hstart, hhead, htail, hend⟩ := range_ends h
  rw [filePos] at hstart
  rw [filePos, filePos] at hend
  constructor
  · rintro ⟨p, hp, hout⟩
    rw [InRange, filePos] at hout
    rw [hB] at hstart hhead htail hend hp hout
    split_ifs at hend <;> omega
  · rintro (⟨rfl, hpart⟩ | ⟨rfl, hpart⟩)
    · refine ⟨0, by decide, ?_⟩
      rw [InRange, filePos]
      omega
    · refine ⟨BLOCK_SIZE.toNat - 1, by decide, ?_⟩
      rw [if_neg hpart] at hend
      rw [InRange, filePos]
      rw [hB] at htail hend ⊢
      omega

/-- The ranges that are copied. -/
theorem mem_sources_iff (hlength : new.length = w.blocks) : r ∈ w.sources new ↔
    w.blocks = 1 ∧ w.size ≠ BLOCK_SIZE ∧ r = (w.source 0, BLOCK_SIZE.toNat) ∨
      w.blocks ≠ 1 ∧ (w.head ≠ 0 ∧ r = (w.source 0, w.head) ∨
        w.tail ≠ 0 ∧ r = (w.source (w.blocks - 1) + w.tail, BLOCK_SIZE.toNat - w.tail)) := by
  rw [sources]
  by_cases hone : w.blocks = 1
  · rw [if_pos hone, or_iff_left fun hboth ↦ hboth.1 hone, and_iff_right hone]
    split_ifs with hpart
    · rw [List.mem_singleton, and_iff_right hpart]
    · exact iff_of_false List.not_mem_nil fun hboth ↦ hpart hboth.1
  · rw [if_neg hone, or_iff_right fun hboth ↦ hone hboth.1, and_iff_right hone]
    cases new with
    | nil => exact absurd hlength (blocks_pos (w := w)).ne
    | cons first rest =>
      have hall : rest.length + 1 = w.blocks := hlength
      rw [sourcesAfter, if_pos hall, List.mem_append, headSources, tailSources]
      refine or_congr ?_ ?_
      · split_ifs with hhead
        · rw [List.mem_singleton, and_iff_right hhead]
        · exact iff_of_false List.not_mem_nil fun hboth ↦ hhead hboth.1
      · split_ifs with htail
        · rw [List.mem_singleton, and_iff_right htail]
        · exact iff_of_false List.not_mem_nil fun hboth ↦ htail hboth.1

/-- What is copied are parts of the old blocks that the range leaves a part of. -/
theorem exists_partly (h : ¬w.Rejected) (hlength : new.length = w.blocks)
    (hr : r ∈ w.sources new) : ∃ i < w.blocks, w.Partly i ∧ w.OfBlock i r := by
  have hpos := blocks_pos (w := w)
  obtain ⟨-, hhead, htail, -⟩ := range_ends h
  rcases (mem_sources_iff hlength).mp hr with ⟨hone, hpart, rfl⟩ | ⟨-, ⟨hpart, rfl⟩ | ⟨hpart, rfl⟩⟩
  · exact ⟨0, hpos, (partly_one_iff h hone).mpr hpart, le_rfl, le_rfl,
      (by decide : 0 < BLOCK_SIZE.toNat)⟩
  · refine ⟨0, hpos, (partly_iff h hpos).mpr (Or.inl ⟨rfl, hpart⟩), le_rfl, ?_,
      Nat.pos_of_ne_zero hpart⟩
    exact Nat.add_le_add_left hhead.le _
  · have hlast : w.blocks - 1 < w.blocks := Nat.sub_one_lt_of_lt hpos
    refine ⟨_, hlast, (partly_iff h hlast).mpr (Or.inr ⟨rfl, hpart⟩), Nat.le_add_right _ _, ?_,
      Nat.sub_pos_of_lt htail⟩
    dsimp only
    omega

/-- A part of each of them is copied. -/
theorem exists_source (h : ¬w.Rejected) (hlength : new.length = w.blocks) (hi : i < w.blocks)
    (hpart : w.Partly i) : ∃ r ∈ w.sources new, w.OfBlock i r := by
  obtain ⟨-, hhead, htail, -⟩ := range_ends h
  by_cases hone : w.blocks = 1
  · obtain rfl : i = 0 := by omega
    exact ⟨_, (mem_sources_iff hlength).mpr (Or.inl ⟨hone, (partly_one_iff h hone).mp hpart, rfl⟩),
      le_rfl, le_rfl, (by decide : 0 < BLOCK_SIZE.toNat)⟩
  · rcases (partly_iff h hi).mp hpart with ⟨rfl, hleft⟩ | ⟨rfl, hleft⟩
    · exact ⟨_, (mem_sources_iff hlength).mpr (Or.inr ⟨hone, Or.inl ⟨hleft, rfl⟩⟩), le_rfl,
        Nat.add_le_add_left hhead.le _, Nat.pos_of_ne_zero hleft⟩
    · refine ⟨_, (mem_sources_iff hlength).mpr (Or.inr ⟨hone, Or.inr ⟨hleft, rfl⟩⟩),
        Nat.le_add_right _ _, ?_, Nat.sub_pos_of_lt htail⟩
      dsimp only
      omega

/-- A part of an old block is inside the block with its number modulo `2 ^ 20`, and no other one. -/
theorem OfBlock.inside_iff (hr : w.OfBlock i r) (block_id : ℕ) :
    block_id * BLOCK_SIZE.toNat ≤ r.1 ∧ r.1 + r.2 ≤ (block_id + 1) * BLOCK_SIZE.toNat ↔
      block_id = w.oldBlock i % 2 ^ 20 := by
  have hB : BLOCK_SIZE.toNat = 4096 := rfl
  obtain ⟨hstart, hend, hpos⟩ := hr
  rw [source_eq] at hstart hend
  rw [hB] at hstart hend ⊢
  omega

end Sources

/-- `extentWrite` reads only from blocks that the metadata names exactly if that holds of each
touched block that is written in part, with the number that remains of its id modulo `2 ^ 20`. For an
absent block this is `2 ^ 20 - 1`. -/
theorem namedSources_iff (m : FileMeta) (t : Table Unit) (ht : t.BlockTable) (hbuilt : w.Built m)
    (hnamed : ∀ b block_id, m.Names b block_id →
      block_id.toNat < t.bitmapItems.varCountTotal) :
    w.NamedSources m t ↔ w.Rejected ∨ ∀ i < w.blocks, w.Partly i →
      ∃ b block_id, m.Names b block_id ∧
        block_id.toNat = (m.blockId (w.off / BLOCK_SIZE.toNat + i)).toNat % 2 ^ 20 := by
  have hB : BLOCK_SIZE.toNat = 4096 := rfl
  by_cases h : w.Rejected
  · refine iff_of_true (fun x x' ok _ hwrite r hr ↦ ?_) (Or.inl h)
    rw [extentWrite, if_pos h] at hwrite
    obtain ⟨rfl, -⟩ := Prod.mk.inj (Option.some.inj hwrite)
    exact absurd hr List.not_mem_nil
  rw [or_iff_right h]
  have hold (i : ℕ) (hi : i < w.blocks) :
      w.oldBlock i = (m.blockId (w.off / BLOCK_SIZE.toNat + i)).toNat :=
    congrArg UInt32.toNat (hbuilt i hi)
  constructor
  · intro hsources i hi hpart
    obtain ⟨x', hwrite⟩ := extentWrite_succeeds (x := firstCall t fun _ ↦ 0) h ht
    obtain ⟨-, -, -, hlength, hresult⟩ := result_of_success hwrite
    obtain ⟨r, hr, hpiece⟩ := exists_source h hlength hi hpart
    obtain ⟨-, b, block_id, hnames, hinside⟩ :=
      hsources _ x' true rfl hwrite r (hresult.copies ▸ hr)
    exact ⟨b, block_id, hnames, hold i hi ▸ (hpiece.inside_iff _).mp hinside⟩
  · rintro hparts x x' ok rfl hwrite r hr
    obtain ⟨x'', hsuccess⟩ := extentWrite_succeeds h ht
    obtain ⟨rfl, rfl⟩ := Prod.mk.inj (Option.some.inj (hwrite.symm.trans hsuccess))
    obtain ⟨-, -, -, hlength, hresult⟩ := result_of_success hwrite
    obtain ⟨i, hi, hpart, hpiece⟩ := exists_partly h hlength (hresult.copies ▸ hr)
    obtain ⟨b, block_id, hnames, heq⟩ := hparts i hi hpart
    have hinside := (hpiece.inside_iff _).mpr (heq.trans (congrArg (· % 2 ^ 20) (hold i hi).symm))
    refine ⟨hinside.2.trans ?_, b, block_id, hnames, hinside⟩
    exact Nat.mul_le_mul_right _ (hnamed b block_id hnames)

/-- The metadata of a file with a block 0. -/
def oneBlock : FileMeta where
  timeLastModified := 0
  count := 1
  size := 4096
  tuple := fun b ↦ ⟨UInt32.ofNat b, if b = 0 then 1 else 0⟩

/-- A write within this block copies it. -/
theorem namedSources_iff_one : ∃ t, eightBlocks 1 = some t ∧ withinOne.NamedSources oneBlock t := by
  have htotal : (eightBlocks 1).map (fun t ↦ t.bitmapItems.varCountTotal) = some 8 := by
    decide +kernel
  obtain ⟨t, ht, htotal⟩ := Option.map_eq_some_iff.mp htotal
  have hone : withinOne.blocks = 1 := by decide +kernel
  refine ⟨t, ht, (namedSources_iff withinOne oneBlock t (eightBlocks_blockTable ht)
    (fun i hi ↦ ?_) fun b block_id hnames ↦ ?_).mpr (Or.inr fun i hi _ ↦ ?_)⟩
  · obtain rfl : i = 0 := by omega
    decide +kernel
  · have hblock := hnames.2
    rw [FileMeta.block] at hblock
    split_ifs at hblock with hboth
    obtain rfl : b = 0 := Nat.lt_one_iff.mp hboth.1
    obtain rfl := Option.some.inj hblock
    rw [htotal]
    decide
  · obtain rfl : i = 0 := by omega
    exact ⟨0, 0, ⟨by decide, by decide +kernel⟩, by decide +kernel⟩

/-- The metadata of a new file. -/
def emptyFile : FileMeta where
  timeLastModified := 0
  count := 0
  size := 0
  tuple := fun _ ↦ ⟨0, 0⟩

/-- The same write to a new file. -/
def withinAbsent : ExtentWrite where
  size := 100
  offset := 50
  fei_in := ⟨0, 1, fun _ ↦ 0xFFFFFFFF⟩

/-- It copies block `2 ^ 20 - 1`, although the file has no block. -/
theorem copies_absent_block : ∃ t, eightBlocks 1 = some t ∧ withinAbsent.Built emptyFile ∧
    ¬withinAbsent.NamedSources emptyFile t := by
  have hrun : (eightBlocks 1).map (fun t ↦
      (withinAbsent.extentWrite (firstCall t fun _ ↦ 0)).map fun result ↦ result.1.copies) =
        some (some [(4294963200, 4096)]) := by
    decide +kernel
  obtain ⟨t, ht, hrun⟩ := Option.map_eq_some_iff.mp hrun
  obtain ⟨⟨x', ok⟩, hwrite, hcopies⟩ := Option.map_eq_some_iff.mp hrun
  refine ⟨t, ht, fun i _ ↦ rfl, fun hsources ↦ ?_⟩
  have hcopied : (4294963200, 4096) ∈ x'.copies := by
    dsimp only at hcopies
    rw [hcopies]
    exact List.mem_cons_self
  obtain ⟨-, b, block_id, ⟨-, hblock⟩, -⟩ := hsources _ x' ok rfl hwrite _ hcopied
  have hnone : emptyFile.block b = none := if_neg fun hboth ↦ absurd hboth.1 (Nat.not_lt_zero b)
  exact absurd (hnone.symm.trans hblock) (Option.some_ne_none block_id).symm

end ExtentWrite

end SwitchDelta.Fs
