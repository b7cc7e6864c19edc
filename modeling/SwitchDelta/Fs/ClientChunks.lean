import SwitchDelta.Foundation.ByteRange
import SwitchDelta.Fs.ReadPath

/-!
# The chunks of reads and writes

`nrfsWrite` and `nrfsRead` go through a range of a file in chunks of `size` bytes and send a request
for each. A request should carry the offset of its chunk and one block id for each block that the
chunk touches.

`nrfsWrite` computes the number of block ids with the wrong sign, so no request has the right one.
`nrfsRead` goes one block too far, and both send the offset of the first chunk with every request.
`chunks_cover` says when the requests are right all the same: a write if there is no request to
send, a read if one chunk is enough and the block behind it does not exist.
-/

set_option autoImplicit false
set_option relaxedAutoImplicit false

namespace SwitchDelta.Fs

open Foundation

/-! ### The requests of `nrfsWrite` -/

/-- The block id that `nrfsWrite` sends for a block of the file, or `UINT32_MAX` where the metadata
names none. -/
def FileMeta.blockId (m : FileMeta) (b : ℕ) : UInt32 := (m.block b).getD 0xFFFFFFFF

/-- A `DataBuffer`, without its data. A tuple that is `none` keeps what the send buffer held
before. -/
structure DataWriteReq where
  len : UInt64
  tuple : ℕ → Option UInt32
  size : UInt64
  offset : UInt64

/-- One round of `nrfsWrite`, with the blocks `b_id` and `e_id`, which are of type `int`. -/
structure WriteRound where
  b_id : Int32
  e_id : Int32
  req : DataWriteReq

/-- A round of `nrfsWrite`. The message has the offset of the first round. -/
def writeRound (m : FileMeta) (size offset : UInt64) (round : ℕ) : WriteRound :=
  let cur_offset := UInt64.ofNat round * size + offset
  let b_id := (cur_offset / BLOCK_SIZE).toUInt32.toInt32
  let e_id := ((cur_offset + size + BLOCK_SIZE - 1) / BLOCK_SIZE).toUInt32.toInt32
  let len := (b_id - e_id + 1).toInt64.toUInt64
  { b_id, e_id
    req := {
      len, size, offset
      tuple := fun j ↦
        if j < len.toNat then some (m.blockId (UInt32.ofNat j + b_id.toUInt32).toNat) else none } }

/-- The loop of `nrfsWrite` from a round on. There is no result where the loop over the block ids
runs over the end of the message; its index has 32 bits and does not reach a length beyond them. -/
def nrfsWriteFrom (m : FileMeta) (size offset : UInt64) : ℕ → ℕ → Option (List DataWriteReq)
  | _, 0 => some []
  | i, n + 1 =>
    if (writeRound m size offset i).e_id > MAX_FILE_EXTENT_COUNT.toUInt32.toInt32 then some []
    else if (writeRound m size offset i).req.len > MAX_MESSAGE_BLOCK_COUNT then none
    else (nrfsWriteFrom m size offset (i + 1) n).map fun reqs ↦
      (writeRound m size offset i).req :: reqs

/-- The size or the offset is not a multiple of `BLOCK_SIZE`, and `nrfsWrite` reads the metadata. -/
def Unaligned (size offset : UInt64) : Prop := size % BLOCK_SIZE ≠ 0 ∨ offset % BLOCK_SIZE ≠ 0

instance (size offset : UInt64) : Decidable (Unaligned size offset) :=
  inferInstanceAs (Decidable (_ ∨ _))

/-- The requests of `nrfsWrite`, for the metadata that it gets if it asks for it. -/
def nrfsWrite (m : FileMeta) (size offset : UInt64) (cnt : ℕ) : Option (List DataWriteReq) :=
  let file_meta := if Unaligned size offset then m else { m with count := 0 }
  if file_meta.count = MAX_FILE_EXTENT_COUNT then some []
  else nrfsWriteFrom file_meta size offset 0 cnt

/-! ### What the requests should be -/

/-- A request of `nrfsWrite` for the chunk at a position of the file. -/
structure WriteChunk (m : FileMeta) (size : UInt64) (pos : ℕ) (req : DataWriteReq) : Prop where
  offset_eq : req.offset.toNat = pos
  size_eq : req.size = size
  len_eq : req.len.toNat = touched BLOCK_SIZE.toNat pos size.toNat
  tuple_eq : ∀ k < touched BLOCK_SIZE.toNat pos size.toNat, ∃ block_id,
    req.tuple k = some block_id ∧
      (m.block (pos / BLOCK_SIZE.toNat + k) = some block_id ∨ block_id = 0xFFFFFFFF)

/-- The number of chunks that end within the first `MAX_FILE_EXTENT_COUNT` blocks. -/
def writeChunks (size offset : UInt64) (cnt : ℕ) : ℕ :=
  min cnt ((MAX_FILE_EXTENT_COUNT.toNat * BLOCK_SIZE.toNat - offset.toNat) / size.toNat)

/-- `nrfsWrite` sends one request for each chunk, up to `MAX_FILE_EXTENT_COUNT` blocks. -/
def ChunkedWrite (m : FileMeta) (size offset : UInt64) (cnt : ℕ) : Prop :=
  ∃ reqs, nrfsWrite m size offset cnt = some reqs ∧
    reqs.length = writeChunks size offset cnt ∧
    ∀ i req, reqs[i]? = some req → WriteChunk m size (offset.toNat + i * size.toNat) req

/-- The metadata names a data block for a block of the file. -/
def FileMeta.Names (m : FileMeta) (b : ℕ) (block_id : UInt32) : Prop :=
  b < MAX_FILE_EXTENT_COUNT.toNat ∧ m.block b = some block_id

/-- A request of `nrfsRead` for a piece of the file. -/
structure ReadChunk (m : FileMeta) (pos size : ℕ) (req : DataReadReq) : Prop where
  offset_eq : req.offset.toNat = pos
  size_eq : req.size.toNat = size
  len_eq : req.len = touched BLOCK_SIZE.toNat pos size
  fits : req.len ≤ MAX_MESSAGE_BLOCK_COUNT.toNat
  tuple_eq : ∀ k < touched BLOCK_SIZE.toNat pos size, ∃ block_id, req.tuple k = some block_id ∧
    m.Names (pos / BLOCK_SIZE.toNat + k) block_id

/-- The requests are for consecutive pieces of the file from a position to another one. -/
def Cover (m : FileMeta) : ℕ → ℕ → List DataReadReq → Prop
  | pos, stop, [] => stop ≤ pos
  | pos, stop, req :: reqs =>
    ∃ size, 0 < size ∧ pos + size ≤ stop ∧ ReadChunk m pos size req ∧ Cover m (pos + size) stop reqs

/-- `nrfsRead` asks for the range, as far as the file goes. -/
def ChunkedRead (m : FileMeta) (size offset : UInt64) (cnt : ℕ) : Prop :=
  Cover m offset.toNat (min (offset.toNat + cnt * size.toNat) m.size.toNat)
    (nrfsRead m size offset cnt)

/-! ### When they are -/

/-- The end of the first chunk in blocks, as far as its bits fit into an `int`. -/
def endBits (size offset : UInt64) : ℕ :=
  (offset.toNat + size.toNat + BLOCK_SIZE.toNat - 1) % 2 ^ 64 / BLOCK_SIZE.toNat % 2 ^ 32

/-- `nrfsWrite` sends no request and need not: there is no chunk, or the first one ends behind the
blocks of a file, and `nrfsWrite` takes the file for a directory or sees that the chunk is too
far. -/
def NoWrite (m : FileMeta) (size offset : UInt64) (cnt : ℕ) : Prop :=
  cnt = 0 ∨
    MAX_FILE_EXTENT_COUNT.toNat * BLOCK_SIZE.toNat < offset.toNat + size.toNat ∧
      (Unaligned size offset ∧ m.count = MAX_FILE_EXTENT_COUNT ∨
        MAX_FILE_EXTENT_COUNT.toNat < endBits size offset ∧ endBits size offset < 2 ^ 31)

/-- The number of bytes that the first chunk of a read has in the file. -/
def firstSize (m : FileMeta) (size offset : UInt64) : ℕ :=
  min size.toNat (m.size.toNat - offset.toNat)

/-- The number of blocks that the first chunk of a read touches. -/
def firstBlocks (m : FileMeta) (size offset : UInt64) : ℕ :=
  touched BLOCK_SIZE.toNat offset.toNat (firstSize m size offset)

/-- There is nothing to read, or one chunk is enough, its blocks exist and fit into a request, and
the block behind them does not exist. -/
def OneRead (m : FileMeta) (size offset : UInt64) (cnt : ℕ) : Prop :=
  cnt = 0 ∨ m.size.toNat ≤ offset.toNat ∨
    m.count ≠ MAX_FILE_EXTENT_COUNT ∧ offset.toNat + size.toNat < 2 ^ 64 ∧
      (cnt = 1 ∨ m.size.toNat ≤ offset.toNat + size.toNat) ∧
      firstBlocks m size offset ≤ MAX_MESSAGE_BLOCK_COUNT.toNat ∧
      (∀ k < firstBlocks m size offset, ∃ block_id,
        m.Names (offset.toNat / BLOCK_SIZE.toNat + k) block_id) ∧
      m.block (offset.toNat / BLOCK_SIZE.toNat + firstBlocks m size offset) = none

/-! ### The blocks of a chunk -/

section Blocks

variable {size offset : UInt64}

theorem size_toNat_pos (hsize : size ≠ 0) : 0 < size.toNat :=
  Nat.pos_of_ne_zero fun hzero ↦ hsize (UInt64.toNat_inj.mp hzero)

theorem first_block : offset / BLOCK_SIZE = UInt64.ofNat (offset.toNat / BLOCK_SIZE.toNat) := by
  have hlt := offset.toNat_lt
  have hle := Nat.div_le_self offset.toNat BLOCK_SIZE.toNat
  rw [← UInt64.toNat_inj, UInt64.toNat_div, UInt64.toNat_ofNat_of_lt' (show _ < 2 ^ 64 by omega)]

/-- The block behind a chunk within the blocks of a file. -/
theorem end_block (hpos : 0 < size.toNat)
    (hle : offset.toNat + size.toNat ≤ MAX_FILE_EXTENT_COUNT.toNat * BLOCK_SIZE.toNat) :
    (offset + size + BLOCK_SIZE - 1) / BLOCK_SIZE = UInt64.ofNat
      (offset.toNat / BLOCK_SIZE.toNat + touched BLOCK_SIZE.toNat offset.toNat size.toNat) := by
  have hblock : BLOCK_SIZE.toNat = 4096 := rfl
  have hmax : MAX_FILE_EXTENT_COUNT.toNat = 64 := rfl
  have hone : (1 : UInt64).toNat = 1 := rfl
  rw [div_add_touched hpos]
  rw [hblock, hmax] at hle
  have hsum : (offset + size + BLOCK_SIZE).toNat = offset.toNat + size.toNat + 4096 := by
    rw [UInt64.toNat_add, UInt64.toNat_add, hblock]
    omega
  have hlast : (offset + size + BLOCK_SIZE - 1).toNat = offset.toNat + size.toNat + 4095 := by
    rw [UInt64.toNat_sub_of_le, hsum, hone]
    · rfl
    · rw [UInt64.le_iff_toNat_le, hsum, hone]
      omega
  rw [← UInt64.toNat_inj, UInt64.toNat_div, hlast, hblock,
    UInt64.toNat_ofNat_of_lt' (show _ < 2 ^ 64 by omega)]
  omega

/-- A chunk within the blocks of a file ends at most behind the last of them. -/
theorem end_block_le (hpos : 0 < size.toNat) :
    offset.toNat + size.toNat ≤ MAX_FILE_EXTENT_COUNT.toNat * BLOCK_SIZE.toNat ↔
      offset.toNat / BLOCK_SIZE.toNat + touched BLOCK_SIZE.toNat offset.toNat size.toNat ≤
        MAX_FILE_EXTENT_COUNT.toNat := by
  have hblock : BLOCK_SIZE.toNat = 4096 := rfl
  have hmax : MAX_FILE_EXTENT_COUNT.toNat = 64 := rfl
  rw [div_add_touched hpos, hblock, hmax]
  omega

end Blocks

/-! ### Writes -/

section Writes

variable {m : FileMeta} {size offset : UInt64} {cnt : ℕ}

/-- The number of block ids is wrong for every chunk within the blocks of a file. -/
theorem len_ne : ∀ b e : Fin 65, b < e →
    ((UInt64.ofNat b).toUInt32.toInt32 - (UInt64.ofNat e).toUInt32.toInt32 +
      1).toInt64.toUInt64.toNat ≠ e.val - b.val := by
  decide +kernel

theorem not_gt_of_lt : ∀ e : Fin 65,
    ¬(UInt64.ofNat e).toUInt32.toInt32 > MAX_FILE_EXTENT_COUNT.toUInt32.toInt32 := by
  decide +kernel

/-- The first round, for a chunk within the blocks of a file. -/
theorem writeRound_zero (hsize : size ≠ 0)
    (hle : offset.toNat + size.toNat ≤ MAX_FILE_EXTENT_COUNT.toNat * BLOCK_SIZE.toNat) :
    ¬(writeRound m size offset 0).e_id > MAX_FILE_EXTENT_COUNT.toUInt32.toInt32 ∧
      (writeRound m size offset 0).req.len.toNat ≠
        touched BLOCK_SIZE.toNat offset.toNat size.toNat := by
  have hpos := size_toNat_pos hsize
  have hcur : UInt64.ofNat 0 * size + offset = offset := by simp
  have hbound := (end_block_le hpos).mp hle
  have hlt : offset.toNat / BLOCK_SIZE.toNat + touched BLOCK_SIZE.toNat offset.toNat size.toNat <
      65 := Nat.lt_succ_of_le hbound
  have hless : offset.toNat / BLOCK_SIZE.toNat <
      offset.toNat / BLOCK_SIZE.toNat + touched BLOCK_SIZE.toNat offset.toNat size.toNat :=
    Nat.lt_add_of_pos_right touched_pos
  refine ⟨?_, ?_⟩
  · rw [writeRound, hcur, end_block hpos hle]
    exact not_gt_of_lt ⟨_, hlt⟩
  · rw [writeRound, hcur, first_block, end_block hpos hle]
    have hne := len_ne ⟨_, hless.trans hlt⟩ ⟨_, hlt⟩ hless
    dsimp only at hne ⊢
    rwa [Nat.add_sub_cancel_left] at hne

/-- The value of an `int` with the bits of an unsigned number. -/
theorem toInt_toInt32 (bits : UInt32) : bits.toInt32.toInt =
    if 2 * bits.toNat < 2 ^ 32 then (bits.toNat : ℤ) else (bits.toNat : ℤ) - (2 ^ 32 : ℕ) :=
  BitVec.toInt_eq_toNat_cond bits.toBitVec

/-- The comparison of `e_id` is one of `int`s. -/
theorem e_id_gt_iff : (writeRound m size offset 0).e_id > MAX_FILE_EXTENT_COUNT.toUInt32.toInt32 ↔
    MAX_FILE_EXTENT_COUNT.toNat < endBits size offset ∧ endBits size offset < 2 ^ 31 := by
  have hcur : UInt64.ofNat 0 * size + offset = offset := by simp
  have hone : (1 : UInt64).toNat = 1 := rfl
  have hmax : MAX_FILE_EXTENT_COUNT.toUInt32.toInt32.toInt = 64 := by decide
  have hbits : ((offset + size + BLOCK_SIZE - 1) / BLOCK_SIZE).toUInt32.toNat =
      endBits size offset := by
    rw [UInt64.toNat_toUInt32, UInt64.toNat_div, UInt64.toNat_sub, UInt64.toNat_add,
      UInt64.toNat_add, hone, endBits]
    have hblock : BLOCK_SIZE.toNat = 4096 := rfl
    rw [hblock]
    omega
  have hlt : endBits size offset < 2 ^ 32 := Nat.mod_lt _ (by decide)
  have hint : (writeRound m size offset 0).e_id.toInt =
      if 2 * endBits size offset < 2 ^ 32 then (endBits size offset : ℤ)
      else (endBits size offset : ℤ) - (2 ^ 32 : ℕ) := by
    rw [writeRound, hcur, toInt_toInt32, hbits]
  have hcount : MAX_FILE_EXTENT_COUNT.toNat = 64 := rfl
  rw [gt_iff_lt, Int32.lt_iff_toInt_lt, hmax, hint, hcount]
  split_ifs <;> omega

/-- A write that sends a request has gone into the loop. -/
theorem nrfsWriteFrom_of_ne_nil {reqs : List DataWriteReq}
    (h : nrfsWrite m size offset cnt = some reqs) (hne : reqs ≠ []) :
    ∃ file_meta, nrfsWriteFrom file_meta size offset 0 cnt = some reqs := by
  rw [nrfsWrite] at h
  split_ifs at h with hunaligned hmarked hmarked
  · exact absurd (Option.some.inj h).symm hne
  · exact ⟨m, h⟩
  · exact absurd (Option.some.inj h).symm hne
  · exact ⟨{ m with count := 0 }, h⟩

/-- The rounds of a write that sends none are cut off at once. -/
theorem nrfsWriteFrom_eq_nil_iff (i n : ℕ) : nrfsWriteFrom m size offset i (n + 1) = some [] ↔
    (writeRound m size offset i).e_id > MAX_FILE_EXTENT_COUNT.toUInt32.toInt32 := by
  rw [nrfsWriteFrom]
  split_ifs with hstop hlong
  · exact iff_of_true rfl hstop
  · exact iff_of_false nofun hstop
  · refine iff_of_false (fun heq ↦ ?_) hstop
    obtain ⟨rest, -, hcons⟩ := Option.map_eq_some_iff.mp heq
    exact absurd hcons (List.cons_ne_nil _ _)

theorem nrfsWrite_eq_nil_iff (n : ℕ) : nrfsWrite m size offset (n + 1) = some [] ↔
    Unaligned size offset ∧ m.count = MAX_FILE_EXTENT_COUNT ∨
      MAX_FILE_EXTENT_COUNT.toNat < endBits size offset ∧ endBits size offset < 2 ^ 31 := by
  rw [nrfsWrite]
  by_cases hunaligned : Unaligned size offset
  · rw [if_pos hunaligned]
    by_cases hmarked : m.count = MAX_FILE_EXTENT_COUNT
    · rw [if_pos hmarked]
      exact iff_of_true rfl (Or.inl ⟨hunaligned, hmarked⟩)
    · rw [if_neg hmarked, nrfsWriteFrom_eq_nil_iff, e_id_gt_iff]
      exact (or_iff_right fun hboth ↦ hmarked hboth.2).symm
  · rw [if_neg hunaligned, if_neg (by decide : ¬(0 : UInt64) = MAX_FILE_EXTENT_COUNT),
      nrfsWriteFrom_eq_nil_iff, e_id_gt_iff]
    exact (or_iff_right fun hboth ↦ hunaligned hboth.1).symm

/-- The requests of a write are right only where there are none. -/
theorem chunkedWrite_iff (hsize : size ≠ 0) :
    ChunkedWrite m size offset cnt ↔ NoWrite m size offset cnt := by
  have hpos := size_toNat_pos hsize
  cases cnt with
  | zero =>
    refine iff_of_true ⟨[], ?_, ?_, nofun⟩ (Or.inl rfl)
    · rw [nrfsWrite, nrfsWriteFrom]
      exact ite_self _
    · exact (Nat.zero_min _).symm
  | succ n =>
    by_cases hnear : offset.toNat + size.toNat ≤ MAX_FILE_EXTENT_COUNT.toNat * BLOCK_SIZE.toNat
    · -- the first request is due, and its length is wrong
      have hdue : 0 < writeChunks size offset (n + 1) :=
        lt_min (Nat.succ_pos n) (Nat.div_pos (by omega) hpos)
      refine iff_of_false ?_ ?_
      · rintro ⟨reqs, hreqs, hlength, hchunk⟩
        have hne : reqs ≠ [] := by
          rintro rfl
          exact absurd hlength hdue.ne
        obtain ⟨file_meta, hfrom⟩ := nrfsWriteFrom_of_ne_nil hreqs hne
        obtain ⟨hgo, hlen⟩ := writeRound_zero (m := file_meta) hsize hnear
        rw [nrfsWriteFrom, if_neg hgo] at hfrom
        split_ifs at hfrom with hlong
        obtain ⟨rest, -, rfl⟩ := Option.map_eq_some_iff.mp hfrom
        have hfirst := (hchunk 0 _ rfl).len_eq
        rw [Nat.zero_mul, Nat.add_zero] at hfirst
        exact hlen hfirst
      · rintro (hzero | ⟨hfar, -⟩)
        · exact Nat.succ_ne_zero n hzero
        · exact absurd hnear (Nat.not_le.mpr hfar)
    · -- no request is due
      have hfar := Nat.not_le.mp hnear
      have hnone : writeChunks size offset (n + 1) = 0 := by
        rw [writeChunks, Nat.div_eq_of_lt (by omega), Nat.min_zero]
      have hiff : ChunkedWrite m size offset (n + 1) ↔
          nrfsWrite m size offset (n + 1) = some [] := by
        refine ⟨fun ⟨reqs, hreqs, hlength, _⟩ ↦ ?_, fun hreqs ↦
          ⟨[], hreqs, hnone.symm, nofun⟩⟩
        rw [hnone] at hlength
        rw [hreqs, List.length_eq_zero_iff.mp hlength]
      rw [hiff, nrfsWrite_eq_nil_iff, NoWrite]
      exact ⟨fun h ↦ Or.inr ⟨hfar, h⟩, fun h ↦ (h.resolve_left (Nat.succ_ne_zero n)).2⟩

end Writes

/-! ### Reads -/

section Reads

variable {m : FileMeta} {size offset : UInt64} {cnt : ℕ}

/-- A read that has to go on asks for its first chunk, and then for others if the file goes on
behind it, all with the offset of the first. -/
theorem nrfsRead_cons (hcount : m.count ≠ MAX_FILE_EXTENT_COUNT) (hoffset : offset < m.size)
    (n : ℕ) : ∃ rest, nrfsRead m size offset (n + 1) = dataReadReq m size offset 0 :: rest ∧
      (∀ req ∈ rest, req.offset = offset) ∧
      (rest = [] ↔ n = 0 ∨ ¬size + offset < m.size) := by
  have hzero : UInt64.ofNat 0 * size + offset = offset := by simp
  have hone : UInt64.ofNat 1 * size + offset = size + offset := by simp
  rw [nrfsRead, if_neg hcount, List.range_succ_eq_map, List.takeWhile_cons, hzero,
    if_pos (decide_eq_true hoffset), List.map_cons]
  refine ⟨_, rfl, fun req hreq ↦ ?_, ?_⟩
  · obtain ⟨round, -, rfl⟩ := List.mem_map.mp hreq
    rfl
  · rw [List.map_eq_nil_iff]
    cases n with
    | zero => exact iff_of_true rfl (Or.inl rfl)
    | succ n =>
      rw [List.range_succ_eq_map, List.map_cons, List.takeWhile_cons, Nat.succ_eq_add_one,
        Nat.zero_add, hone]
      by_cases hmore : size + offset < m.size
      · rw [if_pos (decide_eq_true hmore)]
        exact iff_of_false (List.cons_ne_nil _ _) fun h ↦
          h.elim (Nat.succ_ne_zero n) fun hnot ↦ hnot hmore
      · rw [if_neg fun h ↦ hmore (of_decide_eq_true h)]
        exact iff_of_true rfl (Or.inr hmore)

/-- The size of the first request. -/
theorem dataReadReq_size (hoffset : offset < m.size) :
    (dataReadReq m size offset 0).size.toNat =
      if offset.toNat + size.toNat < 2 ^ 64 then firstSize m size offset else size.toNat := by
  have hzero : UInt64.ofNat 0 * size + offset = offset := by simp
  have hless := UInt64.lt_iff_toNat_lt.mp hoffset
  have hsize := size.toNat_lt
  have hfile := m.size.toNat_lt
  have hsub : (m.size - offset).toNat = m.size.toNat - offset.toNat :=
    UInt64.toNat_sub_of_le _ _ (UInt64.le_iff_toNat_le.mpr hless.le)
  rw [dataReadReq, hzero]
  dsimp only
  by_cases hsum : offset.toNat + size.toNat < 2 ^ 64
  · have hadd : (size + offset).toNat = size.toNat + offset.toNat := by
      rw [UInt64.toNat_add]
      exact Nat.mod_eq_of_lt (by omega)
    rw [if_pos hsum, firstSize]
    by_cases hlong : size + offset > m.size
    · have hgt := UInt64.lt_iff_toNat_lt.mp hlong
      rw [if_pos hlong, hsub]
      omega
    · have hle := UInt64.le_iff_toNat_le.mp (UInt64.not_lt.mp hlong)
      rw [if_neg hlong]
      omega
  · have hlong : ¬size + offset > m.size := by
      intro hgt
      have hgt := UInt64.lt_iff_toNat_lt.mp hgt
      rw [UInt64.toNat_add] at hgt
      omega
    rw [if_neg hsum, if_neg hlong]

/-- The block ids of the first request go up to the block behind the chunk. -/
theorem dataReadReq_blocks (hpos : 0 < (dataReadReq m size offset 0).size.toNat)
    (hnear : offset.toNat / BLOCK_SIZE.toNat + touched BLOCK_SIZE.toNat offset.toNat
      (dataReadReq m size offset 0).size.toNat ≤ MAX_FILE_EXTENT_COUNT.toNat) :
    (∀ k ≤ touched BLOCK_SIZE.toNat offset.toNat (dataReadReq m size offset 0).size.toNat,
      (dataReadReq m size offset 0).tuple k = m.block (offset.toNat / BLOCK_SIZE.toNat + k)) ∧
    (dataReadReq m size offset 0).len =
      (List.range (touched BLOCK_SIZE.toNat offset.toNat
        (dataReadReq m size offset 0).size.toNat + 1)).countP fun k ↦
          (m.block (offset.toNat / BLOCK_SIZE.toNat + k)).isSome := by
  have hmax : MAX_FILE_EXTENT_COUNT.toNat = 64 := rfl
  have hle := (end_block_le hpos).mpr hnear
  rw [hmax] at hnear
  have hzero : UInt64.ofNat 0 * size + offset = offset := by simp
  have hb : (dataReadReq m size offset 0).b_id.toNat = offset.toNat / BLOCK_SIZE.toNat := by
    change ((UInt64.ofNat 0 * size + offset) / BLOCK_SIZE).toUInt32.toNat = _
    rw [hzero, first_block, UInt64.toUInt32_ofNat',
      UInt32.toNat_ofNat_of_lt' (show _ < 2 ^ 32 by omega)]
  have he : (dataReadReq m size offset 0).e_id.toNat = offset.toNat / BLOCK_SIZE.toNat +
      touched BLOCK_SIZE.toNat offset.toNat (dataReadReq m size offset 0).size.toNat := by
    change ((UInt64.ofNat 0 * size + offset + (dataReadReq m size offset 0).size + BLOCK_SIZE - 1) /
      BLOCK_SIZE).toUInt32.toNat = _
    rw [hzero, end_block hpos hle, UInt64.toUInt32_ofNat',
      UInt32.toNat_ofNat_of_lt' (show _ < 2 ^ 32 by omega)]
  have htuples : (dataReadReq m size offset 0).tuples =
      touched BLOCK_SIZE.toNat offset.toNat (dataReadReq m size offset 0).size.toNat + 1 := by
    have hone : (1 : UInt32).toNat = 1 := rfl
    rw [DataReadReq.tuples, UInt32.toNat_add, UInt32.toNat_sub_of_le, hb, he, hone]
    · omega
    · rw [UInt32.le_iff_toNat_le, hb, he]
      omega
  have htuple (k : ℕ) (hk : k ≤ touched BLOCK_SIZE.toNat offset.toNat
      (dataReadReq m size offset 0).size.toNat) :
      (dataReadReq m size offset 0).tuple k = m.block (offset.toNat / BLOCK_SIZE.toNat + k) := by
    rw [dataReadReq_tuple m size offset 0 (htuples ▸ Nat.lt_succ_of_le hk), DataReadReq.block,
      UInt32.toNat_add, hb, UInt32.toNat_ofNat_of_lt' (show _ < 2 ^ 32 by omega),
      Nat.mod_eq_of_lt (by omega), Nat.add_comm]
  refine ⟨htuple, ?_⟩
  change (List.range (dataReadReq m size offset 0).tuples).countP
    (fun k ↦ ((dataReadReq m size offset 0).tuple k).isSome) = _
  rw [htuples]
  refine List.countP_congr fun k hk ↦ ?_
  rw [htuple k (Nat.le_of_lt_succ (List.mem_range.mp hk))]

/-- A read that begins behind the file asks for nothing. -/
theorem nrfsRead_eq_nil (h : cnt = 0 ∨ m.size.toNat ≤ offset.toNat) :
    nrfsRead m size offset cnt = [] := by
  rw [nrfsRead]
  split_ifs with hcount
  · rfl
  · rcases h with rfl | hbehind
    · rfl
    · have hzero : UInt64.ofNat 0 * size + offset = offset := by simp
      have hnot : ¬offset < m.size := UInt64.not_lt.mpr (UInt64.le_iff_toNat_le.mpr hbehind)
      cases cnt with
      | zero => rfl
      | succ n =>
        rw [List.range_succ_eq_map, List.takeWhile_cons, hzero,
          if_neg fun h ↦ hnot (of_decide_eq_true h)]
        rfl

/-- The number of block ids of the first request is right if the block behind the chunk does not
exist. -/
theorem countP_succ_eq_iff {n b : ℕ} (hexist : ∀ k < n, ∃ block_id, m.Names (b + k) block_id) :
    (List.range (n + 1)).countP (fun k ↦ (m.block (b + k)).isSome) = n ↔
      m.block (b + n) = none := by
  have hall : (List.range n).countP (fun k ↦ (m.block (b + k)).isSome) = n := by
    have hlength : (List.range n).length = n := List.length_range
    refine (List.countP_eq_length.mpr fun k hk ↦ ?_).trans hlength
    obtain ⟨block_id, -, hblock⟩ := hexist k (List.mem_range.mp hk)
    rw [hblock]
    rfl
  rw [List.range_succ, List.countP_append, hall, List.countP_singleton]
  cases m.block (b + n) with
  | none => exact iff_of_true rfl rfl
  | some block_id => exact iff_of_false (Nat.succ_ne_self n) (Option.some_ne_none block_id)

/-- The first request of a read is right for the first piece of the file if its blocks exist and fit
into a request, and the block behind them does not exist. -/
theorem readChunk_iff (hoffset : offset < m.size) (hpos : 0 < firstSize m size offset)
    (hsum : offset.toNat + size.toNat < 2 ^ 64) :
    ReadChunk m offset.toNat (firstSize m size offset) (dataReadReq m size offset 0) ↔
      firstBlocks m size offset ≤ MAX_MESSAGE_BLOCK_COUNT.toNat ∧
        (∀ k < firstBlocks m size offset, ∃ block_id,
          m.Names (offset.toNat / BLOCK_SIZE.toNat + k) block_id) ∧
        m.block (offset.toNat / BLOCK_SIZE.toNat + firstBlocks m size offset) = none := by
  have hsize : (dataReadReq m size offset 0).size.toNat = firstSize m size offset := by
    rw [dataReadReq_size hoffset, if_pos hsum]
  have hblocks := @dataReadReq_blocks m size offset (hsize ▸ hpos)
  rw [hsize] at hblocks
  -- the last of the blocks is one of the file
  have hnear (hexist : ∀ k < firstBlocks m size offset, ∃ block_id,
      m.Names (offset.toNat / BLOCK_SIZE.toNat + k) block_id) :
      offset.toNat / BLOCK_SIZE.toNat + firstBlocks m size offset ≤
        MAX_FILE_EXTENT_COUNT.toNat := by
    have hfirst : 0 < firstBlocks m size offset := touched_pos
    obtain ⟨block_id, hless, -⟩ := hexist (firstBlocks m size offset - 1) (by omega)
    omega
  constructor
  · rintro ⟨-, -, hlen, hfits, htuple⟩
    have hexist : ∀ k < firstBlocks m size offset, ∃ block_id,
        m.Names (offset.toNat / BLOCK_SIZE.toNat + k) block_id := fun k hk ↦
      (htuple k hk).imp fun _ hboth ↦ hboth.2
    have hcount := (hblocks (hnear hexist)).2
    rw [hlen] at hfits hcount
    exact ⟨hfits, hexist, (countP_succ_eq_iff hexist).mp hcount.symm⟩
  · rintro ⟨hfits, hexist, hnone⟩
    obtain ⟨htuple, hcount⟩ := hblocks (hnear hexist)
    have hlen : (dataReadReq m size offset 0).len = firstBlocks m size offset :=
      hcount.trans ((countP_succ_eq_iff hexist).mpr hnone)
    refine ⟨rfl, hsize, hlen, hlen ▸ hfits, fun k hk ↦ ?_⟩
    obtain ⟨block_id, hnames⟩ := hexist k hk
    exact ⟨block_id, (htuple k hk.le).trans hnames.2, hnames⟩

/-- The requests of a read are right only where one is enough. -/
theorem chunkedRead_iff (hsize : size ≠ 0) :
    ChunkedRead m size offset cnt ↔ OneRead m size offset cnt := by
  have hpos := size_toNat_pos hsize
  rw [ChunkedRead]
  by_cases hnothing : cnt = 0 ∨ m.size.toNat ≤ offset.toNat
  · rw [nrfsRead_eq_nil hnothing, Cover]
    refine iff_of_true ?_ (or_assoc.mp (Or.inl hnothing))
    rcases hnothing with rfl | hbehind
    · rw [Nat.zero_mul]
      exact min_le_left _ _
    · exact (min_le_right _ _).trans hbehind
  obtain ⟨hcnt, hless⟩ := not_or.mp hnothing
  have hless := Nat.not_le.mp hless
  have hoffset : offset < m.size := UInt64.lt_iff_toNat_lt.mpr hless
  obtain ⟨n, rfl⟩ := Nat.exists_eq_succ_of_ne_zero hcnt
  have hmore : offset.toNat < min (offset.toNat + n.succ * size.toNat) m.size.toNat :=
    lt_min (Nat.lt_add_of_pos_right (Nat.mul_pos n.succ_pos hpos)) hless
  have hfirst : 0 < firstSize m size offset := lt_min hpos (Nat.sub_pos_of_lt hless)
  rw [OneRead, or_iff_right hcnt, or_iff_right (Nat.not_le.mpr hless)]
  by_cases hcount : m.count = MAX_FILE_EXTENT_COUNT
  · rw [nrfsRead, if_pos hcount, Cover]
    exact iff_of_false (Nat.not_le.mpr hmore) fun h ↦ h.1 hcount
  obtain ⟨rest, hreqs, hrest, hnil⟩ := @nrfsRead_cons m size offset hcount hoffset n
  rw [Nat.succ_eq_add_one, hreqs, Cover]
  have hend (hsum : offset.toNat + size.toNat < 2 ^ 64) :
      rest = [] ↔ n + 1 = 1 ∨ m.size.toNat ≤ offset.toNat + size.toNat := by
    rw [hnil, UInt64.lt_iff_toNat_lt, UInt64.toNat_add, Nat.mod_eq_of_lt (by omega)]
    omega
  constructor
  · rintro ⟨s, hs, hstop, hchunk, hcover⟩
    have hfile := m.size.toNat_lt
    -- a second request would have its own offset
    have hlast : rest = [] := by
      cases rest with
      | nil => rfl
      | cons req rest =>
        obtain ⟨s', -, -, hnext, -⟩ := hcover
        have hsame := hnext.offset_eq
        rw [hrest req List.mem_cons_self] at hsame
        omega
    have hsum : offset.toNat + size.toNat < 2 ^ 64 := by
      by_contra hwrap
      have hwhole := hchunk.size_eq
      rw [dataReadReq_size hoffset, if_neg hwrap] at hwhole
      omega
    have hpiece := hchunk.size_eq
    rw [dataReadReq_size hoffset, if_pos hsum] at hpiece
    subst hpiece
    exact ⟨hcount, hsum, (hend hsum).mp hlast, (readChunk_iff hoffset hfirst hsum).mp hchunk⟩
  · rintro ⟨-, hsum, hone, hchunk⟩
    rw [(hend hsum).mpr hone]
    have hmul : (n + 1) * size.toNat = n * size.toNat + size.toNat := Nat.succ_mul _ _
    have hcover : min (offset.toNat + (n + 1) * size.toNat) m.size.toNat =
        offset.toNat + firstSize m size offset := by
      rw [firstSize]
      rcases hone with hone | hshort
      · obtain rfl : n = 0 := Nat.succ.inj hone
        omega
      · omega
    exact ⟨_, hfirst, hcover.ge, (readChunk_iff hoffset hfirst hsum).mpr hchunk, hcover.le⟩

end Reads

/-! ### Both -/

/-- The requests of `nrfsWrite` cover the written range exactly if there are none to send, and those
of `nrfsRead` the range that is read exactly if one is enough and the block behind its chunk does
not exist. -/
theorem chunks_cover (m : FileMeta) (size offset : UInt64) (cnt : ℕ) (hsize : size ≠ 0) :
    (ChunkedWrite m size offset cnt ↔ NoWrite m size offset cnt) ∧
      (ChunkedRead m size offset cnt ↔ OneRead m size offset cnt) :=
  ⟨chunkedWrite_iff hsize, chunkedRead_iff hsize⟩

/-- A file of two blocks. -/
def twoBlocks : FileMeta where
  timeLastModified := 0
  count := 2
  size := 8192
  tuple := fun b ↦ ⟨UInt32.ofNat b, if b < 2 then 1 else 0⟩

/-- The requests for its second block. -/
theorem chunks_cover_second : (ChunkedWrite twoBlocks 4096 4096 1 ↔ NoWrite twoBlocks 4096 4096 1) ∧
    ChunkedRead twoBlocks 4096 4096 1 := by
  obtain ⟨hwrite, hread⟩ := chunks_cover twoBlocks 4096 4096 1 (by decide)
  refine ⟨hwrite, hread.mpr (Or.inr (Or.inr ?_))⟩
  refine ⟨by decide, by decide, Or.inl rfl, by decide +kernel, fun k hk ↦ ?_, by decide +kernel⟩
  obtain rfl : k = 0 := Nat.lt_one_iff.mp (hk.trans_eq (by decide +kernel))
  exact ⟨1, by decide +kernel, by decide +kernel⟩

/-- The request to write its first block names no block at all, and a read of both blocks in two
chunks asks for the block behind the first chunk too. -/
theorem chunks_miss : ¬ChunkedWrite twoBlocks 4096 0 1 ∧ ¬ChunkedRead twoBlocks 4096 0 2 := by
  refine ⟨fun ⟨reqs, hreqs, _, hchunk⟩ ↦ ?_, fun hcover ↦ ?_⟩
  · have hrun : (nrfsWrite twoBlocks 4096 0 1).map (List.map fun req ↦ req.len.toNat) =
        some [0] := by decide +kernel
    rw [hreqs] at hrun
    obtain ⟨req, hget, hlen⟩ := List.map_eq_singleton_iff.mp (Option.some.inj hrun)
    rw [hget] at hchunk
    have hwrong := (hchunk 0 req rfl).len_eq
    rw [hlen] at hwrong
    exact absurd hwrong (by decide +kernel)
  · have hrun : (nrfsRead twoBlocks 4096 0 2).map (fun req ↦ (req.size.toNat, req.len)) =
        [(4096, 2), (4096, 1)] := by decide +kernel
    cases hreqs : nrfsRead twoBlocks 4096 0 2 with
    | nil => rw [hreqs] at hrun; cases hrun
    | cons req rest =>
      rw [hreqs, List.map_cons] at hrun
      obtain ⟨hsize, hlen⟩ := Prod.mk.inj (List.cons.inj hrun).1
      rw [ChunkedRead, hreqs] at hcover
      obtain ⟨s, -, -, hchunk, -⟩ := hcover
      obtain rfl : 4096 = s := hsize.symm.trans hchunk.size_eq
      exact absurd (hlen.symm.trans hchunk.len_eq) (by decide +kernel)

end SwitchDelta.Fs
