import SwitchDelta.Fs.ExtentWrite

/-!
# `extentRead`

A `kEnumReadLog` names the data blocks of a range of a file. `extentRead` describes in a
`file_pos_info` where the pieces of the range are, and the loop of the server copies them into the
reply. This is the way back from `extentWrite`.

`extentRead` takes the first block for every piece, computes its address with 32 bits, gives the
only piece of a range inside a block a wrong size, and does not set the number of pieces, which the
server has not set either. `describes_iff` says what is left: what the server happens to have on its
stack is the right number, and all pieces are in the first block.
-/

set_option autoImplicit false
set_option relaxedAutoImplicit false

namespace SwitchDelta.Fs

open Foundation

/-- The arguments of `extentRead`. -/
structure ExtentRead where
  size : UInt64
  offset : UInt64
  fei : FileExtentInfo

namespace ExtentRead

variable (r : ExtentRead)

/-- `offset % BLOCK_SIZE`. -/
def head : ℕ := (r.offset % BLOCK_SIZE).toNat

/-- `(offset + size) % BLOCK_SIZE`. -/
def tail : ℕ := ((r.offset + r.size) % BLOCK_SIZE).toNat

/-- `fei->tuple[0].block_id * BLOCK_SIZE`. The id has 32 bits, and so has the product. -/
def source : ℕ := (r.fei.tuple 0 * BLOCK_SIZE.toUInt32).toNat

/-- The tuple that the loop gives block `i`. -/
def tupleAt (i : ℕ) : FilePosTuple :=
  let tuple : FilePosTuple :=
    if i = 0 ∧ r.head ≠ 0 then ⟨r.source + r.head, BLOCK_SIZE.toNat - r.head⟩
    else ⟨r.source, BLOCK_SIZE.toNat⟩
  if i = (r.fei.len - 1).toNat ∧ r.tail ≠ 0 then { tuple with size := r.tail } else tuple

/-- The body of the loop. -/
def readBlock (fpi : FilePosInfo) (i : ℕ) : FilePosInfo :=
  { fpi with tuple := Function.update fpi.tuple i (r.tupleAt i) }

/-- `FileSystem::extentRead`. -/
def extentRead (fpi : FilePosInfo) : FilePosInfo :=
  (List.range r.fei.len.toNat).foldl r.readBlock fpi

/-- The first position of the range. -/
def off : ℕ := r.offset.toNat

/-- The number of blocks that the range touches. -/
def blocks : ℕ := touched BLOCK_SIZE.toNat r.off r.size.toNat

/-- The data block for block `i` of the range. -/
def block (i : ℕ) : ℕ := (r.fei.tuple i).toNat

/-! ### The law -/

/-- What `extentRead` should make of the `file_pos_info` of the server, for the blocks of the range
in order: a piece in each block, which together have the bytes of the range. -/
structure Describes (fpi : FilePosInfo) : Prop where
  len : (r.extentRead fpi).len.toNat = r.blocks
  inside : ∀ i < r.blocks, r.block i * BLOCK_SIZE.toNat ≤ ((r.extentRead fpi).tuple i).offset ∧
    ((r.extentRead fpi).tuple i).offset + ((r.extentRead fpi).tuple i).size ≤
      (r.block i + 1) * BLOCK_SIZE.toNat
  bytes : ∀ data : ℕ → UInt8, (r.extentRead fpi).read data =
    (List.range r.size.toNat).map fun j ↦ data (locate BLOCK_SIZE.toNat r.off r.block j)

/-- What has been written is read back. -/
def ReadsBack (fpi : FilePosInfo) : Prop :=
  ∀ (fei_in : FileExtentInfo) (x x' : WriteState) (data_buffer : ℕ → UInt8),
    ExtentWrite.extentWrite ⟨r.size, r.offset, fei_in⟩ x = some (x', true) →
    x.tableBlock.BlockTable → x'.created.Nodup → x'.fei_out.len = r.fei.len →
    (∀ i < r.blocks, x'.fei_out.tuple i = r.fei.tuple i) →
      (r.extentRead fpi).read (x'.fpi.write data_buffer x'.data) =
        (List.range r.size.toNat).map data_buffer

/-- When the law holds: the server has the right number of pieces, all blocks are the first one,
whose address has 32 bits, and a range inside a block begins or ends with it. -/
def Fits (fpi : FilePosInfo) : Prop :=
  fpi.len.toNat = r.blocks ∧ r.block 0 < 2 ^ 20 ∧ (∀ i < r.blocks, r.block i = r.block 0) ∧
    (r.blocks = 1 → r.head = 0 ∨ r.tail = 0)

section

variable {r} {fpi : FilePosInfo} {i : ℕ}

theorem extentRead_eq (n : ℕ) : (List.range n).foldl r.readBlock fpi =
    { fpi with tuple := fun i ↦ if i < n then r.tupleAt i else fpi.tuple i } := by
  induction n with
  | zero => rfl
  | succ n ih =>
    rw [List.range_succ, List.foldl_append, ih, List.foldl_cons, List.foldl_nil, readBlock]
    refine congrArg (FilePosInfo.mk fpi.len) (funext fun i ↦ ?_)
    by_cases hi : i = n
    · subst hi
      rw [Function.update_self, if_pos (Nat.lt_succ_self i)]
    · rw [Function.update_of_ne hi]
      exact if_congr (by omega) rfl rfl

theorem extentRead_len : (r.extentRead fpi).len = fpi.len := by
  rw [extentRead, extentRead_eq]

theorem extentRead_tuple (hlen : r.fei.len.toNat = r.blocks) (hi : i < r.blocks) :
    (r.extentRead fpi).tuple i = r.tupleAt i := by
  rw [extentRead, extentRead_eq, hlen]
  exact if_pos hi

/-! ### The pieces -/

theorem size_pos (hsize : r.size ≠ 0) : 0 < r.size.toNat :=
  Nat.pos_of_ne_zero fun hzero ↦ hsize (UInt64.toNat_inj.mp hzero)

theorem head_eq : r.head = r.off % BLOCK_SIZE.toNat := by
  rw [head, UInt64.toNat_mod, off]

/-- An overflow of 64 bits does not change the place in a block. -/
theorem tail_eq : r.tail = (r.off + r.size.toNat) % BLOCK_SIZE.toNat := by
  have hB : BLOCK_SIZE.toNat = 4096 := rfl
  rw [tail, UInt64.toNat_mod, UInt64.toNat_add, off, hB]
  omega

/-- The address of the first block has 32 bits. -/
theorem source_eq : r.source = r.block 0 % 2 ^ 20 * BLOCK_SIZE.toNat := by
  have hB : BLOCK_SIZE.toNat = 4096 := rfl
  have hsize : BLOCK_SIZE.toUInt32.toNat = 4096 := rfl
  rw [source, UInt32.toNat_mul, hsize, hB, block]
  omega

theorem last_eq (hlen : r.fei.len.toNat = r.blocks) : (r.fei.len - 1).toNat = r.blocks - 1 := by
  have hone : (1 : UInt64).toNat = 1 := rfl
  have hpos : 0 < r.blocks := touched_pos
  rw [UInt64.toNat_sub_of_le _ _ (UInt64.le_iff_toNat_le.mpr (by omega)), hlen, hone]

/-- A tuple begins in the first block, at the place where the piece begins. -/
theorem tupleAt_offset :
    (r.tupleAt i).offset = r.source + if i = 0 then r.head else 0 := by
  rw [tupleAt]
  split_ifs <;> dsimp only <;> omega

/-- No tuple is empty. -/
theorem tupleAt_size_pos : 0 < (r.tupleAt i).size := by
  have hB : BLOCK_SIZE.toNat = 4096 := rfl
  have hhead : r.head < BLOCK_SIZE.toNat := head_eq ▸ Nat.mod_lt _ (by decide)
  rw [tupleAt]
  split_ifs with hboth hlast hlast <;> dsimp only <;> omega

/-- The tuples are the pieces of the range in the first block. -/
theorem tupleAt_eq (hsize : r.size ≠ 0) (hlen : r.fei.len.toNat = r.blocks) (hi : i < r.blocks)
    (hfirst : r.block 0 < 2 ^ 20) (hone : r.blocks = 1 → r.head = 0 ∨ r.tail = 0) :
    ((r.tupleAt i).offset, (r.tupleAt i).size) =
      piece BLOCK_SIZE.toNat r.off r.size.toNat (fun _ ↦ r.block 0) i := by
  have hB : BLOCK_SIZE.toNat = 4096 := rfl
  have hpos := size_pos hsize
  have hend : r.off / BLOCK_SIZE.toNat + r.blocks =
      (r.off + r.size.toNat - 1) / BLOCK_SIZE.toNat + 1 := div_add_touched hpos
  rw [tail_eq, head_eq] at hone
  rw [tupleAt, last_eq hlen, tail_eq, head_eq, source_eq, Nat.mod_eq_of_lt hfirst, piece, mark,
    mark]
  rw [hB] at hend hone ⊢
  split_ifs <;> refine Prod.ext ?_ ?_ <;> dsimp only <;> omega

/-- The ranges that the loop of the server goes through. -/
theorem ranges_eq (hsize : r.size ≠ 0) (hlen : r.fei.len.toNat = r.blocks) (hfits : r.Fits fpi) :
    (r.extentRead fpi).ranges =
      pieces BLOCK_SIZE.toNat r.off r.size.toNat fun _ ↦ r.block 0 := by
  obtain ⟨hset, hfirst, -, hone⟩ := hfits
  rw [FilePosInfo.ranges, pieces, extentRead_len, hset]
  refine List.map_congr_left fun i hi ↦ ?_
  rw [extentRead_tuple hlen (List.mem_range.mp hi)]
  exact tupleAt_eq hsize hlen (List.mem_range.mp hi) hfirst hone

/-! ### The law -/

theorem blockOf_lt (hsize : r.size ≠ 0) {j : ℕ} (hj : j < r.size.toNat) :
    (r.off + j) / BLOCK_SIZE.toNat - r.off / BLOCK_SIZE.toNat < r.blocks := by
  have hend : r.off / BLOCK_SIZE.toNat + r.blocks =
      (r.off + r.size.toNat - 1) / BLOCK_SIZE.toNat + 1 := div_add_touched (size_pos hsize)
  have hle : (r.off + j) / BLOCK_SIZE.toNat ≤ (r.off + r.size.toNat - 1) / BLOCK_SIZE.toNat :=
    Nat.div_le_div_right (by omega)
  have hpos : 0 < r.blocks := touched_pos
  omega

theorem describes_of_fits (hsize : r.size ≠ 0) (hlen : r.fei.len.toNat = r.blocks)
    (hfits : r.Fits fpi) : r.Describes fpi := by
  have hB : 0 < BLOCK_SIZE.toNat := by decide
  have hpos := size_pos hsize
  have hranges := ranges_eq hsize hlen hfits
  obtain ⟨hset, hfirst, hsame, hone⟩ := hfits
  refine ⟨(congrArg UInt32.toNat extentRead_len).trans hset, fun i hi ↦ ?_, fun data ↦ ?_⟩
  · obtain ⟨hoffset, hlength⟩ := Prod.mk.inj (tupleAt_eq hsize hlen hi hfirst hone)
    rw [extentRead_tuple hlen hi, hoffset, hlength, hsame i hi]
    have hlo : (r.off / BLOCK_SIZE.toNat + i) * BLOCK_SIZE.toNat ≤
        mark BLOCK_SIZE.toNat r.off r.size.toNat i := block_le_mark hB hpos hi
    have hhi : mark BLOCK_SIZE.toNat r.off r.size.toNat (i + 1) ≤
        (r.off / BLOCK_SIZE.toNat + i + 1) * BLOCK_SIZE.toNat := mark_succ_le hB
    have hmono : mark BLOCK_SIZE.toNat r.off r.size.toNat i ≤
        mark BLOCK_SIZE.toNat r.off r.size.toNat (i + 1) := mark_mono (Nat.le_succ i)
    rw [Nat.succ_mul] at hhi ⊢
    dsimp only
    omega
  · rw [FilePosInfo.read, hranges, gather_eq_map data 0, cells_pieces hB hpos, List.map_map]
    refine List.map_congr_left fun j hj ↦ ?_
    have hindex := hsame _ (blockOf_lt hsize (List.mem_range.mp hj))
    rw [locate, hindex]
    rfl

/-- A tuple inside a block begins in it, so it is in the block that the address is in. -/
theorem fits_of_describes (hsize : r.size ≠ 0) (hlen : r.fei.len.toNat = r.blocks)
    (h : r.Describes fpi) : r.Fits fpi := by
  have hB : BLOCK_SIZE.toNat = 4096 := rfl
  have hblocks : 0 < r.blocks := touched_pos
  have hhead : r.head < BLOCK_SIZE.toNat := head_eq ▸ Nat.mod_lt _ (by decide)
  have hinside (i : ℕ) (hi : i < r.blocks) : r.block i = r.block 0 % 2 ^ 20 := by
    obtain ⟨hlo, hhi⟩ := h.inside i hi
    rw [extentRead_tuple hlen hi, tupleAt_offset, source_eq] at hlo hhi
    have hpos := tupleAt_size_pos (r := r) (i := i)
    rw [hB] at hlo hhi hhead
    split_ifs at hlo hhi <;> omega
  have hfirst := hinside 0 hblocks
  refine ⟨extentRead_len ▸ h.len, by omega, fun i hi ↦ (hinside i hi).trans hfirst.symm,
    fun hone ↦ ?_⟩
  -- the only tuple would have the wrong size
  by_contra hboth
  obtain ⟨hnot, hpart⟩ := not_or.mp hboth
  have hread := congrArg List.length (h.bytes fun _ ↦ 0)
  rw [List.length_map, List.length_range, FilePosInfo.read, FilePosInfo.ranges, h.len, hone,
    List.range_one, List.map_singleton, gather, List.flatMap_singleton, List.length_map,
    List.length_range, extentRead_tuple hlen hblocks, tupleAt, last_eq hlen, hone,
    if_pos ⟨rfl, hpart⟩] at hread
  have hend : r.off / BLOCK_SIZE.toNat + r.blocks =
      (r.off + r.size.toNat - 1) / BLOCK_SIZE.toNat + 1 := div_add_touched (size_pos hsize)
  have hpos := size_pos hsize
  dsimp only at hread
  rw [tail_eq] at hread hpart
  rw [head_eq] at hnot
  rw [hB] at hread hpart hnot hend
  omega

/-- What `extentWrite` and the loop of the server have stored is read back. -/
theorem readsBack_of_fits (hsize : r.size ≠ 0) (hlen : r.fei.len.toNat = r.blocks)
    (hfits : r.Fits fpi) : r.ReadsBack fpi := by
  intro fei_in x x' data_buffer hwrite htable hnodup hsamelen hids
  obtain ⟨h, t, hcreate, hlength, hresult⟩ := ExtentWrite.result_of_success hwrite
  have hless : r.blocks < 2 ^ 32 := hfits.1 ▸ fpi.len.toNat_lt
  -- the block ids fit into the tuples
  have hblock (i : ℕ) (hi : i < r.blocks) : x'.created.getD i 0 = r.block i := by
    obtain ⟨t', new, hcreate', -, htotal, -⟩ := htable.createAll r.blocks
    obtain ⟨-, hsame⟩ := Prod.mk.inj (Option.some.inj (hcreate.symm.trans hcreate'))
    obtain ⟨hnew, -⟩ := Prod.mk.inj hsame
    obtain ⟨chain, hhanding⟩ := htable.handing
    have hbound : i < x'.created.length := hlength ▸ hi
    have hmem : x'.created[i] ∈ new := by
      rw [← hnew]
      exact List.getElem_mem hbound
    have hid := htotal _ hmem
    have htotal := hhanding.total
    rw [List.getD_eq_getElem _ _ hbound, block, ← hids i hi,
      hresult.ids i _ (List.getElem?_eq_getElem hbound),
      UInt32.toNat_ofNat_of_lt' (show _ < 2 ^ 32 by omega)]
  rw [(describes_of_fits hsize hlen hfits).bytes]
  refine List.map_congr_left fun j hj ↦ ?_
  have hj : j < r.size.toNat := List.mem_range.mp hj
  have hplace : locate BLOCK_SIZE.toNat r.off r.block j =
      locate BLOCK_SIZE.toNat r.off (fun i ↦ x'.created.getD i 0) j := by
    rw [locate, locate, hblock _ (blockOf_lt hsize hj)]
  rw [hplace]
  exact hresult.write_place h hlength hless hnodup data_buffer x'.data hj

end

/-- `extentRead` describes the requested range, and reads back what has been written, exactly if the
server has the right number of pieces before, all blocks are the first one, which is among the first
`2 ^ 20` ones, and a range inside a block begins or ends with it. -/
theorem describes_iff (fpi : FilePosInfo) (hsize : r.size ≠ 0)
    (hlen : r.fei.len.toNat = r.blocks) : r.Describes fpi ∧ r.ReadsBack fpi ↔ r.Fits fpi :=
  ⟨fun h ↦ fits_of_describes hsize hlen h.1, fun hfits ↦
    ⟨describes_of_fits hsize hlen hfits, readsBack_of_fits hsize hlen hfits⟩⟩

/-- A read from within block 7 to its end. -/
def toEnd : ExtentRead where
  size := 3996
  offset := 100
  fei := ⟨0, 1, fun _ ↦ 7⟩

/-- It is described where the stack of the server holds a 1. -/
theorem describes_iff_one : toEnd.Describes ⟨1, fun _ ↦ ⟨0, 0⟩⟩ := by
  refine ((describes_iff toEnd _ (by decide) (by decide +kernel)).mpr
    ⟨by decide +kernel, by decide, fun i hi ↦ rfl, fun _ ↦ Or.inr (by decide +kernel)⟩).1

/-- A read of two blocks. -/
def twoBlocks : ExtentRead where
  size := 8192
  offset := 0
  fei := ⟨0, 2, fun i ↦ UInt32.ofNat (7 + i)⟩

/-- Even with the right number of pieces, the second one is in the block of the first. -/
theorem reads_first_block : ¬twoBlocks.Describes ⟨2, fun _ ↦ ⟨0, 0⟩⟩ := by
  intro h
  have hinside := (h.inside 1 (by decide +kernel)).1
  exact absurd hinside (by decide +kernel)

end ExtentRead

end SwitchDelta.Fs
