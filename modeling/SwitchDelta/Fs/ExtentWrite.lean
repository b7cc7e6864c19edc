import SwitchDelta.Foundation.ByteRange
import SwitchDelta.Fs.BlockTable

/-!
# `extentWrite`

A `kEnumAppendReq` brings the data of a write to the data server. `extentWrite` creates a new block
for each block of the file that the write touches, describes in a `file_pos_info` where the pieces
of the data belong, and copies what the write leaves of the old blocks. The loop of the server then
copies the data of the request into the pieces.

`extentWrite_eq` separates the creation of the blocks from what is done with them.
`extentWrite_partitions` is the law of the pieces: they are those of the written range, each at its
place in the new block.
-/

set_option autoImplicit false
set_option relaxedAutoImplicit false

namespace SwitchDelta.Fs

open Foundation

/-- `NULLBLCOK_ID`. -/
def NULLBLCOK_ID : UInt64 := 0xFFFFFFFFFFFFFFFF

/-- `file_pos_tuple`, without the node. The offset is a position in the data area. -/
structure FilePosTuple where
  offset : ℕ
  size : ℕ
  deriving DecidableEq

/-- `file_pos_info`. -/
structure FilePosInfo where
  len : UInt32
  tuple : ℕ → FilePosTuple

namespace FilePosInfo

/-- The ranges of the data area that the loops of the server go through. -/
def ranges (fpi : FilePosInfo) : List (ℕ × ℕ) :=
  (List.range fpi.len.toNat).map fun i ↦ ((fpi.tuple i).offset, (fpi.tuple i).size)

/-- The loop of `kEnumAppendReq`, which copies the data of the request into the data area. -/
def write (fpi : FilePosInfo) (data_buffer data : ℕ → UInt8) : ℕ → UInt8 :=
  scatter data_buffer data 0 fpi.ranges

/-- The loop of `kEnumReadLog`, which copies from the data area into the reply. -/
def read (fpi : FilePosInfo) (data : ℕ → UInt8) : List UInt8 := gather data fpi.ranges

end FilePosInfo

/-- The arguments of `extentWrite`. -/
structure ExtentWrite where
  size : UInt64
  offset : UInt64
  fei_in : FileExtentInfo

/-- What a call of `extentWrite` works on. The items of the block table are the data area, which is
kept as bytes. Recorded are the created blocks, and the ranges of the data area that were copied. -/
structure WriteState where
  tableBlock : Table Unit
  data : ℕ → UInt8
  fpi : FilePosInfo
  fei_out : FileExtentInfo
  created : List ℕ
  copies : List (ℕ × ℕ)

namespace WriteState

/-- A created block is entered into `fei_out` and into `fpi`. -/
def allocate (x : WriteState) (i index : ℕ) (tuple : FilePosTuple) : WriteState :=
  { x with
    fei_out := { x.fei_out with tuple := Function.update x.fei_out.tuple i (UInt32.ofNat index) }
    fpi := { x.fpi with tuple := Function.update x.fpi.tuple i tuple }
    created := x.created ++ [index] }

/-- A tuple of `fpi` is changed. -/
def setTuple (x : WriteState) (i : ℕ) (tuple : FilePosTuple) : WriteState :=
  { x with fpi := { x.fpi with tuple := Function.update x.fpi.tuple i tuple } }

/-- `memcpy` within the data area. -/
def memcpy (x : WriteState) (cpy_addr in_addr size : ℕ) : WriteState :=
  { x with
    data := copy x.data cpy_addr in_addr size
    copies := x.copies ++ [(in_addr, size)] }

/-- The `i`-th new block. -/
def newBlock (x : WriteState) (i : ℕ) : ℕ := x.created.getD i 0

section

variable (x : WriteState) (i index : ℕ) (tuple : FilePosTuple) (cpy_addr in_addr size : ℕ)

theorem allocate_tuple : (x.allocate i index tuple).fpi.tuple i = tuple := by
  simp only [allocate, Function.update_self]

theorem allocate_id : (x.allocate i index tuple).fei_out.tuple i = UInt32.ofNat index := by
  simp only [allocate, Function.update_self]

theorem memcpy_fpi : (x.memcpy cpy_addr in_addr size).fpi = x.fpi := rfl

theorem memcpy_fei_out : (x.memcpy cpy_addr in_addr size).fei_out = x.fei_out := rfl

end

end WriteState

namespace ExtentWrite

variable (w : ExtentWrite)

/-- `countExtraBlock`. -/
def countExtraBlock : UInt64 :=
  (w.offset + w.size - 1) / BLOCK_SIZE - w.offset / BLOCK_SIZE + 1

/-- `offset % BLOCK_SIZE`. -/
def head : ℕ := (w.offset % BLOCK_SIZE).toNat

/-- `(offset + size) % BLOCK_SIZE`. -/
def tail : ℕ := ((w.offset + w.size) % BLOCK_SIZE).toNat

/-- `fei_in->tuple[i].block_id * BLOCK_SIZE`. The id has 32 bits, and so has the product. -/
def source (i : ℕ) : ℕ := (w.fei_in.tuple i * BLOCK_SIZE.toUInt32).toNat

/-- The test for an old block. -/
def Present (i : ℕ) : Prop := (w.fei_in.tuple i).toUInt64 ≠ NULLBLCOK_ID

instance (i : ℕ) : Decidable (w.Present i) := inferInstanceAs (Decidable (_ ≠ _))

/-- The range is empty or runs over the end of 64 bits. -/
def Rejected : Prop := 0xFFFFFFFFFFFFFFFF - w.offset < w.size ∨ w.size = 0

instance : Decidable w.Rejected := inferInstanceAs (Decidable (_ ∨ _))

/-- The only block of a write has been created. -/
def writeOnly (x : WriteState) (index : ℕ) : WriteState :=
  let x := x.allocate 0 index ⟨index * BLOCK_SIZE.toNat + w.head, w.size.toNat⟩
  if w.size ≠ BLOCK_SIZE ∧ w.Present 0 then
    x.memcpy (index * BLOCK_SIZE.toNat) (w.source 0) BLOCK_SIZE.toNat
  else x

/-- The branch for the first block, where the range does not begin with a block. -/
def writeHead (i : ℕ) (x : WriteState) (index : ℕ) : WriteState :=
  if i = 0 ∧ w.head ≠ 0 then
    let x := x.setTuple 0 ⟨index * BLOCK_SIZE.toNat + w.head, BLOCK_SIZE.toNat - w.head⟩
    if w.Present i then x.memcpy (index * BLOCK_SIZE.toNat) (w.source i) w.head else x
  else x

/-- The branch for the last block, where the range does not end with a block. The copy goes to an
address that is computed from the first tuple. -/
def writeTail (i : ℕ) (x : WriteState) : WriteState :=
  if i = w.countExtraBlock.toNat - 1 ∧ w.tail ≠ 0 then
    let x := x.setTuple i ⟨(x.fpi.tuple i).offset, w.tail⟩
    if w.Present i then
      x.memcpy ((x.fpi.tuple 0).offset + (x.fpi.tuple i).size) (w.source i + w.tail)
        (BLOCK_SIZE.toNat - w.tail)
    else x
  else x

/-- Block `i` of a write of several blocks has been created. -/
def writeBlock (i : ℕ) (x : WriteState) (index : ℕ) : WriteState :=
  w.writeTail i (w.writeHead i
    (x.allocate i index ⟨index * BLOCK_SIZE.toNat, BLOCK_SIZE.toNat⟩) index)

/-- The loop over the blocks of a write, from block `i` on. There is no result where `create` does
not return. -/
def writeFrom (i : ℕ) : ℕ → WriteState → Option (WriteState × Bool)
  | 0, x => some (x, true)
  | n + 1, x =>
    (x.tableBlock.create true).bind fun
      | (t, none) => some ({ x with tableBlock := t }, false)
      | (t, some index) => writeFrom (i + 1) n (w.writeBlock i { x with tableBlock := t } index)

/-- `FileSystem::extentWrite`. -/
def extentWrite (x : WriteState) : Option (WriteState × Bool) :=
  if w.Rejected then some ({ x with created := [], copies := [] }, false)
  else
    let x := { x with
      fpi := { x.fpi with len := w.countExtraBlock.toUInt32 }
      fei_out := { x.fei_out with len := w.countExtraBlock }
      created := []
      copies := [] }
    if w.countExtraBlock = 1 then
      (x.tableBlock.create true).map fun
        | (t, none) => ({ x with tableBlock := t }, false)
        | (t, some index) => (w.writeOnly { x with tableBlock := t } index, true)
    else w.writeFrom 0 w.countExtraBlock.toNat x

/-! ### The arithmetic of the range -/

/-- The first position of the range. -/
def off : ℕ := w.offset.toNat

/-- The number of blocks that the range touches. -/
def blocks : ℕ := touched BLOCK_SIZE.toNat w.off w.size.toNat

section Arithmetic

variable {w}

theorem size_pos (h : ¬w.Rejected) : 0 < w.size.toNat :=
  Nat.pos_of_ne_zero fun hzero ↦ h (Or.inr (UInt64.toNat_inj.mp hzero))

/-- The end of an accepted range has no more than 64 bits. -/
theorem toNat_end (h : ¬w.Rejected) : (w.offset + w.size).toNat = w.off + w.size.toNat :=
  toNat_add_of_le (UInt64.not_lt.mp (not_or.mp h).1)

theorem head_eq : w.head = w.off % BLOCK_SIZE.toNat := by
  rw [head, UInt64.toNat_mod, off]

theorem tail_eq (h : ¬w.Rejected) : w.tail = (w.off + w.size.toNat) % BLOCK_SIZE.toNat := by
  rw [tail, UInt64.toNat_mod, toNat_end h]

theorem countExtraBlock_toNat (h : ¬w.Rejected) : w.countExtraBlock.toNat = w.blocks := by
  have hone : (1 : UInt64).toNat = 1 := rfl
  have hsize := size_pos h
  have hend := toNat_end h
  have hlast : (w.offset + w.size - 1).toNat = w.off + w.size.toNat - 1 :=
    toNat_add_sub_one (not_or.mp h).2 (UInt64.not_lt.mp (not_or.mp h).1)
  have hfirst : w.offset / BLOCK_SIZE ≤ (w.offset + w.size - 1) / BLOCK_SIZE := by
    rw [UInt64.le_iff_toNat_le, UInt64.toNat_div, UInt64.toNat_div, hlast]
    exact Nat.div_le_div_right (by rw [off]; omega)
  have hlt := (w.offset + w.size).toNat_lt
  rw [hend] at hlt
  have hblock : BLOCK_SIZE.toNat = 4096 := rfl
  rw [countExtraBlock, UInt64.toNat_add, UInt64.toNat_sub_of_le _ _ hfirst, UInt64.toNat_div,
    UInt64.toNat_div, hlast, hone, blocks, touched, ← off, hblock]
  exact Nat.mod_eq_of_lt (by omega)

theorem blocks_pos : 0 < w.blocks := touched_pos

/-- Every block id counts as one of an old block: it has 32 bits, and `NULLBLCOK_ID` has 64. -/
theorem present (i : ℕ) : w.Present i := by
  intro heq
  have hnat := congrArg UInt64.toNat heq
  rw [UInt32.toNat_toUInt64] at hnat
  have hlt := (w.fei_in.tuple i).toNat_lt
  have hnull : NULLBLCOK_ID.toNat = 2 ^ 64 - 1 := rfl
  omega

end Arithmetic

/-! ### The blocks of a write -/

/-- The bodies of the loop for a list of created blocks. -/
def writeAll : ℕ → List ℕ → WriteState → WriteState
  | _, [], x => x
  | i, index :: new, x => writeAll (i + 1) new (w.writeBlock i x index)

section Blocks

variable {w} {x x' : WriteState} {i index : ℕ} {new : List ℕ}

theorem writeBlock_tableBlock (t : Table Unit) :
    w.writeBlock i { x with tableBlock := t } index =
      { w.writeBlock i x index with tableBlock := t } := by
  rw [writeBlock, writeBlock, writeTail, writeTail, writeHead, writeHead]
  dsimp only [WriteState.allocate, WriteState.setTuple, WriteState.memcpy]
  split_ifs <;> rfl

theorem writeAll_tableBlock (t : Table Unit) :
    w.writeAll i new { x with tableBlock := t } =
      { w.writeAll i new x with tableBlock := t } := by
  induction new generalizing i x with
  | nil => rfl
  | cons index new ih => rw [writeAll, writeBlock_tableBlock, ih, writeAll]

/-- The loop creates the blocks and does the rest with what it has got. -/
theorem writeFrom_eq (n : ℕ) : w.writeFrom i n x =
    (Table.createAll n x.tableBlock).map fun result ↦
      ({ w.writeAll i result.2.1 x with tableBlock := result.1 }, result.2.2) := by
  induction n generalizing i x with
  | zero => rfl
  | succ n ih =>
    rw [writeFrom, Table.createAll]
    cases hcreate : x.tableBlock.create true with
    | none => rfl
    | some result =>
      obtain ⟨t, reply⟩ := result
      cases reply with
      | none => rfl
      | some index =>
        dsimp only [Option.bind_some]
        rw [ih, Option.map_map, writeBlock_tableBlock]
        dsimp only
        refine congrFun (congrArg Option.map (funext fun result ↦ ?_)) _
        dsimp only [Function.comp_apply]
        rw [writeAll_tableBlock, writeAll]

theorem writeAll_append (new : List ℕ) (index : ℕ) : w.writeAll i (new ++ [index]) x =
    w.writeBlock (i + new.length) (w.writeAll i new x) index := by
  induction new generalizing i x with
  | nil => rfl
  | cons first new ih =>
    rw [List.cons_append, writeAll, ih, writeAll, List.length_cons, Nat.add_right_comm,
      Nat.add_assoc]

end Blocks

/-! ### What a write of several blocks leaves -/

/-- The tuple of block `i`, created at `index`. -/
def tupleOf (i index : ℕ) : FilePosTuple where
  offset := index * BLOCK_SIZE.toNat + if i = 0 then w.head else 0
  size :=
    if i = 0 then BLOCK_SIZE.toNat - w.head
    else if i + 1 = w.blocks ∧ w.tail ≠ 0 then w.tail
    else BLOCK_SIZE.toNat

/-- The copy of what the range leaves of the first block. -/
def copyHead (first : ℕ) (data : ℕ → UInt8) : ℕ → UInt8 :=
  if w.head ≠ 0 then copy data (first * BLOCK_SIZE.toNat) (w.source 0) w.head else data

/-- The copy of what the range leaves of the last block, with the offset of the first tuple. -/
def copyTail (start : ℕ) (data : ℕ → UInt8) : ℕ → UInt8 :=
  if w.tail ≠ 0 then
    copy data (start + w.tail) (w.source (w.blocks - 1) + w.tail) (BLOCK_SIZE.toNat - w.tail)
  else data

/-- What the copy of the first block reads. -/
def headSources : List (ℕ × ℕ) := if w.head ≠ 0 then [(w.source 0, w.head)] else []

/-- What the copy of the last block reads. -/
def tailSources : List (ℕ × ℕ) :=
  if w.tail ≠ 0 then [(w.source (w.blocks - 1) + w.tail, BLOCK_SIZE.toNat - w.tail)] else []

/-- The data area after the blocks of a list have been created. -/
def dataAfter (data : ℕ → UInt8) : List ℕ → ℕ → UInt8
  | [] => data
  | first :: rest =>
    if rest.length + 1 = w.blocks then
      w.copyTail (first * BLOCK_SIZE.toNat + w.head) (w.copyHead first data)
    else w.copyHead first data

/-- What has been copied after the blocks of a list have been created. -/
def sourcesAfter : List ℕ → List (ℕ × ℕ)
  | [] => []
  | _ :: rest => w.headSources ++ if rest.length + 1 = w.blocks then w.tailSources else []

section Several

variable {w} {x y : WriteState} {i index : ℕ} {new : List ℕ}

theorem tupleOf_zero_offset : (w.tupleOf 0 index).offset = index * BLOCK_SIZE.toNat + w.head :=
  congrArg (index * BLOCK_SIZE.toNat + ·) (if_pos rfl)

theorem writeHead_zero : w.writeHead 0 x index =
    { x with
      fpi := { x.fpi with
        tuple := if w.head ≠ 0 then
            Function.update x.fpi.tuple 0
              ⟨index * BLOCK_SIZE.toNat + w.head, BLOCK_SIZE.toNat - w.head⟩
          else x.fpi.tuple }
      data := w.copyHead index x.data
      copies := x.copies ++ w.headSources } := by
  rw [writeHead, copyHead, headSources]
  by_cases hhead : w.head = 0
  · rw [if_neg fun hboth ↦ hboth.2 hhead, if_neg (not_not.mpr hhead), if_neg (not_not.mpr hhead),
      if_neg (not_not.mpr hhead), List.append_nil]
  · rw [if_pos ⟨rfl, hhead⟩, if_pos hhead, if_pos hhead, if_pos hhead]
    dsimp only
    rw [if_pos (present 0)]
    rfl

theorem writeHead_of_pos (hpos : 0 < i) : w.writeHead i x index = x :=
  if_neg fun hboth ↦ hpos.ne' hboth.1

theorem writeTail_of_ne (h : ¬w.Rejected) (hi : i + 1 ≠ w.blocks) : w.writeTail i x = x := by
  have hblocks := blocks_pos (w := w)
  refine if_neg fun hboth ↦ hi ?_
  rw [hboth.1, countExtraBlock_toNat h]
  omega

theorem writeTail_last (h : ¬w.Rejected) (hpos : 0 < i) (hi : i + 1 = w.blocks) : w.writeTail i x =
    { x with
      fpi := { x.fpi with
        tuple := if w.tail ≠ 0 then
            Function.update x.fpi.tuple i ⟨(x.fpi.tuple i).offset, w.tail⟩
          else x.fpi.tuple }
      data := w.copyTail (x.fpi.tuple 0).offset x.data
      copies := x.copies ++ w.tailSources } := by
  have hlast : i = w.countExtraBlock.toNat - 1 := by
    rw [countExtraBlock_toNat h]
    omega
  have hblock : w.blocks - 1 = i := by omega
  rw [writeTail, copyTail, tailSources, hblock]
  by_cases htail : w.tail = 0
  · rw [if_neg fun hboth ↦ hboth.2 htail, if_neg (not_not.mpr htail), if_neg (not_not.mpr htail),
      if_neg (not_not.mpr htail), List.append_nil]
  · rw [if_pos ⟨hlast, htail⟩, if_pos htail, if_pos htail, if_pos htail]
    dsimp only
    rw [if_pos (present i)]
    dsimp only [WriteState.setTuple, WriteState.memcpy]
    rw [Function.update_self, Function.update_of_ne hpos.ne]

/-- The first block of several. -/
theorem writeBlock_zero (h : ¬w.Rejected) (hseveral : 1 < w.blocks) :
    w.writeBlock 0 x index = { x.allocate 0 index (w.tupleOf 0 index) with
      data := w.copyHead index x.data
      copies := x.copies ++ w.headSources } := by
  rw [writeBlock, writeTail_of_ne h (by omega), writeHead_zero, tupleOf]
  dsimp only [WriteState.allocate]
  rw [if_pos rfl, if_pos rfl]
  by_cases hhead : w.head = 0
  · rw [if_neg (not_not.mpr hhead), hhead, Nat.add_zero, Nat.sub_zero]
  · rw [if_pos hhead, Function.update_idem]

/-- The other blocks of several. -/
theorem writeBlock_succ (h : ¬w.Rejected) (hpos : 0 < i) :
    w.writeBlock i x index = { x.allocate i index (w.tupleOf i index) with
      data := if i + 1 = w.blocks then w.copyTail (x.fpi.tuple 0).offset x.data else x.data
      copies := x.copies ++ if i + 1 = w.blocks then w.tailSources else [] } := by
  rw [writeBlock, writeHead_of_pos hpos, tupleOf, if_neg hpos.ne', if_neg hpos.ne', Nat.add_zero]
  by_cases hend : i + 1 = w.blocks
  · rw [writeTail_last h hpos hend, if_pos hend, if_pos hend]
    dsimp only [WriteState.allocate]
    rw [Function.update_of_ne hpos.ne, Function.update_self]
    by_cases htail : w.tail = 0
    · rw [if_neg (not_not.mpr htail), if_neg fun hboth ↦ hboth.2 htail]
    · rw [if_pos htail, if_pos ⟨hend, htail⟩, Function.update_idem]
  · rw [writeTail_of_ne h hend, if_neg hend, if_neg hend, if_neg fun hboth ↦ hend hboth.1,
      List.append_nil]
    rfl

/-- The state after the blocks of a list have been created, when the write is of several blocks. -/
structure Written (w : ExtentWrite) (x : WriteState) (new : List ℕ) (y : WriteState) : Prop where
  created : y.created = x.created ++ new
  fpi_len : y.fpi.len = x.fpi.len
  fei_len : y.fei_out.len = x.fei_out.len
  tuple : ∀ i index, new[i]? = some index → y.fpi.tuple i = w.tupleOf i index
  ids : ∀ i index, new[i]? = some index → y.fei_out.tuple i = UInt32.ofNat index
  data : y.data = w.dataAfter x.data new
  copies : y.copies = x.copies ++ w.sourcesAfter new

/-- An entry for each element of a list, after one more element. -/
theorem update_getElem? {β : Type*} {f : ℕ → β} {g : ℕ → ℕ → β}
    (hold : ∀ i index, new[i]? = some index → f i = g i index) :
    ∀ j other, (new ++ [index])[j]? = some other →
      Function.update f new.length (g new.length index) j = g j other := by
  intro j other hj
  by_cases hlast : j = new.length
  · subst hlast
    rw [List.getElem?_concat_length] at hj
    rw [Function.update_self, Option.some.inj hj]
  · have hless : j < new.length := by
      obtain ⟨hbound, -⟩ := List.getElem?_eq_some_iff.mp hj
      rw [List.length_append, List.length_singleton] at hbound
      omega
    rw [List.getElem?_append_left hless] at hj
    rw [Function.update_of_ne hlast, hold j other hj]

/-- One more block. -/
theorem Written.append (hwritten : Written w x new y) (h : ¬w.Rejected) (hseveral : 1 < w.blocks)
    (hlength : new.length < w.blocks) :
    Written w x (new ++ [index]) (w.writeBlock new.length y index) := by
  have htuple : ∀ i other, (new ++ [index])[i]? = some other →
      Function.update y.fpi.tuple new.length (w.tupleOf new.length index) i = w.tupleOf i other :=
    update_getElem? hwritten.tuple
  have hids : ∀ i other, (new ++ [index])[i]? = some other →
      Function.update y.fei_out.tuple new.length (UInt32.ofNat index) i = UInt32.ofNat other :=
    update_getElem? (g := fun _ index ↦ UInt32.ofNat index) hwritten.ids
  have hcreated : y.created ++ [index] = x.created ++ (new ++ [index]) := by
    rw [hwritten.created, List.append_assoc]
  cases new with
  | nil =>
    have hone : ¬([] : List ℕ).length + 1 = w.blocks := hseveral.ne
    have hdata : y.data = x.data := hwritten.data
    have hcopies : y.copies = x.copies ++ [] := hwritten.copies
    rw [List.length_nil, writeBlock_zero h hseveral]
    refine ⟨hcreated, hwritten.fpi_len, hwritten.fei_len, htuple, hids, ?_, ?_⟩
    · rw [List.nil_append, dataAfter, if_neg hone, hdata]
    · rw [List.nil_append, sourcesAfter, if_neg hone, hcopies, List.append_nil, List.append_nil]
  | cons first rest =>
    have hnot : ¬rest.length + 1 = w.blocks := hlength.ne
    have hlast : (rest ++ [index]).length + 1 = (first :: rest).length + 1 :=
      congrArg Nat.succ List.length_append
    have hdata := hwritten.data
    have hcopies := hwritten.copies
    have hfirst := hwritten.tuple 0 first rfl
    rw [dataAfter, if_neg hnot] at hdata
    rw [sourcesAfter, if_neg hnot, List.append_nil] at hcopies
    rw [writeBlock_succ (i := (first :: rest).length) h (Nat.succ_pos _)]
    refine ⟨hcreated, hwritten.fpi_len, hwritten.fei_len, htuple, hids, ?_, ?_⟩
    · rw [List.cons_append, dataAfter, hlast, hdata, hfirst, tupleOf_zero_offset]
    · rw [List.cons_append, sourcesAfter, hlast, hcopies, List.append_assoc]

/-- All blocks that have been created. -/
theorem writeAll_written (h : ¬w.Rejected) (hseveral : 1 < w.blocks)
    (hlength : new.length ≤ w.blocks) : Written w x new (w.writeAll 0 new x) := by
  induction new using List.reverseRecOn with
  | nil =>
    exact ⟨(List.append_nil _).symm, rfl, rfl, nofun, nofun, rfl, (List.append_nil _).symm⟩
  | append_singleton new index ih =>
    rw [List.length_append, List.length_singleton] at hlength
    rw [writeAll_append, Nat.zero_add]
    exact (ih (Nat.le_of_succ_le hlength)).append h hseveral hlength

end Several

/-! ### The pieces -/

/-- The state of a call before its first block. -/
def start (x : WriteState) : WriteState :=
  { x with
    fpi := { x.fpi with len := w.countExtraBlock.toUInt32 }
    fei_out := { x.fei_out with len := w.countExtraBlock }
    created := []
    copies := [] }

/-- What a call does with the blocks that it has created. -/
def finish (x : WriteState) (new : List ℕ) : WriteState :=
  if w.blocks = 1 then
    match new with
    | [] => w.start x
    | index :: _ => w.writeOnly (w.start x) index
  else w.writeAll 0 new (w.start x)

/-- The data area with what the write leaves of the old blocks. -/
def merge (data : ℕ → UInt8) (new : List ℕ) : ℕ → UInt8 :=
  if w.blocks = 1 then
    match new with
    | [] => data
    | index :: _ =>
      if w.size ≠ BLOCK_SIZE then
        copy data (index * BLOCK_SIZE.toNat) (w.source 0) BLOCK_SIZE.toNat
      else data
  else w.dataAfter data new

/-- What a write copies of the old blocks. -/
def sources (new : List ℕ) : List (ℕ × ℕ) :=
  if w.blocks = 1 then if w.size ≠ BLOCK_SIZE then [(w.source 0, BLOCK_SIZE.toNat)] else []
  else w.sourcesAfter new

/-- A range of the data area as a tuple of `file_pos_info`. -/
def ofRange (range : ℕ × ℕ) : FilePosTuple := ⟨range.1, range.2⟩

section Pieces

variable {w} {x x' y : WriteState} {i index : ℕ} {new : List ℕ}

theorem extentWrite_eq (h : ¬w.Rejected) : w.extentWrite x =
    (Table.createAll w.blocks x.tableBlock).map fun result ↦
      ({ w.finish x result.2.1 with tableBlock := result.1 }, result.2.2) := by
  have hone : w.countExtraBlock = 1 ↔ w.blocks = 1 := by
    rw [← countExtraBlock_toNat h, ← UInt64.toNat_inj]
    rfl
  rw [extentWrite, if_neg h]
  dsimp only
  rw [← start]
  by_cases hblocks : w.blocks = 1
  · rw [if_pos (hone.mpr hblocks), hblocks, Table.createAll]
    change (x.tableBlock.create true).map _ = _
    cases hcreate : x.tableBlock.create true with
    | none => rfl
    | some result =>
      obtain ⟨t, reply⟩ := result
      cases reply with
      | none =>
        simp only [Option.map_some, Option.bind_some, finish, if_pos hblocks]
        rfl
      | some index =>
        simp only [Option.map_some, Option.bind_some, finish, if_pos hblocks, Table.createAll]
        rw [writeOnly, writeOnly]
        dsimp only [WriteState.allocate, WriteState.memcpy]
        split_ifs <;> rfl
  · rw [if_neg fun heq ↦ hblocks (hone.mp heq), countExtraBlock_toNat h, writeFrom_eq]
    simp only [finish, if_neg hblocks]
    rfl

/-- The tuple of the code is a piece of the range, at its own place in the block. -/
theorem tupleOf_eq (h : ¬w.Rejected) (hseveral : 1 < w.blocks) (hi : i < w.blocks) :
    w.tupleOf i index = ofRange (piece BLOCK_SIZE.toNat w.off w.size.toNat (fun _ ↦ index) i) := by
  have hB : 0 < BLOCK_SIZE.toNat := by decide
  have hsize := size_pos h
  have hdiv := Nat.div_add_mod' w.off BLOCK_SIZE.toNat
  have hmod := Nat.mod_lt w.off hB
  rw [tupleOf, ofRange, piece, head_eq]
  by_cases hzero : i = 0
  · subst hzero
    rw [if_pos rfl, if_pos rfl, mark_zero, mark_inner hB hsize Nat.zero_lt_one hseveral,
      Nat.add_zero, Nat.succ_mul]
    exact congrArg₂ FilePosTuple.mk (by omega) (by omega)
  · have hpos := Nat.pos_of_ne_zero hzero
    rw [if_neg hzero, if_neg hzero, mark_inner hB hsize hpos hi, Nat.sub_self]
    refine congrArg (FilePosTuple.mk _) ?_
    by_cases hend : i + 1 = w.blocks
    · have htouched : w.off / BLOCK_SIZE.toNat + touched BLOCK_SIZE.toNat w.off w.size.toNat =
          (w.off + w.size.toNat - 1) / BLOCK_SIZE.toNat + 1 := div_add_touched hsize
      have hquot :
          (w.off + w.size.toNat - 1) / BLOCK_SIZE.toNat = w.off / BLOCK_SIZE.toNat + i := by
        have hend' : touched BLOCK_SIZE.toNat w.off w.size.toNat = i + 1 := hend.symm
        omega
      have hlast := Nat.div_add_mod' (w.off + w.size.toNat - 1) BLOCK_SIZE.toNat
      have hless := Nat.mod_lt (w.off + w.size.toNat - 1) hB
      rw [hquot] at hlast
      have hmark : mark BLOCK_SIZE.toNat w.off w.size.toNat (i + 1) = w.off + w.size.toNat := by
        rw [hend]
        exact mark_touched hB hsize
      have hsucc : w.off + w.size.toNat = (w.off / BLOCK_SIZE.toNat + i) * BLOCK_SIZE.toNat +
          ((w.off + w.size.toNat - 1) % BLOCK_SIZE.toNat + 1) := by omega
      have htail : w.tail =
          ((w.off + w.size.toNat - 1) % BLOCK_SIZE.toNat + 1) % BLOCK_SIZE.toNat := by
        rw [tail_eq h, hsucc, Nat.mul_add_mod_self_right, ← hsucc]
      rw [hmark]
      by_cases hfull : (w.off + w.size.toNat - 1) % BLOCK_SIZE.toNat + 1 = BLOCK_SIZE.toNat
      · rw [hfull, Nat.mod_self] at htail
        rw [if_neg fun hboth ↦ hboth.2 htail]
        omega
      · rw [Nat.mod_eq_of_lt (by omega)] at htail
        rw [if_pos ⟨hend, by omega⟩]
        omega
    · rw [if_neg fun hboth ↦ hend hboth.1,
        mark_inner hB hsize (Nat.succ_pos i) (lt_of_le_of_ne hi hend), Nat.add_succ,
        Nat.succ_mul]
      exact (Nat.add_sub_cancel_left _ _).symm

/-- What a successful call leaves. -/
structure Result (w : ExtentWrite) (x : WriteState) (new : List ℕ) (y : WriteState) : Prop where
  created : y.created = new
  fpi_len : y.fpi.len = w.countExtraBlock.toUInt32
  fei_len : y.fei_out.len = w.countExtraBlock
  tuple : ∀ i index, new[i]? = some index → y.fpi.tuple i =
    ofRange (piece BLOCK_SIZE.toNat w.off w.size.toNat (fun _ ↦ index) i)
  ids : ∀ i index, new[i]? = some index → y.fei_out.tuple i = UInt32.ofNat index
  data : y.data = w.merge x.data new
  copies : y.copies = w.sources new

theorem finish_result (h : ¬w.Rejected) (hlength : new.length = w.blocks) :
    Result w x new (w.finish x new) := by
  unfold finish
  by_cases hblocks : w.blocks = 1
  · obtain ⟨index, rfl⟩ := List.length_eq_one_iff.mp (hlength.trans hblocks)
    have hB : 0 < BLOCK_SIZE.toNat := by decide
    have hdiv := Nat.div_add_mod' w.off BLOCK_SIZE.toNat
    have hmark : mark BLOCK_SIZE.toNat w.off w.size.toNat 1 = w.off + w.size.toNat := by
      rw [← hblocks]
      exact mark_touched hB (size_pos h)
    have htuple : (⟨index * BLOCK_SIZE.toNat + w.head, w.size.toNat⟩ : FilePosTuple) =
        ofRange (piece BLOCK_SIZE.toNat w.off w.size.toNat (fun _ ↦ index) 0) := by
      rw [ofRange, piece, mark_zero, Nat.zero_add, hmark, head_eq, Nat.add_zero]
      exact congrArg₂ FilePosTuple.mk (by omega) (by omega)
    have hget (j other : ℕ) (hj : ([index] : List ℕ)[j]? = some other) : j = 0 ∧ other = index := by
      obtain ⟨hbound, hother⟩ := List.getElem?_eq_some_iff.mp hj
      obtain rfl : j = 0 := Nat.lt_one_iff.mp hbound
      exact ⟨rfl, hother.symm⟩
    rw [if_pos hblocks]
    unfold writeOnly
    dsimp only
    by_cases hwhole : w.size = BLOCK_SIZE
    · rw [if_neg fun hboth ↦ hboth.1 hwhole]
      refine ⟨rfl, rfl, rfl, fun j other hj ↦ ?_, fun j other hj ↦ ?_, ?_, ?_⟩
      · obtain ⟨rfl, rfl⟩ := hget j other hj
        rw [WriteState.allocate_tuple, htuple]
      · obtain ⟨rfl, rfl⟩ := hget j other hj
        rw [WriteState.allocate_id]
      · unfold merge
        rw [if_pos hblocks]
        dsimp only
        rw [if_neg (not_not.mpr hwhole)]
        rfl
      · rw [sources, if_pos hblocks, if_neg (not_not.mpr hwhole)]
        rfl
    · rw [if_pos ⟨hwhole, present 0⟩]
      refine ⟨rfl, rfl, rfl, fun j other hj ↦ ?_, fun j other hj ↦ ?_, ?_, ?_⟩
      · obtain ⟨rfl, rfl⟩ := hget j other hj
        rw [WriteState.memcpy_fpi, WriteState.allocate_tuple, htuple]
      · obtain ⟨rfl, rfl⟩ := hget j other hj
        rw [WriteState.memcpy_fei_out, WriteState.allocate_id]
      · unfold merge
        rw [if_pos hblocks]
        dsimp only
        rw [if_pos hwhole]
        rfl
      · rw [sources, if_pos hblocks, if_pos hwhole]
        rfl
  · have hseveral : 1 < w.blocks := lt_of_le_of_ne blocks_pos (Ne.symm hblocks)
    have hwritten := writeAll_written (x := w.start x) h hseveral hlength.le
    rw [if_neg hblocks]
    refine ⟨hwritten.created, hwritten.fpi_len, hwritten.fei_len, fun j other hj ↦ ?_,
      hwritten.ids, ?_, ?_⟩
    · obtain ⟨hbound, -⟩ := List.getElem?_eq_some_iff.mp hj
      rw [hwritten.tuple j other hj, tupleOf_eq h hseveral (hlength ▸ hbound)]
    · unfold merge
      rw [if_neg hblocks, hwritten.data]
      rfl
    · rw [sources, if_neg hblocks, hwritten.copies]
      rfl

theorem result_of_success (h : w.extentWrite x = some (x', true)) : ¬w.Rejected ∧
    ∃ t, Table.createAll w.blocks x.tableBlock = some (t, x'.created, true) ∧
      x'.created.length = w.blocks ∧ Result w x x'.created x' := by
  have haccepted : ¬w.Rejected := by
    intro hrejected
    rw [extentWrite, if_pos hrejected] at h
    cases h
  rw [extentWrite_eq haccepted] at h
  obtain ⟨⟨t, new, ok⟩, hcreate, heq⟩ := Option.map_eq_some_iff.mp h
  obtain ⟨rfl, rfl⟩ := Prod.mk.inj heq
  have hlength := Table.createAll_length hcreate
  have hresult := finish_result (x := x) haccepted hlength
  have hcreated : (w.finish x new).created = new := hresult.created
  refine ⟨haccepted, t, ?_⟩
  dsimp only
  rw [hcreated]
  exact ⟨hcreate, hlength, rfl, hresult.fpi_len, hresult.fei_len, hresult.tuple, hresult.ids,
    hresult.data, hresult.copies⟩

theorem tuple_eq (hresult : Result w x new y) (hlength : new.length = w.blocks)
    (hi : i < w.blocks) : y.fpi.tuple i =
      ofRange (piece BLOCK_SIZE.toNat w.off w.size.toNat (fun i ↦ new.getD i 0) i) := by
  have hbound : i < new.length := hlength ▸ hi
  have hget : new[i]? = some (new.getD i 0) := by
    rw [List.getElem?_eq_getElem hbound, List.getD_eq_getElem new 0 hbound]
  exact hresult.tuple i _ hget

/-- The ranges that the loop of the server goes through are the pieces of the written range. -/
theorem ranges_eq (hresult : Result w x new y) (h : ¬w.Rejected) (hlength : new.length = w.blocks)
    (hless : w.blocks < 2 ^ 32) : y.fpi.ranges =
      pieces BLOCK_SIZE.toNat w.off w.size.toNat fun i ↦ new.getD i 0 := by
  have hlen : y.fpi.len.toNat = w.blocks := by
    rw [hresult.fpi_len, UInt64.toNat_toUInt32, countExtraBlock_toNat h]
    exact Nat.mod_eq_of_lt hless
  rw [FilePosInfo.ranges, pieces, hlen, blocks]
  refine List.map_congr_left fun i hi ↦ ?_
  rw [tuple_eq hresult hlength (List.mem_range.mp hi), ofRange]

/-- The blocks of a list without repetition are apart. -/
theorem getD_injOn (hnodup : new.Nodup) :
    Set.InjOn (fun i ↦ new.getD i 0) {i | i < new.length} := by
  intro i hi i' hi' heq
  have hi : i < new.length := hi
  have hi' : i' < new.length := hi'
  dsimp only at heq
  rw [List.getD_eq_getElem _ _ hi, List.getD_eq_getElem _ _ hi'] at heq
  exact hnodup.getElem_inj_iff.mp heq

/-- The loop of the server writes the places of the written range, one after the other. -/
theorem Result.write_eq (hresult : Result w x new y) (h : ¬w.Rejected)
    (hlength : new.length = w.blocks) (hless : w.blocks < 2 ^ 32) (data_buffer data : ℕ → UInt8) :
    y.fpi.write data_buffer data = writeCells data_buffer data ((List.range w.size.toNat).map fun j ↦
      (locate BLOCK_SIZE.toNat w.off (fun i ↦ new.getD i 0) j, j)) := by
  rw [FilePosInfo.write, scatter_eq_writeCells, ranges_eq hresult h hlength hless,
    cells_pieces (by decide) (size_pos h)]

/-- A byte of the request, where the byte of the file belongs in the new blocks. -/
theorem Result.write_place (hresult : Result w x new y) (h : ¬w.Rejected)
    (hlength : new.length = w.blocks) (hless : w.blocks < 2 ^ 32) (hnodup : new.Nodup)
    (data_buffer data : ℕ → UInt8) {j : ℕ} (hj : j < w.size.toNat) :
    y.fpi.write data_buffer data (locate BLOCK_SIZE.toNat w.off (fun i ↦ new.getD i 0) j) =
      data_buffer j := by
  have hinj := getD_injOn hnodup
  rw [hlength] at hinj
  rw [hresult.write_eq h hlength hless]
  refine writeCells_of_mem ?_ (List.mem_map.mpr ⟨j, List.mem_range.mpr hj, rfl⟩)
  rw [List.map_map]
  refine List.Nodup.map_on (fun i hi i' hi' heq ↦ ?_) List.nodup_range
  exact locate_injOn (by decide) (size_pos h) hinj (List.mem_range.mp hi) (List.mem_range.mp hi') heq

/-- The loop of the server changes nothing else. -/
theorem Result.write_other (hresult : Result w x new y) (h : ¬w.Rejected)
    (hlength : new.length = w.blocks) (hless : w.blocks < 2 ^ 32) (data_buffer data : ℕ → UInt8)
    {a : ℕ} (ha : ∀ j < w.size.toNat,
      locate BLOCK_SIZE.toNat w.off (fun i ↦ new.getD i 0) j ≠ a) :
    y.fpi.write data_buffer data a = data a := by
  rw [hresult.write_eq h hlength hless]
  refine writeCells_of_notMem fun hmem ↦ ?_
  rw [List.map_map] at hmem
  obtain ⟨j, hj, heq⟩ := List.mem_map.mp hmem
  exact ha j (List.mem_range.mp hj) heq

end Pieces

/-! ### The law of the pieces -/

/-- The position in the file that a piece begins at, after the pieces before it. -/
def pieceStart (fpi : FilePosInfo) (i : ℕ) : ℕ :=
  w.off + ∑ k ∈ Finset.range i, (fpi.tuple k).size

/-- A successful `extentWrite` describes the written range: a piece for each block that the range
touches, with its place in the new block. So the loop of the server writes the bytes of the request,
one after the other, where the bytes of the file from the offset on belong in the new blocks. -/
theorem extentWrite_partitions (x x' : WriteState)
    (hblocks : w.blocks ≤ MAX_MESSAGE_BLOCK_COUNT.toNat) (h : w.extentWrite x = some (x', true)) :
    (∃ t, Table.createAll w.blocks x.tableBlock = some (t, x'.created, true)) ∧
      x'.created.length = w.blocks ∧ x'.fpi.len.toNat = w.blocks ∧
      x'.fei_out.len.toNat = w.blocks ∧ (∀ i < w.blocks, 0 < (x'.fpi.tuple i).size) ∧
      ∑ i ∈ Finset.range w.blocks, (x'.fpi.tuple i).size = w.size.toNat ∧
      (∀ i < w.blocks,
        w.pieceStart x'.fpi i / BLOCK_SIZE.toNat = w.off / BLOCK_SIZE.toNat + i ∧
        (x'.fpi.tuple i).offset =
          x'.newBlock i * BLOCK_SIZE.toNat + w.pieceStart x'.fpi i % BLOCK_SIZE.toNat ∧
        w.pieceStart x'.fpi i % BLOCK_SIZE.toNat + (x'.fpi.tuple i).size ≤ BLOCK_SIZE.toNat) ∧
      (∀ data_buffer data, x'.fpi.write data_buffer data =
        (List.range w.size.toNat).foldl (fun data j ↦
          Function.update data (locate BLOCK_SIZE.toNat w.off x'.newBlock j) (data_buffer j)) data) ∧
      (x'.created.Nodup → ∀ data_buffer data, ∀ j < w.size.toNat,
        x'.fpi.write data_buffer data (locate BLOCK_SIZE.toNat w.off x'.newBlock j) =
          data_buffer j) := by
  obtain ⟨haccepted, t, hcreate, hlength, hresult⟩ := result_of_success h
  have hB : 0 < BLOCK_SIZE.toNat := by decide
  have hsize := size_pos haccepted
  have hless : w.blocks < 2 ^ 32 := hblocks.trans_lt (by decide)
  have htuple (i : ℕ) (hi : i < w.blocks) := tuple_eq hresult hlength hi
  -- the pieces before a piece end where it begins
  have hstart (i : ℕ) (hi : i ≤ w.blocks) :
      w.pieceStart x'.fpi i = mark BLOCK_SIZE.toNat w.off w.size.toNat i := by
    have hmono : Monotone (mark BLOCK_SIZE.toNat w.off w.size.toNat) := fun _ _ ↦ mark_mono
    have hsum : ∑ k ∈ Finset.range i, (x'.fpi.tuple k).size =
        mark BLOCK_SIZE.toNat w.off w.size.toNat i -
          mark BLOCK_SIZE.toNat w.off w.size.toNat 0 := by
      rw [← Finset.sum_range_tsub hmono]
      refine Finset.sum_congr rfl fun k hk ↦ ?_
      rw [htuple k ((Finset.mem_range.mp hk).trans_le hi), ofRange, piece]
    rw [pieceStart, hsum, mark_zero]
    exact Nat.add_sub_cancel' le_mark
  refine ⟨⟨t, hcreate⟩, hlength, ?_, ?_, fun i hi ↦ ?_, ?_, fun i hi ↦ ?_,
    fun data_buffer data ↦ ?_, fun hnodup data_buffer data j hj ↦ ?_⟩
  · rw [hresult.fpi_len, UInt64.toNat_toUInt32, countExtraBlock_toNat haccepted]
    exact Nat.mod_eq_of_lt hless
  · rw [hresult.fei_len, countExtraBlock_toNat haccepted]
  · rw [htuple i hi, ofRange, piece]
    exact Nat.sub_pos_of_lt (mark_lt_succ hB hsize hi)
  · have hend := hstart w.blocks le_rfl
    rw [pieceStart, blocks, mark_touched hB hsize] at hend
    exact Nat.add_left_cancel hend
  · have hlo : (w.off / BLOCK_SIZE.toNat + i) * BLOCK_SIZE.toNat ≤
        mark BLOCK_SIZE.toNat w.off w.size.toNat i := block_le_mark hB hsize hi
    have hlt := mark_lt_succ hB hsize hi
    have hhi : mark BLOCK_SIZE.toNat w.off w.size.toNat (i + 1) ≤
        (w.off / BLOCK_SIZE.toNat + i + 1) * BLOCK_SIZE.toNat := mark_succ_le hB
    have hdiv : mark BLOCK_SIZE.toNat w.off w.size.toNat i / BLOCK_SIZE.toNat =
        w.off / BLOCK_SIZE.toNat + i := Nat.div_eq_of_lt_le hlo (hlt.trans_le hhi)
    have hmod := Nat.div_add_mod' (mark BLOCK_SIZE.toNat w.off w.size.toNat i) BLOCK_SIZE.toNat
    rw [hdiv] at hmod
    rw [Nat.succ_mul] at hhi
    rw [hstart i hi.le, htuple i hi, ofRange, piece]
    refine ⟨hdiv, ?_, ?_⟩
    · dsimp only
      rw [WriteState.newBlock]
      omega
    · dsimp only
      omega
  · rw [hresult.write_eq haccepted hlength hless, writeCells, List.foldl_map]
    rfl
  · exact hresult.write_place haccepted hlength hless hnodup data_buffer data hj

/-- A write of `BLOCK_SIZE` bytes that begins in block 0 of the file and ends in block 1, which are
blocks 0 and 1 of the data area. -/
def acrossTwo : ExtentWrite where
  size := 4096
  offset := 100
  fei_in := ⟨0, 2, UInt32.ofNat⟩

/-- The block table of a server with eight blocks, after the given number of creations. -/
def eightBlocks (n : ℕ) : Option (Table Unit) :=
  (Table.construct 8 BLOCK_SIZE.toNat (fun _ ↦ 0) (fun _ ↦ ()) Nat.succ).bind fun t ↦
    (Table.createAll n t).map Prod.fst

theorem eightBlocks_blockTable {n : ℕ} {t : Table Unit} (h : eightBlocks n = some t) :
    t.BlockTable := by
  obtain ⟨t₀, hconstruct, hall⟩ := Option.bind_eq_some_iff.mp h
  obtain ⟨⟨t', new, ok⟩, hcreate, heq⟩ := Option.map_eq_some_iff.mp hall
  obtain rfl : t' = t := heq
  exact (Table.blockTable_construct (by decide) (by decide) Nat.succ_injective
    hconstruct).of_createAll hcreate

/-- The state of a first call. -/
def firstCall (t : Table Unit) (data : ℕ → UInt8) : WriteState where
  tableBlock := t
  data := data
  fpi := ⟨0, fun _ ↦ ⟨0, 0⟩⟩
  fei_out := ⟨0, 0, fun _ ↦ 0⟩
  created := []
  copies := []

/-- The pieces of a write across two blocks. -/
theorem extentWrite_partitions_two :
    ∃ x x' : WriteState, acrossTwo.extentWrite x = some (x', true) ∧
      ∑ i ∈ Finset.range acrossTwo.blocks, (x'.fpi.tuple i).size = 4096 := by
  have hrun : ((eightBlocks 2).bind fun t ↦
      (acrossTwo.extentWrite (firstCall t fun _ ↦ 0)).map Prod.snd) = some true := by
    decide +kernel
  obtain ⟨t, -, hrun⟩ := Option.bind_eq_some_iff.mp hrun
  obtain ⟨⟨x', ok⟩, hwrite, hok⟩ := Option.map_eq_some_iff.mp hrun
  obtain rfl : ok = true := hok
  obtain ⟨-, -, -, -, -, hsum, -⟩ := extentWrite_partitions _ _ x' (by decide +kernel) hwrite
  exact ⟨_, x', hwrite, hsum⟩

end ExtentWrite

end SwitchDelta.Fs
