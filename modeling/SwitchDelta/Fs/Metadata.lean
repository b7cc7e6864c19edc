import SwitchDelta.Fs.HashTable

/-!
# File metadata

The metadata of a file maps its blocks to blocks of the data server. A write of a client reaches the
metadata server as a `MetaUpdateReq`, which names the blocks that were allocated for the written
range, and `extentMetaWrite` enters them into the metadata.

The loop of `extentMetaWrite` that marks the blocks between the old end of the file and the update as
holes starts one block too early, so an update that starts behind the last block of the file unmaps
that block.
-/

set_option autoImplicit false
set_option relaxedAutoImplicit false

namespace SwitchDelta.Fs

/-- `BLOCK_SIZE`. -/
def BLOCK_SIZE : UInt64 := 4 * 1024

/-- `MAX_FILE_EXTENT_COUNT`, the number of blocks that the metadata of a file has room for. -/
def MAX_FILE_EXTENT_COUNT : UInt64 := 64

/-- `MAX_MESSAGE_BLOCK_COUNT`, the number of block ids that a message has room for. -/
def MAX_MESSAGE_BLOCK_COUNT : UInt64 := 12

/-- A range that passes the check for an overflow ends within 64 bits. -/
theorem toNat_add_of_le {offset size : UInt64} (h : size ≤ 0xFFFFFFFFFFFFFFFF - offset) :
    (offset + size).toNat = offset.toNat + size.toNat := by
  have hmax : (0xFFFFFFFFFFFFFFFF : UInt64).toNat = 2 ^ 64 - 1 := rfl
  have hlt := offset.toNat_lt
  have hoffset : offset ≤ 0xFFFFFFFFFFFFFFFF := by
    rw [UInt64.le_iff_toNat_le, hmax]
    omega
  have hle := UInt64.le_iff_toNat_le.mp h
  rw [UInt64.toNat_sub_of_le _ _ hoffset, hmax] at hle
  rw [UInt64.toNat_add]
  exact Nat.mod_eq_of_lt (by omega)

/-- The last position of a range that is not empty. -/
theorem toNat_add_sub_one {offset size : UInt64} (hsize : size ≠ 0)
    (h : size ≤ 0xFFFFFFFFFFFFFFFF - offset) :
    (offset + size - 1).toNat = offset.toNat + size.toNat - 1 := by
  have hone : (1 : UInt64).toNat = 1 := rfl
  have hpos : 0 < size.toNat := Nat.pos_of_ne_zero fun hzero ↦ hsize (UInt64.toNat_inj.mp hzero)
  have hend := toNat_add_of_le h
  rw [UInt64.toNat_sub_of_le, hend, hone]
  rw [UInt64.le_iff_toNat_le, hend, hone]
  omega

/-- `file_extent_info`, with the `block_id`s of its tuples. -/
structure FileExtentInfo where
  timeLastModified : ℤ
  len : UInt64
  tuple : ℕ → UInt32

/-- `FileMetaTuple`, without the node hash. -/
structure FileMetaTuple where
  indexExtentStartBlock : UInt32
  countExtentBlock : UInt32
  deriving DecidableEq

/-- `FileMeta`. Only the first `MAX_FILE_EXTENT_COUNT` tuples are part of the array. -/
structure FileMeta where
  timeLastModified : ℤ
  count : UInt64
  size : UInt64
  tuple : ℕ → FileMetaTuple

/-- `MetaUpdateReq`, without its header. -/
structure MetaUpdateReq where
  fei : FileExtentInfo
  path : Path
  size : UInt64
  offset : UInt64

/-- The block that an update starts at. -/
def MetaUpdateReq.begin_id (u : MetaUpdateReq) : UInt64 := u.offset / BLOCK_SIZE

/-! ### `extentMetaWrite` -/

/-- The size that `extentMetaWrite` gives a file. -/
def FileMeta.sizeAfter (m : FileMeta) (u : MetaUpdateReq) : UInt64 :=
  if m.size = 0 ∨ (u.offset + u.size - 1) / BLOCK_SIZE > (m.size - 1) / BLOCK_SIZE then
    u.offset + u.size
  else if u.offset + u.size > m.size then u.offset + u.size
  else m.size

/-- What the two loops of `extentMetaWrite` leave in a tuple: the first one runs from `count - 1` to
`begin_id + len - 2` and marks holes, the second one enters the blocks of the update. -/
def FileMeta.tupleAfter (m : FileMeta) (u : MetaUpdateReq) (i : ℕ) : FileMetaTuple :=
  if u.begin_id.toNat ≤ i ∧ i < u.begin_id.toNat + u.fei.len.toNat then
    { indexExtentStartBlock := u.fei.tuple (i - u.begin_id.toNat), countExtentBlock := 1 }
  else if (m.count - 1).toNat ≤ i ∧ i < (u.begin_id + u.fei.len - 1).toNat then
    { m.tuple i with countExtentBlock := 0 }
  else m.tuple i

/-- The metadata that `extentMetaWrite` puts back. -/
def FileMeta.updated (m : FileMeta) (u : MetaUpdateReq) : FileMeta where
  size := m.sizeAfter u
  tuple := m.tupleAfter u
  count := if m.count < u.begin_id + u.fei.len then u.begin_id + u.fei.len else m.count
  timeLastModified :=
    if m.timeLastModified < u.fei.timeLastModified then u.fei.timeLastModified
    else m.timeLastModified

/-- The part of `FileSystem::extentMetaWrite` that works on the metadata of a file, with `none` where
it refuses the update. -/
def FileMeta.extentMetaWrite (m : FileMeta) (u : MetaUpdateReq) : Option FileMeta :=
  if 0xFFFFFFFFFFFFFFFF - u.offset < u.size ∨ u.size = 0 then none else some (m.updated u)

/-- The files of a metadata server by the unique hash of their path, as the hash table and the table
of the file metadata give them. -/
abbrev Files := UniqueHash → Option FileMeta

/-- `FileSystem::extentMetaWrite`. -/
def extentMetaWrite (sha256 : Path → UniqueHash) (files : Files) (u : MetaUpdateReq) :
    Files × Bool :=
  match (files (sha256 u.path)).bind fun m ↦ m.extentMetaWrite u with
  | none => (files, false)
  | some m => (Function.update files (sha256 u.path) (some m), true)

/-! ### What the blocks of a file are mapped to -/

/-- The data block of a block of the file, as a reader of the metadata finds it. -/
def FileMeta.block (m : FileMeta) (b : ℕ) : Option UInt32 :=
  if b < m.count.toNat ∧ (m.tuple b).countExtentBlock ≠ 0 then
    some (m.tuple b).indexExtentStartBlock
  else none

namespace MetaUpdateReq

/-- The update names a data block for a block of the file. -/
def Covers (u : MetaUpdateReq) (b : ℕ) : Prop :=
  u.begin_id.toNat ≤ b ∧ b < u.begin_id.toNat + u.fei.len.toNat

instance (u : MetaUpdateReq) (b : ℕ) : Decidable (u.Covers b) := inferInstanceAs (Decidable (_ ∧ _))

/-- The data block that the update names. -/
def extent (u : MetaUpdateReq) (b : ℕ) : UInt32 := u.fei.tuple (b - u.begin_id.toNat)

/-- An update that `extentMetaWrite` accepts, for the blocks of a data server: there is at least one,
and they fit into the metadata. -/
structure Accepted (u : MetaUpdateReq) : Prop where
  size_ne : u.size ≠ 0
  size_le : u.size ≤ 0xFFFFFFFFFFFFFFFF - u.offset
  len_pos : 0 < u.fei.len.toNat
  fits : u.begin_id.toNat + u.fei.len.toNat ≤ MAX_FILE_EXTENT_COUNT.toNat

/-- An update as the clients send it: a range that is not empty and does not overflow, whose blocks
fit into the message and into the metadata. -/
structure Valid (u : MetaUpdateReq) : Prop where
  size_ne : u.size ≠ 0
  size_le : u.size ≤ 0xFFFFFFFFFFFFFFFF - u.offset
  len_pos : 0 < u.fei.len.toNat
  len_le : u.fei.len ≤ MAX_MESSAGE_BLOCK_COUNT
  fits : u.begin_id.toNat + u.fei.len.toNat ≤ MAX_FILE_EXTENT_COUNT.toNat

/-- The update leaves no gap behind the file: it starts at one of its blocks, or the file has none. -/
def Adjoins (u : MetaUpdateReq) (m : FileMeta) : Prop :=
  m.count = 0 ∨ u.begin_id.toNat < m.count.toNat

end MetaUpdateReq

section Blocks

variable {m : FileMeta} {u : MetaUpdateReq} {b : ℕ}

theorem MetaUpdateReq.Valid.accepted (hvalid : u.Valid) : u.Accepted :=
  ⟨hvalid.size_ne, hvalid.size_le, hvalid.len_pos, hvalid.fits⟩

theorem FileMeta.extentMetaWrite_eq (haccepted : u.Accepted) :
    m.extentMetaWrite u = some (m.updated u) := by
  rw [FileMeta.extentMetaWrite, if_neg]
  exact not_or.mpr ⟨UInt64.not_lt.mpr haccepted.size_le, haccepted.size_ne⟩

/-- The end of the update, without wrapping. -/
theorem MetaUpdateReq.Accepted.end_toNat (haccepted : u.Accepted) :
    (u.begin_id + u.fei.len).toNat = u.begin_id.toNat + u.fei.len.toNat := by
  have hfits := haccepted.fits
  rw [UInt64.toNat_add]
  refine Nat.mod_eq_of_lt (lt_of_le_of_lt hfits ?_)
  decide

/-- The bound of the first loop, without wrapping. -/
theorem MetaUpdateReq.Accepted.bound_toNat (haccepted : u.Accepted) :
    (u.begin_id + u.fei.len - 1).toNat = u.begin_id.toNat + u.fei.len.toNat - 1 := by
  have hone : (1 : UInt64).toNat = 1 := rfl
  have hpos : 1 ≤ u.begin_id + u.fei.len := by
    rw [UInt64.le_iff_toNat_le, haccepted.end_toNat]
    exact le_add_left haccepted.len_pos
  rw [UInt64.toNat_sub_of_le _ _ hpos, haccepted.end_toNat, hone]

/-- The number of blocks afterwards. -/
theorem FileMeta.updated_count (haccepted : u.Accepted) :
    (m.updated u).count.toNat = max m.count.toNat (u.begin_id.toNat + u.fei.len.toNat) := by
  rw [← haccepted.end_toNat, FileMeta.updated]
  dsimp only
  split_ifs with hlt
  · exact (max_eq_right (UInt64.le_iff_toNat_le.mp (UInt64.le_of_lt hlt))).symm
  · exact (max_eq_left (UInt64.le_iff_toNat_le.mp (UInt64.not_lt.mp hlt))).symm

/-- The blocks that an update covers are mapped to its data blocks. -/
theorem FileMeta.block_of_covers (hvalid : u.Valid) (hb : u.Covers b) :
    (m.updated u).block b = some (u.extent b) := by
  have hlt : b < (m.updated u).count.toNat := by
    rw [FileMeta.updated_count hvalid.accepted]
    exact lt_of_lt_of_le hb.2 (le_max_right _ _)
  have htuple : (m.updated u).tuple b = ⟨u.extent b, 1⟩ := if_pos hb
  rw [FileMeta.block, htuple, if_pos ⟨hlt, (by decide : (1 : UInt32) ≠ 0)⟩]

/-- A mapped block that the update does not cover stays as it is, if the update leaves no gap. -/
theorem FileMeta.block_of_not_covers (hvalid : u.Valid) (hadjoins : u.Adjoins m) (hb : ¬u.Covers b)
    {x : UInt32} (hx : m.block b = some x) : (m.updated u).block b = some x := by
  rw [FileMeta.block] at hx
  split_ifs at hx with hmapped
  obtain ⟨hlt, hused⟩ := hmapped
  have hlt' : b < (m.updated u).count.toNat := by
    rw [FileMeta.updated_count hvalid.accepted]
    exact lt_of_lt_of_le hlt (le_max_left _ _)
  -- the first loop stays within the blocks that the second one enters
  have hloop : ¬((m.count - 1).toNat ≤ b ∧ b < (u.begin_id + u.fei.len - 1).toNat) := by
    rintro ⟨hlo, hhi⟩
    have hone : (1 : UInt64).toNat = 1 := rfl
    have hpos : 1 ≤ m.count := UInt64.le_iff_toNat_le.mpr (Nat.one_le_of_lt hlt)
    rw [UInt64.toNat_sub_of_le _ _ hpos] at hlo
    rw [hvalid.accepted.bound_toNat] at hhi
    rcases hadjoins with hzero | hbegin
    · rw [hzero] at hlt
      exact absurd hlt (Nat.not_lt_zero _)
    · exact hb ⟨by omega, by omega⟩
  have htuple : (m.updated u).tuple b = m.tuple b := (if_neg hb).trans (if_neg hloop)
  rw [FileMeta.block, htuple, if_pos ⟨hlt', hused⟩, hx]

end Blocks

end SwitchDelta.Fs
