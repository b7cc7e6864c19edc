import SwitchDelta.Foundation.Transition
import SwitchDelta.Fs.Metadata

/-!
# What a metadata update changes

An update should enter its blocks, mark the blocks between the old end of the file and its own first
block as holes, and leave all other extents as they are (`Framed`).

The loop that marks the holes begins at the last block of the file, which it turns into a hole if
the update starts behind it. For a file without blocks, `count - 1` wraps around and the loop does
not run, so the extents in front of the update keep what was in the memory of the new file.
-/

set_option autoImplicit false
set_option relaxedAutoImplicit false

namespace SwitchDelta.Fs

open Foundation

namespace FileMeta

/-- What an update should make of the metadata of a file. -/
structure Framed (m : FileMeta) (u : MetaUpdateReq) (m' : FileMeta) : Prop where
  covered : ∀ b, u.Covers b → m'.tuple b = ⟨u.extent b, 1⟩
  below : ∀ b < m.count.toNat, ¬u.Covers b → m'.tuple b = m.tuple b
  between : ∀ b, m.count.toNat ≤ b → b < u.begin_id.toNat → (m'.tuple b).countExtentBlock = 0
  count : m'.count.toNat = max m.count.toNat (u.begin_id.toNat + u.fei.len.toNat)
  size : m'.size.toNat = max m.size.toNat (u.offset.toNat + u.size.toNat)
  timeLastModified : m.timeLastModified ≤ m'.timeLastModified

/-- One update. -/
def Step (m : FileMeta) (u : MetaUpdateReq) (m' : FileMeta) : Prop :=
  m.extentMetaWrite u = some m'

/-- The metadata of a new file. Its extents are what was in memory. -/
structure New (m : FileMeta) : Prop where
  count : m.count = 0
  size : m.size = 0

/-- The metadata of a file that has been new, after any number of accepted updates. -/
def Grown (m : FileMeta) : Prop :=
  ∃ init, New init ∧ Reachable init Step (fun _ u ↦ u.Accepted) m

/-! ### One update -/

section Update

variable {m m' : FileMeta} {u : MetaUpdateReq} {b : ℕ}

/-- The size afterwards. -/
theorem updated_size (haccepted : u.Accepted) :
    (m.updated u).size.toNat = max m.size.toNat (u.offset.toNat + u.size.toNat) := by
  have hone : (1 : UInt64).toNat = 1 := rfl
  have hsum := toNat_add_of_le haccepted.size_le
  have hlast := toNat_add_sub_one haccepted.size_ne haccepted.size_le
  change (m.sizeAfter u).toNat = _
  rw [sizeAfter]
  split_ifs with hgrows hmore
  · rw [hsum]
    refine (max_eq_right ?_).symm
    rcases hgrows with hempty | hblocks
    · rw [hempty]
      exact Nat.zero_le _
    · -- a later block lies behind the end of the file
      by_contra hless
      have hpos : 0 < m.size.toNat := by omega
      have hle : 1 ≤ m.size := UInt64.le_iff_toNat_le.mpr hpos
      have hgt := UInt64.lt_iff_toNat_lt.mp hblocks
      rw [UInt64.toNat_div, UInt64.toNat_div, hlast, UInt64.toNat_sub_of_le _ _ hle, hone] at hgt
      exact absurd hgt (Nat.not_lt.mpr (Nat.div_le_div_right (by omega)))
  · rw [hsum]
    have hgt := UInt64.lt_iff_toNat_lt.mp hmore
    omega
  · have hle := UInt64.le_iff_toNat_le.mp (UInt64.not_lt.mp hmore)
    omega

/-- What the two loops leave in a tuple, without wrapping. -/
theorem updated_tuple (haccepted : u.Accepted) : (m.updated u).tuple b =
    if u.Covers b then ⟨u.extent b, 1⟩
    else if m.count ≠ 0 ∧ m.count.toNat ≤ b + 1 ∧ b + 1 < u.begin_id.toNat + u.fei.len.toNat then
      { m.tuple b with countExtentBlock := 0 }
    else m.tuple b := by
  have hone : (1 : UInt64).toNat = 1 := rfl
  have hmax : MAX_FILE_EXTENT_COUNT.toNat = 64 := rfl
  have hfits := haccepted.fits
  have hlen := haccepted.len_pos
  change m.tupleAfter u b = _
  rw [tupleAfter, haccepted.bound_toNat]
  refine ite_congr rfl (fun _ ↦ rfl) fun _ ↦ if_congr ?_ rfl rfl
  by_cases hzero : m.count = 0
  · -- the first index of the loop wraps around
    have hwrap : (m.count - 1).toNat = 2 ^ 64 - 1 := by
      rw [hzero]
      rfl
    rw [hwrap]
    refine iff_of_false ?_ fun h ↦ h.1 hzero
    omega
  · have hpos : 0 < m.count.toNat := Nat.pos_of_ne_zero fun h ↦ hzero (UInt64.toNat_inj.mp h)
    have hle : 1 ≤ m.count := UInt64.le_iff_toNat_le.mpr hpos
    rw [UInt64.toNat_sub_of_le _ _ hle, hone, and_iff_right hzero]
    omega

/-- Only the marks for holes can be wrong: the one on the last block of the file, and those of a
file without blocks. -/
theorem updated_framed_iff (haccepted : u.Accepted) : m.Framed u (m.updated u) ↔
    (m.count = 0 → ∀ b < u.begin_id.toNat, (m.tuple b).countExtentBlock = 0) ∧
      (m.count ≠ 0 → u.begin_id.toNat < m.count.toNat ∨
        (m.tuple (m.count.toNat - 1)).countExtentBlock = 0) := by
  have hlen := haccepted.len_pos
  have hpos : m.count ≠ 0 → 0 < m.count.toNat := fun h ↦
    Nat.pos_of_ne_zero fun hzero ↦ h (UInt64.toNat_inj.mp hzero)
  have hnot {b : ℕ} (hb : b < u.begin_id.toNat) : ¬u.Covers b := fun hcovers ↦
    absurd hcovers.1 (Nat.not_le.mpr hb)
  constructor
  · intro h
    refine ⟨fun hzero b hb ↦ ?_, fun hcount ↦ ?_⟩
    · have hhole := h.between b (by rw [hzero]; exact Nat.zero_le b) hb
      rwa [updated_tuple haccepted, if_neg (hnot hb), if_neg fun hloop ↦ hloop.1 hzero] at hhole
    · by_contra hboth
      obtain ⟨hbegin, hused⟩ := not_or.mp hboth
      have hlast := hpos hcount
      have hkept := h.below (m.count.toNat - 1) (by omega) (hnot (by omega))
      rw [updated_tuple haccepted, if_neg (hnot (by omega)), if_pos ⟨hcount, by omega, by omega⟩]
        at hkept
      exact hused (congrArg FileMetaTuple.countExtentBlock hkept).symm
  · rintro ⟨hnone, hsome⟩
    refine ⟨fun b hb ↦ ?_, fun b hb hcovers ↦ ?_, fun b hlo hhi ↦ ?_, updated_count haccepted,
      updated_size haccepted, ?_⟩
    · rw [updated_tuple haccepted, if_pos hb]
    · rw [updated_tuple haccepted, if_neg hcovers]
      split_ifs with hloop
      · obtain ⟨hcount, hlo, hhi⟩ := hloop
        rcases hsome hcount with hbegin | hempty
        · exact absurd ⟨by omega, by omega⟩ hcovers
        · obtain rfl : b = m.count.toNat - 1 := by omega
          rw [← hempty]
      · rfl
    · rw [updated_tuple haccepted, if_neg (hnot hhi)]
      split_ifs with hloop
      · rfl
      · by_cases hcount : m.count = 0
        · exact hnone hcount b hhi
        · exact absurd ⟨hcount, by omega, by omega⟩ hloop
    · rw [updated]
      dsimp only
      split_ifs with hless
      · exact hless.le
      · exact le_rfl

/-- The last block of a file is not a hole. -/
def LastUsed (m : FileMeta) : Prop :=
  m.count ≠ 0 → (m.tuple (m.count.toNat - 1)).countExtentBlock = 1

theorem LastUsed.updated (hlast : m.LastUsed) (haccepted : u.Accepted) :
    (m.updated u).LastUsed := by
  intro hcount
  have hlen := haccepted.len_pos
  rw [updated_count haccepted, updated_tuple haccepted]
  by_cases hgrows : m.count.toNat ≤ u.begin_id.toNat + u.fei.len.toNat
  · have hcovers : u.Covers (max m.count.toNat (u.begin_id.toNat + u.fei.len.toNat) - 1) := by
      rw [max_eq_right hgrows]
      exact ⟨by omega, by omega⟩
    rw [if_pos hcovers]
  · have hless := Nat.not_le.mp hgrows
    have hold : m.count ≠ 0 := by
      rintro hzero
      rw [hzero] at hless
      exact absurd hless (Nat.not_lt_zero _)
    rw [max_eq_left hless.le, if_neg fun hcovers ↦ absurd hcovers.2 (by omega),
      if_neg fun hloop ↦ absurd hloop.2.2 (by omega)]
    exact hlast hold

theorem Grown.lastUsed (h : m.Grown) : m.LastUsed := by
  obtain ⟨init, hnew, hrun⟩ := h
  refine hrun.invariant LastUsed (fun hcount ↦ absurd hnew.count hcount) ?_
  intro m u m' _ hlast haccepted hstep
  rw [Step, extentMetaWrite_eq haccepted] at hstep
  obtain rfl := Option.some.inj hstep
  exact hlast.updated haccepted

end Update

/-- An accepted update of a file changes what it should and nothing else exactly if it starts at a
block of the file, or the file has no block and what was in its memory are holes. -/
theorem framed_iff (m : FileMeta) (hm : m.Grown) (u : MetaUpdateReq) (haccepted : u.Accepted) :
    (∃ m', m.extentMetaWrite u = some m' ∧ m.Framed u m') ↔
      u.begin_id.toNat < m.count.toNat ∨
        m.count = 0 ∧ ∀ b < u.begin_id.toNat, (m.tuple b).countExtentBlock = 0 := by
  have hstep := extentMetaWrite_eq (m := m) haccepted
  have hiff : (∃ m', m.extentMetaWrite u = some m' ∧ m.Framed u m') ↔ m.Framed u (m.updated u) := by
    rw [hstep]
    exact ⟨fun ⟨m', hsome, h⟩ ↦ Option.some.inj hsome ▸ h, fun h ↦ ⟨_, rfl, h⟩⟩
  rw [hiff, updated_framed_iff haccepted]
  by_cases hcount : m.count = 0
  · have hnot : ¬u.begin_id.toNat < m.count.toNat := by
      rw [hcount]
      exact Nat.not_lt_zero _
    exact ⟨fun h ↦ Or.inr ⟨hcount, h.1 hcount⟩, fun h ↦
      ⟨fun _ ↦ (h.resolve_left hnot).2, fun hne ↦ absurd hcount hne⟩⟩
  · have hused := hm.lastUsed hcount
    rw [and_iff_right fun hzero ↦ absurd hzero hcount]
    constructor
    · intro h
      refine Or.inl ((h hcount).resolve_right fun hempty ↦ ?_)
      rw [hempty] at hused
      exact absurd hused (by decide)
    · rintro (hless | ⟨hzero, -⟩)
      · exact fun _ ↦ Or.inl hless
      · exact absurd hzero hcount

/-- An update of one block. -/
def blockAt (b : UInt64) : MetaUpdateReq where
  fei := ⟨0, 1, fun _ ↦ 7⟩
  path := []
  size := 4096
  offset := b * 4096

/-- A new file in zeroed memory. -/
def zeroed : FileMeta := ⟨0, 0, 0, fun _ ↦ ⟨0, 0⟩⟩

/-- The first update of a new file. -/
theorem framed_iff_first :
    ∃ m', zeroed.extentMetaWrite (blockAt 2) = some m' ∧ zeroed.Framed (blockAt 2) m' :=
  (framed_iff zeroed ⟨zeroed, ⟨rfl, rfl⟩, Reachable.init⟩ (blockAt 2)
    ⟨by decide, by decide, by decide, by decide⟩).mpr (Or.inr ⟨rfl, fun _ _ ↦ rfl⟩)

/-- After an update of block 0, one of block 2 makes a hole of block 0. -/
theorem unmaps_last_block : ∃ m m', Grown m ∧ m.extentMetaWrite (blockAt 2) = some m' ∧
    (m.tuple 0).countExtentBlock = 1 ∧ (m'.tuple 0).countExtentBlock = 0 ∧
      ¬m.Framed (blockAt 2) m' := by
  have hfirst : (blockAt 0).Accepted := ⟨by decide, by decide, by decide, by decide⟩
  have hthird : (blockAt 2).Accepted := ⟨by decide, by decide, by decide, by decide⟩
  have hused : ((zeroed.updated (blockAt 0)).tuple 0).countExtentBlock = 1 := by decide +kernel
  have hhole : (((zeroed.updated (blockAt 0)).updated (blockAt 2)).tuple 0).countExtentBlock = 0 := by
    decide +kernel
  refine ⟨_, _, ⟨zeroed, ⟨rfl, rfl⟩, Reachable.init.step hfirst (extentMetaWrite_eq hfirst)⟩,
    extentMetaWrite_eq hthird, hused, hhole, fun h ↦ ?_⟩
  have hkept := h.below 0 (by decide +kernel) fun hcovers ↦
    absurd hcovers.1 (by decide +kernel)
  have hsame := congrArg FileMetaTuple.countExtentBlock hkept
  rw [hused, hhole] at hsame
  exact absurd hsame (by decide)

end FileMeta

end SwitchDelta.Fs
