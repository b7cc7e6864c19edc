import SwitchDelta.Foundation.Transition
import SwitchDelta.Fs.CopyOnWrite

/-!
# The data server

The threads of a data server serve `kEnumAppendReq` side by side, over one block table and one data
area. A thread creates the blocks of its write one after the other, copies into each what the range
leaves of the old block, stores the bytes of the request, piece after piece, and posts a
`MetaUpdateReq` that names the new blocks. Between any two of these steps the other threads may have
created, copied and stored.

`replies_kept` is what a reply stands for: the blocks that it names belong to it alone, they hold
the bytes of the request, and no later step changes a byte of them. So a reply names a version of
its blocks. `versions_kept` is about the rest of these blocks: where the write started from the
blocks of an earlier reply, the new ones hold the bytes of that version around its range.

The blocks must not be used up, because `create` goes on with blocks in use. The range must be one
that `extentWrite` accepts, because the server stores all the same when it does not, to addresses that
nothing has written. And the copy behind the end of a range goes to an address that is computed from
the first tuple, so a range of several blocks has to begin or to end with a block to stay in its own
blocks.
-/

set_option autoImplicit false
set_option relaxedAutoImplicit false

namespace SwitchDelta.Fs

open Foundation

/-! ### The model -/

/-- A write on its way through a thread of the data server: the request, `fpi` and `fei_out`, and the
blocks that have been created for it. `seen` is the number of replies that the server had posted when
the request came. -/
structure Writing where
  req : ExtentWrite
  path : Path
  data_buffer : ℕ → UInt8
  fpi : FilePosInfo
  fei_out : FileExtentInfo
  created : List ℕ
  seen : ℕ

namespace Writing

/-- The `MetaUpdateReq` that is the reply. -/
def reply (v : Writing) : MetaUpdateReq where
  fei := v.fei_out
  path := v.path
  size := v.req.size
  offset := v.req.offset

/-- What `extentWrite` works on. -/
def state (v : Writing) (tableBlock : Table Unit) (data : ℕ → UInt8) : WriteState where
  tableBlock := tableBlock
  data := data
  fpi := v.fpi
  fei_out := v.fei_out
  created := v.created
  copies := []

/-- What `extentWrite` leaves for the thread. -/
def take (v : Writing) (x : WriteState) : Writing :=
  { v with
    fpi := x.fpi
    fei_out := x.fei_out
    created := x.created }

/-- The `i`-th block that the reply names. -/
def named (v : Writing) (i : ℕ) : ℕ := (v.reply.fei.tuple i).toNat

end Writing

/-- Where a thread of the data server is. In the loop of the server it counts the pieces and the
bytes that it has stored. -/
inductive DataPc
  | idle
  | creating (v : Writing)
  | allocated (v : Writing) (index : ℕ)
  | storing (v : Writing) (i offset : ℕ)

/-- The data server. -/
structure DataServer (T : Type*) where
  tableBlock : Table Unit
  data : ℕ → UInt8
  pc : T → DataPc
  replies : List Writing

/-- A thread receives a request, or goes on. What it finds in its `fpi` is arbitrary. -/
inductive DataEvent (T : Type*)
  | receive (t : T) (req : ExtentWrite) (path : Path) (data_buffer : ℕ → UInt8) (fpi : FilePosInfo)
  | step (t : T)

/-- The body of `extentWrite` for a block that has been created. -/
def ExtentWrite.place (w : ExtentWrite) (x : WriteState) (index : ℕ) : WriteState :=
  if w.countExtraBlock = 1 then w.writeOnly x index else w.writeBlock x.created.length x index

namespace Writing

/-- The head of the loop of `extentWrite`. -/
def next (v : Writing) : DataPc :=
  if v.created.length < v.req.countExtraBlock.toNat then .creating v else .storing v 0 0

/-- The begin of `extentWrite`. The reply starts as a copy of the request. -/
def begin (req : ExtentWrite) (path : Path) (data_buffer : ℕ → UInt8) (fpi : FilePosInfo)
    (seen : ℕ) : DataPc :=
  let v : Writing := ⟨req, path, data_buffer, fpi, req.fei_in, [], seen⟩
  if req.Rejected then .storing v 0 0
  else
    { v with
      fpi := { fpi with len := req.countExtraBlock.toUInt32 }
      fei_out := { req.fei_in with len := req.countExtraBlock } : Writing }.next

end Writing

namespace DataServer

variable {T : Type*} [DecidableEq T]

/-- The next step of a thread. -/
def advance (s : DataServer T) (t : T) : Option (DataServer T) :=
  match s.pc t with
  | .idle => none
  | .creating v => (s.tableBlock.create true).map fun
    | (table, none) =>
      { s with tableBlock := table, pc := Function.update s.pc t (.storing v 0 0) }
    | (table, some index) =>
      { s with tableBlock := table, pc := Function.update s.pc t (.allocated v index) }
  | .allocated v index =>
    let x := v.req.place (v.state s.tableBlock s.data) index
    some { s with data := x.data, pc := Function.update s.pc t (v.take x).next }
  | .storing v i offset =>
    if i < v.fpi.len.toNat then
      let tuple := v.fpi.tuple i
      some { s with
        data := store s.data tuple.offset (fun k ↦ v.data_buffer (offset + k)) tuple.size
        pc := Function.update s.pc t (.storing v (i + 1) (offset + tuple.size)) }
    else some { s with replies := s.replies ++ [v], pc := Function.update s.pc t .idle }

/-- An event of the data server. -/
def step (s : DataServer T) : DataEvent T → Option (DataServer T)
  | .receive t req path data_buffer fpi =>
    match s.pc t with
    | .idle => some { s with
        pc := Function.update s.pc t
          (Writing.begin req path data_buffer fpi s.replies.length) }
    | _ => none
  | .step t => s.advance t

end DataServer

/-! ### The writes of a run -/

/-- A request that stays in its own blocks: it is accepted, its blocks fit into the messages, and if
there are several, it begins or ends with a block. -/
structure ExtentWrite.Contained (w : ExtentWrite) : Prop where
  accepted : ¬w.Rejected
  fits : w.blocks ≤ MAX_MESSAGE_BLOCK_COUNT.toNat
  ends : w.blocks = 1 ∨ w.head = 0 ∨ w.tail = 0

/-- A request for which `extentWrite` finds what the range leaves of the old blocks. -/
structure ExtentWrite.Simple (w : ExtentWrite) : Prop where
  ends : w.blocks = 1 ∨ w.tail = 0
  small : w.oldBlock 0 < 2 ^ 20

namespace Writing

/-- A write as the blocks created so far have left it. -/
structure Prepared (v : Writing) : Prop where
  contained : v.req.Contained
  length : v.created.length ≤ v.req.blocks
  nodup : v.created.Nodup
  fpi_len : v.fpi.len = v.req.countExtraBlock.toUInt32
  fei_len : v.fei_out.len = v.req.countExtraBlock
  tuple : ∀ i index, v.created[i]? = some index → v.fpi.tuple i =
    ExtentWrite.ofRange (piece BLOCK_SIZE.toNat v.req.off v.req.size.toNat (fun _ ↦ index) i)
  ids : ∀ i index, v.created[i]? = some index → v.fei_out.tuple i = UInt32.ofNat index

/-- The `i`-th block of a write. -/
def block (v : Writing) (i : ℕ) : ℕ := v.created.getD i 0

/-- The range of the `i`-th piece. -/
def range (v : Writing) (i : ℕ) : ℕ × ℕ :=
  piece BLOCK_SIZE.toNat v.req.off v.req.size.toNat v.block i

/-- How many bytes of the request come before the `i`-th piece. -/
def before (v : Writing) (i : ℕ) : ℕ :=
  mark BLOCK_SIZE.toNat v.req.off v.req.size.toNat i - v.req.off

/-- The data area once the `i`-th piece is stored. -/
def storePiece (v : Writing) (data : ℕ → UInt8) (i : ℕ) : ℕ → UInt8 :=
  store data (v.range i).1 (fun k ↦ v.data_buffer (v.before i + k)) (v.range i).2

/-- The first bytes of the request are where they belong. -/
def Stored (v : Writing) (data : ℕ → UInt8) (offset : ℕ) : Prop :=
  ∀ j < offset, data (locate BLOCK_SIZE.toNat v.req.off v.block j) = v.data_buffer j

/-- The first block that the request names is one of an earlier reply. -/
def Based (v : Writing) (replies : List Writing) : Prop :=
  ∃ u ∈ replies.take v.seen, v.req.oldBlock 0 ∈ u.created

/-- Around the range, the first new block has the bytes of the old one. -/
def Copied (v : Writing) (data : ℕ → UInt8) (replies : List Writing) : Prop :=
  v.req.Simple → v.Based replies → v.created ≠ [] → ∀ p < BLOCK_SIZE.toNat, ¬v.req.InRange 0 p →
    data (v.block 0 * BLOCK_SIZE.toNat + p) = data (v.req.oldBlock 0 * BLOCK_SIZE.toNat + p)

/-- A write on its way. -/
structure Underway (v : Writing) (data : ℕ → UInt8) (replies : List Writing) : Prop where
  prepared : v.Prepared
  copied : v.Copied data replies
  seen : v.seen ≤ replies.length

/-- A write whose data is stored. -/
structure Finished (v : Writing) (data : ℕ → UInt8) (replies : List Writing) : Prop where
  underway : v.Underway data replies
  complete : v.created.length = v.req.blocks
  stored : v.Stored data v.req.size.toNat

end Writing

/-! ### One block -/

section Place

variable {w : ExtentWrite} {v : Writing} {x : WriteState} {index first start a : ℕ}
  {data : ℕ → UInt8} {tableBlock : Table Unit}

theorem div_of_block {b p : ℕ} (hp : p < BLOCK_SIZE.toNat) :
    (b * BLOCK_SIZE.toNat + p) / BLOCK_SIZE.toNat = b := by
  rw [Nat.add_comm, Nat.add_mul_div_right _ _ (by decide), Nat.div_eq_of_lt hp, Nat.zero_add]

namespace ExtentWrite

theorem copyHead_outside (h : ¬w.Rejected) (ha : a / BLOCK_SIZE.toNat ≠ index) :
    w.copyHead index data a = data a := by
  have hblock : BLOCK_SIZE.toNat = 4096 := rfl
  obtain ⟨-, hhead, -, -⟩ := range_ends h
  rw [copyHead]
  split_ifs with hpart
  · exact copy_outside (by rw [hblock] at hhead ha ⊢; omega)
  · rfl

/-- A copy behind the end stays in the first block if the range begins with it. -/
theorem copyTail_outside (h : ¬w.Rejected) (hends : w.head = 0 ∨ w.tail = 0)
    (ha : a / BLOCK_SIZE.toNat ≠ first) :
    w.copyTail (first * BLOCK_SIZE.toNat + w.head) data a = data a := by
  have hblock : BLOCK_SIZE.toNat = 4096 := rfl
  obtain ⟨-, -, htail, -⟩ := range_ends h
  rw [copyTail]
  split_ifs with hpart
  · rw [hends.resolve_right hpart]
    exact copy_outside (by rw [hblock] at htail ha ⊢; omega)
  · rfl

/-- The bytes of the first block in front of a range of several. -/
theorem lt_head (h : ¬w.Rejected) (hseveral : 1 < w.blocks) (htail : w.tail = 0) {p : ℕ}
    (hp : p < BLOCK_SIZE.toNat) (hout : ¬w.InRange 0 p) : p < w.head := by
  have hblock : BLOCK_SIZE.toNat = 4096 := rfl
  obtain ⟨hfirst, hhead, -, hend⟩ := range_ends h
  rw [if_pos htail, filePos] at hend
  rw [filePos] at hfirst
  rw [InRange, filePos] at hout
  rw [hblock] at hfirst hhead hend hp hout
  omega

end ExtentWrite

/-- What the body of `extentWrite` does for a block. -/
structure Placed (v : Writing) (data : ℕ → UInt8) (index : ℕ) (x : WriteState) : Prop where
  created : x.created = v.created ++ [index]
  fpi_len : x.fpi.len = v.req.countExtraBlock.toUInt32
  fei_len : x.fei_out.len = v.req.countExtraBlock
  tuple : ∀ i other, (v.created ++ [index])[i]? = some other → x.fpi.tuple i =
    ExtentWrite.ofRange (piece BLOCK_SIZE.toNat v.req.off v.req.size.toNat (fun _ ↦ other) i)
  ids : ∀ i other, (v.created ++ [index])[i]? = some other → x.fei_out.tuple i = UInt32.ofNat other
  outside : ∀ a, a / BLOCK_SIZE.toNat ∉ v.created ++ [index] → x.data a = data a
  around : (v.req.blocks = 1 ∨ v.req.tail = 0) → ∀ p < BLOCK_SIZE.toNat, ¬v.req.InRange 0 p →
    x.data ((v.created ++ [index]).getD 0 0 * BLOCK_SIZE.toNat + p) =
      if v.created = [] then data (v.req.source 0 + p)
      else data ((v.created ++ [index]).getD 0 0 * BLOCK_SIZE.toNat + p)

namespace Writing

theorem block_mem {i : ℕ} (hi : i < v.created.length) : v.block i ∈ v.created := by
  rw [Writing.block, List.getD_eq_getElem _ _ hi]
  exact List.getElem_mem hi

theorem before_zero : v.before 0 = 0 := by
  rw [Writing.before, mark_zero, Nat.sub_self]

/-- The pieces follow one another. -/
theorem before_succ {i : ℕ} : v.before i + (v.range i).2 = v.before (i + 1) := by
  have hle : v.req.off ≤ mark BLOCK_SIZE.toNat v.req.off v.req.size.toNat i := le_mark
  have hmono : mark BLOCK_SIZE.toNat v.req.off v.req.size.toNat i ≤
    mark BLOCK_SIZE.toNat v.req.off v.req.size.toNat (i + 1) := mark_mono (Nat.le_succ i)
  dsimp only [Writing.before, Writing.range, piece]
  omega

theorem before_le {i : ℕ} : v.before i ≤ v.req.size.toNat :=
  Nat.sub_le_iff_le_add'.mpr mark_le

end Writing

namespace Writing.Prepared

/-- The only block of a write. -/
theorem placed_only (h : v.Prepared) (hone : v.req.blocks = 1)
    (hlength : v.created.length < v.req.blocks) :
    Placed v data index (v.req.place (v.state tableBlock data) index) := by
  have hnil : v.created = [] := List.eq_nil_of_length_eq_zero (by omega)
  have hcount : v.req.countExtraBlock = 1 := by
    rw [← UInt64.toNat_inj, ExtentWrite.countExtraBlock_toNat h.contained.accepted, hone]
    rfl
  have hstart : v.req.start (v.state tableBlock data) = v.state tableBlock data := by
    rw [ExtentWrite.start, Writing.state, ← h.fpi_len, ← h.fei_len, hnil]
  have hfinish : v.req.place (v.state tableBlock data) index =
      v.req.finish (v.state tableBlock data) [index] := by
    rw [ExtentWrite.place, if_pos hcount, ExtentWrite.finish, if_pos hone, hstart]
  have hall : [index].length = v.req.blocks := hone.symm
  obtain ⟨hcreated, hfpi, hfei, htuple, hids, hdata, -⟩ :=
    ExtentWrite.finish_result (x := v.state tableBlock data) h.contained.accepted hall
  obtain ⟨-, hhead, -, -⟩ := ExtentWrite.range_ends h.contained.accepted
  rw [hfinish]
  refine ⟨?_, hfpi, hfei, ?_, ?_, fun a ha ↦ ?_, fun hends p hp hout ↦ ?_⟩
  · rw [hnil]
    exact hcreated
  · rw [hnil]
    exact htuple
  · rw [hnil]
    exact hids
  · rw [hnil, List.nil_append, List.mem_singleton] at ha
    rw [hdata]
    exact ExtentWrite.merge_other (Or.inl hone) hhead ha
  · rw [hnil, if_pos rfl, hdata]
    exact ExtentWrite.merge_first h.contained.accepted hends hall hp hout

/-- The first block of several. -/
theorem placed_first (h : v.Prepared) (hseveral : 1 < v.req.blocks) (hnil : v.created = []) :
    Placed v data index (v.req.place (v.state tableBlock data) index) := by
  have haccepted := h.contained.accepted
  have hcount : ¬v.req.countExtraBlock = 1 := fun hone ↦ by
    have hblocks := ExtentWrite.countExtraBlock_toNat haccepted
    rw [hone] at hblocks
    exact hseveral.ne hblocks
  have hlength : (v.state tableBlock data).created.length = 0 := by
    rw [Writing.state, hnil]
    rfl
  rw [ExtentWrite.place, if_neg hcount, hlength, ExtentWrite.writeBlock_zero haccepted hseveral]
  have hget (j other : ℕ) (hj : (v.created ++ [index])[j]? = some other) : j = 0 ∧ other = index := by
    rw [hnil] at hj
    obtain ⟨hbound, hother⟩ := List.getElem?_eq_some_iff.mp hj
    obtain rfl : j = 0 := Nat.lt_one_iff.mp hbound
    exact ⟨rfl, hother.symm⟩
  refine ⟨rfl, h.fpi_len, h.fei_len, fun j other hj ↦ ?_, fun j other hj ↦ ?_, fun a ha ↦ ?_,
    fun hends p hp hout ↦ ?_⟩
  · obtain ⟨rfl, rfl⟩ := hget j other hj
    rw [← ExtentWrite.tupleOf_eq haccepted hseveral (by omega)]
    exact WriteState.allocate_tuple _ _ other _
  · obtain ⟨rfl, rfl⟩ := hget j other hj
    exact WriteState.allocate_id _ _ other (v.req.tupleOf 0 other)
  · rw [hnil, List.nil_append, List.mem_singleton] at ha
    exact ExtentWrite.copyHead_outside haccepted ha
  · have hless := ExtentWrite.lt_head haccepted hseveral (hends.resolve_left hseveral.ne') hp hout
    rw [hnil, if_pos rfl]
    dsimp only [List.nil_append, List.getD_cons_zero]
    rw [ExtentWrite.copyHead, if_pos (Nat.ne_zero_of_lt hless)]
    exact copy_inside hless

/-- The other blocks of several. -/
theorem placed_later (h : v.Prepared) (hlength : v.created.length < v.req.blocks)
    (hsome : v.created ≠ []) : Placed v data index (v.req.place (v.state tableBlock data) index) := by
  have haccepted := h.contained.accepted
  have hpos : 0 < v.created.length := List.length_pos_of_ne_nil hsome
  have hseveral : 1 < v.req.blocks := by omega
  have hcount : ¬v.req.countExtraBlock = 1 := fun hone ↦ by
    have hblocks := ExtentWrite.countExtraBlock_toNat haccepted
    rw [hone] at hblocks
    exact hseveral.ne hblocks
  have hfirst : v.created[0]? = some (v.created.getD 0 0) := by
    rw [List.getElem?_eq_getElem hpos, List.getD_eq_getElem _ _ hpos]
  have hzero : (v.created ++ [index]).getD 0 0 = v.created.getD 0 0 := by
    rw [List.getD_append _ _ _ _ hpos]
  have hstart : (v.fpi.tuple 0).offset =
      v.created.getD 0 0 * BLOCK_SIZE.toNat + v.req.head := by
    rw [h.tuple 0 _ hfirst, ← ExtentWrite.tupleOf_eq haccepted hseveral (by omega)]
    exact ExtentWrite.tupleOf_zero_offset
  have hends : v.req.head = 0 ∨ v.req.tail = 0 := h.contained.ends.resolve_left hseveral.ne'
  have htuple : ∀ i other, (v.created ++ [index])[i]? = some other →
      Function.update v.fpi.tuple v.created.length (v.req.tupleOf v.created.length index) i =
        ExtentWrite.ofRange
          (piece BLOCK_SIZE.toNat v.req.off v.req.size.toNat (fun _ ↦ other) i) := by
    rw [ExtentWrite.tupleOf_eq haccepted hseveral hlength]
    exact ExtentWrite.update_getElem? (g := fun i other ↦ ExtentWrite.ofRange
      (piece BLOCK_SIZE.toNat v.req.off v.req.size.toNat (fun _ ↦ other) i)) h.tuple
  have hlast : (v.state tableBlock data).created.length = v.created.length := rfl
  rw [ExtentWrite.place, if_neg hcount, hlast, ExtentWrite.writeBlock_succ haccepted hpos]
  refine ⟨rfl, h.fpi_len, h.fei_len, htuple, ?_, fun a ha ↦ ?_, fun htail p hp hout ↦ ?_⟩
  · exact ExtentWrite.update_getElem? (g := fun _ index ↦ UInt32.ofNat index) h.ids
  · dsimp only [Writing.state]
    rw [hstart]
    split_ifs with hend
    · refine ExtentWrite.copyTail_outside haccepted hends fun heq ↦ ha ?_
      rw [heq, List.getD_eq_getElem _ _ hpos]
      exact List.mem_append_left _ (List.getElem_mem hpos)
    · rfl
  · dsimp only [Writing.state]
    rw [if_neg hsome, hzero, ExtentWrite.copyTail,
      if_neg (not_not.mpr (htail.resolve_left hseveral.ne')), ite_self]

theorem placed (h : v.Prepared) (hlength : v.created.length < v.req.blocks) :
    Placed v data index (v.req.place (v.state tableBlock data) index) := by
  by_cases hone : v.req.blocks = 1
  · exact h.placed_only hone hlength
  · by_cases hnil : v.created = []
    · exact h.placed_first (by have := ExtentWrite.blocks_pos (w := v.req); omega) hnil
    · exact h.placed_later hlength hnil

/-- The range that a thread stores next. -/
theorem tuple_piece {i : ℕ} (h : v.Prepared) (hcomplete : v.created.length = v.req.blocks)
    (hi : i < v.req.blocks) : v.fpi.tuple i = ExtentWrite.ofRange (v.range i) := by
  have hbound : i < v.created.length := hcomplete ▸ hi
  refine h.tuple i (v.block i) ?_
  rw [Writing.block, List.getElem?_eq_getElem hbound, List.getD_eq_getElem _ _ hbound]

theorem len_eq (h : v.Prepared) : v.fpi.len.toNat = v.req.blocks := by
  rw [h.fpi_len, UInt64.toNat_toUInt32, ExtentWrite.countExtraBlock_toNat h.contained.accepted]
  exact Nat.mod_eq_of_lt (h.contained.fits.trans_lt (by decide))

theorem block_inj {i k : ℕ} (h : v.Prepared) (hi : i < v.created.length)
    (hk : k < v.created.length) (heq : v.block i = v.block k) : i = k :=
  ExtentWrite.getD_injOn h.nodup hi hk heq

/-- A piece lies in its block. -/
theorem storePiece_outside {i : ℕ} (h : v.Prepared) (hi : i < v.req.blocks)
    (ha : a / BLOCK_SIZE.toNat ≠ v.block i) : v.storePiece data i a = data a := by
  have hB : 0 < BLOCK_SIZE.toNat := by decide
  have hlo := block_le_mark hB (ExtentWrite.size_pos h.contained.accepted) hi
  have hhi : mark BLOCK_SIZE.toNat v.req.off v.req.size.toNat (i + 1) ≤
      (v.req.off / BLOCK_SIZE.toNat + i + 1) * BLOCK_SIZE.toNat := mark_succ_le hB
  rw [Nat.succ_mul] at hhi
  refine store_outside ?_
  by_contra hin
  refine ha ?_
  dsimp only [Writing.range, piece] at hin
  exact Nat.div_eq_of_lt_le (by omega) (by rw [Nat.succ_mul]; omega)

theorem before_blocks (h : v.Prepared) : v.before v.req.blocks = v.req.size.toNat := by
  have hend : mark BLOCK_SIZE.toNat v.req.off v.req.size.toNat v.req.blocks =
      v.req.off + v.req.size.toNat :=
    mark_touched (by decide) (ExtentWrite.size_pos h.contained.accepted)
  rw [Writing.before, hend, Nat.add_sub_cancel_left]

/-- One more piece is stored. -/
theorem stored_succ {i : ℕ} (h : v.Prepared) (hcomplete : v.created.length = v.req.blocks)
    (hi : i < v.req.blocks) (hstored : v.Stored data (v.before i)) :
    v.Stored (v.storePiece data i) (v.before (i + 1)) := by
  have hB : 0 < BLOCK_SIZE.toNat := by decide
  have hsize := ExtentWrite.size_pos h.contained.accepted
  have hle : v.req.off ≤ mark BLOCK_SIZE.toNat v.req.off v.req.size.toNat i := le_mark
  have hend : mark BLOCK_SIZE.toNat v.req.off v.req.size.toNat i ≤ v.req.off + v.req.size.toNat :=
    mark_le
  intro j hj
  by_cases hold : j < v.before i
  · -- an earlier piece lies in another block
    rw [h.storePiece_outside hi ?_, hstored j hold]
    rw [Writing.before] at hold
    have hpos : 0 < i := Nat.pos_of_ne_zero fun hzero ↦ by
      rw [hzero, mark_zero] at hold
      omega
    rw [mark_inner hB hsize hpos hi] at hold
    have hblock : (v.req.off + j) / BLOCK_SIZE.toNat < v.req.off / BLOCK_SIZE.toNat + i :=
      Nat.div_lt_of_lt_mul (by rw [Nat.mul_comm]; omega)
    have hfirst : v.req.off / BLOCK_SIZE.toNat ≤ (v.req.off + j) / BLOCK_SIZE.toNat :=
      Nat.div_le_div_right (Nat.le_add_right _ _)
    rw [locate_div hB]
    intro heq
    have hsame := h.block_inj (by omega) (by omega) heq
    omega
  · obtain ⟨k, rfl⟩ := Nat.exists_eq_add_of_le (Nat.not_lt.mp hold)
    simp only [Writing.before] at hj ⊢
    rw [locate_of_mark hB hsize hi (by omega)]
    exact store_inside (by dsimp only [Writing.range, piece]; omega)

/-- A piece does not reach what is around the range. -/
theorem storePiece_around {i p : ℕ} (h : v.Prepared)
    (hcomplete : v.created.length = v.req.blocks) (hi : i < v.req.blocks)
    (hp : p < BLOCK_SIZE.toNat) (hout : ¬v.req.InRange 0 p) :
    v.storePiece data i (v.block 0 * BLOCK_SIZE.toNat + p) =
      data (v.block 0 * BLOCK_SIZE.toNat + p) := by
  by_cases hzero : i = 0
  · subst hzero
    have hend : mark BLOCK_SIZE.toNat v.req.off v.req.size.toNat (0 + 1) ≤
        v.req.off + v.req.size.toNat := mark_le
    have hstart := Nat.div_mul_le_self v.req.off BLOCK_SIZE.toNat
    rw [ExtentWrite.InRange, ExtentWrite.filePos, Nat.add_zero] at hout
    refine store_outside ?_
    rw [Writing.range, piece, mark_zero, Nat.add_zero]
    dsimp only
    omega
  · refine h.storePiece_outside hi fun heq ↦ hzero ?_
    rw [div_of_block hp] at heq
    exact h.block_inj (by omega) (by omega) heq.symm

end Writing.Prepared

end Place

/-! ### What a run keeps -/

/-- The blocks of a thread. -/
def DataPc.held : DataPc → List ℕ
  | .idle => []
  | .creating v => v.created
  | .allocated v index => v.created ++ [index]
  | .storing v _ _ => v.created

/-- What is known of a write where its thread is. -/
def DataPc.Knows (data : ℕ → UInt8) (replies : List Writing) : DataPc → Prop
  | .idle => True
  | .creating v => v.Underway data replies ∧ v.created.length < v.req.blocks
  | .allocated v index => v.Underway data replies ∧ v.created.length < v.req.blocks ∧
    index ∉ v.created
  | .storing v i offset => v.Underway data replies ∧ v.created.length = v.req.blocks ∧
    i ≤ v.req.blocks ∧ offset = v.before i ∧ v.Stored data offset

section Mono

variable {v : Writing} {data data' : ℕ → UInt8} {replies later : List Writing} {offset : ℕ}

/-- The bytes of these blocks are the same. -/
def SameBlocks (data data' : ℕ → UInt8) (blocks : List ℕ) : Prop :=
  ∀ a, a / BLOCK_SIZE.toNat ∈ blocks → data' a = data a

theorem Writing.Stored.mono (h : v.Stored data offset) (hprepared : v.Prepared)
    (hcomplete : v.created.length = v.req.blocks) (hoffset : offset ≤ v.req.size.toNat)
    (hsame : SameBlocks data data' v.created) : v.Stored data' offset := by
  intro j hj
  rw [← h j hj]
  refine hsame _ ?_
  rw [locate_div (by decide)]
  refine Writing.block_mem ?_
  rw [hcomplete]
  exact ExtentWrite.blockOf_lt hprepared.contained.accepted (hj.trans_le hoffset)

theorem Writing.Underway.mono (h : v.Underway data replies)
    (hsame : SameBlocks data data' v.created)
    (hreplies : ∀ u ∈ replies, SameBlocks data data' u.created) :
    v.Underway data' (replies ++ later) := by
  refine ⟨h.prepared, fun hsimple hbased hsome p hp hout ↦ ?_, ?_⟩
  · obtain ⟨u, hu, hold⟩ := hbased
    rw [List.take_append_of_le_length h.seen] at hu
    rw [hsame _ ?_, hreplies u (List.mem_of_mem_take hu) _ ?_]
    · exact h.copied hsimple ⟨u, hu, hold⟩ hsome p hp hout
    · rwa [div_of_block hp]
    · rw [div_of_block hp]
      exact Writing.block_mem (List.length_pos_of_ne_nil hsome)
  · rw [List.length_append]
    exact h.seen.trans (Nat.le_add_right _ _)

theorem Writing.Finished.mono (h : v.Finished data replies)
    (hsame : SameBlocks data data' v.created)
    (hreplies : ∀ u ∈ replies, SameBlocks data data' u.created) :
    v.Finished data' (replies ++ later) :=
  ⟨h.underway.mono hsame hreplies, h.complete,
    h.stored.mono h.underway.prepared h.complete le_rfl hsame⟩

theorem DataPc.Knows.mono {pc : DataPc} (h : pc.Knows data replies)
    (hsame : SameBlocks data data' pc.held)
    (hreplies : ∀ u ∈ replies, SameBlocks data data' u.created) :
    pc.Knows data' (replies ++ later) := by
  cases pc with
  | idle => trivial
  | creating v => exact ⟨h.1.mono hsame hreplies, h.2⟩
  | allocated v index =>
    exact ⟨h.1.mono (fun a ha ↦ hsame a (List.mem_append_left _ ha)) hreplies, h.2⟩
  | storing v i offset =>
    obtain ⟨hunderway, hcomplete, hi, hoffset, hstored⟩ := h
    refine ⟨hunderway.mono hsame hreplies, hcomplete, hi, hoffset,
      hstored.mono hunderway.prepared hcomplete ?_ hsame⟩
    rw [hoffset]
    exact Writing.before_le

/-- A block has been placed. -/
theorem Writing.Underway.placed {index : ℕ} {x : WriteState} (h : v.Underway data replies)
    (hlength : v.created.length < v.req.blocks) (hplaced : Placed v data index x)
    (hnew : index ∉ v.created) (hreplies : ∀ u ∈ replies, SameBlocks data x.data u.created) :
    (v.take x).Underway x.data replies := by
  refine ⟨⟨h.prepared.contained, ?_, ?_, hplaced.fpi_len, hplaced.fei_len, ?_, ?_⟩,
    fun hsimple hbased _ p hp hout ↦ ?_, h.seen⟩
  · change x.created.length ≤ _
    rw [hplaced.created, List.length_append, List.length_singleton]
    exact hlength
  · change x.created.Nodup
    rw [hplaced.created]
    exact List.nodup_append'.mpr ⟨h.prepared.nodup, List.nodup_singleton _,
      List.disjoint_singleton.mpr hnew⟩
  · change ∀ i other, x.created[i]? = some other → _
    rw [hplaced.created]
    exact hplaced.tuple
  · change ∀ i other, x.created[i]? = some other → _
    rw [hplaced.created]
    exact hplaced.ids
  · have hblock : (v.take x).block 0 = (v.created ++ [index]).getD 0 0 := by
      rw [← hplaced.created]
      rfl
    obtain ⟨u, hu, hold⟩ := hbased
    have hkept : x.data (v.req.oldBlock 0 * BLOCK_SIZE.toNat + p) =
        data (v.req.oldBlock 0 * BLOCK_SIZE.toNat + p) :=
      hreplies u (List.mem_of_mem_take hu) _ (by rwa [div_of_block hp])
    rw [hblock, hplaced.around hsimple.ends p hp hout]
    change _ = x.data (v.req.oldBlock 0 * BLOCK_SIZE.toNat + p)
    rw [hkept]
    split_ifs with hnil
    · rw [ExtentWrite.source_eq]
      exact congrArg (fun b ↦ data (b * BLOCK_SIZE.toNat + p)) (Nat.mod_eq_of_lt hsimple.small)
    · rw [List.getD_append _ _ _ _ (List.length_pos_of_ne_nil hnil)]
      exact h.copied hsimple ⟨u, hu, hold⟩ hnil p hp hout

/-- A piece has been stored. -/
theorem Writing.Underway.stored {i : ℕ} (h : v.Underway data replies)
    (hcomplete : v.created.length = v.req.blocks) (hi : i < v.req.blocks)
    (hreplies : ∀ u ∈ replies, SameBlocks data (v.storePiece data i) u.created) :
    v.Underway (v.storePiece data i) replies := by
  refine ⟨h.prepared, fun hsimple hbased hsome p hp hout ↦ ?_, h.seen⟩
  obtain ⟨u, hu, hold⟩ := hbased
  rw [h.prepared.storePiece_around hcomplete hi hp hout,
    hreplies u (List.mem_of_mem_take hu) _ (by rwa [div_of_block hp])]
  exact h.copied hsimple ⟨u, hu, hold⟩ hsome p hp hout

/-- The loop over the blocks goes on, or the loop of the server begins. -/
theorem Writing.Underway.next (h : v.Underway data replies) :
    v.next.Knows data replies ∧ v.next.held = v.created := by
  rw [Writing.next, ExtentWrite.countExtraBlock_toNat h.prepared.contained.accepted]
  split_ifs with hless
  · exact ⟨⟨h, hless⟩, rfl⟩
  · exact ⟨⟨h, le_antisymm h.prepared.length (Nat.not_lt.mp hless), Nat.zero_le _,
      Writing.before_zero.symm, fun j hj ↦ absurd hj (Nat.not_lt_zero j)⟩, rfl⟩

end Mono

namespace DataServer

variable {T : Type*} [DecidableEq T]

/-- The invariant, for an assignment of the blocks in use: each has at most one owner, a thread or a
reply. -/
structure Kept (s : DataServer T) (owner : ℕ → Option (T ⊕ ℕ)) : Prop where
  table : ∃ chain, Table.Handing s.tableBlock chain
  used : ∀ b, owner b ≠ none →
    b < s.tableBlock.bitmapItems.varCountTotal ∧ s.tableBlock.bitmapItems.bit b = true
  thread : ∀ t, ∀ b ∈ (s.pc t).held, owner b = some (.inl t)
  reply : ∀ n v, s.replies[n]? = some v → ∀ b ∈ v.created, owner b = some (.inr n)
  knows : ∀ t, (s.pc t).Knows s.data s.replies
  finished : ∀ v ∈ s.replies, v.Finished s.data s.replies

omit [DecidableEq T] in
theorem reply_ne_thread {n : ℕ} {t : T} :
    (some (.inr n) : Option (T ⊕ ℕ)) ≠ some (.inl t) := by
  intro h
  cases h

section Moves

variable {s : DataServer T} {owner : ℕ → Option (T ⊕ ℕ)} {t : T} {pc : DataPc} {v : Writing}
  {data : ℕ → UInt8} {table : Table Unit} {reply : Option ℕ}

omit [DecidableEq T] in
/-- What a thread writes into its own blocks does not change those of a reply. -/
theorem Kept.sameBlocks (h : s.Kept owner)
    (hdata : ∀ a, owner (a / BLOCK_SIZE.toNat) ≠ some (.inl t) → data a = s.data a) :
    ∀ u ∈ s.replies, SameBlocks s.data data u.created := by
  intro u hu a ha
  obtain ⟨n, hn⟩ := List.mem_iff_getElem?.mp hu
  refine hdata a ?_
  rw [h.reply n u hn _ ha]
  exact reply_ne_thread

/-- A thread goes on, and writes into its own blocks. -/
theorem Kept.goto (h : s.Kept owner)
    (hdata : ∀ a, owner (a / BLOCK_SIZE.toNat) ≠ some (.inl t) → data a = s.data a)
    (hheld : ∀ b ∈ pc.held, owner b = some (.inl t)) (hknows : pc.Knows data s.replies) :
    Kept { s with data := data, pc := Function.update s.pc t pc } owner := by
  have hreplies := h.sameBlocks hdata
  refine ⟨h.table, h.used, fun t' ↦ ?_, h.reply, fun t' ↦ ?_, fun u hu ↦ ?_⟩
  · by_cases ht : t' = t
    · subst ht
      simpa only [Function.update_self] using hheld
    · simpa only [Function.update_of_ne ht] using h.thread t'
  · by_cases ht : t' = t
    · subst ht
      simpa only [Function.update_self] using hknows
    · have hother : (s.pc t').Knows data (s.replies ++ []) := by
        refine (h.knows t').mono (fun a ha ↦ hdata a ?_) hreplies
        simp [h.thread t' _ ha, ht]
      rw [List.append_nil] at hother
      simpa only [Function.update_of_ne ht] using hother
  · have hkept : u.Finished data (s.replies ++ []) := (h.finished u hu).mono (hreplies u hu) hreplies
    rwa [List.append_nil] at hkept

omit [DecidableEq T] in
/-- `create` hands out a block that nobody has, if there is one. -/
theorem Kept.create (h : s.Kept owner) (t : T) (hroom : ∃ index, s.tableBlock.Free index) :
    ∃ table index, s.tableBlock.create true = some (table, some index) ∧ owner index = none ∧
      Kept { s with tableBlock := table } (Function.update owner index (some (.inl t))) := by
  obtain ⟨chain, hring, hchain, htotal⟩ := h.table
  obtain ⟨table, index, hcreate, hring', hindex, hbitmap⟩ := hring.create
  obtain ⟨chain', hchain', hcases⟩ := hchain.create_ring hindex hcreate hring' hbitmap
  have hfree : s.tableBlock.Free index := by
    rcases hcases with ⟨rfl, -⟩ | ⟨hfree, -⟩
    · obtain ⟨other, hother⟩ := hroom
      exact absurd ((hchain.mem_positions other).mpr hother) List.not_mem_nil
    · exact hfree
  have hnone : owner index = none := by
    by_contra hsome
    exact Bool.false_ne_true (hfree.2.symm.trans (h.used index hsome).2)
  have hne {b : ℕ} {holder : T ⊕ ℕ} (hb : owner b = some holder) : b ≠ index := by
    rintro rfl
    rw [hnone] at hb
    cases hb
  obtain ⟨-, hbits, -, hsame⟩ := Bitmap.set_of_clear hfree.1 hfree.2
  rw [← hbitmap] at hbits hsame
  refine ⟨table, index, hcreate, hnone, ⟨chain', hring', hchain', hsame.trans_le htotal⟩,
    fun b hb ↦ ?_, fun t' b hb ↦ ?_, fun n u hu b hb ↦ ?_, h.knows, h.finished⟩
  · by_cases hb' : b = index
    · subst hb'
      exact ⟨hfree.1.trans_eq hsame.symm, (hbits b).mpr (Or.inl rfl)⟩
    · rw [Function.update_of_ne hb'] at hb
      obtain ⟨hless, hset⟩ := h.used b hb
      exact ⟨hless.trans_eq hsame.symm, (hbits b).mpr (Or.inr hset)⟩
  · have howner := h.thread t' b hb
    rwa [Function.update_of_ne (hne howner)]
  · have howner := h.reply n u hu b hb
    rwa [Function.update_of_ne (hne howner)]

/-- A thread posts its reply, which takes over the blocks. -/
theorem Kept.post (h : s.Kept owner) {i offset : ℕ} (hpc : s.pc t = .storing v i offset)
    (hfinished : v.Finished s.data s.replies) :
    Kept { s with replies := s.replies ++ [v], pc := Function.update s.pc t .idle }
      fun b ↦ if owner b = some (.inl t) then some (.inr s.replies.length) else owner b := by
  have hsame (blocks : List ℕ) : SameBlocks s.data s.data blocks := fun _ _ ↦ rfl
  refine ⟨h.table, fun b hb ↦ h.used b fun hnone ↦ ?_, fun t' b hb ↦ ?_, fun n u hu b hb ↦ ?_,
    fun t' ↦ ?_, fun u hu ↦ ?_⟩
  · rw [hnone, if_neg (Option.some_ne_none _).symm] at hb
    exact hb rfl
  · dsimp only at hb
    by_cases ht : t' = t
    · subst ht
      rw [Function.update_self] at hb
      cases hb
    · rw [Function.update_of_ne ht] at hb
      have howner := h.thread t' b hb
      rw [howner, if_neg fun heq ↦ ht (Sum.inl.inj (Option.some.inj heq))]
  · by_cases hn : n < s.replies.length
    · rw [List.getElem?_append_left hn] at hu
      rw [h.reply n u hu b hb, if_neg reply_ne_thread]
    · rw [List.getElem?_append_right (Nat.not_lt.mp hn)] at hu
      obtain ⟨hbound, rfl⟩ := List.getElem?_eq_some_iff.mp hu
      rw [List.length_singleton] at hbound
      obtain rfl : n = s.replies.length := by omega
      rw [List.getElem_singleton] at hb
      have howner := h.thread t b (by rwa [hpc])
      rw [howner, if_pos rfl]
  · dsimp only
    by_cases ht : t' = t
    · subst ht
      rw [Function.update_self]
      trivial
    · rw [Function.update_of_ne ht]
      exact (h.knows t').mono (hsame _) fun _ _ ↦ hsame _
  · rcases List.mem_append.mp hu with hu | hu
    · exact (h.finished u hu).mono (hsame _) fun _ _ ↦ hsame _
    · obtain rfl := List.mem_singleton.mp hu
      exact hfinished.mono (hsame _) fun _ _ ↦ hsame _

end Moves

/-! ### The steps -/

/-- What the events of a run are to be: requests that stay in their own blocks, and a free block for
each creation. -/
def Sound (s : DataServer T) : DataEvent T → Prop
  | .receive _ req _ _ _ => req.Contained
  | .step t => ∀ v, s.pc t = .creating v → ∃ index, s.tableBlock.Free index

/-- An event as a relation. -/
def Step (s : DataServer T) (e : DataEvent T) (s' : DataServer T) : Prop := s.step e = some s'

/-- What no step takes back: the replies, their blocks and the bytes in these. -/
structure Grows (s : DataServer T) (owner : ℕ → Option (T ⊕ ℕ)) (s' : DataServer T)
    (owner' : ℕ → Option (T ⊕ ℕ)) : Prop where
  replies : s.replies <+: s'.replies
  owned : ∀ b n, owner b = some (.inr n) → owner' b = some (.inr n)
  data : ∀ a n, owner (a / BLOCK_SIZE.toNat) = some (.inr n) → s'.data a = s.data a

section Steps

variable {s s' s'' : DataServer T} {owner owner' owner'' : ℕ → Option (T ⊕ ℕ)} {t : T}
  {v : Writing} {e : DataEvent T}

omit [DecidableEq T] in
theorem Grows.trans (h : Grows s owner s' owner') (h' : Grows s' owner' s'' owner'') :
    Grows s owner s'' owner'' :=
  ⟨h.replies.trans h'.replies, fun b n hb ↦ h'.owned b n (h.owned b n hb), fun a n ha ↦
    (h'.data a n (h.owned _ n ha)).trans (h.data a n ha)⟩

/-- The begin of an accepted write. -/
theorem begin_creating {req : ExtentWrite} (path : Path) (data_buffer : ℕ → UInt8)
    (fpi : FilePosInfo) (seen : ℕ) (h : ¬req.Rejected) :
    Writing.begin req path data_buffer fpi seen = .creating
      ⟨req, path, data_buffer, { fpi with len := req.countExtraBlock.toUInt32 },
        { req.fei_in with len := req.countExtraBlock }, [], seen⟩ := by
  have hpos : 0 < req.countExtraBlock.toNat := by
    rw [ExtentWrite.countExtraBlock_toNat h]
    exact ExtentWrite.blocks_pos
  rw [Writing.begin, if_neg h]
  exact if_pos hpos

/-- A request is received. -/
theorem Kept.receive (h : s.Kept owner) {req : ExtentWrite} (path : Path)
    (data_buffer : ℕ → UInt8) (fpi : FilePosInfo) (hreq : req.Contained) :
    Kept { s with
        pc := Function.update s.pc t (Writing.begin req path data_buffer fpi s.replies.length) }
      owner := by
  rw [begin_creating path data_buffer fpi _ hreq.accepted]
  refine h.goto (fun _ _ ↦ rfl) (fun b hb ↦ absurd hb List.not_mem_nil)
    ⟨⟨?_, fun _ _ hsome ↦ absurd rfl hsome, le_rfl⟩, ?_⟩
  · exact ⟨hreq, Nat.zero_le _, List.nodup_nil, rfl, rfl, fun _ _ hi ↦ absurd hi (by simp),
      fun _ _ hi ↦ absurd hi (by simp)⟩
  · exact ExtentWrite.blocks_pos

/-- A block of a write is created. -/
theorem Kept.creating (h : s.Kept owner) (hpc : s.pc t = .creating v)
    (hroom : ∃ index, s.tableBlock.Free index) (hstep : s.advance t = some s') :
    ∃ owner', s'.Kept owner' ∧ Grows s owner s' owner' := by
  obtain ⟨table, index, hcreate, hnone, hkept⟩ := h.create t hroom
  rw [advance, hpc] at hstep
  dsimp only at hstep
  rw [hcreate] at hstep
  obtain rfl := Option.some.inj hstep
  have hknows := hkept.knows t
  have hheld := hkept.thread t
  rw [hpc] at hknows hheld
  have hnew : index ∉ v.created := fun hmem ↦ by
    have howner := h.thread t index (by rwa [hpc])
    rw [hnone] at howner
    cases howner
  refine ⟨_, hkept.goto (fun _ _ ↦ rfl) (fun b hb ↦ ?_) ⟨hknows.1, hknows.2, hnew⟩,
    ⟨List.prefix_rfl, fun b n hb ↦ ?_, fun _ _ _ ↦ rfl⟩⟩
  · rcases List.mem_append.mp hb with hb | hb
    · exact hheld b hb
    · rw [List.mem_singleton.mp hb, Function.update_self]
  · rw [Function.update_of_ne]
    · exact hb
    · rintro rfl
      rw [hnone] at hb
      cases hb

/-- A block of a write is placed. -/
theorem Kept.allocated {index : ℕ} (h : s.Kept owner) (hpc : s.pc t = .allocated v index)
    (hstep : s.advance t = some s') : ∃ owner', s'.Kept owner' ∧ Grows s owner s' owner' := by
  have hknows := h.knows t
  have hheld := h.thread t
  rw [hpc] at hknows hheld
  obtain ⟨hunderway, hlength, hnew⟩ := hknows
  have hplaced : Placed v s.data index (v.req.place (v.state s.tableBlock s.data) index) :=
    hunderway.prepared.placed hlength
  rw [advance, hpc] at hstep
  obtain rfl := Option.some.inj hstep
  generalize v.req.place (v.state s.tableBlock s.data) index = x at hplaced
  have hdata : ∀ a, owner (a / BLOCK_SIZE.toNat) ≠ some (.inl t) → x.data a = s.data a :=
    fun a ha ↦ hplaced.outside a fun hmem ↦ ha (hheld _ hmem)
  obtain ⟨hknows', hheld'⟩ :=
    (hunderway.placed hlength hplaced hnew (h.sameBlocks hdata)).next
  refine ⟨owner, h.goto hdata (fun b hb ↦ hheld b ?_) hknows', List.prefix_rfl, fun _ _ ↦ id,
    fun a n ha ↦ hdata a (by rw [ha]; exact reply_ne_thread)⟩
  rw [hheld'] at hb
  change b ∈ x.created at hb
  rwa [hplaced.created] at hb

/-- A piece is stored, or the reply is posted. -/
theorem Kept.storing {i offset : ℕ} (h : s.Kept owner) (hpc : s.pc t = .storing v i offset)
    (hstep : s.advance t = some s') : ∃ owner', s'.Kept owner' ∧ Grows s owner s' owner' := by
  have hknows := h.knows t
  have hheld := h.thread t
  rw [hpc] at hknows hheld
  obtain ⟨hunderway, hcomplete, hi, rfl, hstored⟩ := hknows
  have hprepared := hunderway.prepared
  rw [advance, hpc] at hstep
  dsimp only at hstep
  rw [hprepared.len_eq] at hstep
  split_ifs at hstep with hless
  · rw [hprepared.tuple_piece hcomplete hless] at hstep
    obtain rfl := Option.some.inj hstep
    have hmine : owner (v.block i) = some (.inl t) :=
      hheld _ (Writing.block_mem (hcomplete ▸ hless))
    have hdata : ∀ a, owner (a / BLOCK_SIZE.toNat) ≠ some (.inl t) →
        v.storePiece s.data i a = s.data a :=
      fun a ha ↦ hprepared.storePiece_outside hless fun heq ↦ ha (heq ▸ hmine)
    have hnow := hprepared.stored_succ hcomplete hless hstored
    rw [← Writing.before_succ] at hnow
    exact ⟨owner, h.goto hdata hheld
      ⟨hunderway.stored hcomplete hless (h.sameBlocks hdata), hcomplete, hless,
        Writing.before_succ, hnow⟩,
      List.prefix_rfl, fun _ _ ↦ id, fun a n ha ↦ hdata a (by rw [ha]; exact reply_ne_thread)⟩
  · obtain rfl := Option.some.inj hstep
    obtain rfl : i = v.req.blocks := le_antisymm hi (Nat.not_lt.mp hless)
    rw [hprepared.before_blocks] at hstored
    refine ⟨_, h.post hpc ⟨hunderway, hcomplete, hstored⟩, List.prefix_append _ _,
      fun b n hb ↦ ?_, fun _ _ _ ↦ rfl⟩
    rw [hb, if_neg reply_ne_thread]

/-- The step lemma. -/
theorem Kept.step (h : s.Kept owner) (hok : s.Sound e) (hstep : Step s e s') :
    ∃ owner', s'.Kept owner' ∧ Grows s owner s' owner' := by
  cases e with
  | receive t req path data_buffer fpi =>
    rw [Step, DataServer.step] at hstep
    split at hstep
    · obtain rfl := Option.some.inj hstep
      exact ⟨owner, h.receive path data_buffer fpi hok, List.prefix_rfl, fun _ _ ↦ id,
        fun _ _ _ ↦ rfl⟩
    · cases hstep
  | step t =>
    cases hpc : s.pc t with
    | idle =>
      rw [Step, DataServer.step, advance, hpc] at hstep
      cases hstep
    | creating v => exact h.creating hpc (hok v hpc) hstep
    | allocated v index => exact h.allocated hpc hstep
    | storing v i offset => exact h.storing hpc hstep

/-- The run lemma. -/
theorem Kept.run (h : s.Kept owner) (hrun : Reachable s Step Sound s') :
    ∃ owner', s'.Kept owner' ∧ Grows s owner s' owner' := by
  induction hrun with
  | init => exact ⟨owner, h, List.prefix_rfl, fun _ _ ↦ id, fun _ _ _ ↦ rfl⟩
  | step _ hok hstep ih =>
    obtain ⟨owner', hkept, hgrows⟩ := ih
    obtain ⟨owner'', hkept', hgrows'⟩ := hkept.step hok hstep
    exact ⟨owner'', hkept', hgrows.trans hgrows'⟩

end Steps

/-! ### What a reply stands for -/

/-- A server that serves no request yet. Blocks may have been handed out before. -/
structure Initialized (s : DataServer T) : Prop where
  table : s.tableBlock.BlockTable
  idle : ∀ t, s.pc t = .idle
  replies : s.replies = []

section Replies

variable {s₀ s s' : DataServer T} {owner : ℕ → Option (T ⊕ ℕ)} {v : Writing}

omit [DecidableEq T] in
theorem Initialized.kept (h : s₀.Initialized) : s₀.Kept fun _ ↦ none := by
  refine ⟨h.table.handing, fun b hb ↦ absurd rfl hb, fun t b hb ↦ ?_, fun n v hv ↦ ?_, fun t ↦ ?_,
    fun v hv ↦ ?_⟩
  · rw [h.idle t] at hb
    cases hb
  · rw [h.replies] at hv
    cases hv
  · rw [h.idle t]
    trivial
  · rw [h.replies] at hv
    cases hv

omit [DecidableEq T] in
/-- The reply names the blocks of the write. -/
theorem Kept.named_eq (h : s.Kept owner) (hv : v ∈ s.replies) {i : ℕ} (hi : i < v.req.blocks) :
    v.named i = v.block i ∧ v.block i ∈ v.created := by
  obtain ⟨hunderway, hcomplete, -⟩ := h.finished v hv
  have hbound : i < v.created.length := hcomplete ▸ hi
  have hmem : v.block i ∈ v.created := Writing.block_mem hbound
  obtain ⟨n, hn⟩ := List.mem_iff_getElem?.mp hv
  obtain ⟨chain, -, -, htotal⟩ := h.table
  have howner := h.reply n v hn _ hmem
  have hless := (h.used _ (by rw [howner]; exact Option.some_ne_none _)).1
  have hid : v.fei_out.tuple i = UInt32.ofNat (v.block i) := by
    refine hunderway.prepared.ids i _ ?_
    rw [Writing.block, List.getElem?_eq_getElem hbound, List.getD_eq_getElem _ _ hbound]
  refine ⟨?_, hmem⟩
  rw [Writing.named, Writing.reply, hid, UInt32.toNat_ofNat']
  exact Nat.mod_eq_of_lt (by omega)

/-- Whatever the threads do, the replies stay, each of them names blocks of its own, the bytes of its
request are where they belong in these blocks, and none of their bytes changes any more. -/
theorem replies_kept (hinit : s₀.Initialized) (hrun : Reachable s₀ Step Sound s)
    (hrest : Reachable s Step Sound s') :
    s.replies <+: s'.replies ∧
      (∀ v ∈ s'.replies, v.reply.fei.len.toNat = v.req.blocks ∧ ∀ j < v.req.size.toNat,
        s'.data (locate BLOCK_SIZE.toNat v.req.off v.named j) = v.data_buffer j) ∧
      (∀ v ∈ s'.replies, Set.InjOn v.named {i | i < v.req.blocks}) ∧
      (s'.replies.Pairwise fun v v' ↦ ∀ i < v.req.blocks, ∀ i' < v'.req.blocks,
        v.named i ≠ v'.named i') ∧
      ∀ v ∈ s.replies, ∀ i < v.req.blocks, ∀ p < BLOCK_SIZE.toNat,
        s'.data (v.named i * BLOCK_SIZE.toNat + p) = s.data (v.named i * BLOCK_SIZE.toNat + p) := by
  obtain ⟨owner, hkept, -⟩ := hinit.kept.run hrun
  obtain ⟨owner', hkept', hgrows⟩ := hkept.run hrest
  refine ⟨hgrows.replies, fun v hv ↦ ⟨?_, fun j hj ↦ ?_⟩, fun v hv i hi i' hi' heq ↦ ?_, ?_,
    fun v hv i hi p hp ↦ ?_⟩
  · obtain ⟨hunderway, -, -⟩ := hkept'.finished v hv
    rw [Writing.reply, hunderway.prepared.fei_len,
      ExtentWrite.countExtraBlock_toNat hunderway.prepared.contained.accepted]
  · obtain ⟨hunderway, -, hstored⟩ := hkept'.finished v hv
    have hblock := ExtentWrite.blockOf_lt hunderway.prepared.contained.accepted hj
    rw [← hstored j hj, locate, locate, (hkept'.named_eq hv hblock).1]
  · obtain ⟨hunderway, hcomplete, -⟩ := hkept'.finished v hv
    rw [(hkept'.named_eq hv hi).1, (hkept'.named_eq hv hi').1] at heq
    exact hunderway.prepared.block_inj (hcomplete ▸ hi) (hcomplete ▸ hi') heq
  · refine List.pairwise_iff_getElem.mpr fun n n' hn hn' hless i hi i' hi' heq ↦ hless.ne ?_
    obtain ⟨hblock, hmem⟩ := hkept'.named_eq (List.getElem_mem hn) hi
    obtain ⟨hblock', hmem'⟩ := hkept'.named_eq (List.getElem_mem hn') hi'
    have howner := hkept'.reply n _ (List.getElem?_eq_getElem hn) _ hmem
    have howner' := hkept'.reply n' _ (List.getElem?_eq_getElem hn') _ hmem'
    rw [← hblock, heq, hblock', howner'] at howner
    exact (Sum.inr.inj (Option.some.inj howner)).symm
  · obtain ⟨hblock, hmem⟩ := hkept.named_eq hv hi
    obtain ⟨n, hn⟩ := List.mem_iff_getElem?.mp hv
    refine hgrows.data _ n ?_
    rw [div_of_block hp, hblock]
    exact hkept.reply n v hn _ hmem

/-- Where a byte of a block is, if the range contains it. -/
theorem locate_filePos {w : ExtentWrite} {c : ℕ → ℕ} {i p : ℕ} (hp : p < BLOCK_SIZE.toNat)
    (hrange : w.InRange i p) :
    locate BLOCK_SIZE.toNat w.off c (w.filePos i p - w.off) = c i * BLOCK_SIZE.toNat + p := by
  have hpos : w.off + (w.filePos i p - w.off) = w.filePos i p := Nat.add_sub_cancel' hrange.1
  rw [locate, hpos, ExtentWrite.filePos_div hp, ExtentWrite.filePos_mod hp,
    Nat.add_sub_cancel_left]

/-- A write that started from a block of an earlier reply makes a new version of it: its blocks hold
the bytes of the request within the range, and around it those of the old block. -/
theorem versions_kept (hinit : s₀.Initialized) (hrun : Reachable s₀ Step Sound s)
    (hv : v ∈ s.replies) (hsimple : v.req.Simple)
    (hbased : ∃ u ∈ s.replies.take v.seen, ∃ k < u.req.blocks, u.named k = v.req.oldBlock 0)
    {i p : ℕ} (hi : i < v.req.blocks) (hp : p < BLOCK_SIZE.toNat) :
    s.data (v.named i * BLOCK_SIZE.toNat + p) =
      v.req.overwritten v.data_buffer s.data i p := by
  obtain ⟨owner, hkept, -⟩ := hinit.kept.run hrun
  obtain ⟨hunderway, hcomplete, hstored⟩ := hkept.finished v hv
  rw [(hkept.named_eq hv hi).1, ExtentWrite.overwritten]
  split_ifs with hrange
  · have hplace := hstored _ (Nat.sub_lt_left_of_lt_add hrange.1 hrange.2)
    rwa [locate_filePos hp hrange] at hplace
  · -- the range leaves something of the first block only
    obtain rfl : i = 0 := by
      by_contra hne
      exact hrange (ExtentWrite.inRange_of_pos hunderway.prepared.contained.accepted hsimple.ends
        (Nat.pos_of_ne_zero hne) hi hp)
    obtain ⟨u, hu, k, hk, hold⟩ := hbased
    obtain ⟨hblock, hmem⟩ := hkept.named_eq (List.mem_of_mem_take hu) hk
    refine hunderway.copied hsimple ⟨u, hu, ?_⟩ (fun hnil ↦ ?_) p hp hrange
    · rwa [← hold, hblock]
    · rw [hnil, List.length_nil] at hcomplete
      exact hi.ne hcomplete

end Replies

/-! ### Two threads -/

section Runs

variable {s s' : DataServer T}

/-- A test for `Sound`. -/
def checks (s : DataServer T) : DataEvent T → Bool
  | .receive _ req _ _ _ => decide ¬req.Rejected &&
    (decide (req.blocks ≤ MAX_MESSAGE_BLOCK_COUNT.toNat) &&
      (req.blocks == 1 || req.head == 0 || req.tail == 0))
  | .step t =>
    match s.pc t with
    | .creating _ => (List.range s.tableBlock.bitmapItems.varCountTotal).any fun b ↦
      !s.tableBlock.bitmapItems.bit b
    | _ => true

omit [DecidableEq T] in
theorem sound_of_checks {e : DataEvent T} (h : s.checks e = true) : s.Sound e := by
  cases e with
  | receive t req path data_buffer fpi =>
    simp only [checks, Bool.and_eq_true, Bool.or_eq_true, decide_eq_true_eq, beq_iff_eq] at h
    exact ⟨h.1, h.2.1, or_assoc.mp h.2.2⟩
  | step t =>
    intro v hpc
    rw [checks, hpc] at h
    obtain ⟨b, hb, hclear⟩ := List.any_eq_true.mp h
    exact ⟨b, List.mem_range.mp hb, (Bool.not_eq_true' _).mp hclear⟩

/-- A number of events, each of which passes the test where it happens. -/
def runAll (s : DataServer T) : List (DataEvent T) → Option (DataServer T)
  | [] => some s
  | e :: events => if s.checks e then (s.step e).bind fun s' ↦ runAll s' events else none

theorem reachable_of_runAll {events : List (DataEvent T)} (h : s.runAll events = some s') :
    Reachable s Step Sound s' := by
  induction events generalizing s with
  | nil =>
    obtain rfl := Option.some.inj h
    exact .init
  | cons e events ih =>
    rw [runAll] at h
    split_ifs at h with hpass
    obtain ⟨s₁, hfirst, hrest⟩ := Option.bind_eq_some_iff.mp h
    exact (Reachable.init.step (sound_of_checks hpass) hfirst).trans (ih hrest)

end Runs

/-- A data server that has not served a request. -/
def blank (t : Table Unit) : DataServer Bool where
  tableBlock := t
  data := fun _ ↦ 0
  pc := fun _ ↦ .idle
  replies := []

theorem blank_initialized {n : ℕ} {t : Table Unit} (h : ExtentWrite.eightBlocks n = some t) :
    (blank t).Initialized :=
  ⟨ExtentWrite.eightBlocks_blockTable h, fun _ ↦ rfl, rfl⟩

/-- A thread receives a request. -/
def receives (t : Bool) (req : ExtentWrite) (byte : UInt8) : DataEvent Bool :=
  .receive t req [47, 97] (fun _ ↦ byte) ⟨0, fun _ ↦ ⟨0, 0⟩⟩

/-- Two threads write within a block, step by step in turn. -/
def twoWrites : List (DataEvent Bool) :=
  receives true ExtentWrite.withinOne 1 :: receives false ExtentWrite.withinOne 2 ::
    (List.replicate 4 [DataEvent.step true, .step false]).flatten

/-- One of them writes behind that range. The request names the block of the first reply. -/
def writeBehind : List (DataEvent Bool) :=
  receives true { ExtentWrite.withinOne with offset := 200 } 3 :: List.replicate 4 (.step true)

/-- What is seen of a write of one block from a block of an earlier reply. -/
def basesOne (s : DataServer Bool) (v : Writing) : Bool :=
  v.req.blocks == 1 && decide (v.req.oldBlock 0 < 2 ^ 20) && v.named 0 == 2 &&
    (s.replies.take v.seen).any fun u ↦ u.req.blocks == 1 && u.named 0 == v.req.oldBlock 0

/-- The third write starts from the block of the first. -/
theorem exists_threeWrites : ∃ (s₀ s s' : DataServer Bool) (v : Writing), s₀.Initialized ∧
    Reachable s₀ Step Sound s ∧ Reachable s Step Sound s' ∧ s.replies.length = 2 ∧
      v ∈ s'.replies ∧ s'.basesOne v = true := by
  have hrun : ((ExtentWrite.eightBlocks 0).bind fun t ↦ ((blank t).runAll twoWrites).bind fun s ↦
      (s.runAll writeBehind).map fun s' ↦
        (s.replies.length, s'.replies.any (s'.basesOne ·))) = some (2, true) := by
    decide +kernel
  obtain ⟨t, ht, hrun⟩ := Option.bind_eq_some_iff.mp hrun
  obtain ⟨s, hfirst, hrun⟩ := Option.bind_eq_some_iff.mp hrun
  obtain ⟨s', hsecond, hresult⟩ := Option.map_eq_some_iff.mp hrun
  obtain ⟨htwo, hbased⟩ := Prod.mk.inj hresult
  obtain ⟨v, hv, hbases⟩ := List.any_eq_true.mp hbased
  exact ⟨blank t, s, s', v, blank_initialized ht, reachable_of_runAll hfirst,
    reachable_of_runAll hsecond, htwo, hv, hbases⟩

/-- The replies of two threads, and what is left of them after a third write. -/
theorem replies_kept_two : ∃ s s' : DataServer Bool, s.replies.length = 2 ∧
    s.replies <+: s'.replies ∧
      (s'.replies.Pairwise fun v v' ↦ ∀ i < v.req.blocks, ∀ i' < v'.req.blocks,
        v.named i ≠ v'.named i') ∧
      ∀ v ∈ s.replies, ∀ i < v.req.blocks, ∀ p < BLOCK_SIZE.toNat,
        s'.data (v.named i * BLOCK_SIZE.toNat + p) = s.data (v.named i * BLOCK_SIZE.toNat + p) := by
  obtain ⟨s₀, s, s', v, hinit, hrun, hrest, htwo, -, -⟩ := exists_threeWrites
  obtain ⟨hstay, -, -, hapart, hsame⟩ := replies_kept hinit hrun hrest
  exact ⟨s, s', htwo, hstay, hapart, hsame⟩

/-- The third write makes a new version of the block of the first. -/
theorem versions_kept_third : ∃ (s : DataServer Bool) (v : Writing), v ∈ s.replies ∧
    v.named 0 = 2 ∧ ∀ p < BLOCK_SIZE.toNat, s.data (v.named 0 * BLOCK_SIZE.toNat + p) =
      v.req.overwritten v.data_buffer s.data 0 p := by
  obtain ⟨s₀, s, s', v, hinit, hrun, hrest, -, hv, hbases⟩ := exists_threeWrites
  simp only [basesOne, Bool.and_eq_true, beq_iff_eq, decide_eq_true_eq, List.any_eq_true] at hbases
  obtain ⟨⟨⟨hone, hsmall⟩, hnamed⟩, u, hu, hblocks, hold⟩ := hbases
  have hbased : ∃ u ∈ s'.replies.take v.seen, ∃ k < u.req.blocks, u.named k = v.req.oldBlock 0 :=
    ⟨u, hu, 0, hblocks ▸ Nat.one_pos, hold⟩
  exact ⟨s', v, hv, hnamed, fun p hp ↦
    versions_kept hinit (hrun.trans hrest) hv ⟨Or.inl hone, hsmall⟩ hbased
      (hone ▸ Nat.one_pos) hp⟩

end DataServer

end SwitchDelta.Fs
