import SwitchDelta.Foundation.Links
import SwitchDelta.Fs.MetaServer

/-!
# Reads and fast writes of the file system

The path of a read: `nrfsRead` asks the metadata server for the metadata of its file and sends a
`DataReadReq` with the data blocks that the metadata names. A write whose `kEnumAppendReply` the
switch has installed is complete when the client gets its `kEnumMultiCastPkt`, while the copy for the
metadata server is still on its way or waits in a batch.

Until then only the switch could tell a read about the write. It overlays the extents of an entry
onto the packets that have the op code of `kEnumReadIndexReq` in its own tables. In `pkt.h` this is
the code of `kEnumReadIndexReply`, so requests pass unchanged and the overlay goes onto the replies of
the metadata server; how the bytes of a `file_extent_info` come to lie in a `FileMeta` is left open
here. And `nrfsRead` does not use the extents that it takes from an answered request.

`read_after_fast_write` says when a read finds the write nevertheless: the metadata server has entered
it when it handles the request, and no entry is overlaid onto the reply. `stale_read` is a run in which
a read that starts after a fast write has completed gets the block of the write before it.
-/

set_option autoImplicit false
set_option relaxedAutoImplicit false

namespace SwitchDelta.Fs

open Foundation

/-! ### Op codes -/

/-- The value of an op code, as `pkt.h` numbers them. -/
def RpcType.code : RpcType → ℕ
  | kEnumReadReq => 0
  | kEnumWriteReq => 1
  | kEnumReadReply => 2
  | kEnumWriteReply => 3
  | kEnumAppendReq => 4
  | kEnumAppendReply => 5
  | kEnumReadLog => 6
  | ReplySwitch => 10
  | kEnumUpdateIndexReq => 11
  | kEnumUpdateIndexReply => 12
  | kEnumReadIndexReply => 13
  | kEnumReadIndexReq => 14
  | kEnumMultiCastPkt => 21
  | kEnumReadSend => 22
  | kEnumWriteAndRead => 23
  | kEnumWriteReplyWithData => 24
  | kEnumFsMetaRead => 25
  | kEnumFsCreate => 26
  | kEnumMkdir => 27

/-- `kEnumReadIndexReq` in the tables of the switch. -/
def switchReadIndexReq : ℕ := 13

/-! ### Writes and reads of a client -/

/-- One round of the loop of `nrfsWrite`, with the time in its message and the data blocks that
`extentWrite` allocates. `extentWrite` accepts ranges that are not empty and do not overflow. -/
structure FsWrite where
  path : Path
  size : UInt64
  offset : UInt64
  round : ℕ
  time : ℤ
  blocks : ℕ → UInt32
  size_ne : size ≠ 0
  size_le : size ≤ 0xFFFFFFFFFFFFFFFF - offset

namespace FsWrite

/-- `cur_offset`. -/
def cur_offset (w : FsWrite) : UInt64 := UInt64.ofNat w.round * w.size + w.offset

/-- The round writes a block of the file. -/
def Writes (w : FsWrite) (b : ℕ) : Prop :=
  w.cur_offset.toNat / BLOCK_SIZE.toNat ≤ b ∧
    b ≤ (w.cur_offset.toNat + w.size.toNat - 1) / BLOCK_SIZE.toNat

/-- The `MetaUpdateReq` of the round. The message has the offset of the first round. -/
def update (w : FsWrite) : MetaUpdateReq where
  fei := {
    timeLastModified := w.time
    len := (w.offset + w.size - 1) / BLOCK_SIZE - w.offset / BLOCK_SIZE + 1
    tuple := w.blocks }
  path := w.path
  size := w.size
  offset := w.offset

end FsWrite

/-- A `DataReadReq`, with the first block and the end of the range it is for. A tuple that is `none`
keeps what the send buffer held before. -/
structure DataReadReq where
  b_id : UInt32
  e_id : UInt32
  len : ℕ
  tuple : ℕ → Option UInt32
  size : UInt64
  offset : UInt64

/-- The number of tuples that the loop of `nrfsRead` goes through. -/
def DataReadReq.tuples (req : DataReadReq) : ℕ := (req.e_id - req.b_id + 1).toNat

/-- The block of the file that a tuple is for. -/
def DataReadReq.block (req : DataReadReq) (j : ℕ) : ℕ := (UInt32.ofNat j + req.b_id).toNat

/-- The request of a round of `nrfsRead`. -/
def dataReadReq (m : FileMeta) (size offset : UInt64) (round : ℕ) : DataReadReq :=
  let cur_offset := UInt64.ofNat round * size + offset
  let cur_size := if size + cur_offset > m.size then m.size - cur_offset else size
  let b_id := (cur_offset / BLOCK_SIZE).toUInt32
  let e_id := ((cur_offset + cur_size + BLOCK_SIZE - 1) / BLOCK_SIZE).toUInt32
  let tuple := fun j ↦
    if j < (e_id - b_id + 1).toNat then m.block (UInt32.ofNat j + b_id).toNat else none
  { b_id, e_id, tuple, offset,
    len := (List.range (e_id - b_id + 1).toNat).countP fun j ↦ (tuple j).isSome
    size := cur_size }

/-- The requests of `nrfsRead` once it has the metadata, whose count is that of a directory if it is
`MAX_FILE_EXTENT_COUNT`. -/
def nrfsRead (m : FileMeta) (size offset : UInt64) (cnt : ℕ) : List DataReadReq :=
  if m.count = MAX_FILE_EXTENT_COUNT then []
  else
    ((List.range cnt).takeWhile fun round ↦
      decide (UInt64.ofNat round * size + offset < m.size)).map (dataReadReq m size offset)

theorem dataReadReq_tuple (m : FileMeta) (size offset : UInt64) (round : ℕ) {j : ℕ}
    (hj : j < (dataReadReq m size offset round).tuples) :
    (dataReadReq m size offset round).tuple j = m.block ((dataReadReq m size offset round).block j) :=
  if_pos hj

/-- The blocks of the first round of a write are those that its message names. -/
theorem FsWrite.covers_of_writes {w : FsWrite} (hround : w.round = 0) {b : ℕ} (hb : w.Writes b) :
    w.update.Covers b := by
  have hoffset : w.cur_offset = w.offset := by simp [FsWrite.cur_offset, hround]
  have hblock : BLOCK_SIZE.toNat = 4096 := rfl
  have hone : (1 : UInt64).toNat = 1 := rfl
  have hsize : 0 < w.size.toNat := Nat.pos_of_ne_zero fun hzero ↦
    w.size_ne (UInt64.toNat_inj.mp hzero)
  have hsum := toNat_add_of_le w.size_le
  have hlt := (w.offset + w.size).toNat_lt
  rw [hsum] at hlt
  have hlast := toNat_add_sub_one w.size_ne w.size_le
  have hfirst : w.offset / BLOCK_SIZE ≤ (w.offset + w.size - 1) / BLOCK_SIZE := by
    rw [UInt64.le_iff_toNat_le, UInt64.toNat_div, UInt64.toNat_div, hlast]
    exact Nat.div_le_div_right (by omega)
  have hlen : w.update.fei.len.toNat =
      (w.offset.toNat + w.size.toNat - 1) / 4096 - w.offset.toNat / 4096 + 1 := by
    change ((w.offset + w.size - 1) / BLOCK_SIZE - w.offset / BLOCK_SIZE + 1).toNat = _
    rw [UInt64.toNat_add, UInt64.toNat_sub_of_le _ _ hfirst, UInt64.toNat_div, UInt64.toNat_div,
      hlast, hblock, hone]
    exact Nat.mod_eq_of_lt (by omega)
  have hbegin : w.update.begin_id.toNat = w.offset.toNat / 4096 := by
    change (w.offset / BLOCK_SIZE).toNat = _
    rw [UInt64.toNat_div, hblock]
  obtain ⟨hlo, hhi⟩ := hb
  rw [hoffset, hblock] at hlo hhi
  refine ⟨hbegin ▸ hlo, ?_⟩
  rw [hbegin, hlen]
  omega

/-- A write writes the block that it starts in. -/
theorem FsWrite.writes_first (w : FsWrite) : w.Writes (w.cur_offset.toNat / BLOCK_SIZE.toNat) := by
  have hsize : 0 < w.size.toNat := Nat.pos_of_ne_zero fun hzero ↦
    w.size_ne (UInt64.toNat_inj.mp hzero)
  exact ⟨le_rfl, Nat.div_le_div_right (by omega)⟩

/-! ### The system -/

/-- The part of a `RawVMsg` that the switch works on: the slot and the fingerprint of the file, and
the `rpc_id` in `kv_g_id`, `kv_c_id` and `magic`. -/
structure RawVMsg where
  switch_key : UInt16
  kv_g_id : UInt8
  kv_c_id : UInt8
  magic : UInt16
  key : UInt32
  deriving DecidableEq

/-- A header with a record that is not in the code: the writes of the file that had completed with
`kEnumMultiCastPkt` when the read of this request began. -/
structure Header where
  raw : RawVMsg
  floor : List FsWrite

/-- A packet. The extents in a request for metadata are those that the switch has put there. -/
inductive Packet where
  | appendReply (raw : RawVMsg) (w : FsWrite)
  | multiCastPkt (raw : RawVMsg) (w : FsWrite)
  | updateIndexReq (raw : RawVMsg) (w : FsWrite)
  | updateIndexReply (raw : RawVMsg)
  | replySwitch (raw : RawVMsg)
  | readIndexReq (hdr : Header) (path : Path) (fei : Option FileExtentInfo)
  | readIndexReply (hdr : Header) (attr : Option FileMeta)

namespace Packet

/-- The op of a packet. -/
def op : Packet → RpcType
  | appendReply _ _ => .kEnumAppendReply
  | multiCastPkt _ _ => .kEnumMultiCastPkt
  | updateIndexReq _ _ => .kEnumUpdateIndexReq
  | updateIndexReply _ => .kEnumUpdateIndexReply
  | replySwitch _ => .ReplySwitch
  | readIndexReq _ _ _ => .kEnumReadIndexReq
  | readIndexReply _ _ => .kEnumReadIndexReply

/-- The header that the switch parses. -/
def raw : Packet → RawVMsg
  | appendReply raw _ | multiCastPkt raw _ | updateIndexReq raw _ | updateIndexReply raw
  | replySwitch raw => raw
  | readIndexReq hdr _ _ | readIndexReply hdr _ => hdr.raw

end Packet

/-- The node that a packet is on its way to. -/
inductive Loc
  | switch
  | server
  | client
  deriving DecidableEq

/-- Where the switch sends a packet that it does not install. -/
def Packet.dest : Packet → Option Loc
  | appendReply _ _ | updateIndexReply _ | readIndexReply _ _ => some .client
  | updateIndexReq _ _ | readIndexReq _ _ _ => some .server
  | multiCastPkt _ _ | replySwitch _ => none

/-- The write of a packet that the switch may install. -/
def Packet.installs : Packet → Option FsWrite
  | appendReply _ w | updateIndexReq _ w => some w
  | _ => none

/-- The message that a metadata server receives, with what `mknodcd` does for it. -/
def Packet.msg (mknodcd : Option NewFile) : Packet → Option (MetaMsg Header)
  | multiCastPkt raw w => some (.multiCastPkt ⟨raw, []⟩ w.update)
  | updateIndexReq raw w => some (.updateIndexReq ⟨raw, []⟩ w.update)
  | readIndexReq hdr path _ => some (.readIndexReq hdr .kEnumFsMetaRead path mknodcd)
  | _ => none

/-- The packet of a posted reply. -/
def MetaReply.packet : MetaReply Header → Packet
  | .readIndexReply hdr attr => .readIndexReply hdr attr
  | .replySwitch hdr _ => .replySwitch hdr.raw
  | .updateIndexReply hdr => .updateIndexReply hdr.raw

/-- An entry of the switch. -/
structure SwitchEntry where
  kv_g_id : UInt8
  kv_c_id : UInt8
  magic : UInt16
  key : UInt32
  fei : FileExtentInfo

/-- What a run depends on: the hash, the flags of the server, and how the switch lays the bytes of the
stored extents over the metadata in a reply. -/
structure FsSetup where
  sha256 : Path → UniqueHash
  flags : BatchFlags
  overlay : FileExtentInfo → FileMeta → FileMeta

/-- A state of the system. The history `completed` has the writes that ended with
`kEnumMultiCastPkt`. -/
structure FsState where
  server : MetaServer Header
  slot : UInt16 → Option SwitchEntry
  net : List (Loc × Packet)
  completed : List FsWrite

namespace FsState

variable (S : FsSetup)

/-- The system at first. -/
def init (files : Files) (sendBuf : ℕ → MetaReply Header) : FsState where
  server := MetaServer.init files sendBuf
  slot := fun _ ↦ none
  net := []
  completed := []

/-- The extents of the entry that a packet matches: it has the op code of a read, and the slot holds
its fingerprint. -/
def matched (σ : FsState) (p : Packet) : Option FileExtentInfo :=
  if p.op.code = switchReadIndexReq then
    (σ.slot p.raw.switch_key).bind fun entry ↦ if entry.key = p.raw.key then some entry.fei else none
  else none

/-- The packet with the extents of the entry that it matches. -/
def overlaid (σ : FsState) (p : Packet) : Packet :=
  match σ.matched p, p with
  | some fei, .readIndexReq hdr path _ => .readIndexReq hdr path (some fei)
  | some fei, .readIndexReply hdr attr => .readIndexReply hdr (attr.map (S.overlay fei))
  | _, p => p

/-- The switch installs a write. -/
def install (σ : FsState) (raw : RawVMsg) (w : FsWrite) (rest : List (Loc × Packet)) : FsState :=
  { σ with
    slot := Function.update σ.slot raw.switch_key
      (some ⟨raw.kv_g_id, raw.kv_c_id, raw.magic, raw.key, w.update.fei⟩)
    net := rest ++ [(.server, .multiCastPkt raw w), (.client, .multiCastPkt raw w)] }

/-- The switch handles a `ReplySwitch`, which removes the entry with the same `rpc_id`. -/
def clear (σ : FsState) (raw : RawVMsg) (rest : List (Loc × Packet)) : FsState :=
  { σ with
    net := rest
    slot := Function.update σ.slot raw.switch_key ((σ.slot raw.switch_key).filter fun entry ↦
      !decide (entry.kv_g_id = raw.kv_g_id ∧ entry.kv_c_id = raw.kv_c_id ∧
        entry.magic = raw.magic)) }

/-- The metadata server ends a poll. The replies that it posts go to the switch. -/
def endPoll (σ : FsState) : FsState :=
  let server := σ.server.endPoll S.sha256 S.flags
  { σ with
    server
    net := σ.net ++
      (server.posted.drop σ.server.posted.length).map fun r ↦ (.switch, r.packet) }

/-- A coroutine receives a packet. A write ends with `kEnumMultiCastPkt`, and goes on with
`kEnumUpdateIndexReq` after `kEnumAppendReply`. -/
def client (σ : FsState) (p : Packet) (rest : List (Loc × Packet)) : FsState :=
  match p with
  | .multiCastPkt _ w => { σ with net := rest, completed := σ.completed ++ [w] }
  | .appendReply raw w => { σ with net := rest ++ [(.switch, .updateIndexReq raw w)] }
  | _ => { σ with net := rest }

/-- What happens in a step. -/
inductive Label
  | write (raw : RawVMsg) (w : FsWrite)
  | read (raw : RawVMsg) (path : Path)
  | pass (p : Packet)
  | install (p : Packet)
  | clear (raw : RawVMsg)
  | receive (msg : MetaMsg Header)
  | endPoll
  | client (p : Packet)

/-- One step. Packets may overtake each other, and the switch is free to refuse a write. -/
inductive Step : FsState → Label → FsState → Prop
  | write {σ : FsState} (raw : RawVMsg) (w : FsWrite) :
      Step σ (.write raw w) { σ with net := σ.net ++ [(.switch, .appendReply raw w)] }
  | read {σ : FsState} (raw : RawVMsg) (path : Path) :
      Step σ (.read raw path)
        { σ with
          net := σ.net ++ [(.switch, .readIndexReq ⟨raw, σ.completed.filter fun w ↦
            decide (S.sha256 w.path = S.sha256 path)⟩ path none)] }
  | pass {σ : FsState} {p : Packet} {dest : Loc} {rest : List (Loc × Packet)} :
      Take σ.net .switch p rest → p.dest = some dest →
      Step σ (.pass p) { σ with net := rest ++ [(dest, σ.overlaid S p)] }
  | install {σ : FsState} {p : Packet} {w : FsWrite} {rest : List (Loc × Packet)} :
      Take σ.net .switch p rest → p.installs = some w →
      Step σ (.install p) (σ.install p.raw w rest)
  | clear {σ : FsState} {raw : RawVMsg} {rest : List (Loc × Packet)} :
      Take σ.net .switch (.replySwitch raw) rest → Step σ (.clear raw) (σ.clear raw rest)
  | receive {σ : FsState} {p : Packet} {mknodcd : Option NewFile} {msg : MetaMsg Header}
      {server : MetaServer Header} {rest : List (Loc × Packet)} :
      Take σ.net .server p rest → p.msg mknodcd = some msg →
      MetaServer.Step S.sha256 S.flags σ.server (.receive msg) server →
      Step σ (.receive msg) { σ with server, net := rest }
  | endPoll {σ : FsState} : Step σ .endPoll (σ.endPoll S)
  | client {σ : FsState} {p : Packet} {rest : List (Loc × Packet)} :
      Take σ.net .client p rest → Step σ (.client p) (σ.client p rest)

/-! ### The condition -/

/-- A reply answers a read that has to see a write of the file. -/
def Concerns (h : UniqueHash) (hdr : Header) : Prop := ∃ w ∈ hdr.floor, S.sha256 w.path = h

/-- The condition on a step, for a file: the metadata server meets the condition of
`MetaServer.updates_in_order`, it has entered the writes that a read has to see when it receives the
request, and no entry is overlaid onto the reply. -/
def Current (h : UniqueHash) (σ : FsState) : Label → Prop
  | .pass (.readIndexReply hdr attr) =>
    Concerns S h hdr → σ.matched (.readIndexReply hdr attr) = none
  | .receive msg =>
    MetaServer.InOrder S.sha256 S.flags h σ.server (.receive msg) ∧
      match msg with
      | .readIndexReq hdr _ _ _ =>
        ∀ w ∈ hdr.floor, S.sha256 w.path = h → w.update ∈ σ.server.applied
      | _ => True
  | .endPoll => MetaServer.InOrder S.sha256 S.flags h σ.server .endPoll
  | _ => True

/-- One update is the other one or arrived after it. -/
def SameOrLater (arrived : List MetaUpdateReq) (u v : MetaUpdateReq) : Prop :=
  v = u ∨ ∃ pre post, arrived = pre ++ u :: post ∧ v ∈ post

theorem SameOrLater.eq_of_singleton {u v : MetaUpdateReq} (hv : SameOrLater [u] u v) : v = u := by
  rcases hv with rfl | ⟨pre, post, hsplit, hmem⟩
  · rfl
  · have hlength := congrArg List.length hsplit
    rw [List.length_append, List.length_cons, List.length_cons, List.length_nil] at hlength
    have hpost : post = [] := List.length_eq_zero_iff.mp (by omega)
    exact absurd (hpost ▸ hmem) List.not_mem_nil

/-! ### The invariant -/

section Invariant

variable {S} {σ σ' : FsState} {h : UniqueHash}

/-- A reply is good for the writes that its read has to see: they have been entered, and each of
their blocks is mapped to the data block of the write or of one that was entered after it. -/
def Good (S : FsSetup) (h : UniqueHash) (applied : List MetaUpdateReq) (hdr : Header)
    (attr : Option FileMeta) : Prop :=
  ∀ w ∈ hdr.floor, S.sha256 w.path = h →
    ∃ pre post, MetaServer.ofFile S.sha256 h applied = pre ++ w.update :: post ∧
      ∀ b, w.update.Covers b →
        ∃ m, attr = some m ∧ ∃ v ∈ w.update :: post, v.Covers b ∧ m.block b = some (v.extent b)

/-- A reply stays good when more updates are entered. -/
theorem Good.mono {applied extra : List MetaUpdateReq} {hdr : Header} {attr : Option FileMeta}
    (hgood : Good S h applied hdr attr) : Good S h (applied ++ extra) hdr attr := by
  intro w hw hfile
  obtain ⟨pre, post, hsplit, hblocks⟩ := hgood w hw hfile
  refine ⟨pre, post ++ MetaServer.ofFile S.sha256 h extra, ?_, fun b hb ↦ ?_⟩
  · rw [MetaServer.ofFile_append, hsplit, List.append_assoc, List.cons_append]
  · obtain ⟨m, hm, v, hv, hblock⟩ := hblocks b hb
    exact ⟨m, hm, v, List.mem_append_left _ hv, hblock⟩

theorem good_of_not_concerns {applied : List MetaUpdateReq} {hdr : Header} {attr : Option FileMeta}
    (hnot : ¬Concerns S h hdr) : Good S h applied hdr attr :=
  fun w hw hfile ↦ absurd ⟨w, hw, hfile⟩ hnot

/-- The invariant of a run, for a file. -/
structure Inv (S : FsSetup) (h : UniqueHash) (σ : FsState) : Prop where
  server : MetaServer.Inv S.sha256 h σ.server
  request : ∀ ℓ hdr path fei, (ℓ, Packet.readIndexReq hdr path fei) ∈ σ.net →
    ∀ w ∈ hdr.floor, S.sha256 w.path = S.sha256 path
  reply : ∀ ℓ hdr attr, (ℓ, Packet.readIndexReply hdr attr) ∈ σ.net →
    Good S h σ.server.applied hdr attr
  prepared : ∀ i ∈ σ.server.batch, ∀ hdr attr, σ.server.sendBuf i = .readIndexReply hdr attr →
    Good S h σ.server.applied hdr attr

/-- The last update that covers a block is not older than any update that covers it. -/
theorem lastCovering_split {pre post : List MetaUpdateReq} {u : MetaUpdateReq} {b : ℕ}
    (hb : u.Covers b) :
    ∃ v ∈ u :: post, v.Covers b ∧ MetaServer.lastCovering (pre ++ u :: post) b = some v := by
  have hfilter : (pre ++ u :: post).filter (fun u ↦ decide (u.Covers b)) =
      pre.filter (fun u ↦ decide (u.Covers b)) ++
        u :: post.filter (fun u ↦ decide (u.Covers b)) := by
    rw [List.filter_append, List.filter_cons]
    simp [hb]
  have hne : u :: post.filter (fun u ↦ decide (u.Covers b)) ≠ [] := List.cons_ne_nil _ _
  refine ⟨(u :: post.filter (fun u ↦ decide (u.Covers b))).getLast hne, ?_, ?_, ?_⟩
  · rcases List.mem_cons.mp (List.getLast_mem hne) with heq | hmem
    · rw [heq]
      exact List.mem_cons_self
    · exact List.mem_cons_of_mem _ (List.mem_of_mem_filter hmem)
  · rcases List.mem_cons.mp (List.getLast_mem hne) with heq | hmem
    · rw [heq]
      exact hb
    · exact of_decide_eq_true (List.mem_filter.mp hmem).2
  · rw [MetaServer.lastCovering, hfilter, List.getLast?_append_of_ne_nil _ hne,
      List.getLast?_eq_some_getLast hne]

/-- The metadata that a server has is good for a read whose writes it has entered. -/
theorem good_of_applied (hinv : MetaServer.Inv S.sha256 h σ.server) {hdr : Header} {path : Path}
    {mknodcd : Option NewFile} (hpath : ∀ w ∈ hdr.floor, S.sha256 w.path = S.sha256 path)
    (happlied : ∀ w ∈ hdr.floor, S.sha256 w.path = h → w.update ∈ σ.server.applied) :
    Good S h σ.server.applied hdr
      (MetaServer.openFile S.sha256 σ.server.files path mknodcd (S.sha256 path)) := by
  intro w hw hfile
  have hmem : w.update ∈ MetaServer.ofFile S.sha256 h σ.server.applied :=
    List.mem_filter.mpr ⟨happlied w hw hfile, decide_eq_true hfile⟩
  obtain ⟨pre, post, hsplit⟩ := List.append_of_mem hmem
  refine ⟨pre, post, hsplit, fun b hb ↦ ?_⟩
  obtain ⟨v, hv, hcovers, hlast⟩ := @lastCovering_split pre post w.update b hb
  obtain ⟨m, hm, hblock⟩ := hinv.mapped b v (hsplit ▸ hlast)
  refine ⟨m, ?_, v, hv, hcovers, hblock⟩
  rw [← hpath w hw, hfile]
  exact MetaServer.openFile_of_some hm

/-- Packets that are neither a request for metadata nor its reply may come and go. -/
theorem Inv.deliver (hinv : Inv S h σ) {rest new : List (Loc × Packet)}
    (hserver : σ'.server = σ.server) (hnet : σ'.net = rest ++ new)
    (hrest : ∀ p ∈ rest, p ∈ σ.net)
    (hrequest : ∀ ℓ hdr path fei, (ℓ, Packet.readIndexReq hdr path fei) ∈ new →
      ∀ w ∈ hdr.floor, S.sha256 w.path = S.sha256 path)
    (hreply : ∀ ℓ hdr attr, (ℓ, Packet.readIndexReply hdr attr) ∈ new →
      Good S h σ.server.applied hdr attr) : Inv S h σ' := by
  refine ⟨hserver ▸ hinv.server, fun ℓ hdr path fei hp ↦ ?_, fun ℓ hdr attr hp ↦ ?_, ?_⟩
  · rw [hnet, List.mem_append] at hp
    exact hp.elim (fun hp ↦ hinv.request ℓ hdr path fei (hrest _ hp)) (hrequest ℓ hdr path fei)
  · rw [hnet, List.mem_append] at hp
    rw [hserver]
    exact hp.elim (fun hp ↦ hinv.reply ℓ hdr attr (hrest _ hp)) (hreply ℓ hdr attr)
  · rw [hserver]
    exact hinv.prepared

/-- What the overlay leaves of a request. -/
theorem overlaid_readIndexReq {p : Packet} {hdr : Header} {path : Path}
    {fei : Option FileExtentInfo} (heq : σ.overlaid S p = .readIndexReq hdr path fei) :
    ∃ fei', p = .readIndexReq hdr path fei' := by
  unfold overlaid at heq
  split at heq
  · cases heq
    exact ⟨_, rfl⟩
  · cases heq
  · exact ⟨fei, heq⟩

/-- What the overlay leaves of a reply: the reply itself, if it matches no entry. -/
theorem overlaid_readIndexReply {p : Packet} {hdr : Header} {attr : Option FileMeta}
    (heq : σ.overlaid S p = .readIndexReply hdr attr) :
    ∃ attr', p = .readIndexReply hdr attr' ∧ (σ.matched p = none → attr' = attr) := by
  unfold overlaid at heq
  split at heq
  · cases heq
  · rename_i fei hdr' attr' hmatched
    cases heq
    exact ⟨attr', rfl, fun hnone ↦ absurd (hmatched.symm.trans hnone) (Option.some_ne_none fei)⟩
  · exact ⟨attr, heq, fun _ ↦ rfl⟩

theorem Inv.pass (hinv : Inv S h σ) {p : Packet} {dest : Loc} {rest : List (Loc × Packet)}
    (htake : Take σ.net .switch p rest) (hok : Current S h σ (.pass p)) :
    Inv S h { σ with net := rest ++ [(dest, σ.overlaid S p)] } := by
  refine hinv.deliver rfl rfl (fun _ ↦ htake.mem_of_mem) (fun ℓ hdr path fei hp ↦ ?_)
    fun ℓ hdr attr hp ↦ ?_
  · obtain ⟨fei', rfl⟩ := overlaid_readIndexReq (Prod.ext_iff.mp (List.mem_singleton.mp hp)).2.symm
    exact hinv.request _ _ _ _ htake.mem
  · obtain ⟨attr', rfl, hsame⟩ :=
      overlaid_readIndexReply (Prod.ext_iff.mp (List.mem_singleton.mp hp)).2.symm
    by_cases hconcerns : Concerns S h hdr
    · rw [← hsame (hok hconcerns)]
      exact hinv.reply _ _ _ htake.mem
    · exact good_of_not_concerns hconcerns

theorem receive_applied (s : MetaServer Header) (msg : MetaMsg Header) :
    ∃ extra, (s.receive S.sha256 msg).applied = s.applied ++ extra := by
  cases msg with
  | readIndexReq hdr meta_op path mknodcd =>
    refine ⟨[], ?_⟩
    rw [MetaServer.receive, List.append_nil]
    split_ifs <;> rfl
  | multiCastPkt hdr u => exact ⟨[], (List.append_nil _).symm⟩
  | updateIndexReq hdr u => exact ⟨[u], rfl⟩

/-- The send buffer of a new reply. -/
theorem receive_prepared (s : MetaServer Header) (msg : MetaMsg Header) :
    ∃ r, (s.receive S.sha256 msg).batch = s.batch ++ [s.send_buf_pos] ∧
      (s.receive S.sha256 msg).sendBuf = Function.update s.sendBuf s.send_buf_pos r ∧
      ∀ hdr attr, r = .readIndexReply hdr attr → ∃ meta_op path mknodcd,
        msg = .readIndexReq hdr meta_op path mknodcd ∧
          (meta_op = .kEnumFsMetaRead → attr =
            MetaServer.openFile S.sha256 s.files path mknodcd (S.sha256 path)) := by
  cases msg with
  | readIndexReq hdr meta_op path mknodcd =>
    rw [MetaServer.receive]
    split_ifs with hmeta
    · refine ⟨_, rfl, rfl, fun hdr' attr heq ↦ ?_⟩
      cases heq
      exact ⟨meta_op, path, mknodcd, rfl, fun _ ↦ rfl⟩
    · refine ⟨_, rfl, rfl, fun hdr' attr heq ↦ ?_⟩
      cases heq
      exact ⟨meta_op, path, mknodcd, rfl, fun hread ↦ absurd (Or.inr hread) hmeta⟩
  | multiCastPkt hdr u => exact ⟨_, rfl, rfl, fun _ _ heq ↦ by cases heq⟩
  | updateIndexReq hdr u => exact ⟨_, rfl, rfl, fun _ _ heq ↦ by cases heq⟩

theorem Inv.receive (hinv : Inv S h σ) {p : Packet} {mknodcd : Option NewFile}
    {msg : MetaMsg Header} {rest : List (Loc × Packet)} (htake : Take σ.net .server p rest)
    (hmsg : p.msg mknodcd = some msg) (hok : Current S h σ (.receive msg)) :
    Inv S h { σ with server := σ.server.receive S.sha256 msg, net := rest } := by
  obtain ⟨hserver, hread⟩ := hok
  obtain ⟨extra, hextra⟩ := receive_applied σ.server msg
  obtain ⟨r, hbatch, hbuf, hnew⟩ := receive_prepared σ.server msg
  refine ⟨hinv.server.receive hserver, fun ℓ hdr path fei hp ↦ ?_, fun ℓ hdr attr hp ↦ ?_,
    fun i hi hdr attr hslot ↦ ?_⟩
  · exact hinv.request ℓ hdr path fei (htake.mem_of_mem hp)
  · rw [hextra]
    exact (hinv.reply ℓ hdr attr (htake.mem_of_mem hp)).mono
  · rw [hextra]
    refine Good.mono ?_
    rw [hbatch] at hi
    rw [hbuf] at hslot
    rcases List.mem_append.mp hi with hi | hi
    · -- the ring has not come round to this buffer
      have hne : i ≠ σ.server.send_buf_pos := by
        rintro rfl
        exact hinv.server.ring.notMem hserver.1 hi
      rw [Function.update_of_ne hne] at hslot
      exact hinv.prepared i hi hdr attr hslot
    · obtain rfl := List.mem_singleton.mp hi
      rw [Function.update_self] at hslot
      obtain ⟨meta_op, path, mknodcd', rfl, hattr⟩ := hnew hdr attr hslot
      cases p with
      | readIndexReq hdr' path' fei =>
        cases hmsg
        rw [hattr rfl]
        exact good_of_applied hinv.server (hinv.request _ _ _ _ htake.mem) hread
      | _ => cases hmsg

theorem Inv.endPoll (hinv : Inv S h σ) (hok : Current S h σ .endPoll) : Inv S h (σ.endPoll S) := by
  have hserver := hinv.server.endPoll hok
  rw [FsState.endPoll]
  by_cases hwaits : σ.server.Waits S.flags
  · have hsame : σ.server.endPoll S.sha256 S.flags =
        { σ.server with onpath := false, polled := 0 } := if_pos hwaits
    rw [hsame] at hserver ⊢
    refine ⟨hserver, fun ℓ hdr path fei hp ↦ ?_, fun ℓ hdr attr hp ↦ ?_, hinv.prepared⟩
    · exact hinv.request ℓ hdr path fei (by simpa using hp)
    · exact hinv.reply ℓ hdr attr (by simpa using hp)
  · have hflush : σ.server.endPoll S.sha256 S.flags = σ.server.flush S.sha256 := if_neg hwaits
    have hposted : (σ.server.flush S.sha256).posted.drop σ.server.posted.length =
        σ.server.batch.map σ.server.sendBuf := List.drop_left
    rw [hflush] at hserver ⊢
    rw [hposted]
    have hnew : ∀ {ℓ p}, (ℓ, p) ∈ (σ.server.batch.map σ.server.sendBuf).map
        (fun r ↦ (Loc.switch, r.packet)) → ∃ i ∈ σ.server.batch, p = (σ.server.sendBuf i).packet := by
      intro ℓ p hp
      obtain ⟨r, hr, heq⟩ := List.mem_map.mp hp
      obtain ⟨i, hi, rfl⟩ := List.mem_map.mp hr
      exact ⟨i, hi, (Prod.ext_iff.mp heq).2.symm⟩
    refine ⟨hserver, fun ℓ hdr path fei hp ↦ ?_, fun ℓ hdr attr hp ↦ ?_, fun i hi ↦ ?_⟩
    · rcases List.mem_append.mp hp with hp | hp
      · exact hinv.request ℓ hdr path fei hp
      · obtain ⟨i, -, heq⟩ := hnew hp
        cases hslot : σ.server.sendBuf i <;> rw [hslot] at heq <;> cases heq
    · refine Good.mono ?_
      rcases List.mem_append.mp hp with hp | hp
      · exact hinv.reply ℓ hdr attr hp
      · obtain ⟨i, hi, heq⟩ := hnew hp
        cases hslot : σ.server.sendBuf i with
        | readIndexReply hdr' attr' =>
          rw [hslot] at heq
          cases heq
          exact hinv.prepared i hi hdr attr hslot
        | replySwitch hdr' u => rw [hslot] at heq; cases heq
        | updateIndexReply hdr' => rw [hslot] at heq; cases heq
    · exact absurd hi List.not_mem_nil

theorem Inv.client (hinv : Inv S h σ) {p : Packet} {rest : List (Loc × Packet)}
    (htake : Take σ.net .client p rest) : Inv S h (σ.client p rest) := by
  have hdrop : ∀ completed, Inv S h { σ with net := rest, completed } := fun completed ↦
    hinv.deliver rfl (List.append_nil rest).symm (fun _ ↦ htake.mem_of_mem)
      (fun _ _ _ _ hp ↦ absurd hp List.not_mem_nil) fun _ _ _ hp ↦ absurd hp List.not_mem_nil
  cases p with
  | appendReply raw w =>
    refine hinv.deliver rfl rfl (fun _ ↦ htake.mem_of_mem) (fun ℓ hdr path fei hp ↦ ?_)
      fun ℓ hdr attr hp ↦ ?_
    · cases List.mem_singleton.mp hp
    · cases List.mem_singleton.mp hp
  | _ => exact hdrop _

/-- One step keeps the invariant. -/
theorem Inv.step (hinv : Inv S h σ) {label : Label} (hok : Current S h σ label)
    (hstep : Step S σ label σ') : Inv S h σ' := by
  cases hstep with
  | write raw w =>
    refine hinv.deliver rfl rfl (fun _ hp ↦ hp) (fun ℓ hdr path fei hp ↦ ?_) fun ℓ hdr attr hp ↦ ?_
    · cases List.mem_singleton.mp hp
    · cases List.mem_singleton.mp hp
  | read raw path =>
    refine hinv.deliver rfl rfl (fun _ hp ↦ hp) (fun ℓ hdr path' fei hp w hw ↦ ?_)
      fun ℓ hdr attr hp ↦ ?_
    · cases List.mem_singleton.mp hp
      exact of_decide_eq_true (List.mem_filter.mp hw).2
    · cases List.mem_singleton.mp hp
  | pass htake hdest => exact hinv.pass htake hok
  | install htake hinstalls =>
    refine hinv.deliver rfl rfl (fun _ ↦ htake.mem_of_mem) (fun ℓ hdr path fei hp ↦ ?_)
      fun ℓ hdr attr hp ↦ ?_
    · simp at hp
    · simp at hp
  | clear htake =>
    exact hinv.deliver rfl (List.append_nil _).symm (fun _ ↦ htake.mem_of_mem)
      (fun _ _ _ _ hp ↦ absurd hp List.not_mem_nil) fun _ _ _ hp ↦ absurd hp List.not_mem_nil
  | receive htake hmsg hserver =>
    cases hserver with
    | receive _ hpolled => exact hinv.receive htake hmsg hok
  | endPoll => exact hinv.endPoll hok
  | client htake => exact hinv.client htake

/-- The invariant along a run that meets the condition. -/
theorem inv_of_reachable {files : Files} {sendBuf : ℕ → MetaReply Header}
    (hrun : Reachable (init files sendBuf) (Step S) (Current S h) σ) : Inv S h σ := by
  refine hrun.invariant (Inv S h) ?_ fun σ label σ' _ hinv hok hstep ↦ hinv.step hok hstep
  exact ⟨MetaServer.Inv.init files sendBuf, fun _ _ _ _ hp ↦ absurd hp List.not_mem_nil,
    fun _ _ _ hp ↦ absurd hp List.not_mem_nil, fun _ hi ↦ absurd hi List.not_mem_nil⟩

end Invariant

/-- Every request of `nrfsRead` is that of a round. -/
theorem exists_of_mem_nrfsRead {m : FileMeta} {size offset : UInt64} {cnt : ℕ} {req : DataReadReq}
    (hreq : req ∈ nrfsRead m size offset cnt) : ∃ round, req = dataReadReq m size offset round := by
  rw [nrfsRead] at hreq
  split_ifs at hreq with hdir
  · exact absurd hreq List.not_mem_nil
  · obtain ⟨round, -, rfl⟩ := List.mem_map.mp hreq
    exact ⟨round, rfl⟩

/-- A read of a file that started after a write of a block had completed with `kEnumMultiCastPkt`
puts the data block of that write, or of one that arrived after it, into its `DataReadReq`. This holds
in every run in which the metadata server meets the condition of `MetaServer.updates_in_order`, has
entered the writes that had completed when it receives the request of a read, and no entry of the
switch matches the reply; and for the first round of `nrfsWrite`, whose message has the right offset. -/
theorem read_after_fast_write (files : Files) (sendBuf : ℕ → MetaReply Header) (h : UniqueHash)
    {σ : FsState} (hrun : Reachable (init files sendBuf) (Step S) (Current S h) σ) {hdr : Header}
    {attr : Option FileMeta} (hp : (Loc.client, Packet.readIndexReply hdr attr) ∈ σ.net)
    {w : FsWrite} (hw : w ∈ hdr.floor) (hfile : S.sha256 w.path = h) (hround : w.round = 0) :
    ∃ m, attr = some m ∧ ∀ size offset cnt, ∀ req ∈ nrfsRead m size offset cnt, ∀ j < req.tuples,
      w.Writes (req.block j) →
        ∃ v, SameOrLater (MetaServer.ofFile S.sha256 h σ.server.arrived) w.update v ∧
          v.Covers (req.block j) ∧ req.tuple j = some (v.extent (req.block j)) := by
  have hinv := inv_of_reachable hrun
  obtain ⟨pre, post, hsplit, hblocks⟩ := hinv.reply _ hdr attr hp w hw hfile
  obtain ⟨m, rfl, -⟩ := hblocks _ (FsWrite.covers_of_writes hround w.writes_first)
  refine ⟨m, rfl, fun size offset cnt req hreq j hj hwrites ↦ ?_⟩
  obtain ⟨m', hm, v, hv, hcovers, hblock⟩ := hblocks _ (FsWrite.covers_of_writes hround hwrites)
  obtain rfl := Option.some.inj hm
  refine ⟨v, ?_, hcovers, ?_⟩
  · rcases List.mem_cons.mp hv with rfl | hpost
    · exact Or.inl rfl
    · refine Or.inr ⟨pre, post ++ MetaServer.ofFile S.sha256 h σ.server.deferred, ?_,
        List.mem_append_left _ hpost⟩
      rw [← hinv.server.order, hsplit, List.append_assoc, List.cons_append]
  · obtain ⟨round, rfl⟩ := exists_of_mem_nrfsRead hreq
    rw [dataReadReq_tuple m size offset round hj, hblock]

/-! ### A read that meets the condition and one that does not -/

/-- A switch with some overlay, for one file. -/
def oneFile (overlay : FileExtentInfo → FileMeta → FileMeta) : FsSetup where
  sha256 := fun _ ↦ MetaServer.oneHash
  flags := ⟨false, 16⟩
  overlay := overlay

/-- A system whose file has the data block `1` for its only block. -/
def oneBlock : FsState :=
  init (fun _ ↦ some
    { timeLastModified := 0, count := 1, size := BLOCK_SIZE, tuple := fun _ ↦ ⟨1, 1⟩ })
    (fun _ ↦ .updateIndexReply ⟨⟨0, 0, 0, 0, 0⟩, []⟩)

/-- A write of block `0` to the data block `2`. -/
def blockWrite : FsWrite where
  path := []
  size := BLOCK_SIZE
  offset := 0
  round := 0
  time := 0
  blocks := fun _ ↦ 2
  size_ne := by decide
  size_le := by decide

/-- The header of the write, of one coroutine. -/
def writeRaw : RawVMsg := ⟨0, 0, 0, 0, 0⟩

/-- The header of the read, of another coroutine. -/
def readHdr : Header := ⟨⟨0, 0, 1, 0, 0⟩, [blockWrite]⟩

/-- The write has completed, and its copy for the metadata server is on the way. -/
def written : FsState :=
  { oneBlock.install writeRaw blockWrite [] with
    net := [(.server, .multiCastPkt writeRaw blockWrite)], completed := [blockWrite] }

theorem reachable_written {overlay : FileExtentInfo → FileMeta → FileMeta}
    {ok : FsState → Label → Prop} (hwrite : ok oneBlock (.write writeRaw blockWrite))
    (hinstall : ∀ σ p, ok σ (.install p)) (hclient : ∀ σ p, ok σ (.client p)) :
    Reachable oneBlock (Step (oneFile overlay)) ok written := by
  have hsend : Step (oneFile overlay) oneBlock (.write writeRaw blockWrite)
      { oneBlock with net := [(.switch, .appendReply writeRaw blockWrite)] } := Step.write _ _
  have hmulti : Step (oneFile overlay)
      { oneBlock with net := [(.switch, .appendReply writeRaw blockWrite)] }
      (.install (.appendReply writeRaw blockWrite)) (oneBlock.install writeRaw blockWrite []) :=
    Step.install ⟨[], [], rfl, rfl⟩ rfl
  have hdone : Step (oneFile overlay) (oneBlock.install writeRaw blockWrite [])
      (.client (.multiCastPkt writeRaw blockWrite)) written :=
    Step.client ⟨[(.server, .multiCastPkt writeRaw blockWrite)], [], rfl, rfl⟩
  exact ((Reachable.init.step hwrite hsend).step (hinstall _ _) hmulti).step (hclient _ _) hdone

/-- A read of the file adds its request. -/
theorem step_read {overlay : FileExtentInfo → FileMeta → FileMeta} {σ : FsState}
    (hcompleted : σ.completed = [blockWrite]) :
    Step (oneFile overlay) σ (.read readHdr.raw [])
      { σ with net := σ.net ++ [(.switch, .readIndexReq readHdr [] none)] } := by
  have hfloor : σ.completed.filter (fun w ↦
      decide ((oneFile overlay).sha256 w.path = (oneFile overlay).sha256 [])) = [blockWrite] := by
    rw [hcompleted]
    exact List.filter_eq_self.mpr fun _ _ ↦ decide_eq_true rfl
  have hstep := @Step.read (oneFile overlay) σ readHdr.raw []
  rwa [hfloor] at hstep

/-- The read starts after the metadata server has entered the write and the entry is gone, and asks for
the data block of the write. -/
theorem read_after_fast_write_cleared :
    ∃ (σ : FsState) (m : FileMeta),
      Reachable oneBlock (Step (oneFile fun _ m ↦ m))
        (Current (oneFile fun _ m ↦ m) MetaServer.oneHash) σ ∧
      (Loc.client, Packet.readIndexReply readHdr (some m)) ∈ σ.net ∧
      ∀ req ∈ nrfsRead m BLOCK_SIZE 0 1, ∀ j < req.tuples, blockWrite.Writes (req.block j) →
        req.tuple j = some 2 := by
  let S := oneFile fun _ m ↦ m
  let mc : MetaMsg Header := .multiCastPkt ⟨writeRaw, []⟩ blockWrite.update
  let rd : MetaMsg Header := .readIndexReq readHdr .kEnumFsMetaRead [] none
  let σ₁ : FsState := { written with server := written.server.receive S.sha256 mc, net := [] }
  let σ₂ : FsState := σ₁.endPoll S
  let σ₃ : FsState := σ₂.clear writeRaw []
  let σ₄ : FsState := { σ₃ with net := [(.switch, .readIndexReq readHdr [] none)] }
  let σ₅ : FsState := { σ₃ with net := [(.server, .readIndexReq readHdr [] none)] }
  let σ₆ : FsState := { σ₃ with server := σ₃.server.receive S.sha256 rd, net := [] }
  let σ₇ : FsState := σ₆.endPoll S
  let reply : Packet := .readIndexReply readHdr (σ₃.server.files MetaServer.oneHash)
  let σ₈ : FsState := { σ₇ with net := [(.client, reply)] }
  have hvalid : blockWrite.update.Valid := ⟨by decide, by decide, by decide, by decide, by decide⟩
  have hok₁ : Current S MetaServer.oneHash written (.receive mc) := ⟨⟨by decide, trivial⟩, trivial⟩
  have hok₂ : Current S MetaServer.oneHash σ₁ .endPoll :=
    fun _ ↦ ⟨hvalid, Or.inr (by decide), trivial⟩
  have hok₃ : Current S MetaServer.oneHash σ₂ (.clear writeRaw) := trivial
  have hok₄ : Current S MetaServer.oneHash σ₃ (.read readHdr.raw []) := trivial
  have hok₄' : Current S MetaServer.oneHash σ₄ (.pass (.readIndexReq readHdr [] none)) := trivial
  have hok₅ : Current S MetaServer.oneHash σ₅ (.receive rd) := by
    refine ⟨⟨by decide, trivial⟩, fun w hw _ ↦ ?_⟩
    rw [List.mem_singleton.mp hw]
    exact List.mem_singleton_self _
  have hok₆ : Current S MetaServer.oneHash σ₆ .endPoll := fun _ ↦ trivial
  have hok₇ : Current S MetaServer.oneHash σ₇ (.pass reply) := fun _ ↦ rfl
  have hstep₁ : Step S written (.receive mc) σ₁ :=
    @Step.receive S written (.multiCastPkt writeRaw blockWrite) none mc _ [] ⟨[], [], rfl, rfl⟩ rfl
      (MetaServer.Step.receive _ (by decide))
  have hstep₃ : Step S σ₂ (.clear writeRaw) σ₃ := Step.clear ⟨[], [], rfl, rfl⟩
  have hstep₄ : Step S σ₃ (.read readHdr.raw []) σ₄ := step_read rfl
  have hstep₅ : Step S σ₄ (.pass (.readIndexReq readHdr [] none)) σ₅ :=
    Step.pass ⟨[], [], rfl, rfl⟩ rfl
  have hstep₆ : Step S σ₅ (.receive rd) σ₆ :=
    @Step.receive S σ₅ (.readIndexReq readHdr [] none) none rd _ [] ⟨[], [], rfl, rfl⟩ rfl
      (MetaServer.Step.receive _ (by decide))
  have hstep₈ : Step S σ₇ (.pass reply) σ₈ := Step.pass ⟨[], [], rfl, rfl⟩ rfl
  have hrun₃ : Reachable oneBlock (Step S) (Current S MetaServer.oneHash) σ₃ :=
    (((reachable_written trivial (fun _ _ ↦ trivial) fun _ _ ↦ trivial).step hok₁ hstep₁).step
      hok₂ Step.endPoll).step hok₃ hstep₃
  have hrun : Reachable oneBlock (Step S) (Current S MetaServer.oneHash) σ₈ :=
    ((((hrun₃.step hok₄ hstep₄).step hok₄' hstep₅).step hok₅ hstep₆).step hok₆
      Step.endPoll).step hok₇ hstep₈
  obtain ⟨m, hm, hread⟩ := read_after_fast_write S _ _ _ hrun (List.mem_singleton_self _)
    (List.mem_singleton_self blockWrite) rfl rfl
  refine ⟨σ₈, m, hrun, hm ▸ List.mem_singleton_self _, fun req hreq j hj hwrites ↦ ?_⟩
  obtain ⟨v, hv, -, htuple⟩ := hread _ _ _ req hreq j hj hwrites
  have harrived : MetaServer.ofFile S.sha256 MetaServer.oneHash σ₈.server.arrived =
      [blockWrite.update] := MetaServer.ofFile_cons_of_eq rfl []
  rw [harrived] at hv
  rw [htuple, hv.eq_of_singleton]
  rfl

/-- However the switch lays an entry over a packet, there is a run in which a read starts after a fast
write of a block has completed, and asks for the data block of the write before it. The request passes
the switch as it is, since its op code is not that of a read in the tables of the switch. The metadata
server receives it while the update of the write waits in the batch, and its reply passes the switch
after the `ReplySwitch` has removed the entry. -/
theorem stale_read :
    ¬∃ overlay : FileExtentInfo → FileMeta → FileMeta, ∀ (σ : FsState) (hdr : Header) (m : FileMeta),
      Reachable oneBlock (Step (oneFile overlay)) (fun _ _ ↦ True) σ →
      (Loc.client, Packet.readIndexReply hdr (some m)) ∈ σ.net → ∀ w ∈ hdr.floor, w.round = 0 →
      ∀ size offset cnt, ∀ req ∈ nrfsRead m size offset cnt, ∀ j < req.tuples,
        w.Writes (req.block j) →
          ∃ v, SameOrLater σ.server.arrived w.update v ∧ v.Covers (req.block j) ∧
            req.tuple j = some (v.extent (req.block j)) := by
  rintro ⟨overlay, hfresh⟩
  let S := oneFile overlay
  let mc : MetaMsg Header := .multiCastPkt ⟨writeRaw, []⟩ blockWrite.update
  let rd : MetaMsg Header := .readIndexReq readHdr .kEnumFsMetaRead [] none
  let copy : Loc × Packet := (.server, .multiCastPkt writeRaw blockWrite)
  let m : FileMeta := { timeLastModified := 0, count := 1, size := BLOCK_SIZE, tuple := fun _ ↦ ⟨1, 1⟩ }
  let σ₁ : FsState := { written with net := [copy, (.switch, .readIndexReq readHdr [] none)] }
  let σ₂ : FsState := { written with net := [copy, (.server, .readIndexReq readHdr [] none)] }
  let σ₃ : FsState := { written with
    server := written.server.receive S.sha256 mc
    net := [(.server, .readIndexReq readHdr [] none)] }
  let σ₄ : FsState := { σ₃ with server := σ₃.server.receive S.sha256 rd, net := [] }
  let σ₅ : FsState := σ₄.endPoll S
  let σ₆ : FsState := σ₅.clear writeRaw [(.switch, .readIndexReply readHdr (some m))]
  let σ₇ : FsState := { σ₆ with net := [(.client, .readIndexReply readHdr (some m))] }
  have hpolled : σ₃.server.polled < Kv.kMaxWcCnt := show (1 : ℕ) < 16 by decide
  have hstep₁ : Step S written (.read readHdr.raw []) σ₁ := step_read rfl
  have hstep₂ : Step S σ₁ (.pass (.readIndexReq readHdr [] none)) σ₂ :=
    Step.pass ⟨[copy], [], rfl, rfl⟩ rfl
  have hstep₃ : Step S σ₂ (.receive mc) σ₃ :=
    @Step.receive S σ₂ (.multiCastPkt writeRaw blockWrite) none mc _ _ ⟨[], _, rfl, rfl⟩ rfl
      (MetaServer.Step.receive _ (by decide))
  have hstep₄ : Step S σ₃ (.receive rd) σ₄ :=
    @Step.receive S σ₃ (.readIndexReq readHdr [] none) none rd _ [] ⟨[], [], rfl, rfl⟩ rfl
      (MetaServer.Step.receive _ hpolled)
  have hstep₆ : Step S σ₅ (.clear writeRaw) σ₆ :=
    Step.clear ⟨[], [(.switch, .readIndexReply readHdr (some m))], rfl, rfl⟩
  have hstep₇ : Step S σ₆ (.pass (.readIndexReply readHdr (some m))) σ₇ :=
    Step.pass ⟨[], [], rfl, rfl⟩ rfl
  have hrun : Reachable oneBlock (Step S) (fun _ _ ↦ True) σ₇ :=
    (((((((reachable_written trivial (fun _ _ ↦ trivial) fun _ _ ↦ trivial).step trivial
      hstep₁).step trivial hstep₂).step trivial hstep₃).step trivial hstep₄).step trivial
      Step.endPoll).step trivial hstep₆).step trivial hstep₇
  obtain ⟨v, hv, -, htuple⟩ := hfresh σ₇ readHdr m hrun (List.mem_singleton_self _) blockWrite
    (List.mem_singleton_self _) rfl BLOCK_SIZE 0 1 (dataReadReq m BLOCK_SIZE 0 0)
    (List.mem_singleton_self _) 0 (by decide) ⟨by decide, by decide⟩
  rw [hv.eq_of_singleton] at htuple
  exact absurd htuple (by decide)

end FsState

end SwitchDelta.Fs
