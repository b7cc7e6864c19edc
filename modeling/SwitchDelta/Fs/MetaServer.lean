import SwitchDelta.Foundation.Transition
import SwitchDelta.Fs.Metadata
import SwitchDelta.Kv.SendRing

/-!
# The loop of the metadata server

`server_batch_CPC` of the file system, as a metadata server runs it. A poll returns up to `kMaxWcCnt`
messages, and for each of them a reply is prepared in the next buffer of the send ring. The update of
a `kEnumUpdateIndexReq` is entered into the metadata at once, that of a `kEnumMultiCastPkt` stays in
its send buffer until the replies of the batch are posted, which may be several polls later.

`updates_in_order` says when the updates of a file take effect in the order of their arrival: no
`kEnumUpdateIndexReq` of the file is received while a `kEnumMultiCastPkt` of it waits, no message is
received while every send buffer holds a reply of the batch, and each update starts at a block that
the file has. `updates_out_of_order` shows what happens otherwise.

`arrived`, `applied` and `posted` are not in the code. They record the updates in the order of their
arrival and of their `extentMetaWrite`, and the replies that were handed to the NIC.
-/

set_option autoImplicit false
set_option relaxedAutoImplicit false

namespace SwitchDelta.Fs

open Foundation
open Kv (kStaticSendBuf kMaxWcCnt)

/-! ### Messages -/

/-- `RpcType` of the file system. -/
inductive RpcType where
  | kEnumReadReq
  | kEnumWriteReq
  | kEnumReadReply
  | kEnumWriteReply
  | kEnumAppendReq
  | kEnumAppendReply
  | kEnumReadLog
  | ReplySwitch
  | kEnumUpdateIndexReq
  | kEnumUpdateIndexReply
  | kEnumReadIndexReply
  | kEnumReadIndexReq
  | kEnumMultiCastPkt
  | kEnumReadSend
  | kEnumWriteAndRead
  | kEnumWriteReplyWithData
  | kEnumFsMetaRead
  | kEnumFsCreate
  | kEnumMkdir
  deriving DecidableEq

/-- What `mknodcd` leaves in a new file besides its count and its size: the time and whatever the
tuples on the stack hold. -/
structure NewFile where
  timeLastModified : ℤ
  tuple : ℕ → FileMetaTuple

/-- A message for a metadata server. Its header is of any type, since the loop only copies it into
the reply. With the request for the metadata of a path comes what `mknodcd`
makes of the path if it has no file: it fails where the path is a directory or space runs out. -/
inductive MetaMsg (ρ : Type) where
  | readIndexReq (raw : ρ) (meta_op : RpcType) (path : Path) (mknodcd : Option NewFile)
  | multiCastPkt (raw : ρ) (u : MetaUpdateReq)
  | updateIndexReq (raw : ρ) (u : MetaUpdateReq)

/-- A reply in its send buffer. The metadata in the reply to a read is missing where `getattr` finds
no file. -/
inductive MetaReply (ρ : Type) where
  | readIndexReply (raw : ρ) (attr : Option FileMeta)
  | replySwitch (raw : ρ) (u : MetaUpdateReq)
  | updateIndexReply (raw : ρ)

/-- The update that a reply of the batch still has to bring into the metadata. -/
def MetaReply.deferred {ρ : Type} : MetaReply ρ → Option MetaUpdateReq
  | .replySwitch _ u => some u
  | _ => none

/-! ### The loop -/

/-- `FLAGS_batch` and `FLAGS_batch_size`. -/
structure BatchFlags where
  batch : Bool
  batch_size : ℕ

/-- The state of the loop. A reply of the batch is given by the index of its send buffer. -/
structure MetaServer (ρ : Type) where
  files : Files
  sendBuf : ℕ → MetaReply ρ
  send_buf_pos : ℕ
  batch : List ℕ
  onpath : Bool
  polled : ℕ
  arrived : List MetaUpdateReq
  applied : List MetaUpdateReq
  posted : List (MetaReply ρ)

namespace MetaServer

variable {ρ : Type} (sha256 : Path → UniqueHash) (f : BatchFlags)

/-- A server before its first poll, with any contents of its send buffers. -/
def init (files : Files) (sendBuf : ℕ → MetaReply ρ) : MetaServer ρ where
  files := files
  sendBuf := sendBuf
  send_buf_pos := 0
  batch := []
  onpath := false
  polled := 0
  arrived := []
  applied := []
  posted := []

/-- Prepare a reply in the next send buffer. Where the ring is full the thread waits for completions
or posts the batch first; either way it goes on with this buffer or not at all. -/
def reply (s : MetaServer ρ) (r : MetaReply ρ) : MetaServer ρ :=
  { s with
    sendBuf := Function.update s.sendBuf s.send_buf_pos r
    send_buf_pos := (s.send_buf_pos + 1) % kStaticSendBuf
    batch := s.batch ++ [s.send_buf_pos]
    polled := s.polled + 1 }

/-- `access` and, for a path without a file, `mknodcd`. -/
def openFile (files : Files) (path : Path) (mknodcd : Option NewFile) : Files :=
  match files (sha256 path), mknodcd with
  | none, some new =>
    Function.update files (sha256 path) (some
      { timeLastModified := new.timeLastModified, count := 0, size := 0, tuple := new.tuple })
  | _, _ => files

/-- A message is taken out of the poll. -/
def receive (s : MetaServer ρ) : MetaMsg ρ → MetaServer ρ
  | .readIndexReq raw meta_op path mknodcd =>
    if meta_op = .kEnumFsCreate ∨ meta_op = .kEnumFsMetaRead then
      let files := openFile sha256 s.files path mknodcd
      { s.reply (.readIndexReply raw (files (sha256 path))) with files := files, onpath := true }
    else { s.reply (.readIndexReply raw none) with onpath := true }
  | .multiCastPkt raw u => { s.reply (.replySwitch raw u) with arrived := s.arrived ++ [u] }
  | .updateIndexReq raw u =>
    { s.reply (.updateIndexReply raw) with
      files := (extentMetaWrite sha256 s.files u).1
      onpath := true
      arrived := s.arrived ++ [u]
      applied := s.applied ++ [u] }

/-- The updates that the replies of the batch have to bring into the metadata. -/
def deferred (s : MetaServer ρ) : List MetaUpdateReq :=
  (s.batch.map s.sendBuf).filterMap MetaReply.deferred

/-- The loop over the batch, after which its replies are posted. -/
def flush (s : MetaServer ρ) : MetaServer ρ :=
  { s with
    files := s.batch.foldl (fun files i ↦
      match s.sendBuf i with
      | .replySwitch _ u => (extentMetaWrite sha256 files u).1
      | _ => files) s.files
    batch := []
    onpath := false
    polled := 0
    applied := s.applied ++ s.deferred
    posted := s.posted ++ s.batch.map s.sendBuf }

/-- The loop goes on to the next poll and keeps its batch. -/
def Waits (s : MetaServer ρ) : Prop :=
  s.batch.length < f.batch_size ∧ s.onpath = false ∧ f.batch = true

instance (s : MetaServer ρ) : Decidable (s.Waits f) := inferInstanceAs (Decidable (_ ∧ _ ∧ _))

/-- The end of a poll. -/
def endPoll (s : MetaServer ρ) : MetaServer ρ :=
  if s.Waits f then { s with onpath := false, polled := 0 } else s.flush sha256

/-- What the loop does next. -/
inductive Event (ρ : Type) where
  | receive (msg : MetaMsg ρ)
  | endPoll

/-- The steps of the loop. -/
inductive Step : MetaServer ρ → Event ρ → MetaServer ρ → Prop
  | receive {s : MetaServer ρ} (msg : MetaMsg ρ) :
      s.polled < kMaxWcCnt → Step s (.receive msg) (s.receive sha256 msg)
  | endPoll {s : MetaServer ρ} : Step s .endPoll (s.endPoll sha256 f)

/-! ### The condition -/

/-- The updates of a file. -/
def ofFile (h : UniqueHash) (l : List MetaUpdateReq) : List MetaUpdateReq :=
  l.filter fun u ↦ decide (sha256 u.path = h)

/-- The updates can be entered into the metadata one after the other: the file exists, and none of
them leaves a gap behind it. -/
def Chained : Option FileMeta → List MetaUpdateReq → Prop
  | _, [] => True
  | none, _ :: _ => False
  | some m, u :: us => u.Valid ∧ u.Adjoins m ∧ Chained (some (m.updated u)) us

/-- The condition on a step, for a file. -/
def InOrder (h : UniqueHash) (s : MetaServer ρ) : Event ρ → Prop
  | .receive msg =>
    s.batch.length < kStaticSendBuf ∧
      match msg with
      | .updateIndexReq _ u =>
        sha256 u.path = h → ofFile sha256 h s.deferred = [] ∧ Chained (s.files h) [u]
      | _ => True
  | .endPoll => ¬s.Waits f → Chained (s.files h) (ofFile sha256 h s.deferred)

/-- The last of the updates that name a data block for a block of the file. -/
def lastCovering (l : List MetaUpdateReq) (b : ℕ) : Option MetaUpdateReq :=
  (l.filter fun u ↦ decide (u.Covers b)).getLast?

/-! ### Updates of the metadata -/

section Updates

variable {sha256 f} {files : Files} {u : MetaUpdateReq} {h : UniqueHash}

theorem lastCovering_append (l : List MetaUpdateReq) (u : MetaUpdateReq) (b : ℕ) :
    lastCovering (l ++ [u]) b = if u.Covers b then some u else lastCovering l b := by
  rw [lastCovering, List.filter_append]
  split_ifs with hb
  · simp [hb]
  · simp [hb, lastCovering]

theorem ofFile_append (l l' : List MetaUpdateReq) :
    ofFile sha256 h (l ++ l') = ofFile sha256 h l ++ ofFile sha256 h l' :=
  List.filter_append l l'

theorem ofFile_cons_of_eq (hu : sha256 u.path = h) (l : List MetaUpdateReq) :
    ofFile sha256 h (u :: l) = u :: ofFile sha256 h l := by
  simp [ofFile, hu]

theorem ofFile_cons_of_ne (hu : sha256 u.path ≠ h) (l : List MetaUpdateReq) :
    ofFile sha256 h (u :: l) = ofFile sha256 h l := by
  simp [ofFile, hu]

theorem extentMetaWrite_of_ne (hu : sha256 u.path ≠ h) :
    (extentMetaWrite sha256 files u).1 h = files h := by
  rw [extentMetaWrite]
  split
  · rfl
  · exact Function.update_of_ne (Ne.symm hu) _ _

theorem extentMetaWrite_of_valid {m : FileMeta} (hu : sha256 u.path = h) (hm : files h = some m)
    (hvalid : u.Valid) : (extentMetaWrite sha256 files u).1 h = some (m.updated u) := by
  have hbind : ((files (sha256 u.path)).bind fun m ↦ m.extentMetaWrite u) = some (m.updated u) := by
    rw [hu, hm, Option.bind_some, FileMeta.extentMetaWrite_eq hvalid.accepted]
  rw [extentMetaWrite, hbind, hu]
  exact Function.update_self h _ files

theorem openFile_of_some {path : Path} {mknodcd : Option NewFile} {m : FileMeta}
    (hm : files h = some m) : openFile sha256 files path mknodcd h = some m := by
  cases hfile : files (sha256 path) with
  | some _ => simpa [openFile, hfile] using hm
  | none =>
    cases mknodcd with
    | none => simpa [openFile, hfile] using hm
    | some new =>
      have hne : h ≠ sha256 path := fun heq ↦ by
        rw [← heq, hm] at hfile
        exact absurd hfile (Option.some_ne_none m)
      simpa [openFile, hfile, Function.update_of_ne hne] using hm

/-- Each block that an update of the list covers is mapped to the data block of the last of them. -/
def Mapped (files : Files) (h : UniqueHash) (l : List MetaUpdateReq) : Prop :=
  ∀ b u, lastCovering l b = some u → ∃ m, files h = some m ∧ m.block b = some (u.extent b)

/-- One update is entered. -/
theorem Mapped.write {l : List MetaUpdateReq} (hmapped : Mapped files h (ofFile sha256 h l))
    (hchained : sha256 u.path = h → Chained (files h) [u]) :
    Mapped (extentMetaWrite sha256 files u).1 h (ofFile sha256 h (l ++ [u])) := by
  intro b v hv
  rw [ofFile_append] at hv
  by_cases hu : sha256 u.path = h
  · have hfile : ofFile sha256 h [u] = [u] := ofFile_cons_of_eq hu []
    rw [hfile, lastCovering_append] at hv
    have hchain := hchained hu
    cases hm : files h with
    | none => rw [hm] at hchain; exact hchain.elim
    | some m =>
      rw [hm] at hchain
      obtain ⟨hvalid, hadjoins, -⟩ := hchain
      refine ⟨m.updated u, extentMetaWrite_of_valid hu hm hvalid, ?_⟩
      split_ifs at hv with hb
      · obtain rfl := Option.some.inj hv
        exact FileMeta.block_of_covers hvalid hb
      · obtain ⟨m', hm', hblock⟩ := hmapped b v hv
        obtain rfl := Option.some.inj (hm.symm.trans hm')
        exact FileMeta.block_of_not_covers hvalid hadjoins hb hblock
  · have hfile : ofFile sha256 h [u] = [] := ofFile_cons_of_ne hu []
    rw [hfile, List.append_nil] at hv
    rw [extentMetaWrite_of_ne hu]
    exact hmapped b v hv

/-- The updates of a list are entered one after the other. -/
theorem Mapped.writeAll {l : List MetaUpdateReq} (us : List MetaUpdateReq)
    (hmapped : Mapped files h (ofFile sha256 h l))
    (hchained : Chained (files h) (ofFile sha256 h us)) :
    Mapped (us.foldl (fun files u ↦ (extentMetaWrite sha256 files u).1) files) h
      (ofFile sha256 h (l ++ us)) := by
  induction us generalizing files l with
  | nil => rwa [List.append_nil]
  | cons u us ih =>
    rw [List.foldl_cons, List.append_cons]
    by_cases hu : sha256 u.path = h
    · rw [ofFile_cons_of_eq hu] at hchained
      cases hm : files h with
      | none => rw [hm] at hchained; exact hchained.elim
      | some m =>
        rw [hm] at hchained
        obtain ⟨hvalid, hadjoins, hrest⟩ := hchained
        refine ih (hmapped.write fun _ ↦ ?_) ?_
        · rw [hm]
          exact ⟨hvalid, hadjoins, trivial⟩
        · rwa [extentMetaWrite_of_valid hu hm hvalid]
    · rw [ofFile_cons_of_ne hu] at hchained
      refine ih (hmapped.write fun hu' ↦ absurd hu' hu) ?_
      rwa [extentMetaWrite_of_ne hu]

/-- The loop over the batch enters the deferred updates in their order. -/
theorem flush_files (s : MetaServer ρ) : (s.flush sha256).files =
    s.deferred.foldl (fun files u ↦ (extentMetaWrite sha256 files u).1) s.files := by
  have hfold : ∀ (batch : List ℕ) (files : Files), batch.foldl (fun files i ↦
      match s.sendBuf i with
      | .replySwitch _ u => (extentMetaWrite sha256 files u).1
      | _ => files) files =
        ((batch.map s.sendBuf).filterMap MetaReply.deferred).foldl
          (fun files u ↦ (extentMetaWrite sha256 files u).1) files := by
    intro batch
    induction batch with
    | nil => exact fun _ ↦ rfl
    | cons i batch ih =>
      intro files
      rw [List.foldl_cons, List.map_cons, List.filterMap_cons]
      cases hreply : s.sendBuf i with
      | readIndexReply raw attr => exact ih files
      | replySwitch raw u => exact ih _
      | updateIndexReply raw => exact ih files
  exact hfold s.batch s.files

end Updates

/-! ### Runs -/

section Runs

variable {sha256 f} {s s' : MetaServer ρ} {h : UniqueHash}

/-- The replies of the batch are in consecutive send buffers, up to the next one. -/
def Ring (s : MetaServer ρ) : Prop :=
  ∃ start, s.batch = (List.range s.batch.length).map (fun j ↦ (start + j) % kStaticSendBuf) ∧
    s.send_buf_pos = (start + s.batch.length) % kStaticSendBuf

theorem Ring.reply (hring : s.Ring) (r : MetaReply ρ) : (s.reply r).Ring := by
  obtain ⟨start, hbatch, hpos⟩ := hring
  refine ⟨start, ?_, ?_⟩
  · change s.batch ++ [s.send_buf_pos] = _
    have hlength : (s.reply r).batch.length = s.batch.length + 1 := by simp [MetaServer.reply]
    rw [hlength, List.range_succ, List.map_append, ← hbatch, hpos]
    rfl
  · change (s.send_buf_pos + 1) % kStaticSendBuf = _
    rw [hpos, Nat.mod_add_mod]
    simp [MetaServer.reply, Nat.add_assoc]

/-- The next send buffer is not in use while the batch is shorter than the ring. -/
theorem Ring.notMem (hring : s.Ring) (hroom : s.batch.length < kStaticSendBuf) :
    s.send_buf_pos ∉ s.batch := by
  obtain ⟨start, hbatch, hpos⟩ := hring
  intro hmem
  rw [hbatch, hpos] at hmem
  obtain ⟨j, hj, heq⟩ := List.mem_map.mp hmem
  rw [List.mem_range] at hj
  have hring : kStaticSendBuf = 128 := rfl
  rw [hring] at hroom heq
  omega

/-- A reply that is prepared in an unused send buffer adds its update to the deferred ones. -/
theorem deferred_reply (hring : s.Ring) (hroom : s.batch.length < kStaticSendBuf) (r : MetaReply ρ) :
    (s.reply r).deferred = s.deferred ++ r.deferred.toList := by
  have hsame : ∀ i ∈ s.batch, Function.update s.sendBuf s.send_buf_pos r i = s.sendBuf i := by
    intro i hi
    refine Function.update_of_ne ?_ _ _
    rintro rfl
    exact hring.notMem hroom hi
  change ((s.batch ++ [s.send_buf_pos]).map
    (Function.update s.sendBuf s.send_buf_pos r)).filterMap MetaReply.deferred = _
  rw [List.map_append, List.map_congr_left hsame, List.filterMap_append, List.map_singleton,
    Function.update_self]
  cases hr : r.deferred <;> simp [deferred, hr]

/-- The invariant of a run for a file: the send buffers of the batch are intact, the applied and the
deferred updates are the arrived ones, and the metadata holds the applied ones. -/
structure Inv (sha256 : Path → UniqueHash) (h : UniqueHash) (s : MetaServer ρ) : Prop where
  ring : s.Ring
  order : ofFile sha256 h s.applied ++ ofFile sha256 h s.deferred = ofFile sha256 h s.arrived
  mapped : Mapped s.files h (ofFile sha256 h s.applied)

theorem Inv.init (files : Files) (sendBuf : ℕ → MetaReply ρ) :
    Inv sha256 h (MetaServer.init files sendBuf) := by
  refine ⟨⟨0, rfl, rfl⟩, rfl, fun b u hu ↦ ?_⟩
  exact absurd hu (Option.some_ne_none u).symm

theorem Inv.receive (hinv : Inv sha256 h s) {msg : MetaMsg ρ}
    (hok : InOrder sha256 f h s (.receive msg)) : Inv sha256 h (s.receive sha256 msg) := by
  obtain ⟨hroom, hmsg⟩ := hok
  have hdeferred := fun r ↦ deferred_reply hinv.ring hroom r
  cases msg with
  | readIndexReq raw meta_op path mknodcd =>
    have hopen : ∀ files, (∀ m, s.files h = some m → files h = some m) →
        Mapped files h (ofFile sha256 h s.applied) := by
      intro files hkeep b u hu
      obtain ⟨m, hm, hblock⟩ := hinv.mapped b u hu
      exact ⟨m, hkeep m hm, hblock⟩
    have horder : ∀ attr, ofFile sha256 h s.applied ++
        ofFile sha256 h (s.reply (.readIndexReply raw attr)).deferred = ofFile sha256 h s.arrived := by
      intro attr
      rw [hdeferred]
      simpa [MetaReply.deferred] using hinv.order
    have hring : (s.reply (.readIndexReply raw none)).Ring := hinv.ring.reply _
    rw [MetaServer.receive]
    split_ifs with hmeta
    · exact ⟨hring, horder _, hopen _ fun m hm ↦ openFile_of_some hm⟩
    · exact ⟨hring, horder _, hopen _ fun m hm ↦ hm⟩
  | multiCastPkt raw u =>
    refine ⟨hinv.ring.reply (.replySwitch raw u), ?_, hinv.mapped⟩
    change ofFile sha256 h s.applied ++ ofFile sha256 h (s.reply (.replySwitch raw u)).deferred =
      ofFile sha256 h (s.arrived ++ [u])
    rw [hdeferred, ofFile_append, ofFile_append, ← List.append_assoc, hinv.order]
    rfl
  | updateIndexReq raw u =>
    refine ⟨hinv.ring.reply (.updateIndexReply raw), ?_,
      hinv.mapped.write fun hu ↦ (hmsg hu).2⟩
    change ofFile sha256 h (s.applied ++ [u]) ++
      ofFile sha256 h (s.reply (.updateIndexReply raw)).deferred = ofFile sha256 h (s.arrived ++ [u])
    rw [hdeferred, ofFile_append, ofFile_append, ofFile_append, ← hinv.order]
    by_cases hu : sha256 u.path = h
    · -- nothing of the file was waiting, so the update is the last one in both orders
      rw [(hmsg hu).1]
      simp [ofFile, MetaReply.deferred]
    · rw [ofFile_cons_of_ne hu]
      simp [ofFile, MetaReply.deferred]

theorem Inv.endPoll (hinv : Inv sha256 h s) (hok : InOrder sha256 f h s .endPoll) :
    Inv sha256 h (s.endPoll sha256 f) := by
  rw [MetaServer.endPoll]
  split_ifs with hwaits
  · exact ⟨hinv.ring, hinv.order, hinv.mapped⟩
  · refine ⟨⟨s.send_buf_pos, rfl, ?_⟩, ?_, ?_⟩
    · obtain ⟨start, -, hpos⟩ := hinv.ring
      change s.send_buf_pos = (s.send_buf_pos + 0) % kStaticSendBuf
      rw [hpos, Nat.add_zero, Nat.mod_mod]
    · change ofFile sha256 h (s.applied ++ s.deferred) ++ [] = ofFile sha256 h s.arrived
      rw [List.append_nil, ofFile_append, hinv.order]
    · rw [flush_files]
      exact hinv.mapped.writeAll s.deferred (hok hwaits)

/-- The invariant along a run that meets the condition. -/
theorem inv_of_reachable {files : Files} {sendBuf : ℕ → MetaReply ρ}
    (hrun : Reachable (MetaServer.init files sendBuf) (Step sha256 f) (InOrder sha256 f h) s) :
    Inv sha256 h s := by
  refine hrun.invariant (Inv sha256 h) (Inv.init files sendBuf) fun s e s' _ hinv hok hstep ↦ ?_
  cases hstep with
  | receive msg hpolled => exact hinv.receive hok
  | endPoll => exact hinv.endPoll hok

end Runs

/-- In every run in which no `kEnumUpdateIndexReq` of a file is received while a `kEnumMultiCastPkt`
of it is in the batch, no message is received while the batch fills the send ring, and every update
of the file starts at one of its blocks or finds it empty, the `extentMetaWrite` calls of the file are
a prefix of its updates in the order of their arrival. Once the batch has been posted they are all of
them, and each block is mapped to the data block of the last update that covers it. -/
theorem updates_in_order (files : Files) (sendBuf : ℕ → MetaReply ρ) (h : UniqueHash) {s : MetaServer ρ}
    (hrun : Reachable (MetaServer.init files sendBuf) (Step sha256 f) (InOrder sha256 f h) s) :
    ofFile sha256 h s.applied ++ ofFile sha256 h s.deferred = ofFile sha256 h s.arrived ∧
      (s.batch = [] → ofFile sha256 h s.applied = ofFile sha256 h s.arrived ∧
        ∀ b u, lastCovering (ofFile sha256 h s.arrived) b = some u →
          ∃ m, s.files h = some m ∧ m.block b = some (u.extent b)) := by
  have hinv := inv_of_reachable hrun
  refine ⟨hinv.order, fun hbatch ↦ ?_⟩
  have hall : ofFile sha256 h s.applied = ofFile sha256 h s.arrived := by
    have hnone : s.deferred = [] := by
      rw [deferred, hbatch]
      rfl
    have horder := hinv.order
    rwa [hnone, show ofFile sha256 h [] = [] from rfl, List.append_nil] at horder
  refine ⟨hall, fun b u hu ↦ ?_⟩
  rw [← hall] at hu
  exact hinv.mapped b u hu

/-! ### Runs that meet the condition and runs that do not -/

/-- An update of one block of the file with the empty path. -/
def blockUpdate (b : UInt64) (block_id : UInt32) : MetaUpdateReq where
  fei := { timeLastModified := 0, len := 1, tuple := fun _ ↦ block_id }
  path := []
  size := BLOCK_SIZE
  offset := b * BLOCK_SIZE

/-- The unique hash of every path. -/
def oneHash : UniqueHash := ⟨fun _ ↦ 0⟩

/-- A server whose only file is empty. -/
def emptyFile : MetaServer Unit :=
  MetaServer.init
    (fun _ ↦ some { timeLastModified := 0, count := 0, size := 0, tuple := fun _ ↦ ⟨0, 0⟩ })
    (fun _ ↦ .updateIndexReply ())

/-- Receive the messages of a poll and end it. -/
def poll (s : MetaServer ρ) (msgs : List (MetaMsg ρ)) : MetaServer ρ :=
  (msgs.foldl (fun s msg ↦ s.receive sha256 msg) s).endPoll sha256 f

variable {sha256 f} in
theorem reachable_poll {s₀ s : MetaServer ρ} {ok : MetaServer ρ → Event ρ → Prop} {msgs : List (MetaMsg ρ)}
    (hs : Reachable s₀ (Step sha256 f) ok s) (hpolled : s.polled + msgs.length ≤ kMaxWcCnt)
    (hok : ∀ s e, ok s e) : Reachable s₀ (Step sha256 f) ok (s.poll sha256 f msgs) := by
  induction msgs generalizing s with
  | nil => exact hs.step (hok _ _) Step.endPoll
  | cons msg msgs ih =>
    rw [List.length_cons] at hpolled
    have hone : (s.receive sha256 msg).polled = s.polled + 1 := by
      cases msg with
      | readIndexReq raw meta_op path mknodcd =>
        rw [receive]
        split_ifs <;> rfl
      | multiCastPkt raw u => rfl
      | updateIndexReq raw u => rfl
    refine ih (hs.step (hok _ _) (Step.receive msg ?_)) ?_
    · omega
    · change (s.receive sha256 msg).polled + msgs.length ≤ kMaxWcCnt
      omega

/-- A fast write of block `0` is applied before a slow one arrives, and the slow one is what the
metadata holds. -/
theorem updates_in_order_two_writes :
    ∃ s : MetaServer Unit, Reachable emptyFile (Step (fun _ ↦ oneHash) ⟨false, 16⟩)
      (InOrder (fun _ ↦ oneHash) ⟨false, 16⟩ oneHash) s ∧ s.batch = [] ∧
      ∃ m, s.files oneHash = some m ∧ m.block 0 = some ((blockUpdate 0 2).extent 0) := by
  have hvalid₁ : (blockUpdate 0 1).Valid := ⟨by decide, by decide, by decide, by decide, by decide⟩
  have hvalid₂ : (blockUpdate 0 2).Valid := ⟨by decide, by decide, by decide, by decide, by decide⟩
  let s₁ := emptyFile.receive (fun _ ↦ oneHash) (.multiCastPkt () (blockUpdate 0 1))
  let s₂ := s₁.endPoll (fun _ ↦ oneHash) ⟨false, 16⟩
  let s₃ := s₂.receive (fun _ ↦ oneHash) (.updateIndexReq () (blockUpdate 0 2))
  let s₄ := s₃.endPoll (fun _ ↦ oneHash) ⟨false, 16⟩
  have hok₁ : InOrder (fun _ ↦ oneHash) ⟨false, 16⟩ oneHash emptyFile
      (.receive (.multiCastPkt () (blockUpdate 0 1))) := ⟨by decide, trivial⟩
  have hok₂ : InOrder (fun _ ↦ oneHash) ⟨false, 16⟩ oneHash s₁ .endPoll :=
    fun _ ↦ ⟨hvalid₁, Or.inl rfl, trivial⟩
  have hok₃ : InOrder (fun _ ↦ oneHash) ⟨false, 16⟩ oneHash s₂
      (.receive (.updateIndexReq () (blockUpdate 0 2))) :=
    ⟨by decide, fun _ ↦ ⟨rfl, hvalid₂, Or.inr (by decide), trivial⟩⟩
  have hok₄ : InOrder (fun _ ↦ oneHash) ⟨false, 16⟩ oneHash s₃ .endPoll := fun _ ↦ trivial
  have hrun : Reachable emptyFile (Step (fun _ ↦ oneHash) ⟨false, 16⟩)
      (InOrder (fun _ ↦ oneHash) ⟨false, 16⟩ oneHash) s₄ :=
    (((Reachable.init.step hok₁ (Step.receive _ (by decide))).step hok₂ Step.endPoll).step hok₃
      (Step.receive _ (by decide))).step hok₄ Step.endPoll
  obtain ⟨-, hposted⟩ := updates_in_order (fun _ ↦ oneHash) ⟨false, 16⟩ _ _ oneHash hrun
  exact ⟨s₄, hrun, rfl, (hposted rfl).2 0 (blockUpdate 0 2) rfl⟩

/-- Two ways in which the source breaks the order. A fast write of a block arrives before a slow one
in the same poll, and is entered after it: the block is left with the data of the older write. And
two slow writes of the blocks `0` and `1` arrive and are entered in order, but the second unmaps the
block of the first. -/
theorem updates_out_of_order :
    (∃ s : MetaServer Unit, Reachable emptyFile (Step (fun _ ↦ oneHash) ⟨false, 16⟩) (fun _ _ ↦ True) s ∧
      s.batch = [] ∧ s.arrived = [blockUpdate 0 1, blockUpdate 0 2] ∧
      s.applied = [blockUpdate 0 2, blockUpdate 0 1] ∧
      (s.files oneHash).bind (fun m ↦ m.block 0) = some 1) ∧
    ∃ s : MetaServer Unit, Reachable emptyFile (Step (fun _ ↦ oneHash) ⟨false, 16⟩) (fun _ _ ↦ True) s ∧
      s.batch = [] ∧ s.arrived = [blockUpdate 0 1, blockUpdate 1 2] ∧
      (s.files oneHash).bind (fun m ↦ m.block 0) = none := by
  constructor
  · refine ⟨emptyFile.poll _ _ [.multiCastPkt () (blockUpdate 0 1),
      .updateIndexReq () (blockUpdate 0 2)],
      reachable_poll Reachable.init (by decide) fun _ _ ↦ trivial, rfl, rfl, rfl, ?_⟩
    decide
  · refine ⟨emptyFile.poll _ _ [.updateIndexReq () (blockUpdate 0 1),
      .updateIndexReq () (blockUpdate 1 2)],
      reachable_poll Reachable.init (by decide) fun _ _ ↦ trivial, rfl, rfl, ?_⟩
    decide

end MetaServer

end SwitchDelta.Fs
