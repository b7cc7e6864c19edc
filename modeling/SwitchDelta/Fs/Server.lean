import SwitchDelta.Fs.HashTable
import SwitchDelta.Fs.LockService
import SwitchDelta.Fs.Metadata
import SwitchDelta.Fs.Table

/-!
# The metadata calls of the file system

`FileSystem` with the threads of one server that call it. A call locks the hash item of its path. A
creation, `mknodcd` or `mkdircd`, then begins a transaction of the log, copies the record of the parent
directory out under the read lock of the parent's hash item, and, if the path does not exist yet, adds
the name to its copy, logs it, writes it back and makes the new item.

The threads take their steps in any order. A step is an operation on a lock word, a copy of a whole
record, or an operation on one of the tables or on the log.
-/

set_option autoImplicit false
set_option relaxedAutoImplicit false

namespace SwitchDelta.Fs

open Foundation

/-- `MAX_FILE_NAME_LENGTH`, with the terminator. -/
def MAX_FILE_NAME_LENGTH : ℕ := 50

/-- `MAX_DIRECTORY_COUNT`. -/
def MAX_DIRECTORY_COUNT : ℕ := 32

/-- `DirectoryMetaTuple`. -/
structure DirectoryMetaTuple where
  names : Path
  isDirectories : Bool
  deriving DecidableEq

/-- `DirectoryMeta`. Only the first `MAX_DIRECTORY_COUNT` tuples are part of the array. -/
structure DirectoryMeta where
  count : ℕ
  tuple : ℕ → DirectoryMetaTuple

/-- What a creation does to its copy of the parent's record. -/
def DirectoryMeta.add (m : DirectoryMeta) (entry : DirectoryMetaTuple) : DirectoryMeta where
  count := m.count + 1
  tuple := Function.update m.tuple m.count entry

/-! ### Paths -/

/-- The character `/`. -/
def slash : UInt8 := 47

/-- A path before and after its last `/`, which the loops of `getParentDirectory` and
`getNameFromPath` look for. -/
def splitLast : Path → Option (Path × Path)
  | [] => none
  | c :: rest =>
    match splitLast rest with
    | some (before, after) => some (c :: before, after)
    | none => if c = slash then some ([], rest) else none

/-- What `getParentDirectory` leaves in `parent`. Its result is ignored by the callers. -/
def getParentDirectory (path : Path) : Path :=
  if path = [slash] then path
  else
    match splitLast path with
    | none => path
    | some (before, _) => if before = [] then [slash] else before

/-- What `getNameFromPath` leaves in `name`, or `none` where it leaves the buffer as it was. -/
def getNameFromPath (path : Path) : Option Path :=
  if path = [slash] then none else (splitLast path).map Prod.snd

/-! ### The log of transactions -/

/-- `LocalLogEntry`. The data is the record that was written. -/
structure LocalLogEntry where
  TxID : ℕ
  begun : Bool
  logData : Option DirectoryMeta
  commit : Bool

/-- `TxManager`, the part of the local log. -/
structure TxManager where
  LocalLogIndex : ℕ
  log : ℕ → LocalLogEntry

namespace TxManager

/-- `TxManager::TxLocalBegin`. -/
def TxLocalBegin (m : TxManager) : TxManager :=
  { LocalLogIndex := m.LocalLogIndex + 1
    log := Function.update m.log m.LocalLogIndex
      { m.log m.LocalLogIndex with TxID := m.LocalLogIndex, begun := true } }

/-- `TxManager::TxWriteData`. -/
def TxWriteData (m : TxManager) (TxID : ℕ) (data : DirectoryMeta) : TxManager :=
  { m with log := Function.update m.log TxID { m.log TxID with logData := some data } }

/-- `TxManager::TxLocalCommit`. -/
def TxLocalCommit (m : TxManager) (TxID : ℕ) (action : Bool) : TxManager :=
  { m with log := Function.update m.log TxID { m.log TxID with commit := action } }

end TxManager

/-! ### The calls -/

/-- The calls of the file system. -/
inductive Call
  | mknodcd (path : Path)
  | mkdircd (path : Path)
  | access (path : Path)
  | getattr (path : Path)
  | extentMetaWrite (u : MetaUpdateReq)

/-- The path of a call. -/
def Call.path : Call → Path
  | .mknodcd path => path
  | .mkdircd path => path
  | .access path => path
  | .getattr path => path
  | .extentMetaWrite u => u.path

/-- The call is a creation. -/
def Call.creates : Call → Bool
  | .mknodcd _ => true
  | .mkdircd _ => true
  | _ => false

/-- The call locks the hash item of its path for write. -/
def Call.writes : Call → Bool
  | .mknodcd _ => true
  | .mkdircd _ => true
  | .extentMetaWrite _ => true
  | _ => false

/-- What a thread uses a lock for: the hash item of its own path, or that of the parent. -/
inductive Use
  | item
  | parent
  deriving DecidableEq

instance : Fintype Use := ⟨{.item, .parent}, fun use ↦ by cases use <;> decide⟩

/-- The transaction of a creation: the local variable `LocalTxID`. Recorded are the entry of the log
that its `TxLocalBegin` allocated, and what it has logged. -/
structure LocalTx where
  LocalTxID : ℕ
  entry : Option ℕ
  logged : Option DirectoryMeta

/-- The copy of the parent's record, with the index that it was read from. -/
structure ParentMeta where
  parentMeta : DirectoryMeta
  index : ℕ

/-- Where a thread is. The locks have program counters of their own. -/
inductive Pc
  /-- No call is in progress. -/
  | idle
  /-- At or after the lock of the path's hash item. -/
  | entered (call : Call)
  /-- After `TxLocalBegin`. -/
  | began (call : Call) (tx : LocalTx)
  /-- At or after the lock of the parent's hash item. -/
  | parent (call : Call) (tx : LocalTx)
  /-- In `readDirectoryMeta`, before the unlock. -/
  | copied (call : Call) (tx : LocalTx) (found : Option ParentMeta)
  /-- After `readDirectoryMeta`. -/
  | read (call : Call) (tx : LocalTx) (found : Option ParentMeta)
  /-- The entry has been added to the copy. -/
  | extended (call : Call) (tx : LocalTx) (found : ParentMeta) (entry : DirectoryMetaTuple)
  /-- After `TxWriteData`. -/
  | logged (call : Call) (tx : LocalTx) (found : ParentMeta) (entry : DirectoryMetaTuple)
  /-- After `updateRemoteMeta`, or where it is left out. -/
  | updated (call : Call) (tx : LocalTx)
  /-- After `Table::create`. -/
  | created (call : Call) (tx : LocalTx) (index : ℕ)
  /-- Before `TxLocalCommit`. -/
  | decided (call : Call) (tx : LocalTx) (result : Bool)
  /-- Before the unlock of the path's hash item. -/
  | leaving (call : Call) (tx : Option LocalTx) (result : Bool)

/-- The call that a thread is in. -/
def Pc.call : Pc → Option Call
  | .idle => none
  | .entered call => some call
  | .began call _ => some call
  | .parent call _ => some call
  | .copied call _ _ => some call
  | .read call _ _ => some call
  | .extended call _ _ _ => some call
  | .logged call _ _ _ => some call
  | .updated call _ => some call
  | .created call _ _ => some call
  | .decided call _ _ => some call
  | .leaving call _ _ => some call

/-- A call that has returned. -/
structure Returned where
  call : Call
  tx : Option LocalTx
  result : Bool

/-- What a server is started with: its hash function, the number of nodes, its own number and `Dotx`.
The constructor refuses zero nodes, and the numbers of the nodes are those of a `uint16_t`. -/
structure Config where
  sha256 : Path → UniqueHash
  countNode : UInt64
  hashLocalNode : UInt64
  Dotx : Bool
  countNode_pos : 0 < countNode.toNat
  countNode_lt : countNode.toNat < 2 ^ 16

namespace Config

/-- There is one node only. -/
theorem toNat_one_pos : 0 < (1 : UInt64).toNat := by decide

theorem toNat_one_lt : (1 : UInt64).toNat < 2 ^ 16 := by decide

variable (F : Config)

/-- `Storage::getNodeHash`. -/
def getNodeHash (path : Path) : UInt64 := (F.sha256 path).value 3 % F.countNode + 1

/-- The numbers of the nodes start at one, and the lock word has room for them. -/
theorem getNodeHash_toUInt16_ne_zero (path : Path) : (F.getNodeHash path).toUInt16 ≠ 0 := by
  have hmod : ((F.sha256 path).value 3 % F.countNode).toNat < F.countNode.toNat := by
    rw [UInt64.toNat_mod]
    exact Nat.mod_lt _ F.countNode_pos
  have hnode : (F.getNodeHash path).toUInt16.toNat =
      ((F.sha256 path).value 3 % F.countNode).toNat + 1 := by
    have hlt := F.countNode_lt
    rw [getNodeHash, UInt64.toNat_toUInt16, UInt64.toNat_add, UInt64.toNat_one,
      Nat.mod_eq_of_lt (b := 2 ^ 64) (by omega), Nat.mod_eq_of_lt (by omega)]
  intro hzero
  rw [hzero] at hnode
  exact absurd hnode (Nat.succ_ne_zero _).symm

/-- `FileSystem::checkLocal`. -/
def checkLocal (path : Path) : Bool := F.getNodeHash path == F.hashLocalNode

/-- The call goes on to the lock of its path's hash item. `extentMetaWrite` does so for any path, the
other calls where `checkLocal` says so. -/
def admits : Call → Bool
  | .extentMetaWrite _ => true
  | call => F.checkLocal call.path

theorem admits_of_creates {call : Call} (hcreates : call.creates = true) :
    F.admits call = F.checkLocal call.path := by
  cases call with
  | extentMetaWrite => cases hcreates
  | _ => rfl

theorem admits_of_checkLocal {call : Call} (hlocal : F.checkLocal call.path = true) :
    F.admits call = true := by
  cases call with
  | extentMetaWrite => rfl
  | _ => exact hlocal

/-- The hash item of a path. -/
def item (path : Path) : AddressHash := HashTable.getAddressHash (F.sha256 path)

/-- The wrapper `TxLocalBegin`, which returns zero. -/
def TxLocalBegin (m : TxManager) : TxManager × LocalTx :=
  if F.Dotx then (m.TxLocalBegin, ⟨0, some m.LocalLogIndex, none⟩) else (m, ⟨0, none, none⟩)

/-- The wrapper `TxWriteData`. -/
def TxWriteData (m : TxManager) (tx : LocalTx) (data : DirectoryMeta) : TxManager × LocalTx :=
  if F.Dotx then (m.TxWriteData tx.LocalTxID data, { tx with logged := some data }) else (m, tx)

/-- The wrapper `TxLocalCommit`. -/
def TxLocalCommit (m : TxManager) (tx : LocalTx) (action : Bool) : TxManager :=
  if F.Dotx then m.TxLocalCommit tx.LocalTxID action else m

end Config

/-- `FileSystem` with its storage and the threads that call it. Recorded are the paths of the calls that
have been started, the paths whose entry has been written back to the parent's record, and the calls
that have returned. -/
structure FileSystem (T : Type) where
  lock : LockService AddressHash (T × Use)
  hashtable : HashTable
  tableFileMeta : Table FileMeta
  tableDirectoryMeta : Table DirectoryMeta
  txManager : TxManager
  pc : T → Pc
  started : List Path
  written : List Path
  returned : List Returned

namespace FileSystem

variable {T : Type} [DecidableEq T] (F : Config)

/-- `hashtable->get` of a path. -/
def lookup (s : FileSystem T) (path : Path) : Option (Option (UInt64 × Bool)) :=
  s.hashtable.getAt (F.item path) (F.sha256 path)

/-- The part of `readDirectoryMeta` under the lock. -/
def readDirectory (s : FileSystem T) (path : Path) : Option (Option ParentMeta) :=
  (s.lookup F path).bind fun
    | some (index, true) =>
      (s.tableDirectoryMeta.get index.toNat).map fun item ↦
        item.map fun parentMeta ↦ ⟨parentMeta, index.toNat⟩
    | _ => some none

/-- The part of `access`, `getattr` and `extentMetaWrite` under the lock: the table of the files after
it, and the result. -/
def body (s : FileSystem T) : Call → Option (Table FileMeta × Bool)
  | .access path => (s.lookup F path).map fun found ↦ (s.tableFileMeta, found.isSome)
  | .getattr path =>
    (s.lookup F path).bind fun
      | none => some (s.tableFileMeta, false)
      | some (_, true) => some (s.tableFileMeta, true)
      | some (index, false) =>
        (s.tableFileMeta.get index.toNat).map fun item ↦ (s.tableFileMeta, item.isSome)
  | .extentMetaWrite u =>
    (s.lookup F u.path).bind fun
      | some (index, false) =>
        (s.tableFileMeta.get index.toNat).bind fun item ↦
          match item.bind fun m ↦ m.extentMetaWrite u with
          | some m => (s.tableFileMeta.put index.toNat m).map fun result ↦ (result.1, true)
          | none => some (s.tableFileMeta, false)
      | _ => some (s.tableFileMeta, false)
  | _ => none

/-- A server that no call has come to yet, with a log of zeros. -/
def init (hashtable : HashTable) (tableFileMeta : Table FileMeta)
    (tableDirectoryMeta : Table DirectoryMeta) : FileSystem T where
  lock := LockService.init
  hashtable := hashtable
  tableFileMeta := tableFileMeta
  tableDirectoryMeta := tableDirectoryMeta
  txManager := ⟨0, fun _ ↦ ⟨0, false, none, false⟩⟩
  pc := fun _ ↦ .idle
  started := []
  written := []
  returned := []

/-- `FileSystem::rootInitialize`, where the tables are not full. -/
def rootInitialize (s : FileSystem T) (tuple : ℕ → DirectoryMetaTuple) : Option (FileSystem T) :=
  if F.checkLocal [slash] then
    (s.tableDirectoryMeta.createItem true (some ⟨0, tuple⟩)).bind fun created ↦
      created.2.bind fun index ↦
        (s.hashtable.putAt (F.item [slash]) (F.sha256 [slash]) (UInt64.ofNat index) true).bind
          fun put ↦
            if put.2 then some { s with tableDirectoryMeta := created.1, hashtable := put.1 }
            else none
  else some s

omit [DecidableEq T] in
/-- `rootInitialize` works on the tables only. -/
theorem rootInitialize_eq {F : Config} {s s' : FileSystem T} {tuple : ℕ → DirectoryMetaTuple}
    (h : s.rootInitialize F tuple = some s') : ∃ hashtable tableDirectoryMeta,
      s' = { s with hashtable, tableDirectoryMeta } := by
  rw [rootInitialize] at h
  split_ifs at h with hlocal
  · obtain ⟨result, -, h⟩ := Option.bind_eq_some_iff.mp h
    obtain ⟨index, -, h⟩ := Option.bind_eq_some_iff.mp h
    obtain ⟨put, -, h⟩ := Option.bind_eq_some_iff.mp h
    split_ifs at h with hput
    exact ⟨put.1, result.1, (Option.some.inj h).symm⟩
  · exact ⟨s.hashtable, s.tableDirectoryMeta, (Option.some.inj h).symm⟩

/-- A thread goes on. -/
def goto (s : FileSystem T) (t : T) (pc : Pc) : FileSystem T :=
  { s with pc := Function.update s.pc t pc }

/-- A thread goes on after a step of a lock. -/
def locked (s : FileSystem T) (t : T) (lock : LockService AddressHash (T × Use)) (pc : Pc) :
    FileSystem T :=
  { s with lock, pc := Function.update s.pc t pc }

/-- `WriteLock` or `ReadLock` of the path's hash item. -/
def enter (t : T) (call : Call) : LockService.Event AddressHash (T × Use) :=
  if call.writes then
    .writeLock (t, .item) (F.getNodeHash call.path).toUInt16 (F.item call.path)
  else .readLock (t, .item) (F.item call.path)

/-- `WriteUnlock` or `ReadUnlock` of the path's hash item. -/
def leave (t : T) (call : Call) : LockService.Event AddressHash (T × Use) :=
  if call.writes then .writeUnlock (t, .item) else .readUnlock (t, .item)

/-- A thread is between the return of `WriteLock` or `ReadLock` and the unlock. -/
def Holds (s : FileSystem T) (t : T) (use : Use) : Prop :=
  ∃ a, (∃ key, s.lock.pc (t, use) = .writing a key) ∨ s.lock.pc (t, use) = .reading a

/-- What happens: a thread starts a call, or takes the next step of its call. -/
inductive Event (T : Type)
  | start (t : T) (call : Call)
  | step (t : T)

/-- The steps of the threads. The copy of a record in a local variable has room for
`MAX_DIRECTORY_COUNT` entries, with names shorter than `MAX_FILE_NAME_LENGTH`; beyond that the code has
no meaning, and there is no step. Variables that have not been written hold anything. -/
inductive Step : FileSystem T → Event T → FileSystem T → Prop
  | remote {s : FileSystem T} {t : T} {call : Call} : s.pc t = .idle →
      F.admits call = false →
      Step s (.start t call)
        { s with
          started := s.started ++ [call.path]
          returned := s.returned ++ [⟨call, none, false⟩] }
  | start {s : FileSystem T} {t : T} {call : Call} {lock : LockService AddressHash (T × Use)} :
      s.pc t = .idle → F.admits call = true →
      LockService.Step s.lock (enter F t call) lock →
      Step s (.start t call)
        { s.locked t lock (.entered call) with started := s.started ++ [call.path] }
  | swap {s : FileSystem T} {t : T} {use : Use} {lock : LockService AddressHash (T × Use)} :
      LockService.Step s.lock (.swap (t, use)) lock → Step s (.step t) { s with lock }
  | check {s : FileSystem T} {t : T} {use : Use} {lock : LockService AddressHash (T × Use)} :
      LockService.Step s.lock (.check (t, use)) lock → Step s (.step t) { s with lock }
  | body {s : FileSystem T} {t : T} {call : Call} {files : Table FileMeta} {result : Bool} :
      s.pc t = .entered call → s.Holds t .item → s.body F call = some (files, result) →
      Step s (.step t) { s.goto t (.leaving call none result) with tableFileMeta := files }
  | begin {s : FileSystem T} {t : T} {call : Call} : s.pc t = .entered call →
      call.creates = true → s.Holds t .item →
      Step s (.step t)
        { s.goto t (.began call (F.TxLocalBegin s.txManager).2) with
          txManager := (F.TxLocalBegin s.txManager).1 }
  | parentRemote {s : FileSystem T} {t : T} {call : Call} {tx : LocalTx} :
      s.pc t = .began call tx → F.checkLocal (getParentDirectory call.path) = false →
      Step s (.step t) (s.goto t (.decided call tx false))
  | parentLock {s : FileSystem T} {t : T} {call : Call} {tx : LocalTx}
      {lock : LockService AddressHash (T × Use)} : s.pc t = .began call tx →
      F.checkLocal (getParentDirectory call.path) = true →
      LockService.Step s.lock
        (.readLock (t, .parent) (F.item (getParentDirectory call.path))) lock →
      Step s (.step t) (s.locked t lock (.parent call tx))
  | copy {s : FileSystem T} {t : T} {call : Call} {tx : LocalTx} {found : Option ParentMeta} :
      s.pc t = .parent call tx → s.Holds t .parent →
      s.readDirectory F (getParentDirectory call.path) = some found →
      Step s (.step t) (s.goto t (.copied call tx found))
  | parentUnlock {s : FileSystem T} {t : T} {call : Call} {tx : LocalTx}
      {found : Option ParentMeta} {lock : LockService AddressHash (T × Use)} :
      s.pc t = .copied call tx found → LockService.Step s.lock (.readUnlock (t, .parent)) lock →
      Step s (.step t) (s.locked t lock (.read call tx found))
  | missing {s : FileSystem T} {t : T} {call : Call} {tx : LocalTx} :
      s.pc t = .read call tx none → Step s (.step t) (s.goto t (.decided call tx false))
  | exist {s : FileSystem T} {t : T} {call : Call} {tx : LocalTx} {found : ParentMeta}
      {entry : UInt64 × Bool} : s.pc t = .read call tx (some found) →
      s.lookup F call.path = some (some entry) →
      Step s (.step t) (s.goto t (.decided call tx false))
  | extend {s : FileSystem T} {t : T} {call : Call} {tx : LocalTx} {found : ParentMeta}
      {entry : DirectoryMetaTuple} : s.pc t = .read call tx (some found) →
      s.lookup F call.path = some none → found.parentMeta.count < MAX_DIRECTORY_COUNT →
      entry.names.length < MAX_FILE_NAME_LENGTH →
      (∀ name, getNameFromPath call.path = some name → entry.names = name) →
      (∀ path, call = .mkdircd path → entry.isDirectories = true) →
      Step s (.step t) (s.goto t (.extended call tx found entry))
  | log {s : FileSystem T} {t : T} {call : Call} {tx : LocalTx} {found : ParentMeta}
      {entry : DirectoryMetaTuple} : s.pc t = .extended call tx found entry →
      Step s (.step t)
        { s.goto t (.logged call
            (F.TxWriteData s.txManager tx (found.parentMeta.add entry)).2 found entry) with
          txManager := (F.TxWriteData s.txManager tx (found.parentMeta.add entry)).1 }
  | update {s : FileSystem T} {t : T} {path : Path} {tx : LocalTx} {found : ParentMeta}
      {entry : DirectoryMetaTuple} : s.pc t = .logged (.mkdircd path) tx found entry →
      Step s (.step t)
        { s.goto t (.updated (.mkdircd path) tx) with
          tableDirectoryMeta :=
            { s.tableDirectoryMeta with
              items := Function.update s.tableDirectoryMeta.items found.index
                (found.parentMeta.add entry) }
          written := s.written ++ [path] }
  | keep {s : FileSystem T} {t : T} {path : Path} {tx : LocalTx} {found : ParentMeta}
      {entry : DirectoryMetaTuple} : s.pc t = .logged (.mknodcd path) tx found entry →
      Step s (.step t) (s.goto t (.updated (.mknodcd path) tx))
  | createDirectory {s : FileSystem T} {t : T} {path : Path} {tx : LocalTx}
      {directories : Table DirectoryMeta} {reply : Option ℕ} (tuple : ℕ → DirectoryMetaTuple) :
      s.pc t = .updated (.mkdircd path) tx →
      s.tableDirectoryMeta.createItem true (some ⟨0, tuple⟩) = some (directories, reply) →
      Step s (.step t)
        { s.goto t (reply.elim (.decided (.mkdircd path) tx false) (.created (.mkdircd path) tx)) with
          tableDirectoryMeta := directories }
  | createFile {s : FileSystem T} {t : T} {path : Path} {tx : LocalTx} {files : Table FileMeta}
      {reply : Option ℕ} (time : ℤ) (tuple : ℕ → FileMetaTuple) :
      s.pc t = .updated (.mknodcd path) tx →
      s.tableFileMeta.createItem true (some ⟨time, 0, 0, tuple⟩) = some (files, reply) →
      Step s (.step t)
        { s.goto t (reply.elim (.decided (.mknodcd path) tx false) (.created (.mknodcd path) tx)) with
          tableFileMeta := files }
  | put {s : FileSystem T} {t : T} {call : Call} {tx : LocalTx} {index : ℕ} {table : HashTable}
      {result : Bool} : s.pc t = .created call tx index →
      s.hashtable.putAt (F.item call.path) (F.sha256 call.path) (UInt64.ofNat index)
        (call matches .mkdircd _) = some (table, result) →
      Step s (.step t) { s.goto t (.decided call tx result) with hashtable := table }
  | commit {s : FileSystem T} {t : T} {call : Call} {tx : LocalTx} {result : Bool} :
      s.pc t = .decided call tx result →
      Step s (.step t)
        { s.goto t (.leaving call (some tx) result) with
          txManager := F.TxLocalCommit s.txManager tx result }
  | leave {s : FileSystem T} {t : T} {call : Call} {tx : Option LocalTx} {result : Bool}
      {lock : LockService AddressHash (T × Use)} : s.pc t = .leaving call tx result →
      LockService.Step s.lock (leave t call) lock →
      Step s (.step t)
        { s.locked t lock .idle with returned := s.returned ++ [⟨call, tx, result⟩] }

end FileSystem

end SwitchDelta.Fs
