import SwitchDelta.Fs.Server

/-!
# Running the metadata calls

`exec` lets a thread take its next step, with zeros in the variables that have not been written. It is a
step of the server.
-/

set_option autoImplicit false
set_option relaxedAutoImplicit false

namespace SwitchDelta.Fs

open Foundation

namespace LockService

variable {α T : Type} [DecidableEq α] [DecidableEq T]

/-- An atomic step of a lock, if it is possible. -/
def exec (s : LockService α T) : Event α T → Option (LockService α T)
  | .writeLock t NodeID a =>
    match s.pc t with
    | .out =>
      some { s with
        WriteID := s.WriteID + 1
        pc := Function.update s.pc t (.writeSpin a (lockKey NodeID s.WriteID)) }
    | _ => none
  | .swap t =>
    match s.pc t with
    | .writeSpin a key =>
      if s.words a = 0 then
        some { s with
          words := Function.update s.words a key
          pc := Function.update s.pc t (.writing a key) }
      else none
    | _ => none
  | .writeUnlock t =>
    match s.pc t with
    | .writing a _ =>
      some { s with
        words := Function.update s.words a (clearUpperHalf (s.words a))
        pc := Function.update s.pc t .out }
    | _ => none
  | .readLock t a =>
    match s.pc t with
    | .out =>
      some { s with
        words := Function.update s.words a (s.words a + 1)
        pc := Function.update s.pc t
          (if upperHalf (s.words a) = 0 then .reading a else .readSpin a) }
    | _ => none
  | .check t =>
    match s.pc t with
    | .readSpin a =>
      if upperHalf (s.words a) = 0 then some { s with pc := Function.update s.pc t (.reading a) }
      else none
    | _ => none
  | .readUnlock t =>
    match s.pc t with
    | .reading a =>
      some { s with
        words := Function.update s.words a (s.words a - 1)
        pc := Function.update s.pc t .out }
    | _ => none

theorem step_of_exec {s s' : LockService α T} {e : Event α T} (h : s.exec e = some s') :
    Step s e s' := by
  cases e with
  | writeLock t NodeID a =>
    rw [exec] at h
    split at h
    · next hpc => exact Option.some.inj h ▸ Step.writeLock NodeID a hpc
    · cases h
  | swap t =>
    rw [exec] at h
    split at h
    · next a key hpc =>
      split_ifs at h with hword
      exact Option.some.inj h ▸ Step.swap hpc hword
    · cases h
  | writeUnlock t =>
    rw [exec] at h
    split at h
    · next a key hpc => exact Option.some.inj h ▸ Step.writeUnlock hpc
    · cases h
  | readLock t a =>
    rw [exec] at h
    split at h
    · next hpc => exact Option.some.inj h ▸ Step.readLock a hpc
    · cases h
  | check t =>
    rw [exec] at h
    split at h
    · next a hpc =>
      split_ifs at h with hfree
      exact Option.some.inj h ▸ Step.check hpc hfree
    · cases h
  | readUnlock t =>
    rw [exec] at h
    split at h
    · next a hpc => exact Option.some.inj h ▸ Step.readUnlock hpc
    · cases h

end LockService

namespace FileSystem

variable {T : Type} [DecidableEq T] (F : Config)

/-- The step of a thread at the lock of its path's hash item. -/
def execEntered (s : FileSystem T) (t : T) (call : Call) : Option (FileSystem T) :=
  match s.lock.pc (t, .item) with
  | .writeSpin _ _ => (s.lock.exec (.swap (t, .item))).map fun lock ↦ { s with lock }
  | .readSpin _ => (s.lock.exec (.check (t, .item))).map fun lock ↦ { s with lock }
  | .out => none
  | _ =>
    if call.creates then
      some { s.goto t (.began call (F.TxLocalBegin s.txManager).2) with
        txManager := (F.TxLocalBegin s.txManager).1 }
    else
      (s.body F call).map fun (files, result) ↦
        { s.goto t (.leaving call none result) with tableFileMeta := files }

/-- The step of a thread at the lock of the parent's hash item. -/
def execParent (s : FileSystem T) (t : T) (call : Call) (tx : LocalTx) : Option (FileSystem T) :=
  match s.lock.pc (t, .parent) with
  | .readSpin _ => (s.lock.exec (.check (t, .parent))).map fun lock ↦ { s with lock }
  | .reading _ =>
    (s.readDirectory F (getParentDirectory call.path)).map fun found ↦
      s.goto t (.copied call tx found)
  | _ => none

/-- The step of a thread that has read the parent's record. -/
def execRead (s : FileSystem T) (t : T) (call : Call) (tx : LocalTx) (found : ParentMeta) :
    Option (FileSystem T) :=
  (s.lookup F call.path).bind fun
    | some _ => some (s.goto t (.decided call tx false))
    | none =>
      let entry : DirectoryMetaTuple :=
        ⟨(getNameFromPath call.path).getD [], call matches .mkdircd _⟩
      if found.parentMeta.count < MAX_DIRECTORY_COUNT ∧ entry.names.length < MAX_FILE_NAME_LENGTH then
        some (s.goto t (.extended call tx found entry))
      else none

/-- The step of a thread before it makes the new item. -/
def execCreate (s : FileSystem T) (t : T) (tx : LocalTx) : Call → Option (FileSystem T)
  | .mkdircd path =>
    (s.tableDirectoryMeta.createItem true (some ⟨0, fun _ ↦ ⟨[], false⟩⟩)).map
      fun (directories, reply) ↦
        { s.goto t (reply.elim (.decided (.mkdircd path) tx false) (.created (.mkdircd path) tx)) with
          tableDirectoryMeta := directories }
  | .mknodcd path =>
    (s.tableFileMeta.createItem true (some ⟨0, 0, 0, fun _ ↦ ⟨0, 0⟩⟩)).map fun (files, reply) ↦
      { s.goto t (reply.elim (.decided (.mknodcd path) tx false) (.created (.mknodcd path) tx)) with
        tableFileMeta := files }
  | _ => none

/-- The step of a thread. -/
def execStep (s : FileSystem T) (t : T) : Option (FileSystem T) :=
  match s.pc t with
  | .idle => none
  | .entered call => s.execEntered F t call
  | .began call tx =>
    if F.checkLocal (getParentDirectory call.path) then
      (s.lock.exec (.readLock (t, .parent) (F.item (getParentDirectory call.path)))).map fun lock ↦
        s.locked t lock (.parent call tx)
    else some (s.goto t (.decided call tx false))
  | .parent call tx => s.execParent F t call tx
  | .copied call tx found =>
    (s.lock.exec (.readUnlock (t, .parent))).map fun lock ↦ s.locked t lock (.read call tx found)
  | .read call tx none => some (s.goto t (.decided call tx false))
  | .read call tx (some found) => s.execRead F t call tx found
  | .extended call tx found entry =>
    some { s.goto t (.logged call
        (F.TxWriteData s.txManager tx (found.parentMeta.add entry)).2 found entry) with
      txManager := (F.TxWriteData s.txManager tx (found.parentMeta.add entry)).1 }
  | .logged (.mkdircd path) tx found entry =>
    some { s.goto t (.updated (.mkdircd path) tx) with
      tableDirectoryMeta :=
        { s.tableDirectoryMeta with
          items := Function.update s.tableDirectoryMeta.items found.index
            (found.parentMeta.add entry) }
      written := s.written ++ [path] }
  | .logged (.mknodcd path) tx _ _ => some (s.goto t (.updated (.mknodcd path) tx))
  | .logged _ _ _ _ => none
  | .updated call tx => s.execCreate t tx call
  | .created call tx index =>
    (s.hashtable.putAt (F.item call.path) (F.sha256 call.path) (UInt64.ofNat index)
      (call matches .mkdircd _)).map fun (table, result) ↦
        { s.goto t (.decided call tx result) with hashtable := table }
  | .decided call tx result =>
    some { s.goto t (.leaving call (some tx) result) with
      txManager := F.TxLocalCommit s.txManager tx result }
  | .leaving call tx result =>
    (s.lock.exec (leave t call)).map fun lock ↦
      { s.locked t lock .idle with returned := s.returned ++ [⟨call, tx, result⟩] }

/-- What happens next. -/
def exec (s : FileSystem T) : Event T → Option (FileSystem T)
  | .start t call =>
    match s.pc t with
    | .idle =>
      if F.admits call then
        (s.lock.exec (enter F t call)).map fun lock ↦
          { s.locked t lock (.entered call) with started := s.started ++ [call.path] }
      else
        some { s with
          started := s.started ++ [call.path]
          returned := s.returned ++ [⟨call, none, false⟩] }
    | _ => none
  | .step t => s.execStep F t

/-- A number of events, each of which passes a test where it happens. -/
def execAll (test : FileSystem T → Event T → Bool) (s : FileSystem T) :
    List (Event T) → Option (FileSystem T)
  | [] => some s
  | e :: events => if test s e then (s.exec F e).bind fun s' ↦ execAll test s' events else none

variable {F} {s s' : FileSystem T} {t : T} {call : Call} {tx : LocalTx}

theorem step_of_execEntered (hpc : s.pc t = .entered call)
    (h : s.execEntered F t call = some s') : Step F s (.step t) s' := by
  have hinside (hholds : s.Holds t .item)
      (h : (if call.creates then
        some { s.goto t (.began call (F.TxLocalBegin s.txManager).2) with
          txManager := (F.TxLocalBegin s.txManager).1 }
      else (s.body F call).map fun result ↦
        { s.goto t (.leaving call none result.2) with tableFileMeta := result.1 }) = some s') :
      Step F s (.step t) s' := by
    split_ifs at h with hcreates
    · exact Option.some.inj h ▸ Step.begin hpc hcreates hholds
    · obtain ⟨result, hbody, rfl⟩ := Option.map_eq_some_iff.mp h
      exact Step.body hpc hholds hbody
  rw [execEntered] at h
  split at h
  · obtain ⟨lock, hlock, rfl⟩ := Option.map_eq_some_iff.mp h
    exact Step.swap (LockService.step_of_exec hlock)
  · obtain ⟨lock, hlock, rfl⟩ := Option.map_eq_some_iff.mp h
    exact Step.check (LockService.step_of_exec hlock)
  · cases h
  · next l hspin hread hout =>
    refine hinside ?_ h
    cases hl : s.lock.pc (t, .item) with
    | out => exact absurd hl hout
    | writeSpin a key => exact absurd hl (hspin a key)
    | readSpin a => exact absurd hl (hread a)
    | writing a key => exact ⟨a, Or.inl ⟨key, hl⟩⟩
    | reading a => exact ⟨a, Or.inr hl⟩

theorem step_of_execParent (hpc : s.pc t = .parent call tx)
    (h : s.execParent F t call tx = some s') : Step F s (.step t) s' := by
  rw [execParent] at h
  split at h
  · obtain ⟨lock, hlock, rfl⟩ := Option.map_eq_some_iff.mp h
    exact Step.check (LockService.step_of_exec hlock)
  · next a hreading =>
    obtain ⟨found, hread, rfl⟩ := Option.map_eq_some_iff.mp h
    exact Step.copy hpc ⟨a, Or.inr hreading⟩ hread
  · cases h

theorem step_of_execRead {found : ParentMeta} (hpc : s.pc t = .read call tx (some found))
    (h : s.execRead F t call tx found = some s') : Step F s (.step t) s' := by
  obtain ⟨entry, hlookup, h⟩ := Option.bind_eq_some_iff.mp h
  cases entry with
  | some entry => exact Option.some.inj h ▸ Step.exist hpc hlookup
  | none =>
    dsimp only at h
    split_ifs at h with hroom
    refine Option.some.inj h ▸ Step.extend hpc hlookup hroom.1 hroom.2 (fun name hname ↦ ?_) ?_
    · rw [hname, Option.getD_some]
    · rintro path rfl
      rfl

theorem step_of_execCreate (hpc : s.pc t = .updated call tx)
    (h : s.execCreate t tx call = some s') : Step F s (.step t) s' := by
  cases call with
  | mkdircd path =>
    obtain ⟨result, hcreate, rfl⟩ := Option.map_eq_some_iff.mp h
    exact Step.createDirectory _ hpc hcreate
  | mknodcd path =>
    obtain ⟨result, hcreate, rfl⟩ := Option.map_eq_some_iff.mp h
    exact Step.createFile _ _ hpc hcreate
  | _ => cases h

theorem step_of_execStep (h : s.execStep F t = some s') : Step F s (.step t) s' := by
  rw [execStep] at h
  split at h
  · cases h
  · next hpc => exact step_of_execEntered hpc h
  · next hpc =>
    split_ifs at h with hlocal
    · obtain ⟨lock, hlock, rfl⟩ := Option.map_eq_some_iff.mp h
      exact Step.parentLock hpc hlocal (LockService.step_of_exec hlock)
    · exact Option.some.inj h ▸ Step.parentRemote hpc (Bool.eq_false_iff.mpr hlocal)
  · next hpc => exact step_of_execParent hpc h
  · next hpc =>
    obtain ⟨lock, hlock, rfl⟩ := Option.map_eq_some_iff.mp h
    exact Step.parentUnlock hpc (LockService.step_of_exec hlock)
  · next hpc => exact Option.some.inj h ▸ Step.missing hpc
  · next hpc => exact step_of_execRead hpc h
  · next hpc => exact Option.some.inj h ▸ Step.log hpc
  · next hpc => exact Option.some.inj h ▸ Step.update hpc
  · next hpc => exact Option.some.inj h ▸ Step.keep hpc
  · cases h
  · next hpc => exact step_of_execCreate hpc h
  · next hpc =>
    obtain ⟨result, hput, rfl⟩ := Option.map_eq_some_iff.mp h
    exact Step.put hpc hput
  · next hpc => exact Option.some.inj h ▸ Step.commit hpc
  · next hpc =>
    obtain ⟨lock, hlock, rfl⟩ := Option.map_eq_some_iff.mp h
    exact Step.leave hpc (LockService.step_of_exec hlock)

theorem step_of_exec {e : Event T} (h : s.exec F e = some s') : Step F s e s' := by
  cases e with
  | step t => exact step_of_execStep h
  | start t call =>
    rw [exec] at h
    split at h
    · next hpc =>
      split_ifs at h with hlocal
      · obtain ⟨lock, hlock, rfl⟩ := Option.map_eq_some_iff.mp h
        exact Step.start hpc hlocal (LockService.step_of_exec hlock)
      · exact Option.some.inj h ▸ Step.remote hpc (Bool.eq_false_iff.mpr hlocal)
    · cases h

theorem reachable_execAll {init : FileSystem T} {ok : FileSystem T → Event T → Prop}
    {test : FileSystem T → Event T → Bool} (htest : ∀ s e, test s e = true → ok s e)
    (hs : Reachable init (Step F) ok s) {events : List (Event T)}
    (h : s.execAll F test events = some s') : Reachable init (Step F) ok s' := by
  induction events generalizing s with
  | nil => exact Option.some.inj h ▸ hs
  | cons e events ih =>
    rw [execAll] at h
    split_ifs at h with hpass
    obtain ⟨s₁, hfirst, hrest⟩ := Option.bind_eq_some_iff.mp h
    exact ih (hs.step (htest s e hpass) (step_of_exec hfirst)) hrest

/-! ### A small server -/

/-- A server of one node, whose hash function tells short paths apart. -/
def smallConfig : Config where
  sha256 := fun path ↦
    ⟨fun i ↦ if i = 0 then path.foldl (fun h byte ↦ h * 256 + byte.toUInt64) 0 else 0⟩
  countNode := 1
  hashLocalNode := 1
  Dotx := true
  countNode_pos := Config.toNat_one_pos
  countNode_lt := Config.toNat_one_lt

theorem smallConfig_local (path : Path) : smallConfig.checkLocal path = true := by
  rw [Config.checkLocal, Config.getNodeHash]
  exact beq_iff_eq.mpr ((congrArg (· + 1) UInt64.mod_one).trans rfl)

/-- The small server with its root directory, and room for eight directories. -/
def rootServer (T : Type) [DecidableEq T] : Option (FileSystem T) :=
  (HashTable.construct HashTable.Buffer.zeroed 8).bind fun hashtable ↦
    (Table.construct 8 1 (fun _ ↦ 0) (fun _ ↦ ⟨0, 0, 0, fun _ ↦ ⟨0, 0⟩⟩) Nat.succ).bind fun files ↦
      (Table.construct 8 1 (fun _ ↦ 0) (fun _ ↦ ⟨0, fun _ ↦ ⟨[], false⟩⟩) Nat.succ).bind
        fun directories ↦ (init hashtable files directories).rootInitialize smallConfig
          fun _ ↦ ⟨[], false⟩

theorem rootServer_eq {s : FileSystem T} (h : rootServer T = some s) :
    ∃ hashtable files directories, s = init hashtable files directories := by
  rw [rootServer] at h
  obtain ⟨hashtable, -, h⟩ := Option.bind_eq_some_iff.mp h
  obtain ⟨files, -, h⟩ := Option.bind_eq_some_iff.mp h
  obtain ⟨directories, -, h⟩ := Option.bind_eq_some_iff.mp h
  obtain ⟨hashtable', directories', rfl⟩ := rootInitialize_eq h
  exact ⟨hashtable', files, directories', rfl⟩

/-- A thread makes a call and takes a number of steps. -/
def callOf (t : T) (call : Call) (steps : ℕ) : List (Event T) :=
  .start t call :: List.replicate steps (.step t)

/-- Whether an event is a step of a call that has started. -/
def Event.isStep : Event T → Bool
  | .start _ _ => false
  | .step _ => true

/-- Whether no call of a thread is in progress. -/
def isIdle (s : FileSystem T) (t : T) : Bool :=
  match s.pc t with
  | .idle => true
  | _ => false

/-- Whether a thread is in none of the code of a lock. -/
def isOut (s : FileSystem T) (t : T) (use : Use) : Bool :=
  match s.lock.pc (t, use) with
  | .out => true
  | _ => false

omit [DecidableEq T] in
theorem idle_of_isIdle (h : s.isIdle t = true) : s.pc t = .idle := by
  rw [isIdle] at h
  split at h
  · assumption
  · cases h

omit [DecidableEq T] in
theorem out_of_isOut {use : Use} (h : s.isOut t use = true) : s.lock.pc (t, use) = .out := by
  rw [isOut] at h
  split at h
  · assumption
  · cases h

end FileSystem

end SwitchDelta.Fs
