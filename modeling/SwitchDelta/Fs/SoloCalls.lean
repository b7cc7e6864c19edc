import SwitchDelta.Foundation.Eventually
import SwitchDelta.Fs.FailedCreate
import SwitchDelta.Fs.Namespace

/-!
# Calls of one thread alone

While no other thread takes a step and the locks that it comes to are free, every run of a call of
`access` returns with what the hash table says (`access_returns`). So does every run of a call of
`mkdircd`: with false if the path exists, and else with the new directory made, if the tables have
room, the parent's record has room for one more name, and the name fits.

Without that, the call never returns: it waits forever where its parent has the same hash item
(`mkdircd_waits`), and it writes beyond the record where the name is too long (`mkdircd_overflows`).
-/

set_option autoImplicit false
set_option relaxedAutoImplicit false

namespace SwitchDelta.Fs

open Foundation

namespace FileSystem

variable {T : Type} [DecidableEq T] (F : Config)

/-- The thread takes the next step of its call. -/
def Solo (t : T) (s s' : FileSystem T) : Prop := s.pc t ≠ .idle ∧ Step F s (.step t) s'

/-- What the next step of a thread that waits for no lock does, by where the thread is. -/
def Next (t : T) (s s' : FileSystem T) : Pc → Prop
  | .idle => False
  | .entered call => s.Holds t .item ∧
    ((∃ files result, s.body F call = some (files, result) ∧
      s' = { s.goto t (.leaving call none result) with tableFileMeta := files }) ∨
    call.creates = true ∧ s' =
      { s.goto t (.began call (F.TxLocalBegin s.txManager).2) with
        txManager := (F.TxLocalBegin s.txManager).1 })
  | .began call tx =>
    (F.checkLocal (getParentDirectory call.path) = false ∧ s' = s.goto t (.decided call tx false)) ∨
      F.checkLocal (getParentDirectory call.path) = true ∧ ∃ lock,
        LockService.Step s.lock (.readLock (t, .parent) (F.item (getParentDirectory call.path)))
          lock ∧ s' = s.locked t lock (.parent call tx)
  | .parent call tx => s.Holds t .parent ∧ ∃ found,
    s.readDirectory F (getParentDirectory call.path) = some found ∧
      s' = s.goto t (.copied call tx found)
  | .copied call tx found => ∃ lock, LockService.Step s.lock (.readUnlock (t, .parent)) lock ∧
    s' = s.locked t lock (.read call tx found)
  | .read call tx none => s' = s.goto t (.decided call tx false)
  | .read call tx (some found) =>
    (∃ entry, s.lookup F call.path = some (some entry) ∧ s' = s.goto t (.decided call tx false)) ∨
      ∃ entry, s.lookup F call.path = some none ∧ found.parentMeta.count < MAX_DIRECTORY_COUNT ∧
        entry.names.length < MAX_FILE_NAME_LENGTH ∧
        (∀ name, getNameFromPath call.path = some name → entry.names = name) ∧
        s' = s.goto t (.extended call tx found entry)
  | .extended call tx found entry => s' =
    { s.goto t (.logged call
        (F.TxWriteData s.txManager tx (found.parentMeta.add entry)).2 found entry) with
      txManager := (F.TxWriteData s.txManager tx (found.parentMeta.add entry)).1 }
  | .logged call tx found entry =>
    (∃ path, call = .mkdircd path ∧ s' =
      { s.goto t (.updated call tx) with
        tableDirectoryMeta := s.writeParent found entry call
        written := s.written ++ [path] }) ∨
      (∃ path, call = .mknodcd path) ∧ s' = s.goto t (.updated call tx)
  | .updated call tx =>
    (∃ tuple directories reply, (∃ path, call = .mkdircd path) ∧
      s.tableDirectoryMeta.createItem true (some ⟨0, tuple⟩) = some (directories, reply) ∧ s' =
        { s.goto t (reply.elim (.decided call tx false) (.created call tx)) with
          tableDirectoryMeta := directories }) ∨
      ∃ time tuple files reply, (∃ path, call = .mknodcd path) ∧
        s.tableFileMeta.createItem true (some ⟨time, 0, 0, tuple⟩) = some (files, reply) ∧ s' =
          { s.goto t (reply.elim (.decided call tx false) (.created call tx)) with
            tableFileMeta := files }
  | .created call tx index => ∃ table result,
    s.hashtable.putAt (F.item call.path) (F.sha256 call.path) (UInt64.ofNat index)
      (call matches .mkdircd _) = some (table, result) ∧
      s' = { s.goto t (.decided call tx result) with hashtable := table }
  | .decided call tx result => s' =
    { s.goto t (.leaving call (some tx) result) with
      txManager := F.TxLocalCommit s.txManager tx result }
  | .leaving call tx result => ∃ lock, LockService.Step s.lock (leave t call) lock ∧ s' =
    { s.locked t lock .idle with returned := s.returned ++ [⟨call, tx, result⟩] }

/-- The thread waits for a lock. -/
def AtSpin (s : FileSystem T) (t : T) : Prop :=
  ∃ use a, s.lock.pc (t, use) = .readSpin a ∨ ∃ key, s.lock.pc (t, use) = .writeSpin a key

variable {F} {s s' σ σ' : FileSystem T} {t : T} {call : Call} {pc : Pc}

/-- A step of a thread is one of a lock that it waits for, or its next one. -/
theorem Step.next_or (hstep : Step F s (.step t) s') :
    (∃ use lock, LockService.Step s.lock (.swap (t, use)) lock ∧ s' = { s with lock }) ∨
      (∃ use lock, LockService.Step s.lock (.check (t, use)) lock ∧ s' = { s with lock }) ∨
        Next F t s s' (s.pc t) := by
  cases hstep with
  | swap hlock => exact Or.inl ⟨_, _, hlock, rfl⟩
  | check hlock => exact Or.inr (Or.inl ⟨_, _, hlock, rfl⟩)
  | body hpc hholds hbody => exact Or.inr (Or.inr (hpc ▸ ⟨hholds, Or.inl ⟨_, _, hbody, rfl⟩⟩))
  | begin hpc hcreates hholds => exact Or.inr (Or.inr (hpc ▸ ⟨hholds, Or.inr ⟨hcreates, rfl⟩⟩))
  | parentRemote hpc hremote => exact Or.inr (Or.inr (hpc ▸ Or.inl ⟨hremote, rfl⟩))
  | parentLock hpc hlocal hlock => exact Or.inr (Or.inr (hpc ▸ Or.inr ⟨hlocal, _, hlock, rfl⟩))
  | copy hpc hholds hread => exact Or.inr (Or.inr (hpc ▸ ⟨hholds, _, hread, rfl⟩))
  | parentUnlock hpc hlock => exact Or.inr (Or.inr (hpc ▸ ⟨_, hlock, rfl⟩))
  | missing hpc => exact Or.inr (Or.inr (hpc ▸ rfl))
  | exist hpc hlookup => exact Or.inr (Or.inr (hpc ▸ Or.inl ⟨_, hlookup, rfl⟩))
  | extend hpc hlookup hcount hlength hnames _ =>
    exact Or.inr (Or.inr (hpc ▸ Or.inr ⟨_, hlookup, hcount, hlength, hnames, rfl⟩))
  | log hpc => exact Or.inr (Or.inr (hpc ▸ rfl))
  | update hpc => exact Or.inr (Or.inr (hpc ▸ Or.inl ⟨_, rfl, rfl⟩))
  | keep hpc => exact Or.inr (Or.inr (hpc ▸ Or.inr ⟨⟨_, rfl⟩, rfl⟩))
  | createDirectory tuple hpc hcreate =>
    exact Or.inr (Or.inr (hpc ▸ Or.inl ⟨_, _, _, ⟨_, rfl⟩, hcreate, rfl⟩))
  | createFile time tuple hpc hcreate =>
    exact Or.inr (Or.inr (hpc ▸ Or.inr ⟨_, _, _, _, ⟨_, rfl⟩, hcreate, rfl⟩))
  | put hpc hput => exact Or.inr (Or.inr (hpc ▸ ⟨_, _, hput, rfl⟩))
  | commit hpc => exact Or.inr (Or.inr (hpc ▸ rfl))
  | leave hpc hlock => exact Or.inr (Or.inr (hpc ▸ ⟨_, hlock, rfl⟩))

/-- The step of a thread that waits for no lock. -/
theorem Step.next (hstep : Step F s (.step t) s') (hspins : ¬s.AtSpin t) (hpc : s.pc t = pc) :
    Next F t s s' pc := by
  subst hpc
  rcases hstep.next_or with ⟨use, lock, hlock, -⟩ | ⟨use, lock, hlock, -⟩ | hnext
  · cases hlock with
    | swap hspin _ => exact absurd ⟨_, _, Or.inr ⟨_, hspin⟩⟩ hspins
  · cases hlock with
    | check hspin _ => exact absurd ⟨_, _, Or.inl hspin⟩ hspins
  · exact hnext

/-- A thread that waits for no lock takes its next step. -/
theorem eventually_next {Q : FileSystem T → Prop} (hpc : s.pc t = pc) (hne : pc ≠ .idle)
    (hspins : ¬s.AtSpin t) (hstep : Step F s (.step t) s')
    (hall : ∀ σ, Next F t s σ pc → Eventually (Solo F t) Q σ) : Eventually (Solo F t) Q s :=
  .next ⟨s', hpc ▸ hne, hstep⟩ fun σ hσ ↦ hall σ (hσ.2.next hspins hpc)

/-! ### A call of `access` -/

omit [DecidableEq T] in
theorem SameTables.trans (h : SameTables s σ) (h' : SameTables σ σ') : SameTables s σ' :=
  ⟨h'.1.trans h.1, h'.2.1.trans h.2.1, h'.2.2.trans h.2.2⟩

/-- The call is over: the thread is in no call, and the locks and the tables are as before. -/
structure Over (s : FileSystem T) (t : T) (σ : FileSystem T) : Prop where
  idle : σ.pc t = .idle
  lock : s.lock.Restored σ.lock
  tables : SameTables s σ

omit [DecidableEq T] in
theorem Over.outside (h : Over s t σ) (hout : s.Outside t) : σ.Outside t :=
  ⟨h.idle, fun use ↦ by rw [h.lock.pc, hout.2 use]⟩

/-- A reader does not wait. -/
theorem not_atSpin_of_reading (hout : s.Outside t) {use : Use} {a : AddressHash}
    (hpc : σ.lock.pc = Function.update s.lock.pc (t, use) (.reading a)) : ¬σ.AtSpin t := by
  rintro ⟨use', b, hspin⟩
  rw [hpc] at hspin
  by_cases heq : use' = use
  · rw [heq, Function.update_self] at hspin
    rcases hspin with hspin | ⟨key, hspin⟩ <;> cases hspin
  · rw [Function.update_of_ne (by simp [heq]), hout.2 use'] at hspin
    rcases hspin with hspin | ⟨key, hspin⟩ <;> cases hspin

/-- `ReadLock` of a word that is zero does not wait. -/
theorem readLock_pc {l l' : LockService AddressHash (T × Use)} {x : T × Use} {a : AddressHash}
    (hstep : LockService.Step l (.readLock x a) l') (hword : l.words a = 0) :
    l'.pc = Function.update l.pc x (.reading a) := by
  cases hstep with
  | readLock a _ =>
    have hupper : upperHalf (l.words a) = 0 := by
      rw [hword]
      rfl
    exact congrArg (Function.update l.pc x) (if_pos hupper)

/-- The thread is alone at its own hash item, which it reads. -/
structure Reads (s : FileSystem T) (t : T) (a : AddressHash) (σ : FileSystem T) : Prop where
  joined : s.lock.Joined σ.lock (t, .item) a
  pc : σ.lock.pc = Function.update s.lock.pc (t, .item) (.reading a)
  tables : SameTables s σ
  returned : σ.returned = s.returned

theorem Reads.reading {a : AddressHash} (h : Reads s t a σ) :
    σ.lock.pc (t, .item) = .reading a := by
  rw [h.pc, Function.update_self]

theorem Reads.leaves {a : AddressHash} {result : Bool} (hout : s.Outside t)
    (h : Reads s t a σ) (hwrites : call.writes = false)
    (hpc : σ.pc t = .leaving call none result) : Eventually (Solo F t) (fun σ ↦ Over s t σ ∧
      σ.returned = s.returned ++ [⟨call, none, result⟩]) σ := by
  have hleave : leave t call = .readUnlock (t, .item) :=
    if_neg (hwrites ▸ Bool.false_ne_true)
  refine eventually_next hpc nofun (not_atSpin_of_reading hout h.pc)
    (Step.leave hpc (hleave ▸ LockService.Step.readUnlock h.reading)) fun σ' hnext ↦ ?_
  obtain ⟨lock, hlock, rfl⟩ := hnext
  rw [hleave] at hlock
  exact .done ⟨⟨Function.update_self _ _ _, h.joined.readUnlock (hout.2 .item) hlock, h.tables⟩,
    congrArg (· ++ [⟨call, none, result⟩]) h.returned⟩

theorem Reads.enters {a : AddressHash} {path : Path} {found : Option (UInt64 × Bool)}
    (hout : s.Outside t) (h : Reads s t a σ) (hlookup : s.lookup F path = some found)
    (hpc : σ.pc t = .entered (.access path)) : Eventually (Solo F t) (fun σ ↦ Over s t σ ∧
      σ.returned = s.returned ++ [⟨.access path, none, found.isSome⟩]) σ := by
  have hbody : σ.body F (.access path) = some (σ.tableFileMeta, found.isSome) :=
    congrArg (Option.map _) ((h.tables.lookup path).trans hlookup)
  refine eventually_next hpc nofun (not_atSpin_of_reading hout h.pc)
    (Step.body hpc ⟨a, Or.inr h.reading⟩ hbody) fun σ' hnext ↦ ?_
  obtain ⟨-, ⟨files, result, hbody', rfl⟩ | ⟨hcreates, -⟩⟩ := hnext
  · obtain ⟨rfl, rfl⟩ := Prod.mk.inj (Option.some.inj (hbody.symm.trans hbody'))
    exact Reads.leaves hout ⟨h.joined, h.pc, h.tables, h.returned⟩ rfl (Function.update_self _ _ _)
  · cases hcreates

/-- A call of `access` returns whether the hash table has the path. -/
theorem access_returns {path : Path} {found : Option (UInt64 × Bool)} (hout : s.Outside t)
    (hlocal : F.checkLocal path = true) (hword : s.lock.words (F.item path) = 0)
    (hlookup : s.lookup F path = some found) (hstart : Step F s (.start t (.access path)) σ) :
    Eventually (Solo F t) (fun σ ↦ Over s t σ ∧
      σ.returned = s.returned ++ [⟨.access path, none, found.isSome⟩]) σ := by
  cases hstart with
  | remote _ hremote => exact absurd (hremote.symm.trans hlocal) Bool.false_ne_true
  | @start _ _ lock hidle _ hlock =>
    change LockService.Step s.lock (.readLock (t, .item) (F.item path)) lock at hlock
    exact Reads.enters hout
      ⟨LockService.readLock_joined hlock, readLock_pc hlock hword, ⟨rfl, rfl, rfl⟩, rfl⟩ hlookup
      (Function.update_self _ _ _)

/-! ### A call of `mkdircd` -/

variable {path : Path} {found : Option ParentMeta}

theorem Held.not_atSpin (hout : s.Outside t) (h : Held F s t call σ) : ¬σ.AtSpin t := by
  rintro ⟨use, a, hspin | ⟨key, hspin⟩⟩
  · exact h.not_readSpin hout hspin
  · exact h.not_writeSpin hout hspin

theorem Held.holds (h : Held F s t call σ) : σ.Holds t .item := by
  obtain ⟨key, hpc⟩ := h.2.2.pc_self
  exact ⟨_, Or.inl ⟨key, hpc⟩⟩

/-- `WriteLock` of a word that is zero returns, and the word has the key. -/
theorem spinning_locks (hout : s.Outside t) (hlocal : F.checkLocal call.path = true)
    (hword : s.lock.words (F.item call.path) = 0)
    (hspinning : s.lock.Spinning σ.lock (t, .item) (F.item call.path))
    (hkeys : ∀ a key, σ.lock.pc (t, .item) = .writeSpin a key → upperHalf key ≠ 0)
    (hpc : σ.pc t = .entered call) (htables : SameTables s σ)
    (hreturned : σ.returned = s.returned) :
    Eventually (Solo F t) (fun σ ↦ σ.pc t = .entered call ∧ Held F s t call σ ∧ SameTables s σ ∧
      upperHalf (σ.lock.words (F.item call.path)) ≠ 0) σ := by
  obtain ⟨key, hkey, hwords, hat⟩ := hspinning
  have hitem : σ.lock.pc (t, .item) = .writeSpin (F.item call.path) key := by
    rw [hat, Function.update_self]
  have hparent : σ.lock.pc (t, .parent) = .out := by
    rw [hat, Function.update_of_ne (by simp), hout.2 .parent]
  have hfree : σ.lock.words (F.item call.path) = 0 := by rw [hwords, hword]
  have hne : σ.pc t ≠ .idle := by
    rw [hpc]
    exact nofun
  refine .next ⟨_, hne, Step.swap (LockService.Step.swap hitem hfree)⟩ fun σ' hσ' ↦ ?_
  rcases hσ'.2.next_or with ⟨use, lock, hlock, rfl⟩ | ⟨use, lock, hlock, rfl⟩ | hnext
  · cases use with
    | item =>
      have hspinning : s.lock.Spinning σ.lock (t, .item) (F.item call.path) :=
        ⟨key, hkey, hwords, hat⟩
      refine .done ⟨hpc, ⟨hlocal, hreturned, hspinning.swap hlock⟩, htables, ?_⟩
      cases hlock with
      | swap hspin _ =>
        obtain ⟨rfl, rfl⟩ := LockPc.writeSpin.inj (hitem.symm.trans hspin)
        change upperHalf (Function.update σ.lock.words _ key _) ≠ 0
        rw [Function.update_self]
        exact hkeys _ key hitem
    | parent =>
      cases hlock with
      | swap hspin _ => cases hparent.symm.trans hspin
  · cases hlock with
    | check hspin _ =>
      cases use with
      | item => cases hitem.symm.trans hspin
      | parent => cases hparent.symm.trans hspin
  · rw [hpc] at hnext
    obtain ⟨⟨a, ⟨key', hholds⟩ | hholds⟩, -⟩ := hnext
    · cases hitem.symm.trans hholds
    · cases hitem.symm.trans hholds

/-- The key of a node whose id is not zero. -/
theorem upperHalf_lockKey {NodeID : UInt16} (h : NodeID ≠ 0) (WriteID : UInt16) :
    upperHalf (lockKey NodeID WriteID) ≠ 0 := by
  have hnode : NodeID.toNat ≠ 0 := fun hzero ↦ h (UInt16.toNat_inj.mp hzero)
  rw [ne_eq, upperHalf_eq_zero_iff, lockKey_toNat, Nat.mul_div_cancel _ (by decide)]
  omega

/-- The call locks the hash item of its path. -/
theorem mkdircd_locks (hout : s.Outside t) (hlocal : F.checkLocal path = true)
    (hword : s.lock.words (F.item path) = 0) (hstart : Step F s (.start t (.mkdircd path)) σ) :
    Eventually (Solo F t) (fun σ ↦ σ.pc t = .entered (.mkdircd path) ∧
      Held F s t (.mkdircd path) σ ∧ SameTables s σ ∧
      upperHalf (σ.lock.words (F.item path)) ≠ 0) σ := by
  cases hstart with
  | remote _ hremote => exact absurd (hremote.symm.trans hlocal) Bool.false_ne_true
  | @start _ _ lock hidle _ hlock =>
    change LockService.Step s.lock
      (.writeLock (t, .item) (F.getNodeHash path).toUInt16 (F.item path)) lock at hlock
    have hrestored : s.lock.Restored s.lock := ⟨rfl, rfl⟩
    refine spinning_locks hout hlocal hword (hrestored.writeLock hlock) (fun a key hspin ↦ ?_)
      (Function.update_self _ _ _) ⟨rfl, rfl, rfl⟩ rfl
    change lock.pc (t, .item) = _ at hspin
    cases hlock with
    | writeLock NodeID a _ =>
      dsimp only at hspin
      rw [Function.update_self] at hspin
      obtain ⟨-, rfl⟩ := LockPc.writeSpin.inj hspin
      exact upperHalf_lockKey (F.getNodeHash_toUInt16_ne_zero path) _

/-- The call begins its transaction. -/
theorem mkdircd_begins (hout : s.Outside t) (hlocal : F.checkLocal path = true)
    (hword : s.lock.words (F.item path) = 0) (hstart : Step F s (.start t (.mkdircd path)) σ) :
    Eventually (Solo F t) (fun σ ↦ ∃ tx, σ.pc t = .began (.mkdircd path) tx ∧
      Held F s t (.mkdircd path) σ ∧ SameTables s σ ∧
      upperHalf (σ.lock.words (F.item path)) ≠ 0) σ := by
  refine (mkdircd_locks hout hlocal hword hstart).bind fun σ ⟨hpc, hheld, htables, hkey⟩ ↦ ?_
  refine eventually_next hpc nofun (hheld.not_atSpin hout) (Step.begin hpc rfl hheld.holds)
    fun σ' hnext ↦ ?_
  obtain ⟨-, ⟨files, result, hbody, -⟩ | ⟨-, rfl⟩⟩ := hnext
  · cases hbody
  · exact .done ⟨_, Function.update_self _ _ _, hheld, htables, hkey⟩

theorem Held.parent_out (hout : s.Outside t) (h : Held F s t call σ) :
    σ.lock.pc (t, .parent) = .out :=
  (h.2.2.pc_of_ne (by simp)).trans (hout.2 .parent)

/-- The thread reads the parent's hash item as well. -/
theorem Reading.not_atSpin (h : Reading F s t call σ) {a : AddressHash}
    (hpc : σ.lock.pc (t, .parent) = .reading a) : ¬σ.AtSpin t := by
  rintro ⟨use, b, hspin | ⟨key, hspin⟩⟩
  · cases use with
    | item =>
      obtain ⟨-, -, -, l, hlocked, hjoined⟩ := h
      obtain ⟨key, hkey⟩ := hlocked.pc_self
      have hsame := hjoined.pc_of_ne (show (t, Use.item) ≠ (t, Use.parent) by simp)
      cases (hkey.symm.trans hsame.symm).trans hspin
    | parent => cases hpc.symm.trans hspin
  · exact h.not_writeSpin hspin

/-- The call reads the record of the parent directory. -/
theorem mkdircd_reads (hout : s.Outside t) (hlocal : F.checkLocal path = true)
    (hlocal' : F.checkLocal (getParentDirectory path) = true)
    (hword : s.lock.words (F.item path) = 0)
    (hparent : s.lock.words (F.item (getParentDirectory path)) = 0)
    (hne : F.item (getParentDirectory path) ≠ F.item path)
    (hread : s.readDirectory F (getParentDirectory path) = some found)
    (hstart : Step F s (.start t (.mkdircd path)) σ) :
    Eventually (Solo F t) (fun σ ↦ ∃ tx, σ.pc t = .read (.mkdircd path) tx found ∧
      Held F s t (.mkdircd path) σ ∧ SameTables s σ) σ := by
  refine (mkdircd_begins hout hlocal hword hstart).bind
    fun σ ⟨tx, hpc, hheld, htables, _⟩ ↦ ?_
  have hfree : σ.lock.words (F.item (getParentDirectory path)) = 0 := by
    obtain ⟨key, -, -, hwords, -⟩ := hheld.2.2
    rw [hwords]
    exact (Function.update_of_ne hne key s.lock.words).trans hparent
  refine eventually_next hpc nofun (hheld.not_atSpin hout)
    (Step.parentLock hpc hlocal' (LockService.Step.readLock _ (hheld.parent_out hout)))
    fun σ₁ hnext ↦ ?_
  obtain ⟨hremote, -⟩ | ⟨-, lock, hlock, rfl⟩ := hnext
  · exact absurd (hremote.symm.trans hlocal') Bool.false_ne_true
  have hreading : lock.pc (t, .parent) = .reading (F.item (getParentDirectory path)) := by
    rw [readLock_pc hlock hfree, Function.update_self]
    rfl
  have hparentPc (pc : Pc) : Reading F s t (.mkdircd path) (σ.locked t lock pc) :=
    ⟨hheld.1, hlocal', hheld.2.1, σ.lock, hheld.2.2, LockService.readLock_joined hlock⟩
  have hsame : SameTables s (σ.locked t lock (.parent (.mkdircd path) tx)) := htables
  have hcopy := (hsame.readDirectory (getParentDirectory path)).trans hread
  refine eventually_next (Function.update_self _ _ _) nofun
    ((hparentPc (.parent (.mkdircd path) tx)).not_atSpin hreading)
    (Step.copy (Function.update_self _ _ _) ⟨_, Or.inr hreading⟩ hcopy) fun σ₂ hnext ↦ ?_
  obtain ⟨-, found', hfound, rfl⟩ := hnext
  obtain rfl : found = found' := Option.some.inj (hcopy.symm.trans hfound)
  have hcopied : Reading F s t (.mkdircd path)
      ((σ.locked t lock (.parent (.mkdircd path) tx)).goto t (.copied (.mkdircd path) tx found)) :=
    hparentPc (.parent (.mkdircd path) tx)
  refine eventually_next (Function.update_self _ _ _) nofun (hcopied.not_atSpin hreading)
    (Step.parentUnlock (Function.update_self _ _ _) (LockService.Step.readUnlock hreading))
    fun σ₃ hnext ↦ ?_
  obtain ⟨lock', hunlock, rfl⟩ := hnext
  have hrestored := (LockService.readLock_joined hlock).readUnlock (hheld.parent_out hout) hunlock
  exact .done ⟨tx, Function.update_self _ _ _,
    ⟨hheld.1, hheld.2.1, hrestored.locked hheld.2.2⟩, htables⟩

/-- The call commits and gives its lock back. -/
theorem Held.leaves {tx : LocalTx} {result : Bool} (hout : s.Outside t)
    (hheld : Held F s t (.mkdircd path) σ) (hpc : σ.pc t = .decided (.mkdircd path) tx result) :
    Eventually (Solo F t) (fun σ' ↦ σ'.pc t = .idle ∧ s.lock.Restored σ'.lock ∧ SameTables σ σ')
      σ := by
  refine eventually_next hpc nofun (hheld.not_atSpin hout) (Step.commit hpc) fun σ₁ hnext ↦ ?_
  obtain rfl := hnext
  obtain ⟨key, hwriting⟩ := hheld.2.2.pc_self
  have hheld' : Held F s t (.mkdircd path)
      { σ.goto t (.leaving (.mkdircd path) (some tx) result) with
        txManager := F.TxLocalCommit σ.txManager tx result } := hheld
  refine eventually_next (Function.update_self _ _ _) nofun (hheld'.not_atSpin hout)
    (Step.leave (Function.update_self _ _ _) (LockService.Step.writeUnlock hwriting))
    fun σ₂ hnext ↦ ?_
  obtain ⟨lock, hlock, rfl⟩ := hnext
  have hrestored := hheld.2.2.writeUnlock (hout.2 .item) hlock
  exact .done ⟨Function.update_self _ _ _, hrestored, rfl, rfl, rfl⟩

/-- A call whose path exists returns without a change. -/
theorem mkdircd_exists {parentMeta : ParentMeta} {entry : UInt64 × Bool} (hout : s.Outside t)
    (hlocal : F.checkLocal path = true)
    (hlocal' : F.checkLocal (getParentDirectory path) = true)
    (hword : s.lock.words (F.item path) = 0)
    (hparent : s.lock.words (F.item (getParentDirectory path)) = 0)
    (hne : F.item (getParentDirectory path) ≠ F.item path)
    (hread : s.readDirectory F (getParentDirectory path) = some (some parentMeta))
    (hlookup : s.lookup F path = some (some entry))
    (hstart : Step F s (.start t (.mkdircd path)) σ) :
    Eventually (Solo F t) (Over s t) σ := by
  refine (mkdircd_reads hout hlocal hlocal' hword hparent hne hread hstart).bind
    fun σ ⟨tx, hpc, hheld, htables⟩ ↦ ?_
  have hfound : σ.lookup F (Call.mkdircd path).path = some (some entry) :=
    (htables.lookup path).trans hlookup
  refine eventually_next hpc nofun (hheld.not_atSpin hout) (Step.exist hpc hfound) fun σ₁ hnext ↦ ?_
  obtain ⟨entry', -, rfl⟩ | ⟨entry', habsent, -⟩ := hnext
  · have hheld' : Held F s t (.mkdircd path) (σ.goto t (.decided (.mkdircd path) tx false)) := hheld
    refine (hheld'.leaves hout (Function.update_self _ _ _)).mono fun σ' ⟨hidle, hlock, hsame⟩ ↦ ?_
    exact ⟨hidle, hlock, htables.trans hsame⟩
  · cases hfound.symm.trans habsent

/-- A call whose parent does not exist returns without a change. -/
theorem mkdircd_missing (hout : s.Outside t) (hlocal : F.checkLocal path = true)
    (hlocal' : F.checkLocal (getParentDirectory path) = true)
    (hword : s.lock.words (F.item path) = 0)
    (hparent : s.lock.words (F.item (getParentDirectory path)) = 0)
    (hne : F.item (getParentDirectory path) ≠ F.item path)
    (hread : s.readDirectory F (getParentDirectory path) = some none)
    (hstart : Step F s (.start t (.mkdircd path)) σ) :
    Eventually (Solo F t) (Over s t) σ := by
  refine (mkdircd_reads hout hlocal hlocal' hword hparent hne hread hstart).bind
    fun σ ⟨tx, hpc, hheld, htables⟩ ↦ ?_
  refine eventually_next hpc nofun (hheld.not_atSpin hout) (Step.missing hpc) fun σ₁ hnext ↦ ?_
  obtain rfl := hnext
  have hheld' : Held F s t (.mkdircd path) (σ.goto t (.decided (.mkdircd path) tx false)) := hheld
  refine (hheld'.leaves hout (Function.update_self _ _ _)).mono fun σ' ⟨hidle, hlock, hsame⟩ ↦ ?_
  exact ⟨hidle, hlock, htables.trans hsame⟩

/-- The directory has been made: its name is in the parent's record, and it has a record without
names of its own. -/
structure Makes (F : Config) (s : FileSystem T) (t : T) (path : Path) (parentMeta : ParentMeta)
    (σ : FileSystem T) : Prop where
  idle : σ.pc t = .idle
  lock : s.lock.Restored σ.lock
  tables : ∃ entry tuple index,
    (s.writeParent parentMeta entry (.mkdircd path)).createItem true (some ⟨0, tuple⟩) =
      some (σ.tableDirectoryMeta, some index) ∧
    s.hashtable.putAt (F.item path) (F.sha256 path) (UInt64.ofNat index) true =
      some (σ.hashtable, true)

/-- The steps of a call that adds its name to the parent's record, up to `updateRemoteMeta`. -/
theorem Held.extends {tx : LocalTx} {parentMeta : ParentMeta} (hout : s.Outside t)
    (hheld : Held F s t (.mkdircd path) σ) (htables : SameTables s σ)
    (hpc : σ.pc t = .read (.mkdircd path) tx (some parentMeta))
    (hlookup : s.lookup F path = some none)
    (hcount : parentMeta.parentMeta.count < MAX_DIRECTORY_COUNT)
    (hname : ∀ name, getNameFromPath path = some name → name.length < MAX_FILE_NAME_LENGTH) :
    Eventually (Solo F t) (fun σ ↦ ∃ tx entry, σ.pc t = .updated (.mkdircd path) tx ∧
      Held F s t (.mkdircd path) σ ∧ σ.hashtable = s.hashtable ∧
      σ.tableDirectoryMeta = s.writeParent parentMeta entry (.mkdircd path)) σ := by
  have hlength : ((getNameFromPath path).getD []).length < MAX_FILE_NAME_LENGTH := by
    cases hsome : getNameFromPath path with
    | none => exact (by decide : 0 < MAX_FILE_NAME_LENGTH)
    | some name => exact hname name hsome
  have habsent : σ.lookup F (Call.mkdircd path).path = some none :=
    (htables.lookup path).trans hlookup
  refine eventually_next hpc nofun (hheld.not_atSpin hout)
    (@Step.extend _ _ _ _ _ _ _ _ ⟨(getNameFromPath path).getD [], true⟩ hpc habsent hcount hlength
      (fun name hsome ↦ (congrArg (·.getD []) hsome).trans rfl) fun _ _ ↦ rfl) fun σ₁ hnext ↦ ?_
  obtain ⟨entry, hexists, -⟩ | ⟨entry, -, -, -, -, rfl⟩ := hnext
  · cases habsent.symm.trans hexists
  have hextended : Held F s t (.mkdircd path)
      (σ.goto t (.extended (.mkdircd path) tx parentMeta entry)) := hheld
  refine eventually_next (Function.update_self _ _ _) nofun (hextended.not_atSpin hout)
    (Step.log (Function.update_self _ _ _)) fun σ₂ hnext ↦ ?_
  obtain rfl := hnext
  refine eventually_next (Function.update_self _ _ _) nofun (Held.not_atSpin hout hextended)
    (Step.update (Function.update_self _ _ _)) fun σ₃ hnext ↦ ?_
  obtain ⟨other, hother, rfl⟩ | ⟨⟨other, hother⟩, -⟩ := hnext
  · refine .done ⟨_, entry, Function.update_self _ _ _, hextended, htables.1, ?_⟩
    exact congrArg (fun directories : Table DirectoryMeta ↦
      { directories with
        items := Function.update directories.items parentMeta.index
          (parentMeta.parentMeta.add entry) }) htables.2.2
  · cases hother

/-- A call whose path does not exist makes the directory. -/
theorem mkdircd_makes {parentMeta : ParentMeta} (hout : s.Outside t)
    (hlocal : F.checkLocal path = true)
    (hlocal' : F.checkLocal (getParentDirectory path) = true)
    (hword : s.lock.words (F.item path) = 0)
    (hparent : s.lock.words (F.item (getParentDirectory path)) = 0)
    (hne : F.item (getParentDirectory path) ≠ F.item path)
    (hread : s.readDirectory F (getParentDirectory path) = some (some parentMeta))
    (hlookup : s.lookup F path = some none)
    (hcount : parentMeta.parentMeta.count < MAX_DIRECTORY_COUNT)
    (hname : ∀ name, getNameFromPath path = some name → name.length < MAX_FILE_NAME_LENGTH)
    (hcreate : ∀ entry tuple, ∃ directories index,
      (s.writeParent parentMeta entry (.mkdircd path)).createItem true (some ⟨0, tuple⟩) =
        some (directories, some index))
    (hput : ∀ index, ∃ table, s.hashtable.putAt (F.item path) (F.sha256 path) (UInt64.ofNat index)
      true = some (table, true))
    (hstart : Step F s (.start t (.mkdircd path)) σ) :
    Eventually (Solo F t) (Makes F s t path parentMeta) σ := by
  refine ((mkdircd_reads hout hlocal hlocal' hword hparent hne hread hstart).bind
    fun σ ⟨tx, hpc, hheld, htables⟩ ↦ hheld.extends hout htables hpc hlookup hcount hname).bind
    fun σ ⟨tx, entry, hpc, hheld, htable, hdirectories⟩ ↦ ?_
  obtain ⟨directories, index, hmake⟩ := hcreate entry fun _ ↦ ⟨[], false⟩
  rw [← hdirectories] at hmake
  refine eventually_next hpc nofun (hheld.not_atSpin hout)
    (Step.createDirectory _ hpc hmake) fun σ₁ hnext ↦ ?_
  obtain ⟨tuple, directories, reply, -, hcreated, rfl⟩ | ⟨_, _, _, _, ⟨other, hother⟩, -⟩ := hnext
  · rw [hdirectories] at hcreated
    obtain ⟨directories', index, hmade⟩ := hcreate entry tuple
    obtain ⟨rfl, rfl⟩ := Prod.mk.inj (Option.some.inj (hmade.symm.trans hcreated))
    obtain ⟨table, hfills⟩ := hput index
    refine eventually_next (Function.update_self _ _ _) nofun (Held.not_atSpin hout hheld)
      (Step.put (Function.update_self _ _ _) ((congrArg
        (·.putAt (F.item path) (F.sha256 path) (UInt64.ofNat index) true) htable).trans hfills))
      fun σ₂ hnext ↦ ?_
    obtain ⟨table', result, hput', rfl⟩ := hnext
    change HashTable.putAt σ.hashtable _ _ _ true = _ at hput'
    rw [htable] at hput'
    obtain ⟨rfl, rfl⟩ := Prod.mk.inj (Option.some.inj (hfills.symm.trans hput'))
    have hdecided : Held F s t (.mkdircd path)
        { (FileSystem.goto { σ.goto t (.created (.mkdircd path) tx index) with
            tableDirectoryMeta := directories' } t (.decided (.mkdircd path) tx true)) with
          hashtable := table } := hheld
    refine (hdecided.leaves hout (Function.update_self _ _ _)).mono
      fun σ' ⟨hidle, hlock, hsame⟩ ↦ ?_
    exact ⟨hidle, hlock, entry, tuple, index, hsame.2.2 ▸ hmade, hsame.1 ▸ hfills⟩
  · cases hother

/-! ### Calls that do not return -/

/-- The thread is in a call, and it has no step. -/
def Stuck (F : Config) (t : T) (s : FileSystem T) : Prop := s.pc t ≠ .idle ∧ ∀ s', ¬Solo F t s s'

/-- A name that is too long for the record has no place there. -/
theorem mkdircd_overflows {parentMeta : ParentMeta} {name : Path} (hout : s.Outside t)
    (hlocal : F.checkLocal path = true)
    (hlocal' : F.checkLocal (getParentDirectory path) = true)
    (hword : s.lock.words (F.item path) = 0)
    (hparent : s.lock.words (F.item (getParentDirectory path)) = 0)
    (hne : F.item (getParentDirectory path) ≠ F.item path)
    (hread : s.readDirectory F (getParentDirectory path) = some (some parentMeta))
    (hlookup : s.lookup F path = some none) (hname : getNameFromPath path = some name)
    (hlength : MAX_FILE_NAME_LENGTH ≤ name.length)
    (hstart : Step F s (.start t (.mkdircd path)) σ) : Eventually (Solo F t) (Stuck F t) σ := by
  refine (mkdircd_reads hout hlocal hlocal' hword hparent hne hread hstart).mono
    fun σ ⟨tx, hpc, hheld, htables⟩ ↦ ⟨by rw [hpc]; exact nofun, fun σ' hsolo ↦ ?_⟩
  have habsent : σ.lookup F (Call.mkdircd path).path = some none :=
    (htables.lookup path).trans hlookup
  obtain ⟨entry, hexists, -⟩ | ⟨entry, -, -, hshort, hnames, -⟩ :=
    hsolo.2.next (hheld.not_atSpin hout) hpc
  · cases habsent.symm.trans hexists
  · rw [hnames name hname] at hshort
    exact absurd hshort hlength.not_gt

/-- A reader that adds itself to the word of a writer leaves the key. -/
theorem upperHalf_add_one {word : UInt64} (hlow : clearUpperHalf word = 0)
    (hkey : upperHalf word ≠ 0) : upperHalf (word + 1) ≠ 0 := by
  have hzero : word.toNat % 2 ^ 32 = 0 := by
    rw [← clearUpperHalf_toNat, hlow]
    rfl
  have hbound := word.toNat_lt
  have hone : (1 : UInt64).toNat = 1 := rfl
  rw [ne_eq, upperHalf_eq_zero_iff] at hkey ⊢
  rw [UInt64.toNat_add, hone]
  omega

/-- A directory that is its own parent is locked twice. -/
theorem mkdircd_waits (hout : s.Outside t) (hlocal : F.checkLocal path = true)
    (hword : s.lock.words (F.item path) = 0) (hself : getParentDirectory path = path)
    (hstart : Step F s (.start t (.mkdircd path)) σ) : Eventually (Solo F t) (Stuck F t) σ := by
  refine (mkdircd_begins hout hlocal hword hstart).bind fun σ ⟨tx, hpc, hheld, _, hkey⟩ ↦ ?_
  have hitem : F.item (getParentDirectory (Call.mkdircd path).path) = F.item path :=
    congrArg F.item hself
  have hparent : F.checkLocal (getParentDirectory (Call.mkdircd path).path) = true :=
    (congrArg F.checkLocal hself).trans hlocal
  refine eventually_next hpc nofun (hheld.not_atSpin hout)
    (Step.parentLock hpc hparent (LockService.Step.readLock _ (hheld.parent_out hout)))
    fun σ₁ hnext ↦ ?_
  obtain ⟨hremote, -⟩ | ⟨-, lock, hlock, rfl⟩ := hnext
  · exact absurd (hremote.symm.trans hparent) Bool.false_ne_true
  rw [hitem] at hlock
  obtain ⟨key, hwriting⟩ := hheld.2.2.pc_self
  obtain ⟨key', hlow, -, hwords, -⟩ := hheld.2.2
  have hlow' : clearUpperHalf (σ.lock.words (F.item path)) = 0 := by
    rw [hwords]
    exact (congrArg clearUpperHalf (Function.update_self _ _ _)).trans hlow
  cases hlock with
  | readLock a _ =>
    rw [if_neg hkey]
    have hparent : (Function.update σ.lock.pc (t, Use.parent) (.readSpin (F.item path)))
        (t, .parent) = .readSpin (F.item path) := Function.update_self _ _ _
    have hitem : (Function.update σ.lock.pc (t, Use.parent) (.readSpin (F.item path)))
        (t, .item) = .writing (F.item path) key :=
      (Function.update_of_ne (by simp) _ _).trans hwriting
    refine .done ⟨?_, fun σ' hsolo ↦ ?_⟩
    · change Function.update σ.pc t _ t ≠ .idle
      rw [Function.update_self]
      exact nofun
    · rcases hsolo.2.next_or with ⟨use, lock, hlock, -⟩ | ⟨use, lock, hlock, -⟩ | hnext
      · cases hlock with
        | swap hspin _ =>
          cases use with
          | item => cases hitem.symm.trans hspin
          | parent => cases hparent.symm.trans hspin
      · cases hlock with
        | check hspin hfree =>
          cases use with
          | item => cases hitem.symm.trans hspin
          | parent =>
            obtain rfl := LockPc.readSpin.inj (hparent.symm.trans hspin)
            change upperHalf (Function.update σ.lock.words _ _ _) = 0 at hfree
            rw [Function.update_self] at hfree
            exact upperHalf_add_one hlow' hkey hfree
      · change Next F t _ σ' (Function.update σ.pc t _ t) at hnext
        rw [Function.update_self] at hnext
        obtain ⟨⟨a, ⟨key, hholds⟩ | hholds⟩, -⟩ := hnext
        · cases hparent.symm.trans hholds
        · cases hparent.symm.trans hholds

end FileSystem

end SwitchDelta.Fs
