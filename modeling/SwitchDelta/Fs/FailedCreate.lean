import SwitchDelta.Fs.Deadlock
import SwitchDelta.Fs.ServerExecution

/-!
# Creations that fail

A call of `mknodcd` or `mkdircd` that no other thread interferes with, from its start to its return.
It can fail before it changes anything: its path or the parent is not on this node, the parent is
not there, or the path exists. Behind that point nothing is rolled back.

`failed_create` says what a call that returns false leaves behind. The lock words are as before in
every case, and if it failed early the tables are as well. If it failed because the hash table has
no item left, its own item stays allocated, and the parent's record has the name of a directory that
does not exist.
-/

set_option autoImplicit false
set_option relaxedAutoImplicit false

namespace SwitchDelta.Fs

open Foundation

/-! ### The locks of one thread -/

namespace LockService

variable {α T : Type} [DecidableEq α] [DecidableEq T]

/-- The lock words are as before, and the threads are where they were. -/
structure Restored (l₀ l : LockService α T) : Prop where
  words : l.words = l₀.words
  pc : l.pc = l₀.pc

/-- The thread waits for the word to become zero. -/
def Spinning (l₀ l : LockService α T) (t : T) (a : α) : Prop :=
  ∃ key, clearUpperHalf key = 0 ∧ l.words = l₀.words ∧
    l.pc = Function.update l₀.pc t (.writeSpin a key)

/-- The thread has locked an address for write. -/
def Locked (l₀ l : LockService α T) (t : T) (a : α) : Prop :=
  ∃ key, clearUpperHalf key = 0 ∧ l₀.words a = 0 ∧ l.words = Function.update l₀.words a key ∧
    l.pc = Function.update l₀.pc t (.writing a key)

/-- The thread has added itself to the readers of an address. -/
def Joined (l₀ l : LockService α T) (t : T) (a : α) : Prop :=
  l.words = Function.update l₀.words a (l₀.words a + 1) ∧
    ∃ pc, (pc = .readSpin a ∨ pc = .reading a) ∧ l.pc = Function.update l₀.pc t pc

variable {l₀ l₁ l l' : LockService α T} {t t' : T} {a b : α}

theorem clearUpperHalf_lockKey (NodeID WriteID : UInt16) :
    clearUpperHalf (lockKey NodeID WriteID) = 0 := by
  rw [← UInt64.toNat_inj, clearUpperHalf_toNat, lockKey_toNat, Nat.mul_mod_left]
  rfl

/-- `WriteLock` begins to wait. -/
theorem Restored.writeLock (h : Restored l₀ l) {NodeID : UInt16}
    (hstep : Step l (.writeLock t NodeID a) l') : Spinning l₀ l' t a := by
  cases hstep with
  | writeLock NodeID a _ =>
    exact ⟨_, clearUpperHalf_lockKey NodeID l.WriteID, h.words,
      congrArg (Function.update · t _) h.pc⟩

omit [DecidableEq α] in
theorem Spinning.pc_of_ne (h : Spinning l₀ l t a) (ht : t' ≠ t) : l.pc t' = l₀.pc t' := by
  obtain ⟨key, -, -, hpc⟩ := h
  rw [hpc, Function.update_of_ne ht]

theorem Spinning.swap (h : Spinning l₀ l t a) (hstep : Step l (.swap t) l') : Locked l₀ l' t a := by
  obtain ⟨key, hkey, hwords, hpc⟩ := h
  cases hstep with
  | @swap _ b key' hat hzero =>
    rw [hpc, Function.update_self] at hat
    obtain ⟨rfl, rfl⟩ := LockPc.writeSpin.inj hat
    refine ⟨key, hkey, hwords ▸ hzero, congrArg (Function.update · a key) hwords, ?_⟩
    change Function.update l.pc t _ = _
    rw [hpc, Function.update_idem]

theorem Locked.pc_self (h : Locked l₀ l t a) : ∃ key, l.pc t = .writing a key := by
  obtain ⟨key, -, -, -, hpc⟩ := h
  exact ⟨key, by rw [hpc, Function.update_self]⟩

theorem Locked.pc_of_ne (h : Locked l₀ l t a) (ht : t' ≠ t) : l.pc t' = l₀.pc t' := by
  obtain ⟨key, -, -, -, hpc⟩ := h
  rw [hpc, Function.update_of_ne ht]

/-- `WriteUnlock` makes the word zero again. -/
theorem Locked.writeUnlock (h : Locked l₀ l t a) (hout : l₀.pc t = .out)
    (hstep : Step l (.writeUnlock t) l') : Restored l₀ l' := by
  obtain ⟨key, hkey, hzero, hwords, hpc⟩ := h
  cases hstep with
  | @writeUnlock _ b key' hat =>
    rw [hpc, Function.update_self] at hat
    obtain ⟨rfl, rfl⟩ := LockPc.writing.inj hat
    constructor
    · change Function.update l.words a (clearUpperHalf (l.words a)) = _
      rw [hwords, Function.update_self, Function.update_idem, hkey, ← hzero,
        Function.update_eq_self]
    · change Function.update l.pc t .out = _
      rw [hpc, Function.update_idem, ← hout, Function.update_eq_self]

theorem readLock_joined (hstep : Step l (.readLock t a) l') : Joined l l' t a := by
  cases hstep with
  | readLock a _ =>
    refine ⟨rfl, _, ?_, rfl⟩
    split_ifs
    · exact Or.inr rfl
    · exact Or.inl rfl

theorem Joined.check (h : Joined l₀ l t a) (hstep : Step l (.check t) l') : Joined l₀ l' t a := by
  obtain ⟨hwords, pc, hat, hpc⟩ := h
  cases hstep with
  | @check _ b hspin hfree =>
    rw [hpc, Function.update_self] at hspin
    rcases hat with rfl | rfl
    · obtain rfl := LockPc.readSpin.inj hspin
      refine ⟨hwords, _, Or.inr rfl, ?_⟩
      change Function.update l.pc t _ = _
      rw [hpc, Function.update_idem]
    · cases hspin

theorem Joined.pc_of_ne (h : Joined l₀ l t a) (ht : t' ≠ t) : l.pc t' = l₀.pc t' := by
  obtain ⟨-, pc, -, hpc⟩ := h
  rw [hpc, Function.update_of_ne ht]

theorem Joined.not_writeSpin (h : Joined l₀ l t a) {key : UInt64} : l.pc t ≠ .writeSpin b key := by
  obtain ⟨-, pc, hat, hpc⟩ := h
  rw [hpc, Function.update_self]
  rcases hat with rfl | rfl
  · exact fun h ↦ by cases h
  · exact fun h ↦ by cases h

/-- `ReadUnlock` takes the reader away again. -/
theorem Joined.readUnlock (h : Joined l₀ l t a) (hout : l₀.pc t = .out)
    (hstep : Step l (.readUnlock t) l') : Restored l₀ l' := by
  obtain ⟨hwords, pc, hat, hpc⟩ := h
  cases hstep with
  | @readUnlock _ b hread =>
    rw [hpc, Function.update_self] at hread
    obtain rfl : a = b := by
      rcases hat with rfl | rfl
      · cases hread
      · exact LockPc.reading.inj hread
    constructor
    · change Function.update l.words a (l.words a - 1) = _
      rw [hwords, Function.update_self, Function.update_idem, add_sub_cancel_right,
        Function.update_eq_self]
    · change Function.update l.pc t .out = _
      rw [hpc, Function.update_idem, ← hout, Function.update_eq_self]

theorem Restored.locked (h : Restored l l') (hlocked : Locked l₀ l t a) : Locked l₀ l' t a := by
  obtain ⟨key, hkey, hzero, hwords, hpc⟩ := hlocked
  exact ⟨key, hkey, hzero, h.words.trans hwords, h.pc.trans hpc⟩

end LockService

/-! ### A call on its own -/

namespace HashTable

/-- The entries of two tables are the same. -/
def SameEntries (t t' : HashTable) : Prop :=
  t'.itemsHash = t.itemsHash ∧ t'.itemsChained = t.itemsChained

theorem sameEntries_of_eq {t t' : HashTable} (h : t' = t) : t.SameEntries t' := h ▸ ⟨rfl, rfl⟩

theorem occupy_entries (t : HashTable) : t.SameEntries t.occupy.1 := by
  rw [occupy]
  split <;> exact ⟨rfl, rfl⟩

/-- A `put` that fails leaves the entries. -/
theorem putAt_false {t t' : HashTable} {hashAddress : AddressHash} {hashUnique : UniqueHash}
    {indexMeta : UInt64} {isDirectory : Bool}
    (h : t.putAt hashAddress hashUnique indexMeta isDirectory = some (t', false)) :
    t.SameEntries t' := by
  have hentries := t.occupy_entries
  have hoccupy {r : HashTable × Option ℕ} (hr : t.occupy = r) (hr' : r.1 = t') : t.SameEntries t' :=
    hr' ▸ hr ▸ hentries
  rw [putAt] at h
  split_ifs at h with hhead
  · split at h
    · next t₁ hr => exact hoccupy hr (Prod.mk.inj (Option.some.inj h)).1
    · exact absurd (Prod.mk.inj (Option.some.inj h)).2 Bool.noConfusion
  · obtain ⟨walk, -, h⟩ := Option.bind_eq_some_iff.mp h
    split at h
    · exact absurd (Prod.mk.inj (Option.some.inj h)).2 Bool.noConfusion
    · split at h
      · next t₁ hr => exact hoccupy hr (Prod.mk.inj (Option.some.inj h)).1
      · exact absurd (Prod.mk.inj (Option.some.inj h)).2 Bool.noConfusion

end HashTable

namespace Table

variable {I : Type*}

/-- The chain of free items begins with one that is free. -/
def HeadFree (t : Table I) : Prop :=
  ∃ node bit, t.headFreeBit = some node ∧ t.heap node = some bit ∧ t.Free bit.position

/-- An item that was free is not any more, and the mutex is as before. -/
def Takes (t t' : Table I) : Prop :=
  t'.mutexBitmapItems = t.mutexBitmapItems ∧
    ∃ index, t.Free index ∧ t'.bitmapItems.bit index = true

/-- A creation takes the head of the chain, and leaves the items in use. -/
theorem HeadFree.createItem {t t' : Table I} (h : t.HeadFree) {item : I} {reply : Option ℕ}
    (hcreate : t.createItem true (some item) = some (t', reply)) :
    t.Takes t' ∧ ∀ index, t.bitmapItems.bit index = true → t'.items index = t.items index := by
  obtain ⟨node, bit, hhead, hnode, hfree⟩ := h
  obtain ⟨hset, hbits, -, -⟩ := Bitmap.set_of_clear hfree.1 hfree.2
  rw [Table.createItem] at hcreate
  split_ifs at hcreate with hlocked
  simp only [hhead, hnode, Option.map_some, hset, if_true, Option.some.injEq, Prod.mk.injEq]
    at hcreate
  obtain ⟨rfl, -⟩ := hcreate
  refine ⟨⟨rfl, bit.position, hfree, (hbits bit.position).mpr (Or.inl rfl)⟩, fun index hindex ↦ ?_⟩
  have hne : index ≠ bit.position := by
    rintro rfl
    exact absurd (hfree.2.symm.trans hindex) Bool.false_ne_true
  exact Function.update_of_ne hne _ _

end Table

namespace FileSystem

variable {T : Type} [DecidableEq T] (F : Config)

/-- A thread is in no call. -/
def Outside (s : FileSystem T) (t : T) : Prop := s.pc t = .idle ∧ ∀ use, s.lock.pc (t, use) = .out

/-- A thread starts a call and takes its steps, alone, until the call returns. -/
def Returns (s : FileSystem T) (t : T) (call : Call) (result : Bool) (s' : FileSystem T) : Prop :=
  s.Outside t ∧ ∃ s₁, Step F s (.start t call) s₁ ∧
    Reachable s₁ (Step F) (fun _ e ↦ e = .step t) s' ∧ s'.pc t = .idle ∧
    ∃ tx, s'.returned = s.returned ++ [⟨call, tx, result⟩]

/-- The hash table and the tables of the metadata are the same. -/
def SameTables (s s' : FileSystem T) : Prop :=
  s'.hashtable = s.hashtable ∧ s'.tableFileMeta = s.tableFileMeta ∧
    s'.tableDirectoryMeta = s.tableDirectoryMeta

/-- A creation finds that the path or its parent is not on this node, that there is no such parent,
or that the path exists. -/
def FailsEarly (s : FileSystem T) (call : Call) : Prop :=
  F.checkLocal call.path = false ∨ F.checkLocal (getParentDirectory call.path) = false ∨
    s.readDirectory F (getParentDirectory call.path) = some none ∨
    ∃ entry, s.lookup F call.path = some (some entry)

/-- A creation finds the parent and no entry of the path, and adds an entry to its copy. -/
structure Reaches (s : FileSystem T) (call : Call) (found : ParentMeta)
    (entry : DirectoryMetaTuple) : Prop where
  checkLocal : F.checkLocal call.path = true
  checkLocal_parent : F.checkLocal (getParentDirectory call.path) = true
  readDirectory : s.readDirectory F (getParentDirectory call.path) = some (some found)
  lookup : s.lookup F call.path = some none
  names : ∀ name, getNameFromPath call.path = some name → entry.names = name

/-- The table of the directories after `updateRemoteMeta`, which `mkdircd` calls. -/
def writeParent (s : FileSystem T) (found : ParentMeta) (entry : DirectoryMetaTuple) :
    Call → Table DirectoryMeta
  | .mkdircd _ =>
    { s.tableDirectoryMeta with
      items := Function.update s.tableDirectoryMeta.items found.index (found.parentMeta.add entry) }
  | _ => s.tableDirectoryMeta

/-- The tables after `Table::create`. -/
def Made (s σ : FileSystem T) (directories : Table DirectoryMeta) (reply : Option ℕ) : Call → Prop
  | .mkdircd _ => σ.tableFileMeta = s.tableFileMeta ∧
    ∃ item, directories.createItem true (some item) = some (σ.tableDirectoryMeta, reply)
  | .mknodcd _ => σ.tableDirectoryMeta = directories ∧
    ∃ item, s.tableFileMeta.createItem true (some item) = some (σ.tableFileMeta, reply)
  | _ => False

/-- What a creation that fails has done to the tables. -/
def Outcome (s : FileSystem T) (call : Call) (σ : FileSystem T) : Prop :=
  (FailsEarly F s call ∧ SameTables s σ) ∨
    ∃ found entry reply, Reaches F s call found entry ∧ s.hashtable.SameEntries σ.hashtable ∧
      s.Made σ (s.writeParent found entry call) reply call

/-- The thread has the lock of the path's hash item only. -/
def Held (s : FileSystem T) (t : T) (call : Call) (σ : FileSystem T) : Prop :=
  F.checkLocal call.path = true ∧ σ.returned = s.returned ∧
    s.lock.Locked σ.lock (t, .item) (F.item call.path)

/-- The thread is at the parent's hash item as well. -/
def Reading (s : FileSystem T) (t : T) (call : Call) (σ : FileSystem T) : Prop :=
  F.checkLocal call.path = true ∧ F.checkLocal (getParentDirectory call.path) = true ∧
    σ.returned = s.returned ∧ ∃ l, s.lock.Locked l (t, .item) (F.item call.path) ∧
      l.Joined σ.lock (t, .parent) (F.item (getParentDirectory call.path))

/-- The state `σ` of a call that began in the state `s`, by where its thread is. -/
inductive During (s : FileSystem T) (t : T) (call : Call) (σ : FileSystem T) : Pc → Prop
  | spinning : F.checkLocal call.path = true → σ.returned = s.returned →
      s.lock.Spinning σ.lock (t, .item) (F.item call.path) → SameTables s σ →
      During s t call σ (.entered call)
  | entered : Held F s t call σ → SameTables s σ → During s t call σ (.entered call)
  | began {tx : LocalTx} : Held F s t call σ → SameTables s σ → During s t call σ (.began call tx)
  | parent {tx : LocalTx} : Reading F s t call σ → SameTables s σ →
      During s t call σ (.parent call tx)
  | copied {tx : LocalTx} {found : Option ParentMeta} : Reading F s t call σ → SameTables s σ →
      s.readDirectory F (getParentDirectory call.path) = some found →
      During s t call σ (.copied call tx found)
  | read {tx : LocalTx} {found : Option ParentMeta} : Held F s t call σ → SameTables s σ →
      F.checkLocal (getParentDirectory call.path) = true →
      s.readDirectory F (getParentDirectory call.path) = some found →
      During s t call σ (.read call tx found)
  | extended {tx : LocalTx} {found : ParentMeta} {entry : DirectoryMetaTuple} :
      Held F s t call σ → SameTables s σ → Reaches F s call found entry →
      During s t call σ (.extended call tx found entry)
  | logged {tx : LocalTx} {found : ParentMeta} {entry : DirectoryMetaTuple} :
      Held F s t call σ → SameTables s σ → Reaches F s call found entry →
      During s t call σ (.logged call tx found entry)
  | updated {tx : LocalTx} {found : ParentMeta} {entry : DirectoryMetaTuple} :
      Held F s t call σ → Reaches F s call found entry → σ.hashtable = s.hashtable →
      σ.tableFileMeta = s.tableFileMeta → σ.tableDirectoryMeta = s.writeParent found entry call →
      During s t call σ (.updated call tx)
  | created {tx : LocalTx} {found : ParentMeta} {entry : DirectoryMetaTuple} {index : ℕ} :
      Held F s t call σ → Reaches F s call found entry → σ.hashtable = s.hashtable →
      s.Made σ (s.writeParent found entry call) (some index) call →
      During s t call σ (.created call tx index)
  | decided {tx : LocalTx} {result : Bool} : Held F s t call σ →
      (result = false → Outcome F s call σ) → During s t call σ (.decided call tx result)
  | leaving {tx : Option LocalTx} {result : Bool} : Held F s t call σ →
      (result = false → Outcome F s call σ) → During s t call σ (.leaving call tx result)
  | idle {tx : Option LocalTx} {result : Bool} : s.lock.Restored σ.lock →
      σ.returned = s.returned ++ [⟨call, tx, result⟩] → (result = false → Outcome F s call σ) →
      During s t call σ .idle

variable {F} {s s' σ σ' : FileSystem T} {t : T} {call : Call}

/-! ### One step of the call -/

omit [DecidableEq T] in
theorem Reaches.not_failsEarly {found : ParentMeta} {entry : DirectoryMetaTuple}
    (h : Reaches F s call found entry) : ¬ FailsEarly F s call := by
  rintro (hlocal | hlocal | hread | ⟨entry', hlookup⟩)
  · exact Bool.false_ne_true (hlocal.symm.trans h.checkLocal)
  · exact Bool.false_ne_true (hlocal.symm.trans h.checkLocal_parent)
  · cases h.readDirectory.symm.trans hread
  · cases h.lookup.symm.trans hlookup

omit [DecidableEq T] in
theorem SameTables.readDirectory (h : SameTables s σ) (path : Path) :
    σ.readDirectory F path = s.readDirectory F path := by
  rw [FileSystem.readDirectory, FileSystem.readDirectory, FileSystem.lookup, FileSystem.lookup, h.1,
    h.2.2]

omit [DecidableEq T] in
theorem SameTables.lookup (h : SameTables s σ) (path : Path) :
    σ.lookup F path = s.lookup F path := by
  rw [FileSystem.lookup, FileSystem.lookup, h.1]

omit [DecidableEq T] in
theorem Made.of_tables {directories : Table DirectoryMeta} {reply : Option ℕ}
    (h : s.Made σ directories reply call) (hfiles : σ'.tableFileMeta = σ.tableFileMeta)
    (hdirectories : σ'.tableDirectoryMeta = σ.tableDirectoryMeta) :
    s.Made σ' directories reply call := by
  cases call with
  | mknodcd path =>
    rw [Made, hfiles, hdirectories]
    exact h
  | mkdircd path =>
    rw [Made, hfiles, hdirectories]
    exact h
  | _ => exact h

omit [DecidableEq T] in
/-- Only the tables matter. -/
theorem Outcome.of_tables (h : Outcome F s call σ) (htable : σ'.hashtable = σ.hashtable)
    (hfiles : σ'.tableFileMeta = σ.tableFileMeta)
    (hdirectories : σ'.tableDirectoryMeta = σ.tableDirectoryMeta) : Outcome F s call σ' := by
  rcases h with ⟨hearly, hsame⟩ | ⟨found, entry, reply, hreaches, hentries, hmade⟩
  · exact Or.inl ⟨hearly, htable.trans hsame.1, hfiles.trans hsame.2.1,
      hdirectories.trans hsame.2.2⟩
  · exact Or.inr ⟨found, entry, reply, hreaches, htable ▸ hentries,
      hmade.of_tables hfiles hdirectories⟩

theorem Held.not_writeSpin (hout : s.Outside t) (h : Held F s t call σ) {use : Use}
    {a : AddressHash} {key : UInt64} : σ.lock.pc (t, use) ≠ .writeSpin a key := by
  intro hpc
  cases use with
  | item =>
    obtain ⟨key', hkey⟩ := h.2.2.pc_self
    cases hkey.symm.trans hpc
  | parent =>
    have hsame := h.2.2.pc_of_ne (show (t, Use.parent) ≠ (t, Use.item) by simp)
    cases ((hout.2 .parent).symm.trans hsame.symm).trans hpc

theorem Held.not_readSpin (hout : s.Outside t) (h : Held F s t call σ) {use : Use}
    {a : AddressHash} : σ.lock.pc (t, use) ≠ .readSpin a := by
  intro hpc
  cases use with
  | item =>
    obtain ⟨key', hkey⟩ := h.2.2.pc_self
    cases hkey.symm.trans hpc
  | parent =>
    have hsame := h.2.2.pc_of_ne (show (t, Use.parent) ≠ (t, Use.item) by simp)
    cases ((hout.2 .parent).symm.trans hsame.symm).trans hpc

theorem Reading.not_writeSpin (h : Reading F s t call σ) {use : Use} {a : AddressHash}
    {key : UInt64} : σ.lock.pc (t, use) ≠ .writeSpin a key := by
  obtain ⟨-, -, -, l, hlocked, hjoined⟩ := h
  intro hpc
  cases use with
  | item =>
    obtain ⟨key', hkey⟩ := hlocked.pc_self
    have hsame := hjoined.pc_of_ne (show (t, Use.item) ≠ (t, Use.parent) by simp)
    cases (hkey.symm.trans hsame.symm).trans hpc
  | parent => exact hjoined.not_writeSpin hpc

/-- A step of the compare and swap is that of the path's hash item. -/
theorem During.swap (hout : s.Outside t) (h : During F s t call σ (σ.pc t)) {use : Use}
    {lock : LockService AddressHash (T × Use)}
    (hlock : LockService.Step σ.lock (.swap (t, use)) lock) :
    During F s t call { σ with lock } (σ.pc t) := by
  have hspin : ∃ a key, σ.lock.pc (t, use) = .writeSpin a key := by
    cases hlock with
    | swap hpc _ => exact ⟨_, _, hpc⟩
  obtain ⟨a, key, hspin⟩ := hspin
  generalize σ.pc t = pc at h ⊢
  cases h with
  | spinning hlocal hreturned hspinning hsame =>
    cases use with
    | item => exact .entered ⟨hlocal, hreturned, hspinning.swap hlock⟩ hsame
    | parent =>
      have heq := hspinning.pc_of_ne (show (t, Use.parent) ≠ (t, Use.item) by simp)
      cases ((hout.2 .parent).symm.trans heq.symm).trans hspin
  | entered hheld => exact (hheld.not_writeSpin hout hspin).elim
  | began hheld => exact (hheld.not_writeSpin hout hspin).elim
  | parent hreading => exact (hreading.not_writeSpin hspin).elim
  | copied hreading => exact (hreading.not_writeSpin hspin).elim
  | read hheld => exact (hheld.not_writeSpin hout hspin).elim
  | extended hheld => exact (hheld.not_writeSpin hout hspin).elim
  | logged hheld => exact (hheld.not_writeSpin hout hspin).elim
  | updated hheld => exact (hheld.not_writeSpin hout hspin).elim
  | created hheld => exact (hheld.not_writeSpin hout hspin).elim
  | decided hheld => exact (hheld.not_writeSpin hout hspin).elim
  | leaving hheld => exact (hheld.not_writeSpin hout hspin).elim
  | idle hrestored =>
    rw [hrestored.pc, hout.2 use] at hspin
    cases hspin

/-- A step of the comparison in `ReadLock` is that of the parent's hash item. -/
theorem During.check (hout : s.Outside t) (h : During F s t call σ (σ.pc t)) {use : Use}
    {lock : LockService AddressHash (T × Use)}
    (hlock : LockService.Step σ.lock (.check (t, use)) lock) :
    During F s t call { σ with lock } (σ.pc t) := by
  have hspin : ∃ a, σ.lock.pc (t, use) = .readSpin a := by
    cases hlock with
    | check hpc _ => exact ⟨_, hpc⟩
  obtain ⟨a, hspin⟩ := hspin
  have hreads (h : Reading F s t call σ) : Reading F s t call { σ with lock } := by
    obtain ⟨hlocal, hparent, hreturned, l, hlocked, hjoined⟩ := h
    cases use with
    | item =>
      obtain ⟨key, hkey⟩ := hlocked.pc_self
      have hsame := hjoined.pc_of_ne (show (t, Use.item) ≠ (t, Use.parent) by simp)
      cases (hkey.symm.trans hsame.symm).trans hspin
    | parent => exact ⟨hlocal, hparent, hreturned, l, hlocked, hjoined.check hlock⟩
  generalize σ.pc t = pc at h ⊢
  cases h with
  | spinning hlocal hreturned hspinning hsame =>
    obtain ⟨key, -, -, hpc⟩ := hspinning
    rw [hpc] at hspin
    cases use with
    | item =>
      rw [Function.update_self] at hspin
      cases hspin
    | parent =>
      rw [Function.update_of_ne (by simp), hout.2 .parent] at hspin
      cases hspin
  | entered hheld => exact (hheld.not_readSpin hout hspin).elim
  | began hheld => exact (hheld.not_readSpin hout hspin).elim
  | parent hreading hsame => exact .parent (hreads hreading) hsame
  | copied hreading hsame hread => exact .copied (hreads hreading) hsame hread
  | read hheld => exact (hheld.not_readSpin hout hspin).elim
  | extended hheld => exact (hheld.not_readSpin hout hspin).elim
  | logged hheld => exact (hheld.not_readSpin hout hspin).elim
  | updated hheld => exact (hheld.not_readSpin hout hspin).elim
  | created hheld => exact (hheld.not_readSpin hout hspin).elim
  | decided hheld => exact (hheld.not_readSpin hout hspin).elim
  | leaving hheld => exact (hheld.not_readSpin hout hspin).elim
  | idle hrestored =>
    rw [hrestored.pc, hout.2 use] at hspin
    cases hspin

/-- The thread goes on to a place. -/
theorem During.goto {places : T → Pc} {pc : Pc} (hpc : σ'.pc = Function.update places t pc)
    (h : During F s t call σ' pc) : During F s t call σ' (σ'.pc t) := by
  rw [hpc, Function.update_self]
  exact h

/-- The invariant of the call. -/
theorem During.step (hcreates : call.creates = true) (hout : s.Outside t)
    (h : During F s t call σ (σ.pc t)) (hstep : Step F σ (.step t) σ') :
    During F s t call σ' (σ'.pc t) := by
  cases hstep with
  | swap hlock => exact h.swap hout hlock
  | check hlock => exact h.check hout hlock
  | @body _ call' files result hpc hholds hbody =>
    rw [hpc] at h
    have hnone : σ.body F call = none := by
      cases call with
      | mknodcd path => rfl
      | mkdircd path => rfl
      | _ => cases hcreates
    cases h with
    | spinning => cases hnone.symm.trans hbody
    | entered => cases hnone.symm.trans hbody
  | @begin _ call' hpc _ hholds =>
    rw [hpc] at h
    refine During.goto rfl ?_
    cases h with
    | spinning hlocal hreturned hspinning hsame =>
      obtain ⟨key, -, -, hat⟩ := hspinning
      obtain ⟨a, ⟨key', hholds⟩ | hholds⟩ := hholds
      · rw [hat, Function.update_self] at hholds
        cases hholds
      · rw [hat, Function.update_self] at hholds
        cases hholds
    | entered hheld hsame => exact .began hheld hsame
  | @parentRemote _ call' tx hpc hremote =>
    rw [hpc] at h
    refine During.goto rfl ?_
    cases h with
    | began hheld hsame => exact .decided hheld fun _ ↦ Or.inl ⟨Or.inr (Or.inl hremote), hsame⟩
  | @parentLock _ call' tx lock hpc hlocal hlock =>
    rw [hpc] at h
    refine During.goto rfl ?_
    cases h with
    | began hheld hsame =>
      obtain ⟨hpath, hreturned, hlocked⟩ := hheld
      exact .parent ⟨hpath, hlocal, hreturned, σ.lock, hlocked,
        LockService.readLock_joined hlock⟩ hsame
  | @copy _ call' tx found hpc hholds hread =>
    rw [hpc] at h
    refine During.goto rfl ?_
    cases h with
    | parent hreading hsame =>
      exact .copied hreading hsame ((hsame.readDirectory _).symm.trans hread)
  | @parentUnlock _ call' tx found lock hpc hlock =>
    rw [hpc] at h
    refine During.goto rfl ?_
    cases h with
    | copied hreading hsame hread =>
      obtain ⟨hpath, hlocal, hreturned, l, hlocked, hjoined⟩ := hreading
      have hfree : l.pc (t, .parent) = .out :=
        (hlocked.pc_of_ne (by simp)).trans (hout.2 .parent)
      exact .read ⟨hpath, hreturned, (hjoined.readUnlock hfree hlock).locked hlocked⟩ hsame hlocal
        hread
  | @missing _ call' tx hpc =>
    rw [hpc] at h
    refine During.goto rfl ?_
    cases h with
    | read hheld hsame _ hread =>
      exact .decided hheld fun _ ↦ Or.inl ⟨Or.inr (Or.inr (Or.inl hread)), hsame⟩
  | @exist _ call' tx found entry hpc hlookup =>
    rw [hpc] at h
    refine During.goto rfl ?_
    cases h with
    | read hheld hsame _ hread =>
      exact .decided hheld fun _ ↦
        Or.inl ⟨Or.inr (Or.inr (Or.inr ⟨entry, (hsame.lookup _).symm.trans hlookup⟩)), hsame⟩
  | @extend _ call' tx found entry hpc hlookup _ _ hnames _ =>
    rw [hpc] at h
    refine During.goto rfl ?_
    cases h with
    | read hheld hsame hlocal hread =>
      exact .extended hheld hsame
        ⟨hheld.1, hlocal, hread, (hsame.lookup _).symm.trans hlookup, hnames⟩
  | @log _ call' tx found entry hpc =>
    rw [hpc] at h
    refine During.goto rfl ?_
    cases h with
    | extended hheld hsame hreaches => exact .logged hheld hsame hreaches
  | @update _ path tx found entry hpc =>
    rw [hpc] at h
    refine During.goto rfl ?_
    cases h with
    | logged hheld hsame hreaches =>
      exact .updated hheld hreaches hsame.1 hsame.2.1 <| congrArg (fun directories ↦
        { directories with
          items := Function.update directories.items found.index (found.parentMeta.add entry) })
        hsame.2.2
  | @keep _ path tx found entry hpc =>
    rw [hpc] at h
    refine During.goto rfl ?_
    cases h with
    | logged hheld hsame hreaches => exact .updated hheld hreaches hsame.1 hsame.2.1 hsame.2.2
  | @createDirectory _ path tx directories reply tuple hpc hcreate =>
    rw [hpc] at h
    refine During.goto rfl ?_
    cases h with
    | updated hheld hreaches htable hfiles hdirectories =>
      rw [hdirectories] at hcreate
      cases reply with
      | none =>
        have hentries := HashTable.sameEntries_of_eq htable
        exact .decided hheld fun _ ↦ Or.inr ⟨_, _, none, hreaches, hentries, hfiles, _, hcreate⟩
      | some index => exact .created hheld hreaches htable ⟨hfiles, _, hcreate⟩
  | @createFile _ path tx files reply time tuple hpc hcreate =>
    rw [hpc] at h
    refine During.goto rfl ?_
    cases h with
    | updated hheld hreaches htable hfiles hdirectories =>
      rw [hfiles] at hcreate
      cases reply with
      | none =>
        have hentries := HashTable.sameEntries_of_eq htable
        exact .decided hheld fun _ ↦
          Or.inr ⟨_, _, none, hreaches, hentries, hdirectories, _, hcreate⟩
      | some index => exact .created hheld hreaches htable ⟨hdirectories, _, hcreate⟩
  | @put _ call' tx index table result hpc hput =>
    rw [hpc] at h
    refine During.goto rfl ?_
    cases h with
    | @created _ found entry _ hheld hreaches htable hmade =>
      refine .decided hheld ?_
      rintro rfl
      rw [htable] at hput
      exact Or.inr ⟨found, entry, some index, hreaches, HashTable.putAt_false hput,
        hmade.of_tables rfl rfl⟩
  | @commit _ call' tx result hpc =>
    rw [hpc] at h
    refine During.goto rfl ?_
    cases h with
    | decided hheld houtcome =>
      exact .leaving hheld fun hresult ↦ (houtcome hresult).of_tables rfl rfl rfl
  | @leave _ call' tx result lock hpc hlock =>
    rw [hpc] at h
    refine During.goto rfl ?_
    cases h with
    | leaving hheld houtcome =>
      obtain ⟨-, hreturned, hlocked⟩ := hheld
      rw [FileSystem.leave, if_pos (Call.writes_of_creates hcreates)] at hlock
      exact .idle (hlocked.writeUnlock (hout.2 .item) hlock)
        (congrArg (· ++ [⟨call, tx, result⟩]) hreturned)
        fun hresult ↦ (houtcome hresult).of_tables rfl rfl rfl

/-! ### What a failed creation leaves behind -/

/-- A call that is over has given the locks back. -/
theorem During.of_run {s₁ : FileSystem T} (hcreates : call.creates = true) (hout : s.Outside t)
    (hstart : Step F s (.start t call) s₁)
    (hrun : Reachable s₁ (Step F) (fun _ e ↦ e = .step t) s') :
    During F s t call s' (s'.pc t) := by
  refine hrun.invariant (fun σ ↦ During F s t call σ (σ.pc t)) ?_ fun σ e σ' _ h he hstep ↦ ?_
  · cases hstart with
    | remote hidle hremote =>
      change During F s t call _ (s.pc t)
      rw [hidle]
      exact .idle ⟨rfl, rfl⟩ (Eq.refl (s.returned ++ [⟨call, none, false⟩]))
        fun _ ↦ Or.inl ⟨Or.inl ((F.admits_of_creates hcreates).symm.trans hremote), rfl, rfl, rfl⟩
    | start hidle hlocal hlock =>
      rw [F.admits_of_creates hcreates] at hlocal
      rw [enter, if_pos (Call.writes_of_creates hcreates)] at hlock
      have hsame : s.lock.Restored s.lock := ⟨rfl, rfl⟩
      exact During.goto rfl (.spinning hlocal rfl (hsame.writeLock hlock) ⟨rfl, rfl, rfl⟩)
  · subst he
    exact h.step hcreates hout hstep

/-- What is not rolled back: the item stays allocated, unless there was none, and `mkdircd` has
added the name to the parent's record. -/
def NotRolledBack (F : Config) (s s' : FileSystem T) : Call → Prop
  | .mkdircd path => s'.tableFileMeta = s.tableFileMeta ∧
    (s.tableDirectoryMeta.HeadFree → s.tableDirectoryMeta.Takes s'.tableDirectoryMeta ∧
      ∃ found entry, s.readDirectory F (getParentDirectory path) = some (some found) ∧
        (∀ name, getNameFromPath path = some name → entry.names = name) ∧
        s'.tableDirectoryMeta.items found.index = found.parentMeta.add entry)
  | _ => s'.tableDirectoryMeta = s.tableDirectoryMeta ∧
    (s.tableFileMeta.HeadFree → s.tableFileMeta.Takes s'.tableFileMeta)

omit [DecidableEq T] in
/-- The record of a directory that was found is in use. -/
theorem readDirectory_in_use {path : Path} {found : ParentMeta}
    (h : s.readDirectory F path = some (some found)) :
    s.tableDirectoryMeta.bitmapItems.bit found.index = true := by
  obtain ⟨entry, -, h⟩ := Option.bind_eq_some_iff.mp h
  split at h
  · next index =>
    obtain ⟨item, hget, h⟩ := Option.map_eq_some_iff.mp h
    obtain ⟨parentMeta, rfl, rfl⟩ := Option.map_eq_some_iff.mp h
    rw [Table.get] at hget
    split_ifs at hget with hlocked
    split at hget
    · next hbit =>
      rw [Bitmap.get] at hbit
      split_ifs at hbit with hrange
      exact Option.some.inj hbit
    · cases hget
  · cases h

omit [DecidableEq T] in
theorem Made.notRolledBack {found : ParentMeta} {entry : DirectoryMetaTuple} {reply : Option ℕ}
    (hmade : s.Made s' (s.writeParent found entry call) reply call)
    (hreaches : Reaches F s call found entry) : NotRolledBack F s s' call := by
  cases call with
  | mknodcd path =>
    obtain ⟨hdirectories, item, hcreate⟩ := hmade
    exact ⟨hdirectories, fun hfree ↦ (hfree.createItem hcreate).1⟩
  | mkdircd path =>
    obtain ⟨hfiles, item, hcreate⟩ := hmade
    refine ⟨hfiles, fun hfree ↦ ?_⟩
    have hwritten : (s.writeParent found entry (.mkdircd path)).HeadFree := hfree
    obtain ⟨htakes, hitems⟩ := hwritten.createItem hcreate
    refine ⟨htakes, found, entry, hreaches.readDirectory, hreaches.names, ?_⟩
    rw [hitems found.index (readDirectory_in_use hreaches.readDirectory)]
    exact Function.update_self _ _ _
  | _ => exact hmade.elim

/-- Six directories fill the hash table of the small server. -/
def sixDirectories : List (Event Unit) :=
  [97, 98, 99, 100, 101, 102].flatMap fun name ↦ callOf () (.mkdircd [slash, name]) 12

/-- The seventh directory of the small server fails, and the root directory lists it. -/
theorem exists_failed_directory :
    ∃ s₀ s s' : FileSystem Unit, rootServer Unit = some s₀ ∧
      Reachable s₀ (Step smallConfig) (fun _ _ ↦ True) s ∧
      Returns smallConfig s () (.mkdircd [slash, 103]) false s' ∧
      (s.tableDirectoryMeta.items 0).count = 6 ∧ (s'.tableDirectoryMeta.items 0).count = 7 := by
  have hrun : ((rootServer Unit).bind fun s₀ ↦
      (s₀.execAll smallConfig (fun _ _ ↦ true) sixDirectories).bind fun s ↦
        (s.exec smallConfig (.start () (.mkdircd [slash, 103]))).bind fun s₁ ↦
          (s₁.execAll smallConfig (fun _ e ↦ e.isStep) (List.replicate 12 (.step ()))).map
            fun s' ↦ (s.isIdle () && s.isOut () .item && s.isOut () .parent && s'.isIdle (),
              (s'.returned.map Returned.result).getLast?, (s.tableDirectoryMeta.items 0).count,
              (s'.tableDirectoryMeta.items 0).count)) = some (true, some false, 6, 7) := by
    decide +kernel
  obtain ⟨s₀, hroot, hrun⟩ := Option.bind_eq_some_iff.mp hrun
  obtain ⟨s, hsix, hrun⟩ := Option.bind_eq_some_iff.mp hrun
  obtain ⟨s₁, hexec, hrun⟩ := Option.bind_eq_some_iff.mp hrun
  obtain ⟨s', hlast, hrun⟩ := Option.map_eq_some_iff.mp hrun
  simp only [Prod.mk.injEq, Bool.and_eq_true] at hrun
  obtain ⟨⟨⟨⟨hbefore, hitem⟩, hparent⟩, hafter⟩, hresult, hsix', hseven⟩ := hrun
  have hout : s.Outside () := by
    refine ⟨idle_of_isIdle hbefore, fun use ↦ ?_⟩
    cases use with
    | item => exact out_of_isOut hitem
    | parent => exact out_of_isOut hparent
  have hidle := idle_of_isIdle hafter
  have hstart := step_of_exec hexec
  have hsteps : Reachable s₁ (Step smallConfig) (fun _ e ↦ e = .step ()) s' := by
    refine reachable_execAll (fun _ e htest ↦ ?_) Reachable.init hlast
    cases e with
    | start t call => cases htest
    | step t => rfl
  have hduring := During.of_run rfl hout hstart hsteps
  rw [hidle] at hduring
  cases hduring with
  | @idle tx result _ hreturned _ =>
    have hfalse : result = false := by
      rw [hreturned, List.map_append, List.map_singleton, List.getLast?_concat] at hresult
      exact Option.some.inj hresult
    exact ⟨s₀, s, s', hroot, reachable_execAll (fun _ _ _ ↦ trivial) Reachable.init hsix,
      ⟨hout, s₁, hstart, hsteps, hidle, tx, hfalse ▸ hreturned⟩, hsix', hseven⟩

/-- A creation that returns false has released the lock words. If it failed early, all tables are as
before. Otherwise nothing was rolled back. -/
theorem failed_create (hcreates : call.creates = true) (hreturns : Returns F s t call false s') :
    s.lock.Restored s'.lock ∧ (FailsEarly F s call → SameTables s s') ∧
      (¬ FailsEarly F s call →
        s.hashtable.SameEntries s'.hashtable ∧ NotRolledBack F s s' call) := by
  obtain ⟨hout, s₁, hstart, hrun, hidle, tx, hreturned⟩ := hreturns
  have hduring := During.of_run hcreates hout hstart hrun
  rw [hidle] at hduring
  cases hduring with
  | idle hrestored hdone houtcome =>
    have hresult := List.cons.inj (List.append_cancel_left (hdone.symm.trans hreturned))
    obtain ⟨-, -, hfalse⟩ := Returned.mk.inj hresult.1
    refine ⟨hrestored, fun hearly ↦ ?_, fun hlate ↦ ?_⟩
    · rcases houtcome hfalse with ⟨-, hsame⟩ | ⟨found, entry, reply, hreaches, -⟩
      · exact hsame
      · exact absurd hearly hreaches.not_failsEarly
    · rcases houtcome hfalse with ⟨hearly, -⟩ | ⟨found, entry, reply, hreaches, hentries, hmade⟩
      · exact absurd hearly hlate
      · exact ⟨hentries, hmade.notRolledBack hreaches⟩

/-- The seventh directory of the small server does not fail early, and its lock is released. -/
theorem failed_create_seventh :
    ∃ s s' : FileSystem Unit, Returns smallConfig s () (.mkdircd [slash, 103]) false s' ∧
      s.lock.Restored s'.lock ∧ ¬ FailsEarly smallConfig s (.mkdircd [slash, 103]) ∧
      s.hashtable.SameEntries s'.hashtable := by
  obtain ⟨s₀, s, s', -, -, hreturns, hsix, hseven⟩ := exists_failed_directory
  obtain ⟨hrestored, hearly, hlate⟩ := failed_create rfl hreturns
  have hnot : ¬ FailsEarly smallConfig s (.mkdircd [slash, 103]) := by
    intro h
    rw [(hearly h).2.2, hsix] at hseven
    cases hseven
  exact ⟨s, s', hreturns, hrestored, hnot, (hlate hnot).1⟩

/-- A creation that returns false may have changed the tables. -/
theorem failed_create_not_undone :
    ¬ ∀ (F : Config) (s₀ s s' : FileSystem Unit) (call : Call), call.creates = true →
      Reachable s₀ (Step F) (fun _ _ ↦ True) s → Returns F s () call false s' →
        SameTables s s' ∧ s.lock.Restored s'.lock := by
  intro h
  obtain ⟨s₀, s, s', -, hrun, hreturns, hsix, hseven⟩ := exists_failed_directory
  have hsame := (h smallConfig s₀ s s' _ rfl hrun hreturns).1
  rw [hsame.2.2, hsix] at hseven
  cases hseven

end FileSystem

end SwitchDelta.Fs
