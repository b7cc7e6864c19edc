import SwitchDelta.Fs.BlockTable
import SwitchDelta.Fs.ClientChunks
import SwitchDelta.Fs.Directories

/-!
# The mark of directories

`getattr` returns `MAX_FILE_EXTENT_COUNT` as the count of a directory, and `nrfsRead` and `nrfsWrite`
take a path with this count for a directory and return before they send anything. But a file with
blocks up to the last one has the same count.

`files_told` is for runs in which no update reaches the last block: there the mark is right, and the
first update that does reach it is the first one after which it is wrong.
`full_file_marked` is a run with one update, of the last block of a file.
-/

set_option autoImplicit false
set_option relaxedAutoImplicit false

namespace SwitchDelta.Fs

open Foundation

/-! ### The table of the files -/

namespace Table

variable {I : Type*} {t t' : Table I} {item : I}

/-- The mutex is not locked, the chain has no end, and its nodes are for indices of the table. -/
structure Endless (t : Table I) : Prop where
  unlocked : t.mutexBitmapItems = false
  head : t.headFreeBit ≠ none
  next : ∀ node bit, t.heap node = some bit →
    bit.position < t.bitmapItems.varCountTotal ∧ bit.nextFreeBit ≠ none

theorem Ring.endless (h : t.Ring) : t.Endless := by
  obtain ⟨node, hhead, -⟩ := h.head
  refine ⟨h.unlocked, hhead ▸ Option.some_ne_none node, fun node bit hbit ↦ ?_⟩
  obtain ⟨hposition, next, hnext, -⟩ := h.next node bit hbit
  exact ⟨hposition, hnext ▸ Option.some_ne_none next⟩

/-- A creation that returns has an index, which is in use afterwards. -/
theorem Endless.createItem (h : t.Endless) {reply : Option ℕ}
    (hcreate : t.createItem true (some item) = some (t', reply)) :
    ∃ index, reply = some index ∧ t'.Endless ∧ t'.items = Function.update t.items index item ∧
      t'.bitmapItems.varCountTotal = t.bitmapItems.varCountTotal ∧
      ∀ other, t'.InUse other ↔ other = index ∨ t.InUse other := by
  obtain ⟨node, hhead⟩ := Option.ne_none_iff_exists'.mp h.head
  rw [Table.createItem, h.unlocked, if_neg Bool.false_ne_true, hhead] at hcreate
  obtain ⟨bit, hbit, hcreate⟩ := Option.map_eq_some_iff.mp hcreate
  obtain ⟨hposition, hnext⟩ := h.next node bit hbit
  rw [if_pos (Bitmap.set_snd hposition)] at hcreate
  obtain ⟨rfl, rfl⟩ := Prod.mk.inj hcreate
  refine ⟨bit.position, rfl, ⟨rfl, hnext, fun other bit' hbit' ↦ ?_⟩, rfl,
    Bitmap.set_varCountTotal, fun other ↦ ?_⟩
  · dsimp only at hbit' ⊢
    rw [Bitmap.set_varCountTotal]
    by_cases heq : other = node
    · rw [heq, Function.update_self] at hbit'
      cases hbit'
    · rw [Function.update_of_ne heq] at hbit'
      exact h.next other bit' hbit'
  · rw [InUse, InUse]
    dsimp only
    rw [Bitmap.set_varCountTotal]
    rw [Bitmap.set_bit_iff, and_iff_right hposition]
    constructor
    · rintro ⟨hless, rfl | hbit⟩
      · exact Or.inl rfl
      · exact Or.inr ⟨hless, hbit⟩
    · rintro (rfl | ⟨hless, hbit⟩)
      · exact ⟨hposition, Or.inl rfl⟩
      · exact ⟨hless, Or.inr hbit⟩

end Table

namespace FileSystem

variable {T : Type}

/-! ### The count that `getattr` returns -/

/-- `FileSystem::getattr`, for what the memory of the attribute held before: the attribute and the
result. -/
def getattr (F : Config) (s : FileSystem T) (path : Path) (buffer : FileMeta) :
    Option (FileMeta × Bool) :=
  if F.checkLocal path then
    (s.lookup F path).bind fun
      | none => some (buffer, false)
      | some (_, true) => some ({ buffer with count := MAX_FILE_EXTENT_COUNT }, true)
      | some (index, false) =>
        (s.tableFileMeta.get index.toNat).map fun item ↦
          item.elim (buffer, false) fun m ↦ (m, true)
  else some (buffer, false)

end FileSystem

/-- `nrfsRead` returns before its loop. -/
def nrfsReadReturns (file_meta : FileMeta) : Prop := file_meta.count = MAX_FILE_EXTENT_COUNT

/-- `nrfsWrite` returns before its loop. -/
def nrfsWriteReturns (m : FileMeta) (size offset : UInt64) : Prop :=
  let file_meta := if Unaligned size offset then m else { m with count := 0 }
  file_meta.count = MAX_FILE_EXTENT_COUNT

namespace FileSystem

variable {T : Type} {F : Config} {m : Contents} {s s' : FileSystem T}

/-- The count that `getattr` returns for a path that exists is that of a directory exactly if the
path is one. -/
def Marked (F : Config) (s : FileSystem T) : Prop :=
  ∀ path buffer index isDirectory, F.checkLocal path = true →
    s.lookup F path = some (some (index, isDirectory)) →
    ∃ file_meta, s.getattr F path buffer = some (file_meta, true) ∧
      (file_meta.count = MAX_FILE_EXTENT_COUNT ↔ isDirectory = true)

/-- An update that `extentMetaWrite` refuses. -/
def Refused (u : MetaUpdateReq) : Prop := 0xFFFFFFFFFFFFFFFF - u.offset < u.size ∨ u.size = 0

/-- A thread is about to enter an update into the metadata of a file. -/
structure Updates (F : Config) (s : FileSystem T) (t : T) (u : MetaUpdateReq) : Prop where
  entered : s.pc t = .entered (.extentMetaWrite u)
  holds : s.Holds t .item
  file : ∃ index, s.lookup F u.path = some (some (index, false))
  accepted : ¬Refused u

/-- The blocks of the updates are in front of the last one that the metadata has room for. -/
def BeforeLast (F : Config) (s : FileSystem T) : Event T → Prop
  | .start _ _ => True
  | .step t => ∀ u, Updates F s t u →
      u.begin_id.toNat + u.fei.len.toNat < MAX_FILE_EXTENT_COUNT.toNat

/-- The blocks of the updates are those that the metadata has room for. -/
def WithinLast (F : Config) (s : FileSystem T) : Event T → Prop
  | .start _ _ => True
  | .step t => ∀ u, Updates F s t u →
      u.begin_id.toNat + u.fei.len.toNat ≤ MAX_FILE_EXTENT_COUNT.toNat

/-! ### The invariant -/

/-- Every file that is present is found in the table, and its count is below that of a directory. -/
structure Told (m : Contents) (s : FileSystem T) : Prop where
  hash : ∃ count chains, HashTable.Represents count s.hashtable m chains
  table : s.tableFileMeta.Endless
  total : s.tableFileMeta.bitmapItems.varCountTotal ≤ 2 ^ 31
  short : ∀ index, s.tableFileMeta.InUse index →
    (s.tableFileMeta.items index).count.toNat < MAX_FILE_EXTENT_COUNT.toNat
  stored : ∀ k index, m.lookup k = some (index, false) → s.tableFileMeta.InUse index.toNat
  created : ∀ t call tx index, s.pc t = .created call tx index →
    (call matches .mkdircd _) = false → s.tableFileMeta.InUse index

theorem Told.lookup_eq (h : Told m s) (path : Path) :
    s.lookup F path = some (m.lookup (F.sha256 path)) := by
  obtain ⟨count, chains, hrepresents⟩ := h.hash
  exact hrepresents.getAt_eq (F.sha256 path)

theorem Told.marked (h : Told m s) : Marked F s := by
  intro path buffer index isDirectory hlocal hlookup
  rw [getattr, if_pos hlocal, hlookup, Option.bind_some]
  cases isDirectory with
  | true => exact ⟨_, rfl, iff_of_true rfl rfl⟩
  | false =>
    have hfile := Option.some.inj ((h.lookup_eq path).symm.trans hlookup)
    have huse := h.stored _ _ hfile
    have hget := Table.get_of_inUse h.table.unlocked huse
    dsimp only
    rw [hget]
    refine ⟨_, rfl, iff_of_false (fun hcount ↦ ?_) Bool.false_ne_true⟩
    exact absurd (h.short _ huse) (hcount ▸ Nat.lt_irrefl _)

/-- An update in front of the last block keeps the count below that of a directory. -/
theorem count_extentMetaWrite {file_meta file_meta' : FileMeta} {u : MetaUpdateReq}
    (hcount : file_meta.count.toNat < MAX_FILE_EXTENT_COUNT.toNat)
    (hwrite : file_meta.extentMetaWrite u = some file_meta')
    (hless : ¬Refused u → u.begin_id.toNat + u.fei.len.toNat < MAX_FILE_EXTENT_COUNT.toNat) :
    file_meta'.count.toNat < MAX_FILE_EXTENT_COUNT.toNat := by
  rw [FileMeta.extentMetaWrite] at hwrite
  split_ifs at hwrite with hrefused
  obtain rfl := Option.some.inj hwrite
  rw [FileMeta.updated]
  dsimp only
  split_ifs with hmore
  · rw [UInt64.toNat_add]
    exact (Nat.mod_le _ _).trans_lt (hless hrefused)
  · exact hcount

/-- The count of a new file. -/
theorem new_count_lt : (0 : UInt64).toNat < MAX_FILE_EXTENT_COUNT.toNat := by decide

/-- What a call does to the table of the files. -/
theorem Told.body (h : Told m s) {call : Call} {files : Table FileMeta} {result : Bool}
    (hbody : s.body F call = some (files, result))
    (hless : ∀ u, call = .extentMetaWrite u →
      (∃ index, s.lookup F u.path = some (some (index, false))) → ¬Refused u →
      u.begin_id.toNat + u.fei.len.toNat < MAX_FILE_EXTENT_COUNT.toNat) :
    files.Endless ∧ files.bitmapItems = s.tableFileMeta.bitmapItems ∧
      ∀ index, s.tableFileMeta.InUse index →
        (files.items index).count.toNat < MAX_FILE_EXTENT_COUNT.toNat := by
  have hsame : files = s.tableFileMeta → files.Endless ∧
      files.bitmapItems = s.tableFileMeta.bitmapItems ∧ ∀ index, s.tableFileMeta.InUse index →
        (files.items index).count.toNat < MAX_FILE_EXTENT_COUNT.toNat := by
    rintro rfl
    exact ⟨h.table, rfl, h.short⟩
  cases call with
  | mknodcd path => cases hbody
  | mkdircd path => cases hbody
  | access path =>
    obtain ⟨found, -, heq⟩ := Option.map_eq_some_iff.mp hbody
    exact hsame (Prod.mk.inj heq).1.symm
  | getattr path =>
    obtain ⟨found, -, heq⟩ := Option.bind_eq_some_iff.mp hbody
    rcases found with _ | ⟨index, _ | _⟩
    · exact hsame (Prod.mk.inj (Option.some.inj heq)).1.symm
    · obtain ⟨item, -, heq⟩ := Option.map_eq_some_iff.mp heq
      exact hsame (Prod.mk.inj heq).1.symm
    · exact hsame (Prod.mk.inj (Option.some.inj heq)).1.symm
  | extentMetaWrite u =>
    obtain ⟨found, hfound, heq⟩ := Option.bind_eq_some_iff.mp hbody
    rcases found with _ | ⟨index, _ | _⟩
    · exact hsame (Prod.mk.inj (Option.some.inj heq)).1.symm
    · obtain ⟨item, hitem, heq⟩ := Option.bind_eq_some_iff.mp heq
      cases hwrite : item.bind fun file_meta ↦ file_meta.extentMetaWrite u with
      | none =>
        rw [hwrite] at heq
        exact hsame (Prod.mk.inj (Option.some.inj heq)).1.symm
      | some file_meta' =>
        rw [hwrite] at heq
        dsimp only at heq
        obtain ⟨file_meta, rfl, hupdate⟩ := Option.bind_eq_some_iff.mp hwrite
        obtain ⟨huse, rfl⟩ := Table.inUse_of_get hitem
        have hput := @Table.put_of_inUse _ _ _ file_meta' h.table.unlocked huse
        obtain ⟨written, hwritten, heq⟩ := Option.map_eq_some_iff.mp heq
        obtain rfl := Option.some.inj (hput.symm.trans hwritten)
        obtain ⟨rfl, -⟩ := Prod.mk.inj heq
        refine ⟨⟨h.table.unlocked, h.table.head, h.table.next⟩, rfl, fun other hother ↦ ?_⟩
        dsimp only
        by_cases heq : other = index.toNat
        · rw [heq, Function.update_self]
          exact count_extentMetaWrite (h.short _ huse) hupdate (hless u rfl ⟨index, hfound⟩)
        · rw [Function.update_of_ne heq]
          exact h.short other hother
    · exact hsame (Prod.mk.inj (Option.some.inj heq)).1.symm

/-! ### A step -/

section Steps

variable [DecidableEq T] {t : T} {pc : Pc}

/-- A thread goes on, and the files that are in the table stay there. -/
theorem Told.move (h : Told m s) (hhash : s'.hashtable = s.hashtable)
    (hpc : s'.pc = Function.update s.pc t pc) (htable : s'.tableFileMeta.Endless)
    (htotal : s'.tableFileMeta.bitmapItems.varCountTotal =
      s.tableFileMeta.bitmapItems.varCountTotal)
    (huse : ∀ index, s.tableFileMeta.InUse index → s'.tableFileMeta.InUse index)
    (hshort : ∀ index, s'.tableFileMeta.InUse index →
      (s'.tableFileMeta.items index).count.toNat < MAX_FILE_EXTENT_COUNT.toNat)
    (hcreated : ∀ call tx index, pc = .created call tx index →
      (call matches .mkdircd _) = false → s'.tableFileMeta.InUse index) : Told m s' := by
  refine ⟨hhash ▸ h.hash, htable, htotal.trans_le h.total, hshort,
    fun k index hk ↦ huse _ (h.stored k index hk), fun t' call tx index hcall hfile ↦ ?_⟩
  rw [hpc] at hcall
  by_cases ht : t' = t
  · rw [ht, Function.update_self] at hcall
    exact hcreated call tx index hcall hfile
  · rw [Function.update_of_ne ht] at hcall
    exact huse index (h.created t' call tx index hcall hfile)

/-- A thread goes on and leaves the tables alone. -/
theorem Told.goto (h : Told m s) (hhash : s'.hashtable = s.hashtable)
    (hfiles : s'.tableFileMeta = s.tableFileMeta) (hpc : s'.pc = Function.update s.pc t pc)
    (hcreated : ∀ call tx index, pc = .created call tx index →
      (call matches .mkdircd _) = false → s.tableFileMeta.InUse index) : Told m s' :=
  h.move hhash hpc (hfiles ▸ h.table) (hfiles ▸ rfl) (hfiles ▸ fun _ huse ↦ huse)
    (hfiles ▸ h.short) (hfiles ▸ hcreated)

omit [DecidableEq T] in
/-- Neither the tables nor the threads change. -/
theorem Told.same (h : Told m s) (hhash : s'.hashtable = s.hashtable)
    (hfiles : s'.tableFileMeta = s.tableFileMeta) (hpc : s'.pc = s.pc) : Told m s' :=
  ⟨hhash ▸ h.hash, hfiles ▸ h.table, hfiles ▸ h.total, hfiles ▸ h.short, hfiles ▸ h.stored,
    hfiles ▸ hpc ▸ h.created⟩

/-- `Table::create` for a new file. -/
theorem Told.createFile (h : Told m s) {path : Path} {tx : LocalTx} {files : Table FileMeta}
    {reply : Option ℕ} {time : ℤ} {tuple : ℕ → FileMetaTuple}
    (hcreate : s.tableFileMeta.createItem true (some ⟨time, 0, 0, tuple⟩) = some (files, reply)) :
    Told m { s.goto t (reply.elim (.decided (.mknodcd path) tx false)
      (.created (.mknodcd path) tx)) with tableFileMeta := files } := by
  obtain ⟨index, rfl, htable, hitems, htotal, huse⟩ := h.table.createItem hcreate
  refine h.move rfl rfl htable htotal (fun other hother ↦ (huse other).mpr (Or.inr hother))
    (fun other hother ↦ ?_) fun call tx' other heq _ ↦ ?_
  · dsimp only
    rw [hitems]
    by_cases heq : other = index
    · rw [heq, Function.update_self]
      exact new_count_lt
    · rw [Function.update_of_ne heq]
      exact h.short other (((huse other).mp hother).resolve_left heq)
  · obtain ⟨-, -, rfl⟩ := Pc.created.inj heq
    exact (huse index).mpr (Or.inl rfl)

/-- `HashTable::put` for a new path. -/
theorem Told.put (h : Told m s) {call : Call} {tx : LocalTx} {index : ℕ} {isDirectory : Bool}
    {table : HashTable} {result : Bool}
    (hput : s.hashtable.putAt (F.item call.path) (F.sha256 call.path) (UInt64.ofNat index)
      isDirectory = some (table, result))
    (hindex : isDirectory = false → s.tableFileMeta.InUse index) :
    ∃ m', Told m' { s.goto t (.decided call tx result) with hashtable := table } := by
  obtain ⟨count, chains, hrepresents⟩ := h.hash
  obtain ⟨table', chains', hput', hrepresents'⟩ :=
    hrepresents.putAt_eq (F.sha256 call.path) (UInt64.ofNat index, isDirectory)
  obtain ⟨rfl, -⟩ := Prod.mk.inj (Option.some.inj (hput'.symm.trans hput))
  refine ⟨_, ⟨count, chains', hrepresents'⟩, h.table, h.total, h.short, fun k other hk ↦ ?_,
    fun t' call' tx' other hcall hfile ↦ ?_⟩
  · rw [Contents.put] at hk
    split_ifs at hk with hroom
    · by_cases hsame : k = F.sha256 call.path
      · rw [hsame, Finmap.lookup_insert] at hk
        obtain ⟨rfl, hfile⟩ := Prod.mk.inj (Option.some.inj hk)
        have huse := hindex hfile
        have hless : index < 2 ^ 64 := huse.1.trans_le (h.total.trans (by norm_num))
        rw [UInt64.toNat_ofNat_of_lt' hless]
        exact huse
      · rw [Finmap.lookup_insert_of_ne _ hsame] at hk
        exact h.stored k other hk
    · exact h.stored k other hk
  · have hcall : Function.update s.pc t (.decided call tx result) t' = .created call' tx' other :=
      hcall
    by_cases ht : t' = t
    · rw [ht, Function.update_self] at hcall
      cases hcall
    · rw [Function.update_of_ne ht] at hcall
      exact h.created t' call' tx' other hcall hfile

/-- A step keeps the invariant. -/
theorem Told.step (h : Told m s) {e : Event T} (hok : BeforeLast F s e) (hstep : Step F s e s') :
    ∃ m', Told m' s' := by
  cases hstep with
  | remote hpc hremote => exact ⟨m, h.same rfl rfl rfl⟩
  | start hpc hlocal hlock => exact ⟨m, h.goto rfl rfl rfl nofun⟩
  | swap hlock => exact ⟨m, h.same rfl rfl rfl⟩
  | check hlock => exact ⟨m, h.same rfl rfl rfl⟩
  | @body t call files result hpc hholds hbody =>
    obtain ⟨htable, hbitmap, hshort⟩ := h.body hbody fun u hcall hfile haccepted ↦
      hok u ⟨hcall ▸ hpc, hholds, hfile, haccepted⟩
    have huse (index : ℕ) : files.InUse index ↔ s.tableFileMeta.InUse index := by
      rw [Table.InUse, hbitmap]
      rfl
    exact ⟨m, h.move rfl rfl htable (congrArg Bitmap.varCountTotal hbitmap) (fun index ↦ (huse index).mpr)
      (fun index hindex ↦ hshort index ((huse index).mp hindex)) nofun⟩
  | begin hpc hcreates hholds => exact ⟨m, h.goto rfl rfl rfl nofun⟩
  | parentRemote hpc hremote => exact ⟨m, h.goto rfl rfl rfl nofun⟩
  | parentLock hpc hlocal hlock => exact ⟨m, h.goto rfl rfl rfl nofun⟩
  | copy hpc hholds hread => exact ⟨m, h.goto rfl rfl rfl nofun⟩
  | parentUnlock hpc hlock => exact ⟨m, h.goto rfl rfl rfl nofun⟩
  | missing hpc => exact ⟨m, h.goto rfl rfl rfl nofun⟩
  | exist hpc hexists => exact ⟨m, h.goto rfl rfl rfl nofun⟩
  | extend hpc => exact ⟨m, h.goto rfl rfl rfl nofun⟩
  | log hpc => exact ⟨m, h.goto rfl rfl rfl nofun⟩
  | update hpc => exact ⟨m, h.goto rfl rfl rfl nofun⟩
  | keep hpc => exact ⟨m, h.goto rfl rfl rfl nofun⟩
  | @createDirectory t path tx directories reply tuple hpc hcreate =>
    refine ⟨m, h.goto rfl rfl rfl fun call tx' index heq hfile ↦ ?_⟩
    cases reply with
    | none => cases heq
    | some other =>
      obtain ⟨rfl, -, -⟩ := Pc.created.inj heq
      cases hfile
  | createFile time tuple hpc hcreate => exact ⟨m, h.createFile hcreate⟩
  | put hpc hput => exact h.put hput (h.created _ _ _ _ hpc)
  | commit hpc => exact ⟨m, h.goto rfl rfl rfl nofun⟩
  | leave hpc hlock => exact ⟨m, h.goto rfl rfl rfl nofun⟩

end Steps

/-! ### The runs -/

/-- A new server, with what `Storage` constructs over a buffer of zeros and what `rootInitialize` adds.
The constructor does not accept a table of no files. -/
structure Booted (F : Config) (s : FileSystem T) : Prop where
  tables : ∃ (count countFile size : ℕ) (items : ℕ → FileMeta) (nodes : ℕ → ℕ)
    (hashtable : HashTable) (files : Table FileMeta) (directories : Table DirectoryMeta)
    (tuple : ℕ → DirectoryMetaTuple),
    HashTable.construct HashTable.Buffer.zeroed count = some hashtable ∧
      0 < countFile ∧ countFile ≤ 2 ^ 31 ∧ Function.Injective nodes ∧
      Table.construct countFile size (fun _ ↦ 0) items nodes = some files ∧
      (init hashtable files directories).rootInitialize F tuple = some s

theorem Booted.told (h : Booted F s) : ∃ m, Told m s := by
  obtain ⟨count, countFile, size, items, nodes, hashtable, files, directories, tuple, hhash, hpos,
    hbound, hnodes, htable, hinit⟩ := h.tables
  have hconstructed := Table.construct_constructed hbound hnodes htable
  have hempty (hashtable' : HashTable) (m : Contents) (directories' : Table DirectoryMeta)
      (hrepresents : ∃ count chains, HashTable.Represents count hashtable' m chains)
      (hdirectory : ∀ k index, m.lookup k ≠ some (index, false)) :
      Told m (init hashtable' files directories' : FileSystem T) := by
    refine ⟨hrepresents, (Table.construct_ring hpos hbound htable).endless,
      hconstructed.total.trans_le hbound, fun index huse ↦ ?_,
      fun k index hk ↦ absurd hk (hdirectory k index), fun _ _ _ _ hpc ↦ by cases hpc⟩
    exact absurd ((hconstructed.clear index).symm.trans huse.2) Bool.false_ne_true
  have hnew := HashTable.construct_represents hhash
  rw [rootInitialize] at hinit
  split_ifs at hinit with hlocal
  · obtain ⟨⟨directories', reply⟩, -, hinit⟩ := Option.bind_eq_some_iff.mp hinit
    obtain ⟨index, -, hinit⟩ := Option.bind_eq_some_iff.mp hinit
    obtain ⟨⟨table, result⟩, hput, hinit⟩ := Option.bind_eq_some_iff.mp hinit
    split_ifs at hinit with hresult
    obtain rfl := Option.some.inj hinit
    obtain ⟨table', chains', hput', hrepresents'⟩ :=
      hnew.putAt_eq (F.sha256 [slash]) (UInt64.ofNat index, true)
    obtain ⟨rfl, -⟩ := Prod.mk.inj (Option.some.inj (hput'.symm.trans hput))
    refine ⟨_, hempty _ _ _ ⟨count, chains', hrepresents'⟩ fun k other hk ↦ ?_⟩
    rw [Contents.put] at hk
    split_ifs at hk
    · by_cases hsame : k = F.sha256 [slash]
      · rw [hsame, Finmap.lookup_insert] at hk
        cases hk
      · rw [Finmap.lookup_insert_of_ne _ hsame] at hk
        cases hk
    · cases hk
  · obtain rfl := Option.some.inj hinit
    exact ⟨∅, hempty _ _ _ ⟨count, _, hnew⟩ fun _ _ hk ↦ by cases hk⟩

/-- An update up to the last block gives a file the count of a directory. -/
theorem Told.last [DecidableEq T] {t : T} {u : MetaUpdateReq} (h : Told m s) (hupdate : Updates F s t u)
    (hlocal : F.checkLocal u.path = true)
    (hlast : u.begin_id.toNat + u.fei.len.toNat = MAX_FILE_EXTENT_COUNT.toNat) :
    ∃ s', Step F s (.step t) s' ∧ ¬Marked F s' := by
  obtain ⟨index, hlookup⟩ := hupdate.file
  have hstored := Option.some.inj ((h.lookup_eq u.path).symm.trans hlookup)
  have huse := h.stored _ _ hstored
  set item := s.tableFileMeta.items index.toNat with hitem
  have hget : s.tableFileMeta.get index.toNat = some (some item) :=
    Table.get_of_inUse h.table.unlocked huse
  obtain ⟨files, hput, hread⟩ :=
    @Table.get_of_put _ _ _ (item.updated u) h.table.unlocked huse
  have hwrite : item.extentMetaWrite u = some (item.updated u) := if_neg hupdate.accepted
  have hbody : s.body F (.extentMetaWrite u) = some (files, true) := by
    change (s.lookup F u.path).bind _ = _
    rw [hlookup, Option.bind_some]
    dsimp only
    rw [hget, Option.bind_some, Option.bind_some, hwrite]
    dsimp only
    rw [hput, Option.map_some]
  have hcount : (item.updated u).count = MAX_FILE_EXTENT_COUNT := by
    have hmax : MAX_FILE_EXTENT_COUNT.toNat = 64 := rfl
    have hend : (u.begin_id + u.fei.len).toNat = MAX_FILE_EXTENT_COUNT.toNat := by
      rw [UInt64.toNat_add, hlast, hmax]
    have hgrows : item.count < u.begin_id + u.fei.len := by
      rw [UInt64.lt_iff_toNat_lt, hend]
      exact h.short _ huse
    rw [FileMeta.updated]
    dsimp only
    rw [if_pos hgrows]
    exact UInt64.toNat_inj.mp hend
  refine ⟨_, Step.body hupdate.entered hupdate.holds hbody, fun hmarked ↦ ?_⟩
  obtain ⟨file_meta, hfound, hiff⟩ := hmarked u.path item index false hlocal hlookup
  have hattribute : getattr F { s.goto t (.leaving (.extentMetaWrite u) none true) with
      tableFileMeta := files } u.path item = some (item.updated u, true) := by
    rw [getattr, if_pos hlocal]
    change (s.lookup F u.path).bind _ = _
    rw [hlookup, Option.bind_some]
    dsimp only
    rw [hread]
    rfl
  obtain ⟨rfl, -⟩ := Prod.mk.inj (Option.some.inj (hattribute.symm.trans hfound))
  exact Bool.false_ne_true (hiff.mp hcount)

/-- `nrfsWrite` does not return early where it does not read the metadata. -/
theorem count_of_nrfsWriteReturns {file_meta : FileMeta} {size offset : UInt64}
    (h : nrfsWriteReturns file_meta size offset) : file_meta.count = MAX_FILE_EXTENT_COUNT := by
  rw [nrfsWriteReturns] at h
  split_ifs at h with hunaligned
  · exact h
  · have hzero : (0 : UInt64) ≠ MAX_FILE_EXTENT_COUNT := by decide
    exact absurd h hzero

/-- As long as the updates stay in front of the last block that the metadata has room for, the count
that `getattr` returns for a path that exists is that of a directory exactly if the path is one, and
`nrfsRead` and `nrfsWrite` return early only for directories. An update up to the last block ends
this. -/
theorem files_told [DecidableEq T] {s₀ : FileSystem T} (hboot : Booted F s₀)
    (hrun : Reachable s₀ (Step F) (BeforeLast F) s) :
    Marked F s ∧
    (∀ path buffer index isDirectory file_meta size offset, F.checkLocal path = true →
      s.lookup F path = some (some (index, isDirectory)) →
      s.getattr F path buffer = some (file_meta, true) →
      (nrfsReadReturns file_meta ↔ isDirectory = true) ∧
        (nrfsWriteReturns file_meta size offset → isDirectory = true)) ∧
    ∀ t u, Updates F s t u → F.checkLocal u.path = true →
      u.begin_id.toNat + u.fei.len.toNat = MAX_FILE_EXTENT_COUNT.toNat →
      ∃ s', Step F s (.step t) s' ∧ ¬Marked F s' := by
  obtain ⟨m, hm⟩ : ∃ m, Told m s := hrun.invariant (fun s ↦ ∃ m, Told m s) hboot.told
    fun _ _ _ _ ⟨_, hm⟩ hok hstep ↦ hm.step hok hstep
  refine ⟨hm.marked, fun path buffer index isDirectory file_meta size offset hlocal hlookup hget ↦ ?_,
    fun t u hupdate hlocal hlast ↦ hm.last hupdate hlocal hlast⟩
  obtain ⟨file_meta', hget', hiff⟩ := hm.marked path buffer index isDirectory hlocal hlookup
  obtain ⟨rfl, -⟩ := Prod.mk.inj (Option.some.inj (hget'.symm.trans hget))
  exact ⟨hiff, fun hreturns ↦ hiff.mp (count_of_nrfsWriteReturns hreturns)⟩

/-! ### Runs of the small server -/

/-- The blocks of the updates end at a block. -/
def endsBy (last : ℕ) (s : FileSystem T) : Event T → Bool
  | .start _ _ => true
  | .step t =>
    match s.pc t with
    | .entered (.extentMetaWrite u) => decide (u.begin_id.toNat + u.fei.len.toNat ≤ last)
    | _ => true

theorem le_of_endsBy {last : ℕ} {t : T} {u : MetaUpdateReq} (h : endsBy last s (.step t) = true)
    (hupdate : Updates F s t u) : u.begin_id.toNat + u.fei.len.toNat ≤ last := by
  rw [endsBy, hupdate.entered] at h
  exact of_decide_eq_true h

/-- The update of one block, with the data block zero. -/
def blockUpdate (path : Path) (block : UInt64) : MetaUpdateReq where
  fei := ⟨0, 1, fun _ ↦ 0⟩
  path := path
  size := BLOCK_SIZE
  offset := block * BLOCK_SIZE

/-- A file is made, and one of its blocks is written. -/
def fileOf (block : UInt64) : List (Event Unit) :=
  callOf () (.mknodcd [slash, 97]) 12 ++ callOf () (.extentMetaWrite (blockUpdate [slash, 97] block)) 3

/-- A file whose last block but one is written is told from a directory. -/
theorem files_told_sixty_three : ∃ s₀ s : FileSystem Unit, rootServer Unit = some s₀ ∧
    s.lookup smallConfig [slash, 97] = some (some (0, false)) ∧
    s.lookup smallConfig [slash] = some (some (0, true)) ∧ Marked smallConfig s := by
  have hrun : ((rootServer Unit).bind fun s₀ ↦
      (s₀.execAll smallConfig (endsBy 63) (fileOf 62)).map fun s ↦
        (s.lookup smallConfig [slash, 97], s.lookup smallConfig [slash])) =
      some (some (some (0, false)), some (some (0, true))) := by
    decide +kernel
  obtain ⟨s₀, hroot, hrun⟩ := Option.bind_eq_some_iff.mp hrun
  obtain ⟨s, hexec, hresult⟩ := Option.map_eq_some_iff.mp hrun
  obtain ⟨hfile, hdirectory⟩ := Prod.mk.inj hresult
  have hboot : Booted smallConfig s₀ := by
    have hbuilt := hroot
    rw [rootServer] at hbuilt
    obtain ⟨hashtable, hhash, hbuilt⟩ := Option.bind_eq_some_iff.mp hbuilt
    obtain ⟨files, hfiles, hbuilt⟩ := Option.bind_eq_some_iff.mp hbuilt
    obtain ⟨directories, -, hbuilt⟩ := Option.bind_eq_some_iff.mp hbuilt
    exact ⟨8, 8, 1, _, _, hashtable, files, directories, _, hhash, by decide, by decide,
      Nat.succ_injective, hfiles, hbuilt⟩
  have hreach : Reachable s₀ (Step smallConfig) (BeforeLast smallConfig) s := by
    refine reachable_execAll (fun s e htest ↦ ?_) Reachable.init hexec
    cases e with
    | start t call => trivial
    | step t => exact fun u hupdate ↦ Nat.lt_succ_of_le (le_of_endsBy htest hupdate)
  exact ⟨s₀, s, hroot, hfile, hdirectory, (files_told hboot hreach).1⟩

/-- A file whose last block is written is taken for a directory. -/
theorem full_file_marked : ∃ s₀ s : FileSystem Unit, rootServer Unit = some s₀ ∧
    Reachable s₀ (Step smallConfig) (WithinLast smallConfig) s ∧ (s.pc () matches .idle) = true ∧
    s.lookup smallConfig [slash, 97] = some (some (0, false)) ∧
    ∃ file_meta, s.getattr smallConfig [slash, 97] ⟨0, 0, 0, fun _ ↦ ⟨0, 0⟩⟩ = some (file_meta, true) ∧
      file_meta.count = MAX_FILE_EXTENT_COUNT ∧ nrfsReadReturns file_meta ∧
      nrfsWriteReturns file_meta 1 0 := by
  have hrun : ((rootServer Unit).bind fun s₀ ↦
      (s₀.execAll smallConfig (endsBy 64) (fileOf 63)).bind fun s ↦
        (s.getattr smallConfig [slash, 97] ⟨0, 0, 0, fun _ ↦ ⟨0, 0⟩⟩).map fun reply ↦
          ((s.pc () matches .idle, s.lookup smallConfig [slash, 97]),
            (reply.1.count, reply.2))) =
      some ((true, some (some (0, false))), (MAX_FILE_EXTENT_COUNT, true)) := by
    decide +kernel
  obtain ⟨s₀, hroot, hrun⟩ := Option.bind_eq_some_iff.mp hrun
  obtain ⟨s, hexec, hrun⟩ := Option.bind_eq_some_iff.mp hrun
  obtain ⟨⟨file_meta, result⟩, hget, hresult⟩ := Option.map_eq_some_iff.mp hrun
  simp only [Prod.mk.injEq] at hresult
  obtain ⟨⟨hidle, hlookup⟩, hcount, rfl⟩ := hresult
  have hreach : Reachable s₀ (Step smallConfig) (WithinLast smallConfig) s := by
    refine reachable_execAll (fun s e htest ↦ ?_) Reachable.init hexec
    cases e with
    | start t call => trivial
    | step t => exact fun u hupdate ↦ le_of_endsBy htest hupdate
  have hunaligned : Unaligned 1 0 := by decide
  refine ⟨s₀, s, hroot, hreach, hidle, hlookup, file_meta, hget, hcount, hcount, ?_⟩
  rw [nrfsWriteReturns, if_pos hunaligned]
  exact hcount

end FileSystem

end SwitchDelta.Fs
