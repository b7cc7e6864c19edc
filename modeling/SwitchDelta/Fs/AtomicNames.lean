import SwitchDelta.Foundation.AtomicObject
import SwitchDelta.Fs.Deadlock
import SwitchDelta.Fs.Namespace

/-!
# The names as an atomic object

The calls of the file system run at the same time. What they do to the set of paths is the same as if
each of them did it at once, at some moment between its start and its return: a creation makes a path
that is not there under a directory that is, or refuses, and the others report what is there.

This rests on the lock of the path's hash item, which a creation holds from before it looks for the path
until after it has put it, and on the order in which the parent and the path are looked at: a directory
that is there stays there. It does not rest on the records of the directories, which the calls do lose
entries of.
-/

set_option autoImplicit false
set_option relaxedAutoImplicit false

namespace SwitchDelta.Fs

open Foundation

/-! ### The object -/

/-- The paths that exist, each with the mark of a directory, and the number of entries that the hash
table still has room for. -/
structure NameTable where
  kind : Path → Option Bool
  room : ℕ

/-- What a call creates is a directory. -/
def Call.isDirectory (call : Call) : Bool := call matches .mkdircd _

/-- An update that is not refused whatever the file is like. -/
def MetaUpdateReq.InRange (u : MetaUpdateReq) : Prop :=
  ¬(0xFFFFFFFFFFFFFFFF - u.offset < u.size ∨ u.size = 0)

instance (u : MetaUpdateReq) : Decidable u.InRange := inferInstanceAs (Decidable (¬_))

/-- What a call does to the names. -/
inductive NameEffect (F : Config) : NameTable → Call → Bool → NameTable → Prop
  | remote {n : NameTable} {call : Call} : F.admits call = false →
      NameEffect F n call false n
  | create {n : NameTable} {call : Call} {room : ℕ} : call.creates = true →
      F.checkLocal call.path = true → n.kind call.path = none →
      n.kind (getParentDirectory call.path) = some true → n.room = room + 1 →
      NameEffect F n call true ⟨Function.update n.kind call.path (some call.isDirectory), room⟩
  | refuse {n : NameTable} {call : Call} : call.creates = true →
      F.checkLocal (getParentDirectory call.path) = false ∨
        n.kind (getParentDirectory call.path) ≠ some true ∨ n.kind call.path ≠ none ∨ n.room = 0 →
      NameEffect F n call false n
  | access {n : NameTable} (path : Path) : NameEffect F n (.access path) (n.kind path).isSome n
  | getattr {n : NameTable} (path : Path) : NameEffect F n (.getattr path) (n.kind path).isSome n
  | extentMetaWrite {n : NameTable} (u : MetaUpdateReq) :
      NameEffect F n (.extentMetaWrite u) (n.kind u.path == some false && decide u.InRange) n

/-- The names as an object. -/
def nameService (F : Config) : AtomicObject NameTable Call Bool := ⟨NameEffect F⟩

/-- The creation of a thread that has found no entry for its path and has not put one yet. -/
def Pc.absent : Pc → Option Call
  | .extended call _ _ _ => some call
  | .logged call _ _ _ => some call
  | .updated call _ => some call
  | .created call _ _ => some call
  | _ => none

namespace FileSystem

variable {T : Type}

/-- Where a thread is in its call: the call has had its effect when it has decided, or when it has found
no directory to put its path into. -/
def progressOf : Pc → Progress Call Bool
  | .idle => .idle
  | .entered call => .called call
  | .began call _ => .called call
  | .parent call _ => .called call
  | .copied call _ found => if found.isSome then .called call else .done call false
  | .read call _ found => if found.isSome then .called call else .done call false
  | .extended call _ _ _ => .called call
  | .logged call _ _ _ => .called call
  | .updated call _ => .called call
  | .created call _ _ => .called call
  | .decided call _ result => .done call result
  | .leaving call _ result => .done call result

/-- What is seen of a step: the start of a call and its return. A call for another node returns at
once. -/
def observe (F : Config) (s : FileSystem T) :
    Event T → FileSystem T → List (Observation T Call Bool)
  | .start t call, _ =>
    if F.admits call then [.invoke t call]
    else [.invoke t call, .respond t call false]
  | .step t, s' =>
    match s.pc t, s'.pc t with
    | .leaving call _ result, .idle => [.respond t call result]
    | _, _ => []

/-! ### The invariant -/

/-- The bitmap of the directories or of the files. -/
def bitmap (s : FileSystem T) : Bool → Bitmap
  | true => s.tableDirectoryMeta.bitmapItems
  | false => s.tableFileMeta.bitmapItems

/-- A record is in use. -/
def InUse (s : FileSystem T) (isDirectory : Bool) (index : ℕ) : Prop :=
  index < (s.bitmap isDirectory).varCountTotal ∧ (s.bitmap isDirectory).bit index = true

/-- A record is free. -/
def Free (s : FileSystem T) (isDirectory : Bool) (index : ℕ) : Prop :=
  index < (s.bitmap isDirectory).varCountTotal ∧ (s.bitmap isDirectory).bit index = false

/-- The tables are in order. -/
structure Ordered (s : FileSystem T) : Prop where
  files : ∃ chain, s.tableFileMeta.Chained chain
  directories : ∃ chain, s.tableDirectoryMeta.Chained chain
  total : ∀ isDirectory, (s.bitmap isDirectory).varCountTotal ≤ 2 ^ 31

variable (F : Config) (P : Set Path) (m : Contents)

/-- A path of a call and that of its parent directory are among those that the hash tells apart. -/
def Among (call : Call) : Prop := call.path ∈ P ∧ getParentDirectory call.path ∈ P

/-- The parent directory of a path is there. -/
def HasParent (path : Path) : Prop :=
  ∃ i, m.lookup (F.sha256 (getParentDirectory path)) = some (i, true)

/-- A creation has found its parent directory, and no path. -/
def Absent (call : Call) : Prop :=
  Among P call ∧ call.creates = true ∧ HasParent F m call.path ∧
    m.lookup (F.sha256 call.path) = none

/-- What a thread knows. -/
def Knows (s : FileSystem T) : Pc → Prop
  | .idle => True
  | .entered call => Among P call
  | .began call _ => Among P call ∧ call.creates = true
  | .parent call _ => Among P call ∧ call.creates = true
  | .copied call _ found => Among P call ∧ call.creates = true ∧
      (found.isSome = true → HasParent F m call.path)
  | .read call _ found => Among P call ∧ call.creates = true ∧
      (found.isSome = true → HasParent F m call.path)
  | .extended call _ _ _ => Absent F P m call
  | .logged call _ _ _ => Absent F P m call
  | .updated call _ => Absent F P m call
  | .created call _ index => Absent F P m call ∧ s.InUse call.isDirectory index ∧
      ∀ k e, m.lookup k = some e → e.2 = call.isDirectory → e.1.toNat ≠ index
  | .decided call _ _ => Among P call
  | .leaving call _ _ => Among P call

/-- The entries of the hash table refer to records in use, each to one of its own, and a record that a
thread has created and not put yet is no one else's. -/
structure Indexed (s : FileSystem T) : Prop where
  hash : ∃ count chains, HashTable.Represents count s.hashtable m chains
  ordered : s.Ordered
  used : ∀ k e, m.lookup k = some e → s.InUse e.2 e.1.toNat
  distinct : ∀ k k' e e', m.lookup k = some e → m.lookup k' = some e' → e.2 = e'.2 →
    e.1.toNat = e'.1.toNat → k = k'
  knows : ∀ t, Knows F P m s (s.pc t)
  fresh : ∀ t t' call call' tx tx' index, s.pc t = .created call tx index →
    s.pc t' = .created call' tx' index → call.isDirectory = call'.isDirectory → t = t'

/-- What the callers and the sizes of the tables have to see to: the hash tells the paths of the calls
and those of their parents apart, and a creation finds a free record. -/
def Sound (s : FileSystem T) : Event T → Prop
  | .start _ call => Among P call
  | .step t =>
    match s.pc t with
    | .updated call _ => ∃ index, s.Free call.isDirectory index
    | _ => True

variable {F P m} {s s' : FileSystem T} {t : T} {pc : Pc} {call : Call} {tx : LocalTx} {index : ℕ}

/-! ### Steps that keep the tables -/

/-- A step changes neither the hash table nor which records are in use. -/
structure AlikeTables (s s' : FileSystem T) : Prop where
  hash : s'.hashtable = s.hashtable
  bitmap : s'.bitmap = s.bitmap
  ordered : s.Ordered → s'.Ordered

theorem AlikeTables.of_eq (hhash : s'.hashtable = s.hashtable)
    (hfiles : s'.tableFileMeta = s.tableFileMeta)
    (hdirectories : s'.tableDirectoryMeta = s.tableDirectoryMeta) : AlikeTables s s' := by
  have hbitmap : s'.bitmap = s.bitmap := by
    funext isDirectory
    cases isDirectory
    · exact congrArg Table.bitmapItems hfiles
    · exact congrArg Table.bitmapItems hdirectories
  exact ⟨hhash, hbitmap, fun h ↦ ⟨hfiles ▸ h.files, hdirectories ▸ h.directories, hbitmap ▸ h.total⟩⟩

theorem AlikeTables.inUse (h : AlikeTables s s') (isDirectory : Bool) (index : ℕ) :
    s'.InUse isDirectory index ↔ s.InUse isDirectory index := by
  rw [InUse, InUse, h.bitmap]

theorem AlikeTables.knows (h : AlikeTables s s') (hknows : Knows F P m s pc) : Knows F P m s' pc := by
  cases pc with
  | created call tx index => exact ⟨hknows.1, (h.inUse _ _).mpr hknows.2.1, hknows.2.2⟩
  | _ => exact hknows

theorem Indexed.lookup_eq (h : Indexed F P m s) (path : Path) :
    s.lookup F path = some (m.lookup (F.sha256 path)) := by
  obtain ⟨count, chains, hrepresents⟩ := h.hash
  exact hrepresents.getAt_eq (F.sha256 path)

/-- The record of an entry is found. -/
theorem Indexed.get_file (h : Indexed F P m s) {k : UniqueHash} {i : UInt64}
    (hlookup : m.lookup k = some (i, false)) :
    s.tableFileMeta.get i.toNat = some (some (s.tableFileMeta.items i.toNat)) ∧
      s.tableFileMeta.InUse i.toNat ∧ s.tableFileMeta.mutexBitmapItems = false := by
  obtain ⟨chain, hchain⟩ := h.ordered.files
  have hused : s.tableFileMeta.InUse i.toNat := h.used _ _ hlookup
  exact ⟨Table.get_of_inUse hchain.unlocked hused, hused, hchain.unlocked⟩

theorem Indexed.get_directory (h : Indexed F P m s) {k : UniqueHash} {i : UInt64}
    (hlookup : m.lookup k = some (i, true)) :
    s.tableDirectoryMeta.get i.toNat = some (some (s.tableDirectoryMeta.items i.toNat)) := by
  obtain ⟨chain, hchain⟩ := h.ordered.directories
  exact Table.get_of_inUse hchain.unlocked (h.used _ _ hlookup)

variable [DecidableEq T]

/-- A thread goes on while the tables stay as they are. -/
theorem Indexed.goto (h : Indexed F P m s) (hsame : AlikeTables s s')
    (hpc : s'.pc = Function.update s.pc t pc) (hknows : Knows F P m s pc)
    (hcreated : ∀ call tx index, pc = .created call tx index → s.pc t = pc) :
    Indexed F P m s' := by
  have hback (t' : T) (call : Call) (tx : LocalTx) (index : ℕ)
      (hcreated' : s'.pc t' = .created call tx index) : s.pc t' = .created call tx index := by
    rw [hpc] at hcreated'
    by_cases ht : t' = t
    · rw [ht, Function.update_self] at hcreated'
      rw [ht, hcreated call tx index hcreated', hcreated']
    · rwa [Function.update_of_ne ht] at hcreated'
  refine ⟨hsame.hash ▸ h.hash, hsame.ordered h.ordered,
    fun k e he ↦ (hsame.inUse _ _).mpr (h.used k e he), h.distinct, fun t' ↦ ?_,
    fun t₁ t₂ c₁ c₂ tx₁ tx₂ index h₁ h₂ ↦
      h.fresh t₁ t₂ c₁ c₂ tx₁ tx₂ index (hback _ _ _ _ h₁) (hback _ _ _ _ h₂)⟩
  refine hsame.knows ?_
  rw [hpc]
  by_cases ht : t' = t
  · rw [ht, Function.update_self]
    exact hknows
  · rw [Function.update_of_ne ht]
    exact h.knows t'

/-! ### A new record -/

/-- A step takes a free record of one of the tables. -/
structure Takes (isDirectory : Bool) (index : ℕ) (s s' : FileSystem T) : Prop where
  hash : s'.hashtable = s.hashtable
  free : s.Free isDirectory index
  bitmap : s'.bitmap = Function.update s.bitmap isDirectory ((s.bitmap isDirectory).set index).1
  ordered : s'.Ordered

omit [DecidableEq T] in
theorem Takes.inUse (h : Takes call.isDirectory index s s') (isDirectory : Bool) (other : ℕ) :
    s'.InUse isDirectory other ↔
      s.InUse isDirectory other ∨ isDirectory = call.isDirectory ∧ other = index := by
  rw [InUse, InUse, h.bitmap]
  by_cases hsame : isDirectory = call.isDirectory
  · obtain ⟨-, hbits, -, htotal⟩ := Bitmap.set_of_clear h.free.1 h.free.2
    rw [hsame, Function.update_self, htotal, hbits, and_iff_right rfl]
    constructor
    · rintro ⟨hbound, rfl | hset⟩
      · exact Or.inr rfl
      · exact Or.inl ⟨hbound, hset⟩
    · rintro (⟨hbound, hset⟩ | rfl)
      · exact ⟨hbound, Or.inr hset⟩
      · exact ⟨h.free.1, Or.inl rfl⟩
  · rw [Function.update_of_ne hsame, or_iff_left fun hboth ↦ hsame hboth.1]

omit [DecidableEq T] in
/-- The record is not in use before. -/
theorem Takes.not_inUse (h : Takes call.isDirectory index s s') :
    ¬s.InUse call.isDirectory index := fun hused ↦
  Bool.false_ne_true (h.free.2.symm.trans hused.2)

omit [DecidableEq T] in
theorem Takes.knows (h : Takes call.isDirectory index s s') (hknows : Knows F P m s pc) :
    Knows F P m s' pc := by
  cases pc with
  | created call tx other =>
    exact ⟨hknows.1, (h.inUse _ _).mpr (Or.inl hknows.2.1), hknows.2.2⟩
  | _ => exact hknows

omit [DecidableEq T] in
/-- The item is marked and the table keeps its order. -/
theorem takes_of_set {isDirectory : Bool} (hordered : s.Ordered) (hhash : s'.hashtable = s.hashtable)
    (hfree : s.Free isDirectory index)
    (hbitmap : s'.bitmap =
      Function.update s.bitmap isDirectory ((s.bitmap isDirectory).set index).1)
    (hfiles : ∃ chain, s'.tableFileMeta.Chained chain)
    (hdirectories : ∃ chain, s'.tableDirectoryMeta.Chained chain) :
    Takes isDirectory index s s' := by
  refine ⟨hhash, hfree, hbitmap, hfiles, hdirectories, fun table ↦ ?_⟩
  rw [hbitmap]
  by_cases htable : table = isDirectory
  · subst htable
    rw [Function.update_self]
    exact (Bitmap.set_varCountTotal ..).trans_le (hordered.total table)
  · rw [Function.update_of_ne htable]
    exact hordered.total table

omit [DecidableEq T] in
/-- `Table::create` of `mkdircd`. -/
theorem takes_directory (hordered : s.Ordered) {directories : Table DirectoryMeta}
    {reply : Option ℕ} {item : DirectoryMeta}
    (hcreate : s.tableDirectoryMeta.createItem true (some item) = some (directories, reply))
    (hroom : ∃ index, s.Free true index) (hhash : s'.hashtable = s.hashtable)
    (hfiles : s'.tableFileMeta = s.tableFileMeta) (htable : s'.tableDirectoryMeta = directories) :
    ∃ index, reply = some index ∧ Takes true index s s' := by
  subst htable
  obtain ⟨chain, hchain⟩ := hordered.directories
  obtain ⟨directories, index, chain', hcreated, hfree, hchain', hset⟩ :=
    hchain.creation (c := .item true (some item)) rfl hroom
  obtain ⟨rfl, rfl⟩ := Prod.mk.inj (Option.some.inj (hcreate.symm.trans hcreated))
  refine ⟨index, rfl, takes_of_set hordered hhash hfree ?_ (hfiles ▸ hordered.files)
    ⟨chain', hchain'⟩⟩
  funext isDirectory
  cases isDirectory
  · exact congrArg Table.bitmapItems hfiles
  · exact hset

omit [DecidableEq T] in
/-- `Table::create` of `mknodcd`. -/
theorem takes_file (hordered : s.Ordered) {files : Table FileMeta} {reply : Option ℕ}
    {item : FileMeta}
    (hcreate : s.tableFileMeta.createItem true (some item) = some (files, reply))
    (hroom : ∃ index, s.Free false index) (hhash : s'.hashtable = s.hashtable)
    (hdirectories : s'.tableDirectoryMeta = s.tableDirectoryMeta)
    (htable : s'.tableFileMeta = files) :
    ∃ index, reply = some index ∧ Takes false index s s' := by
  subst htable
  obtain ⟨chain, hchain⟩ := hordered.files
  obtain ⟨files, index, chain', hcreated, hfree, hchain', hset⟩ :=
    hchain.creation (c := .item true (some item)) rfl hroom
  obtain ⟨rfl, rfl⟩ := Prod.mk.inj (Option.some.inj (hcreate.symm.trans hcreated))
  refine ⟨index, rfl, takes_of_set hordered hhash hfree ?_ ⟨chain', hchain'⟩
    (hdirectories ▸ hordered.directories)⟩
  funext isDirectory
  cases isDirectory
  · exact hset
  · exact congrArg Table.bitmapItems hdirectories

/-- `Table::create` of a creation. -/
theorem Indexed.create (h : Indexed F P m s) (htakes : Takes call.isDirectory index s s')
    (hpc : s'.pc = Function.update s.pc t (.created call tx index)) (habsent : Absent F P m call) :
    Indexed F P m s' := by
  -- no one has the record yet
  have hother (t' : T) (call' : Call) (tx' : LocalTx) (hne : t' ≠ t)
      (hcreated : s'.pc t' = .created call' tx' index) (hsame : call.isDirectory = call'.isDirectory) :
      False := by
    rw [hpc, Function.update_of_ne hne] at hcreated
    have hknows := h.knows t'
    rw [hcreated] at hknows
    exact htakes.not_inUse (hsame ▸ hknows.2.1)
  refine ⟨htakes.hash ▸ h.hash, htakes.ordered,
    fun k e he ↦ (htakes.inUse _ _).mpr (Or.inl (h.used k e he)), h.distinct, fun t' ↦ ?_,
    fun t₁ t₂ c₁ c₂ tx₁ tx₂ other h₁ h₂ hkind ↦ ?_⟩
  · rw [hpc]
    by_cases ht : t' = t
    · rw [ht, Function.update_self]
      refine ⟨habsent, (htakes.inUse _ _).mpr (Or.inr ⟨rfl, rfl⟩), fun k e he hkind hindex ↦ ?_⟩
      exact htakes.not_inUse (hkind ▸ hindex ▸ h.used k e he)
    · rw [Function.update_of_ne ht]
      exact htakes.knows (h.knows t')
  · by_cases ht₁ : t₁ = t
    · by_cases ht₂ : t₂ = t
      · exact ht₁.trans ht₂.symm
      · rw [ht₁, hpc, Function.update_self] at h₁
        obtain ⟨rfl, -, rfl⟩ := Pc.created.inj h₁
        exact (hother t₂ c₂ tx₂ ht₂ h₂ hkind).elim
    · by_cases ht₂ : t₂ = t
      · rw [ht₂, hpc, Function.update_self] at h₂
        obtain ⟨rfl, -, rfl⟩ := Pc.created.inj h₂
        exact (hother t₁ c₁ tx₁ ht₁ h₁ hkind.symm).elim
      · rw [hpc, Function.update_of_ne ht₁] at h₁
        rw [hpc, Function.update_of_ne ht₂] at h₂
        exact h.fresh t₁ t₂ c₁ c₂ tx₁ tx₂ other h₁ h₂ hkind

/-! ### A new entry -/

section Put

variable {k : UniqueHash} {e : UInt64 × Bool}

omit [DecidableEq T] in
theorem HasParent.insert {path : Path} (h : HasParent F m path) (hk : m.lookup k = none) :
    HasParent F (m.insert k e) path := by
  obtain ⟨i, hi⟩ := h
  refine ⟨i, ?_⟩
  rwa [Finmap.lookup_insert_of_ne _ fun heq ↦ ?_]
  rw [heq, hk] at hi
  cases hi

omit [DecidableEq T] in
theorem Absent.insert (h : Absent F P m call) (hk : m.lookup k = none)
    (hne : F.sha256 call.path ≠ k) : Absent F P (m.insert k e) call :=
  ⟨h.1, h.2.1, h.2.2.1.insert hk, by rw [Finmap.lookup_insert_of_ne _ hne]; exact h.2.2.2⟩

omit [DecidableEq T] in
/-- What a thread knows stays true when an entry is put for another path. -/
theorem Knows.insert (h : Knows F P m s pc) (hk : m.lookup k = none)
    (habsent : ∀ call, pc.absent = some call → F.sha256 call.path ≠ k)
    (hfresh : ∀ call tx index, pc = .created call tx index → e.2 = call.isDirectory →
      e.1.toNat ≠ index) : Knows F P (m.insert k e) s pc := by
  cases pc with
  | copied call tx found => exact ⟨h.1, h.2.1, fun hfound ↦ (h.2.2 hfound).insert hk⟩
  | read call tx found => exact ⟨h.1, h.2.1, fun hfound ↦ (h.2.2 hfound).insert hk⟩
  | extended call tx found entry => exact Absent.insert h hk (habsent call rfl)
  | logged call tx found entry => exact Absent.insert h hk (habsent call rfl)
  | updated call tx => exact Absent.insert h hk (habsent call rfl)
  | created call tx index =>
    refine ⟨h.1.insert hk (habsent call rfl), h.2.1, fun k' e' he' hkind ↦ ?_⟩
    by_cases hsame : k' = k
    · rw [hsame, Finmap.lookup_insert] at he'
      rw [← Option.some.inj he'] at hkind ⊢
      exact hfresh call tx index rfl hkind
    · rw [Finmap.lookup_insert_of_ne _ hsame] at he'
      exact h.2.2 k' e' he' hkind
  | _ => exact h

omit [DecidableEq T] in
/-- A creation whose thread knows no entry of its path. -/
theorem Knows.absent (h : Knows F P m s pc) (hcall : pc.absent = some call) : Absent F P m call := by
  cases pc with
  | extended => exact Option.some.inj hcall ▸ h
  | logged => exact Option.some.inj hcall ▸ h
  | updated => exact Option.some.inj hcall ▸ h
  | created => exact Option.some.inj hcall ▸ h.1
  | _ => cases hcall

/-- `HashTable::put` of a creation: there is no room for an entry, or the entry is a new one. -/
theorem Indexed.put (h : Indexed F P m s) (hP : Set.InjOn F.sha256 P)
    (halone : ∀ t' call', (s.pc t').absent = some call' → call'.path = call.path → t' = t)
    (hpc : s.pc t = .created call tx index) {table : HashTable} {result : Bool}
    (hput : s.hashtable.putAt (F.item call.path) (F.sha256 call.path) (UInt64.ofNat index)
      call.isDirectory = some (table, result)) :
    result = false ∧ s.hashtable.headFreeBit.length = 0 ∧ table.headFreeBit.length = 0 ∧
        Indexed F P m { s.goto t (.decided call tx result) with hashtable := table } ∨
      result = true ∧ s.hashtable.headFreeBit.length = table.headFreeBit.length + 1 ∧
        Indexed F P (m.insert (F.sha256 call.path) (UInt64.ofNat index, call.isDirectory))
          { s.goto t (.decided call tx result) with hashtable := table } := by
  have hknows := h.knows t
  rw [hpc] at hknows
  obtain ⟨⟨hwithin, -, -, hnone⟩, hused, hunused⟩ := hknows
  obtain ⟨count, chains, hrepresents⟩ := h.hash
  obtain ⟨table', chains', hput', hrepresents'⟩ :=
    hrepresents.putAt_eq (F.sha256 call.path) (UInt64.ofNat index, call.isDirectory)
  obtain ⟨rfl, hresult⟩ := Prod.mk.inj (Option.some.inj (hput'.symm.trans hput))
  have hnotMem : F.sha256 call.path ∉ m := Finmap.lookup_eq_none.mp hnone
  rw [Contents.put] at hrepresents' hresult
  split_ifs at hrepresents' hresult with hroom
  · -- the entry is a new one
    refine Or.inr ⟨hresult.symm, ?_, ?_⟩
    · have hbefore := hrepresents.size
      have hafter := hrepresents'.size
      rw [Contents.keys_insert,
        Finset.card_insert_of_notMem fun hmem ↦ hnotMem (Finmap.mem_keys.mp hmem)] at hafter
      omega
    have hindex : (UInt64.ofNat index).toNat = index :=
      Nat.mod_eq_of_lt (hused.1.trans_le ((h.ordered.total _).trans (by norm_num)))
    have hcases (k : UniqueHash) (e : UInt64 × Bool)
        (he : (m.insert (F.sha256 call.path) (UInt64.ofNat index, call.isDirectory)).lookup k =
          some e) :
        k = F.sha256 call.path ∧ e = (UInt64.ofNat index, call.isDirectory) ∨
          m.lookup k = some e := by
      by_cases hk : k = F.sha256 call.path
      · rw [hk, Finmap.lookup_insert] at he
        exact Or.inl ⟨hk, (Option.some.inj he).symm⟩
      · rw [Finmap.lookup_insert_of_ne _ hk] at he
        exact Or.inr he
    refine ⟨⟨count, chains', hrepresents'⟩, ⟨h.ordered.files, h.ordered.directories,
      h.ordered.total⟩, fun k e he ↦ ?_, fun k k' e e' he he' hkind hsame ↦ ?_, fun t' ↦ ?_,
      fun t₁ t₂ c₁ c₂ tx₁ tx₂ other h₁ h₂ ↦ ?_⟩
    · rcases hcases k e he with ⟨-, rfl⟩ | he
      · rw [hindex]
        exact hused
      · exact h.used k e he
    · rcases hcases k e he with ⟨rfl, rfl⟩ | he
      · rcases hcases k' e' he' with ⟨rfl, -⟩ | he'
        · rfl
        · exact absurd (hsame.symm.trans hindex) (hunused k' e' he' hkind.symm)
      · rcases hcases k' e' he' with ⟨rfl, rfl⟩ | he'
        · exact absurd (hsame.trans hindex) (hunused k e he hkind)
        · exact h.distinct k k' e e' he he' hkind hsame
    · by_cases ht : t' = t
      · rw [ht]
        change Knows F P _ _ (Function.update s.pc t _ t)
        rw [Function.update_self]
        exact hwithin
      · change Knows F P _ _ (Function.update s.pc t _ t')
        rw [Function.update_of_ne ht]
        refine (h.knows t').insert hnone (fun call' hcall' hsame ↦ ht ?_)
          fun call' tx' index' hcreated hkind hindex' ↦ ht ?_
        · have hwithin' := ((h.knows t').absent hcall').1
          exact halone t' call' hcall' (hP hwithin'.1 hwithin.1 hsame)
        · exact h.fresh t' t call' call tx' tx index'
            hcreated ((hindex.symm.trans hindex') ▸ hpc) hkind.symm
    · have hback (t' : T) (call' : Call) (tx' : LocalTx)
          (hcreated : Function.update s.pc t (.decided call tx result) t' =
            .created call' tx' other) : s.pc t' = .created call' tx' other := by
        by_cases ht : t' = t
        · rw [ht, Function.update_self] at hcreated
          cases hcreated
        · rwa [Function.update_of_ne ht] at hcreated
      exact h.fresh t₁ t₂ c₁ c₂ tx₁ tx₂ other (hback _ _ _ h₁) (hback _ _ _ h₂)
  · -- there is no room
    have hfull : s.hashtable.headFreeBit = [] := by
      by_contra hne
      exact hroom (Or.inr (hrepresents.room_iff.mpr hne))
    have hsize := hrepresents.size
    have hsize' : m.keys.card + table'.headFreeBit.length + 1 = count := hrepresents'.size
    rw [hfull] at hsize
    refine Or.inl ⟨hresult.symm, by rw [hfull]; rfl, ?_, ?_⟩
    · rw [List.length_nil] at hsize
      omega
    · have hgoto : Indexed F P m (s.goto t (.decided call tx result)) :=
        h.goto (AlikeTables.of_eq rfl rfl rfl) rfl hwithin fun _ _ _ hcreated ↦ by cases hcreated
      exact ⟨⟨count, chains', hrepresents'⟩, ⟨h.ordered.files, h.ordered.directories,
        h.ordered.total⟩, hgoto.used, hgoto.distinct, hgoto.knows, hgoto.fresh⟩

end Put

/-! ### The lock of a path -/

omit [DecidableEq T] in
/-- A creation that has found no entry for its path has locked the hash item. -/
theorem writing_of_absent {l : LockPc AddressHash} (hcall : pc.absent = some call)
    (hitem : ItemLock F pc l) : ∃ key, l = .writing (F.item call.path) key := by
  have hinside (call' : Call) (hcreates : call'.creates = true ∧ Inside F call' l) :
      ∃ key, l = .writing (F.item call'.path) key := by
    obtain ⟨hcreates, hinside⟩ := hcreates
    rwa [Inside, if_pos (Call.writes_of_creates hcreates)] at hinside
  cases pc with
  | extended => exact Option.some.inj hcall ▸ hinside _ hitem
  | logged => exact Option.some.inj hcall ▸ hinside _ hitem
  | updated => exact Option.some.inj hcall ▸ hinside _ hitem
  | created => exact Option.some.inj hcall ▸ hinside _ hitem
  | _ => cases hcall

omit [DecidableEq T] in
/-- No two creations of a path are between the look for it and the put. -/
theorem eq_of_absent [Fintype T] {R : Set Path} (hplaced : Placed F R s)
    (hlock : LockService.Inv s.lock) {t' : T} {call' : Call} (hcall : (s.pc t).absent = some call)
    (hcall' : (s.pc t').absent = some call') (hpath : call'.path = call.path) : t' = t := by
  obtain ⟨key, hwriting⟩ := writing_of_absent hcall (hplaced t).item
  obtain ⟨key', hwriting'⟩ := writing_of_absent hcall' (hplaced t').item
  rw [hpath] at hwriting'
  have hrole {x : T × Use} {key : UInt64}
      (hx : s.lock.pc x = .writing (F.item call.path) key) :
      s.lock.roleAt (F.item call.path) x = .writing := by
    rw [LockService.roleAt, hx]
    exact if_pos rfl
  exact (Prod.mk.inj
    ((hlock.guarded (F.item call.path)).unique _ _ (hrole hwriting') (hrole hwriting))).1

/-! ### The simulation -/

/-- The object has the names of the hash table, and the calls are as far as the threads are. -/
structure Agrees (F : Config) (P : Set Path) (m : Contents) (s : FileSystem T)
    (a : AtomicState T NameTable Call Bool) : Prop where
  kind : ∀ path ∈ P, a.object.kind path = (m.lookup (F.sha256 path)).map Prod.snd
  room : a.object.room = s.hashtable.headFreeBit.length
  progress : ∀ t, a.progress t = progressOf (s.pc t)

/-- The object takes steps that look like the step of the server, and no entry is lost. -/
def Matched (F : Config) (P : Set Path) (m : Contents) (s : FileSystem T) (e : Event T)
    (s' : FileSystem T) (a : AtomicState T NameTable Call Bool) : Prop :=
  ∃ m' a', (∀ k e, m.lookup k = some e → m'.lookup k = some e) ∧
    (nameService F).History a (observe F s e s') a' ∧ Indexed F P m' s' ∧ Agrees F P m' s' a'

variable {a : AtomicState T NameTable Call Bool} {before : Pc} {result : Bool}

/-- The object is as far as the thread that goes on. -/
theorem Agrees.goto (h : Agrees F P m s a) (hhash : s'.hashtable = s.hashtable)
    (hpc : s'.pc = Function.update s.pc t pc) :
    Agrees F P m s' { a with progress := Function.update a.progress t (progressOf pc) } := by
  refine ⟨h.kind, hhash ▸ h.room, fun t' ↦ ?_⟩
  change Function.update a.progress t (progressOf pc) t' = _
  rw [hpc]
  by_cases ht : t' = t
  · rw [ht, Function.update_self, Function.update_self]
  · rw [Function.update_of_ne ht, Function.update_of_ne ht]
    exact h.progress t'

omit [DecidableEq T] in
/-- Only a thread that leaves is seen. -/
theorem observe_step (hbefore : s.pc t = before)
    (hstays : ∀ call tx result, before = .leaving call tx result → s'.pc t ≠ .idle) :
    observe F s (.step t) s' = [] := by
  subst hbefore
  rw [observe]
  split
  · next hleaving hidle => exact absurd hidle (hstays _ _ _ hleaving)
  · rfl

section Step

variable (hindexed : Indexed F P m s) (hagrees : Agrees F P m s a) (hsame : AlikeTables s s')
  (hbefore : s.pc t = before) (hpc : s'.pc = Function.update s.pc t pc)
include hindexed hagrees hsame hbefore hpc

/-- A step that the object takes no part in. -/
theorem matched_stutter (hknows : Knows F P m s before → Knows F P m s pc)
    (hcreated : ∀ call tx index, pc = .created call tx index → before = pc)
    (hleaving : ∀ call tx result, before = .leaving call tx result → pc ≠ .idle)
    (hprogress : progressOf pc = progressOf before) : Matched F P m s (.step t) s' a := by
  have hself : s'.pc t = pc := by rw [hpc, Function.update_self]
  have hsilent : observe F s (.step t) s' = [] :=
    observe_step hbefore (hself.symm ▸ hleaving)
  have hknown := hindexed.knows t
  rw [hbefore] at hknown
  refine ⟨m, a, fun _ _ ↦ id, by rw [hsilent]; exact Observed.init,
    hindexed.goto hsame hpc (hknows hknown) (hbefore.symm ▸ hcreated), ?_⟩
  have hgoto := hagrees.goto hsame.hash hpc
  rwa [hprogress, ← hbefore, ← hagrees.progress, Function.update_eq_self] at hgoto

/-- The step where a call has its effect, which leaves the names as they are. -/
theorem matched_effect {call : Call} (hknows : Knows F P m s before → Knows F P m s pc)
    (hcalled : progressOf before = .called call) (hdone : progressOf pc = .done call result)
    (heffect : Knows F P m s before → NameEffect F a.object call result a.object) :
    Matched F P m s (.step t) s' a := by
  have hsilent : observe F s (.step t) s' = [] := by
    refine observe_step hbefore fun call tx result hleaving ↦ ?_
    rw [hleaving] at hcalled
    cases hcalled
  have hknown := hindexed.knows t
  rw [hbefore] at hknown
  have hcreated (call : Call) (tx : LocalTx) (index : ℕ) (hcreated : pc = .created call tx index) :
      s.pc t = pc := by
    rw [hcreated] at hdone
    cases hdone
  have hprogress : a.progress t = .called call := by rw [hagrees.progress, hbefore, hcalled]
  refine ⟨m, _, fun _ _ ↦ id, ?_, hindexed.goto hsame hpc (hknows hknown) hcreated,
    hagrees.goto hsame.hash hpc⟩
  rw [hsilent, hdone]
  exact (AtomicObject.Step.effect hprogress (heffect hknown)).history

end Step

/-! ### The effects -/

section Effects

variable (hindexed : Indexed F P m s) (hagrees : Agrees F P m s a)
include hindexed hagrees

omit [DecidableEq T] in
/-- What is found of a path is what the object has. -/
theorem kind_of_lookup {path : Path} {found : Option (UInt64 × Bool)} (hpath : path ∈ P)
    (hlookup : s.lookup F path = some found) : a.object.kind path = found.map Prod.snd := by
  rw [hagrees.kind path hpath, Option.some.inj ((hindexed.lookup_eq path).symm.trans hlookup)]

omit [DecidableEq T] in
/-- `readDirectoryMeta` finds a directory that is there. -/
theorem hasParent_iff {path : Path} {found : Option ParentMeta}
    (hpath : getParentDirectory path ∈ P)
    (hread : s.readDirectory F (getParentDirectory path) = some found) :
    (found.isSome = true → HasParent F m path) ∧
      (found.isSome = false → a.object.kind (getParentDirectory path) ≠ some true) := by
  rw [readDirectory, hindexed.lookup_eq, Option.bind_some] at hread
  rw [hagrees.kind _ hpath]
  split at hread
  · next i hi =>
    rw [hindexed.get_directory hi, Option.map_some, Option.map_some] at hread
    rw [← Option.some.inj hread]
    exact ⟨fun _ ↦ ⟨i, hi⟩, fun hnone ↦ by cases hnone⟩
  · next hnone =>
    rw [← Option.some.inj hread]
    refine ⟨fun hsome ↦ absurd hsome Bool.false_ne_true, fun _ hkind ↦ ?_⟩
    obtain ⟨⟨i, isDirectory⟩, hentry, rfl⟩ := Option.map_eq_some_iff.mp hkind
    exact hnone i hentry

omit [DecidableEq T] in
/-- The calls that create nothing: they change a record at most. -/
theorem body_effect {files : Table FileMeta} (hwithin : Among P call)
    (hbody : s.body F call = some (files, result)) :
    files.bitmapItems = s.tableFileMeta.bitmapItems ∧
      (∀ chain, s.tableFileMeta.Chained chain → files.Chained chain) ∧
      NameEffect F a.object call result a.object := by
  have hkind := hagrees.kind call.path hwithin.1
  cases call with
  | mknodcd path => cases hbody
  | mkdircd path => cases hbody
  | access path =>
    rw [body, hindexed.lookup_eq, Option.map_some] at hbody
    obtain ⟨rfl, rfl⟩ := Prod.mk.inj (Option.some.inj hbody)
    refine ⟨rfl, fun _ ↦ id, ?_⟩
    have heffect : NameEffect F a.object (.access path) _ a.object := .access path
    rwa [show a.object.kind path = _ from hkind, Option.isSome_map] at heffect
  | getattr path =>
    have heffect : NameEffect F a.object (.getattr path) _ a.object := .getattr path
    rw [show a.object.kind path = _ from hkind, Option.isSome_map] at heffect
    dsimp only [Call.path] at heffect
    rw [body, hindexed.lookup_eq, Option.bind_some] at hbody
    split at hbody
    · next hnone =>
      obtain ⟨rfl, rfl⟩ := Prod.mk.inj (Option.some.inj hbody)
      rw [hnone] at heffect
      exact ⟨rfl, fun _ ↦ id, heffect⟩
    · next index hdirectory =>
      obtain ⟨rfl, rfl⟩ := Prod.mk.inj (Option.some.inj hbody)
      rw [hdirectory] at heffect
      exact ⟨rfl, fun _ ↦ id, heffect⟩
    · next index hfile =>
      rw [(hindexed.get_file hfile).1, Option.map_some] at hbody
      obtain ⟨rfl, rfl⟩ := Prod.mk.inj (Option.some.inj hbody)
      rw [hfile] at heffect
      exact ⟨rfl, fun _ ↦ id, heffect⟩
  | extentMetaWrite u =>
    have heffect : NameEffect F a.object (.extentMetaWrite u) _ a.object := .extentMetaWrite u
    rw [show a.object.kind u.path = _ from hkind] at heffect
    dsimp only [Call.path] at heffect
    rw [body, hindexed.lookup_eq, Option.bind_some] at hbody
    split at hbody
    · next index hfile =>
      obtain ⟨hget, hused, hunlocked⟩ := hindexed.get_file hfile
      rw [hget, Option.bind_some] at hbody
      rw [hfile] at heffect
      by_cases hrange : u.InRange
      · rw [Option.bind_some, FileMeta.extentMetaWrite, if_neg hrange] at hbody
        dsimp only at hbody
        rw [Table.put_of_inUse hunlocked hused, Option.map_some] at hbody
        obtain ⟨rfl, rfl⟩ := Prod.mk.inj (Option.some.inj hbody)
        rw [decide_eq_true hrange] at heffect
        exact ⟨rfl, fun chain hchain ↦ ⟨hchain.leads, hchain.nodes, hchain.positions,
          hchain.mem_positions, hchain.countFree, hchain.unlocked⟩, heffect⟩
      · rw [Option.bind_some, FileMeta.extentMetaWrite, if_pos (not_not.mp hrange)] at hbody
        obtain ⟨rfl, rfl⟩ := Prod.mk.inj (Option.some.inj hbody)
        rw [decide_eq_false hrange] at heffect
        exact ⟨rfl, fun _ ↦ id, heffect⟩
    · next hnot =>
      obtain ⟨rfl, rfl⟩ := Prod.mk.inj (Option.some.inj hbody)
      have hne : ((m.lookup (F.sha256 u.path)).map Prod.snd == some false) = false := by
        refine beq_eq_false_iff_ne.mpr fun hfile ↦ ?_
        obtain ⟨⟨i, isDirectory⟩, hentry, rfl⟩ := Option.map_eq_some_iff.mp hfile
        exact hnot i hentry
      rw [hne, Bool.false_and] at heffect
      exact ⟨rfl, fun _ ↦ id, heffect⟩

end Effects

/-! ### The steps -/

/-- `Table::create` is no effect of a call. -/
theorem matched_create (hindexed : Indexed F P m s) (hagrees : Agrees F P m s a)
    (hbefore : s.pc t = .updated call tx) (htakes : Takes call.isDirectory index s s')
    (hpc : s'.pc = Function.update s.pc t (.created call tx index)) :
    Matched F P m s (.step t) s' a := by
  have hknows := hindexed.knows t
  rw [hbefore] at hknows
  refine ⟨m, a, fun _ _ ↦ id, ?_, hindexed.create htakes hpc hknows, ?_⟩
  · rw [observe_step hbefore nofun]
    exact Observed.init
  · have hgoto := hagrees.goto htakes.hash hpc
    have hsame : progressOf (.created call tx index) = a.progress t := by
      rw [hagrees.progress, hbefore]
      rfl
    rwa [hsame, Function.update_eq_self] at hgoto

/-- `HashTable::put` is the effect of a creation. -/
theorem matched_put (hindexed : Indexed F P m s) (hagrees : Agrees F P m s a)
    (hP : Set.InjOn F.sha256 P)
    (halone : ∀ t' call', (s.pc t').absent = some call' → call'.path = call.path → t' = t)
    (hbefore : s.pc t = .created call tx index) {table : HashTable}
    (hput : s.hashtable.putAt (F.item call.path) (F.sha256 call.path) (UInt64.ofNat index)
      call.isDirectory = some (table, result)) (hlocal : F.checkLocal call.path = true) :
    Matched F P m s (.step t) { s.goto t (.decided call tx result) with hashtable := table } a := by
  have hknows := hindexed.knows t
  rw [hbefore] at hknows
  obtain ⟨hwithin, hcreates, ⟨i, hparent⟩, hnone⟩ := hknows.1
  have hcalled : a.progress t = .called call := by
    rw [hagrees.progress, hbefore]
    rfl
  have hsilent {s' : FileSystem T} : observe F s (.step t) s' = [] := observe_step hbefore nofun
  have hprogress (t' : T) : Function.update a.progress t (.done call result) t' =
      progressOf (Function.update s.pc t (.decided call tx result) t') := by
    by_cases ht : t' = t
    · rw [ht, Function.update_self, Function.update_self]
      rfl
    · rw [Function.update_of_ne ht, Function.update_of_ne ht]
      exact hagrees.progress t'
  rcases hindexed.put hP halone hbefore hput with ⟨rfl, hfull, hfull', hafter⟩ | ⟨rfl, hroom, hafter⟩
  · have heffect : (nameService F).effect a.object call false a.object :=
      .refuse hcreates (Or.inr (Or.inr (Or.inr (hagrees.room.trans hfull))))
    refine ⟨m, ⟨a.object, Function.update a.progress t (.done call false)⟩, fun _ _ ↦ id, ?_, hafter,
      hagrees.kind, ?_, hprogress⟩
    · rw [hsilent]
      exact (AtomicObject.Step.effect hcalled heffect).history
    · exact hagrees.room.trans (hfull.trans hfull'.symm)
  · let after : NameTable :=
      ⟨Function.update a.object.kind call.path (some call.isDirectory), table.headFreeBit.length⟩
    have heffect : (nameService F).effect a.object call true after := by
      refine .create hcreates hlocal ?_ ?_ (hagrees.room.trans hroom)
      · rw [hagrees.kind _ hwithin.1, hnone]
        rfl
      · rw [hagrees.kind _ hwithin.2, hparent]
        rfl
    refine ⟨_, ⟨after, Function.update a.progress t (.done call true)⟩, fun k e he ↦ ?_, ?_, hafter,
      fun path hpath ↦ ?_, rfl, hprogress⟩
    · rwa [Finmap.lookup_insert_of_ne _ fun heq ↦ ?_]
      rw [heq, hnone] at he
      cases he
    · rw [hsilent]
      exact (AtomicObject.Step.effect hcalled heffect).history
    · by_cases hsame : path = call.path
      · rw [hsame, Finmap.lookup_insert]
        exact Function.update_self _ _ _
      · rw [Finmap.lookup_insert_of_ne _ fun heq ↦ hsame (hP hpath hwithin.1 heq)]
        exact (Function.update_of_ne hsame _ _).trans (hagrees.kind path hpath)

/-- Each step of the server is matched by the object. -/
theorem step_matched [Fintype T] {R : Set Path} (hP : Set.InjOn F.sha256 P)
    (hindexed : Indexed F P m s) (hagrees : Agrees F P m s a) (hplaced : Placed F R s)
    (hlock : LockService.Inv s.lock) {e : Event T} (hok : Sound P s e) (hstep : Step F s e s') :
    Matched F P m s e s' a := by
  cases hstep with
  | @remote t call hpc hremote =>
    have hidle : a.progress t = .idle := by
      rw [hagrees.progress, hpc]
      rfl
    have hseen : observe F s (.start t call) { s with
        started := s.started ++ [call.path]
        returned := s.returned ++ [⟨call, none, false⟩] } =
          [.invoke t call] ++ [] ++ [.respond t call false] :=
      if_neg (hremote ▸ Bool.false_ne_true)
    let a₁ : AtomicState T NameTable Call Bool :=
      { a with progress := Function.update a.progress t (.called call) }
    let a₂ : AtomicState T NameTable Call Bool :=
      ⟨a.object, Function.update a₁.progress t (.done call false)⟩
    let a₃ : AtomicState T NameTable Call Bool :=
      { a₂ with progress := Function.update a₂.progress t .idle }
    have hinvoke : (nameService F).Step a [.invoke t call] a₁ := .invoke call hidle
    have heffect : (nameService F).Step a₁ [] a₂ :=
      .effect (Function.update_self _ _ _) (.remote hremote)
    have hrespond : (nameService F).Step a₂ [.respond t call false] a₃ :=
      .respond (Function.update_self _ _ _)
    refine ⟨m, a₃, fun _ _ ↦ id, ?_, hindexed.goto (t := t) (AlikeTables.of_eq rfl rfl rfl)
      (Function.update_eq_self t s.pc).symm (hindexed.knows t) fun _ _ _ _ ↦ rfl, ?_⟩
    · rw [hseen]
      exact (hinvoke.history.trans heffect.history).trans hrespond.history
    · refine ⟨hagrees.kind, hagrees.room, fun t' ↦ ?_⟩
      change Function.update (Function.update (Function.update a.progress t _) t _) t _ t' = _
      rw [Function.update_idem, Function.update_idem, ← hidle, Function.update_eq_self]
      exact hagrees.progress t'
  | @start t call lock hpc hlocal hlock =>
    have hidle : a.progress t = .idle := by
      rw [hagrees.progress, hpc]
      rfl
    have hseen {s' : FileSystem T} : observe F s (.start t call) s' = [.invoke t call] :=
      if_pos hlocal
    refine ⟨m, _, fun _ _ ↦ id, ?_, hindexed.goto (AlikeTables.of_eq rfl rfl rfl) rfl hok nofun,
      hagrees.goto rfl rfl⟩
    rw [hseen]
    exact (AtomicObject.Step.invoke call hidle).history
  | @swap t use lock hlock =>
    exact matched_stutter hindexed hagrees (AlikeTables.of_eq rfl rfl rfl) rfl
      (Function.update_eq_self t s.pc).symm id (fun _ _ _ _ ↦ rfl)
      (fun _ _ _ hleaving hidle ↦ nomatch hleaving.symm.trans hidle) rfl
  | @check t use lock hlock =>
    exact matched_stutter hindexed hagrees (AlikeTables.of_eq rfl rfl rfl) rfl
      (Function.update_eq_self t s.pc).symm id (fun _ _ _ _ ↦ rfl)
      (fun _ _ _ hleaving hidle ↦ nomatch hleaving.symm.trans hidle) rfl
  | @body t call files result hpc hholds hbody =>
    have hknows := hindexed.knows t
    rw [hpc] at hknows
    obtain ⟨hbits, hchained, heffect⟩ := body_effect hindexed hagrees hknows hbody
    have hbitmap : ({ s.goto t (.leaving call none result) with
        tableFileMeta := files } : FileSystem T).bitmap = s.bitmap := by
      funext isDirectory
      cases isDirectory
      · exact hbits
      · rfl
    refine matched_effect hindexed hagrees ⟨rfl, hbitmap, fun hordered ↦ ?_⟩ hpc rfl id rfl rfl
      fun _ ↦ heffect
    obtain ⟨chain, hchain⟩ := hordered.files
    exact ⟨⟨chain, hchained chain hchain⟩, hordered.directories, hbitmap.symm ▸ hordered.total⟩
  | begin hpc hcreates hholds =>
    exact matched_stutter hindexed hagrees (AlikeTables.of_eq rfl rfl rfl) hpc rfl
      (fun hknows ↦ ⟨hknows, hcreates⟩) nofun nofun rfl
  | parentRemote hpc hremote =>
    exact matched_effect hindexed hagrees (AlikeTables.of_eq rfl rfl rfl) hpc rfl And.left rfl rfl
      fun hknows ↦ .refuse hknows.2 (Or.inl hremote)
  | parentLock hpc hlocal hlock =>
    exact matched_stutter hindexed hagrees (AlikeTables.of_eq rfl rfl rfl) hpc rfl id nofun nofun rfl
  | @copy t call tx found hpc hholds hread =>
    have hknows := hindexed.knows t
    rw [hpc] at hknows
    obtain ⟨hsome, hnone⟩ := hasParent_iff hindexed hagrees hknows.1.2 hread
    have hknows' (hknows : Knows F P m s (.parent call tx)) :
        Knows F P m s (.copied call tx found) := ⟨hknows.1, hknows.2, hsome⟩
    cases hfound : found.isSome with
    | true =>
      exact matched_stutter hindexed hagrees (AlikeTables.of_eq rfl rfl rfl) hpc rfl hknows' nofun
        nofun (if_pos hfound)
    | false =>
      exact matched_effect hindexed hagrees (AlikeTables.of_eq rfl rfl rfl) hpc rfl hknows' rfl
        (if_neg (hfound ▸ Bool.false_ne_true))
        fun hknows ↦ .refuse hknows.2 (Or.inr (Or.inl (hnone hfound)))
  | parentUnlock hpc hlock =>
    exact matched_stutter hindexed hagrees (AlikeTables.of_eq rfl rfl rfl) hpc rfl id nofun nofun rfl
  | missing hpc =>
    exact matched_stutter hindexed hagrees (AlikeTables.of_eq rfl rfl rfl) hpc rfl And.left nofun
      nofun rfl
  | @exist t call tx found entry hpc hexists =>
    refine matched_effect hindexed hagrees (AlikeTables.of_eq rfl rfl rfl) hpc rfl And.left rfl rfl
      fun hknows ↦ .refuse hknows.2.1 (Or.inr (Or.inr (Or.inl ?_)))
    rw [kind_of_lookup hindexed hagrees hknows.1.1 hexists]
    exact Option.some_ne_none _
  | @extend t call tx found entry hpc hmissing hcount hlength hname hflag =>
    exact matched_stutter hindexed hagrees (AlikeTables.of_eq rfl rfl rfl) hpc rfl
      (fun hknows ↦ ⟨hknows.1, hknows.2.1, hknows.2.2 rfl,
        Option.some.inj ((hindexed.lookup_eq call.path).symm.trans hmissing)⟩) nofun nofun rfl
  | log hpc =>
    exact matched_stutter hindexed hagrees (AlikeTables.of_eq rfl rfl rfl) hpc rfl id nofun nofun rfl
  | @update t path tx found entry hpc =>
    refine matched_stutter hindexed hagrees ⟨rfl, ?_, fun hordered ↦ ?_⟩ hpc rfl id nofun nofun rfl
    · funext isDirectory
      cases isDirectory <;> rfl
    · obtain ⟨chain, hchain⟩ := hordered.directories
      exact ⟨hordered.files, ⟨chain, hchain.leads, hchain.nodes, hchain.positions,
        hchain.mem_positions, hchain.countFree, hchain.unlocked⟩, fun isDirectory ↦
          (hordered.total isDirectory).trans' (by cases isDirectory <;> exact le_rfl)⟩
  | keep hpc =>
    exact matched_stutter hindexed hagrees (AlikeTables.of_eq rfl rfl rfl) hpc rfl id nofun nofun rfl
  | @createDirectory t path tx directories reply tuple hpc hcreate =>
    rw [Sound, hpc] at hok
    have htaken : ∃ index, reply = some index ∧ Takes true index s
        { s.goto t (reply.elim (.decided (.mkdircd path) tx false)
            (.created (.mkdircd path) tx)) with tableDirectoryMeta := directories } :=
      takes_directory hindexed.ordered hcreate hok rfl rfl rfl
    obtain ⟨index, rfl, htakes⟩ := htaken
    exact matched_create hindexed hagrees hpc htakes rfl
  | @createFile t path tx files reply time tuple hpc hcreate =>
    rw [Sound, hpc] at hok
    have htaken : ∃ index, reply = some index ∧ Takes false index s
        { s.goto t (reply.elim (.decided (.mknodcd path) tx false)
            (.created (.mknodcd path) tx)) with tableFileMeta := files } :=
      takes_file hindexed.ordered hcreate hok rfl rfl rfl
    obtain ⟨index, rfl, htakes⟩ := htaken
    exact matched_create hindexed hagrees hpc htakes rfl
  | @put t call tx index table result hpc hput =>
    have hknows := hindexed.knows t
    rw [hpc] at hknows
    refine matched_put hindexed hagrees hP (fun t' call' hcall' hpath ↦ ?_) hpc hput
      ((hplaced t).path call (by rw [hpc]; rfl) hknows.1.2.1).2
    exact eq_of_absent hplaced hlock (by rw [hpc]; rfl) hcall' hpath
  | commit hpc =>
    exact matched_stutter hindexed hagrees (AlikeTables.of_eq rfl rfl rfl) hpc rfl id nofun nofun rfl
  | @leave t call tx result lock hpc hlock =>
    have hdone : a.progress t = .done call result := by
      rw [hagrees.progress, hpc]
      rfl
    refine ⟨m, _, fun _ _ ↦ id, ?_, hindexed.goto (AlikeTables.of_eq rfl rfl rfl) rfl trivial nofun,
      hagrees.goto rfl rfl⟩
    have hself : ({ s.locked t lock .idle with
        returned := s.returned ++ [⟨call, tx, result⟩] } : FileSystem T).pc t = .idle :=
      Function.update_self _ _ _
    have hseen : observe F s (.step t) { s.locked t lock .idle with
        returned := s.returned ++ [⟨call, tx, result⟩] } = [.respond t call result] := by
      rw [observe, hpc, hself]
    rw [hseen]
    exact (AtomicObject.Step.respond hdone).history

end FileSystem

end SwitchDelta.Fs
