import SwitchDelta.Fs.Namespace

/-!
# What the directories list

`namespace_consistent` is about calls that run one after another: the record of a directory lists the
names of the paths that are present under it. `no_entry_lost` is about calls of `mkdircd` that run at
the same time: the name of each directory that was made is in the record of its parent.

The first does not hold where `mknodcd` makes a file, since it leaves the record of the parent as it was.
The second does not hold where a record is changed between its copy and its writing back, since no lock
is held over both.
-/

set_option autoImplicit false
set_option relaxedAutoImplicit false

namespace SwitchDelta.Fs

open Foundation

/-- The copy of the parent's record, until it is written back. -/
def Pc.found : Pc → Option ParentMeta
  | .copied _ _ found => found
  | .read _ _ found => found
  | .extended _ _ found _ => some found
  | .logged _ _ found _ => some found
  | _ => none

/-- The call of a thread that has written the record back and has not put the path yet. -/
def Pc.making : Pc → Option Call
  | .updated call _ => some call
  | .created call _ _ => some call
  | _ => none

/-- The thread is past `updateRemoteMeta`, or has left it out. -/
def Pc.past : Pc → Bool
  | .updated _ _ => true
  | .created _ _ _ => true
  | .decided _ _ _ => true
  | .leaving _ _ _ => true
  | _ => false

/-- The call made the directory with the path. -/
def Returned.made (path : Path) (r : Returned) : Bool :=
  r.result && match r.call with | .mkdircd other => other == path | _ => false

theorem Returned.made_iff {path : Path} {r : Returned} :
    r.made path = true ↔ r.result = true ∧ r.call = .mkdircd path := by
  rw [made, Bool.and_eq_true]
  refine and_congr_right fun _ ↦ ?_
  cases r.call <;> simp

namespace FileSystem

variable {T : Type} {F : Config} {P : Set Path} {m : Contents} {s s' : FileSystem T}

/-! ### What the invariant says about the tables -/

/-- The record of a directory that is present is found in the table. -/
theorem Names.get_record (h : Names F P m s) {directory : Path} {i : UInt64}
    (hlookup : s.lookup F directory = some (some (i, true))) :
    s.tableDirectoryMeta.get i.toNat = some (some (s.tableDirectoryMeta.items i.toNat)) := by
  have hi : m.lookup (F.sha256 directory) = some (i, true) :=
    Option.some.inj ((h.lookup_eq directory).symm.trans hlookup)
  obtain ⟨-, hbound, hset⟩ := h.tree.directory _ _ hi
  obtain ⟨chain, hchain⟩ := h.tree.table
  have hget : s.tableDirectoryMeta.bitmapItems.get i.toNat = some true := by
    rw [Bitmap.get, if_pos hbound, hset]
  rw [Table.get, hchain.unlocked, if_neg Bool.false_ne_true, hget]

/-- The names in a record are counted. -/
theorem Names.count_eq (h : Names F P m s) {directory : Path} {i : UInt64}
    (hlookup : s.lookup F directory = some (some (i, true))) :
    (s.tableDirectoryMeta.items i.toNat).count =
      ((s.record i.toNat).map DirectoryMetaTuple.names).toFinset.card := by
  have hi : m.lookup (F.sha256 directory) = some (i, true) :=
    Option.some.inj ((h.lookup_eq directory).symm.trans hlookup)
  have hnodup : ((s.record i.toNat).map DirectoryMetaTuple.names).Nodup := h.tree.nodup _ _ hi
  rw [List.toFinset_card_of_nodup hnodup, List.length_map, record, DirectoryMeta.entries,
    List.length_map, List.length_range]

/-- A path that is listed is found in the record of its parent directory. -/
theorem Names.listed_lookup (h : Names F P m s) {path : Path} (hlisted : Listed F m s path) :
    ∃ i name, s.lookup F (getParentDirectory path) = some (some (i, true)) ∧
      getNameFromPath path = some name ∧ ⟨name, true⟩ ∈ s.record i.toNat := by
  obtain ⟨-, i, hi, name, hname, hentry⟩ := hlisted
  exact ⟨i, name, by rw [h.lookup_eq, hi], hname, hentry⟩

/-- `put` on a hash table that has room makes its path present and keeps the others. -/
theorem Names.put_present (h : Names F P m s) {path : Path} {index : UInt64} {isDirectory result : Bool}
    {table : HashTable} (hroom : s.hashtable.headFreeBit ≠ [])
    (hput : s.hashtable.putAt (F.item path) (F.sha256 path) index isDirectory = some (table, result))
    (hhash : s'.hashtable = table) (other : Path)
    (hother : other = path ∨ s.lookup F other ≠ some none) : s'.lookup F other ≠ some none := by
  obtain ⟨count, chains, hrepresents⟩ := h.tree.hash
  obtain ⟨table', chains', hput', hrepresents'⟩ :=
    hrepresents.putAt_eq (F.sha256 path) (index, isDirectory)
  obtain ⟨rfl, -⟩ := Prod.mk.inj (Option.some.inj (hput'.symm.trans hput))
  rw [Contents.put, if_pos (Or.inr (hrepresents.room_iff.mpr hroom))] at hrepresents'
  have hlookup : s'.lookup F other =
      some ((m.insert (F.sha256 path) (index, isDirectory)).lookup (F.sha256 other)) := by
    rw [lookup, hhash]
    exact hrepresents'.getAt_eq (F.sha256 other)
  rw [hlookup]
  by_cases hsame : F.sha256 other = F.sha256 path
  · rw [hsame, Finmap.lookup_insert]
    simp
  · rw [Finmap.lookup_insert_of_ne _ hsame, ← h.lookup_eq]
    exact hother.resolve_left fun heq ↦ hsame (heq ▸ rfl)

variable [DecidableEq T] {t : T} {pc : Pc}

/-! ### One call after another -/

/-- The calls are started one after another, on paths that the hash tells apart, and none makes a file.
There is room for a new directory in both tables. -/
def OneByOne (F : Config) (P : Set Path) (s : FileSystem T) : Event T → Prop
  | .start _ call => Known P call ∧ ∀ t, s.pc t = .idle
  | .step t =>
    match s.pc t with
    | .read call _ (some _) => s.lookup F call.path = some none → ∃ path, call = .mkdircd path
    | .updated _ _ => ∃ index, s.tableDirectoryMeta.Free index
    | .created _ _ _ => s.hashtable.headFreeBit ≠ []
    | _ => True

/-- The invariant of the runs of one call after another. -/
structure Sequential (F : Config) (s : FileSystem T) : Prop where
  one : ∀ t t', s.pc t ≠ .idle → s.pc t' ≠ .idle → t = t'
  current : ∀ t found, (s.pc t).found = some found →
    s.tableDirectoryMeta.items found.index = found.parentMeta
  finished : ∀ path ∈ s.written, s.lookup F path ≠ some none ∨
    ∃ t call, (s.pc t).making = some call ∧ call.path = path

/-- The thread of the only call goes on. -/
theorem Sequential.move (h : Sequential F s) (hactive : s.pc t ≠ .idle ∨ ∀ t', s.pc t' = .idle)
    (hpc : s'.pc = Function.update s.pc t pc)
    (hcurrent : ∀ found, pc.found = some found →
      s'.tableDirectoryMeta.items found.index = found.parentMeta)
    (hfinished : ∀ path ∈ s'.written, s'.lookup F path ≠ some none ∨
      ∃ call, pc.making = some call ∧ call.path = path) : Sequential F s' := by
  have hself : s'.pc t = pc := by rw [hpc, Function.update_self]
  have hidle (t' : T) (ht : t' ≠ t) : s'.pc t' = .idle := by
    rw [hpc, Function.update_of_ne ht]
    by_contra hne
    rcases hactive with hactive | hall
    · exact ht (h.one t' t hne hactive)
    · exact hne (hall t')
  have halone (t' : T) (ht : s'.pc t' ≠ .idle) : t' = t := by
    by_contra hne
    exact ht (hidle t' hne)
  refine ⟨fun t₁ t₂ h₁ h₂ ↦ (halone t₁ h₁).trans (halone t₂ h₂).symm, fun t' found hfound ↦ ?_,
    fun path hpath ↦ (hfinished path hpath).imp_right fun ⟨call, hcall, hsame⟩ ↦
      ⟨t, call, hself.symm ▸ hcall, hsame⟩⟩
  by_cases ht : t' = t
  · rw [ht, hself] at hfound
    exact hcurrent found hfound
  · rw [hidle t' ht] at hfound
    cases hfound

omit [DecidableEq T] in
/-- What has been written back is present, or the only call is about to put it. -/
theorem Sequential.present_or_made (h : Sequential F s) {before : Pc} (hbefore : s.pc t = before)
    (hactive : before ≠ .idle) {making : Option Call} (hmaking : before.making = making) {path : Path}
    (hpath : path ∈ s.written) :
    s.lookup F path ≠ some none ∨ ∃ call, making = some call ∧ call.path = path := by
  refine (h.finished path hpath).imp_right fun ⟨t', call, hcall, hsame⟩ ↦ ?_
  have ht : t' = t := by
    refine h.one t' t (fun hidle ↦ ?_) (hbefore ▸ hactive)
    rw [hidle] at hcall
    cases hcall
  rw [ht, hbefore, hmaking] at hcall
  exact ⟨call, hcall, hsame⟩

/-- The thread goes on and leaves the tables alone. -/
theorem Sequential.advance (h : Sequential F s) {before : Pc} (hbefore : s.pc t = before)
    (hactive : before ≠ .idle) (hpc : s'.pc = Function.update s.pc t pc)
    (hhash : s'.hashtable = s.hashtable) (htable : s'.tableDirectoryMeta = s.tableDirectoryMeta)
    (hwritten : s'.written = s.written)
    (hfound : ∀ found, pc.found = some found → before.found = some found ∨
      s.tableDirectoryMeta.items found.index = found.parentMeta)
    (hmaking : ∀ call, before.making = some call → pc.making = some call) : Sequential F s' := by
  refine h.move (Or.inl (hbefore ▸ hactive)) hpc (fun found hsome ↦ ?_) fun path hpath ↦ ?_
  · rw [htable]
    exact (hfound found hsome).elim (fun hold ↦ h.current t found (hbefore.symm ▸ hold)) id
  · rw [lookup, hhash]
    exact (h.present_or_made hbefore hactive rfl (hwritten ▸ hpath)).imp_right
      fun ⟨call, hcall, hsame⟩ ↦ ⟨call, hmaking call hcall, hsame⟩

omit [DecidableEq T] in
/-- Nothing but the locks changes. -/
theorem Sequential.same (h : Sequential F s) (lock : LockService AddressHash (T × Use)) :
    Sequential F { s with lock } := ⟨h.one, h.current, h.finished⟩

/-- A step keeps the invariant. -/
theorem Sequential.step (h : Sequential F s) (hnames : Names F P m s) {e : Event T}
    (hok : OneByOne F P s e) (hstep : Step F s e s') : Sequential F s' := by
  cases hstep with
  | remote hpc hremote => exact ⟨h.one, h.current, h.finished⟩
  | start hpc hlocal hlock =>
    refine h.move (Or.inr hok.2) rfl nofun fun path hpath ↦ Or.inl ?_
    refine (h.finished path hpath).resolve_right fun ⟨t', call, hcall, _⟩ ↦ ?_
    rw [hok.2 t'] at hcall
    cases hcall
  | swap hlock => exact h.same _
  | check hlock => exact h.same _
  | body hpc hholds hbody => exact h.advance hpc nofun rfl rfl rfl rfl nofun nofun
  | begin hpc hcreates hholds => exact h.advance hpc nofun rfl rfl rfl rfl nofun nofun
  | parentRemote hpc hremote => exact h.advance hpc nofun rfl rfl rfl rfl nofun nofun
  | parentLock hpc hlocal hlock => exact h.advance hpc nofun rfl rfl rfl rfl nofun nofun
  | copy hpc hholds hread =>
    exact h.advance hpc nofun rfl rfl rfl rfl
      (fun found hfound ↦ Or.inr (hnames.readDirectory_found hread hfound).2) nofun
  | parentUnlock hpc hlock =>
    exact h.advance hpc nofun rfl rfl rfl rfl (fun _ hfound ↦ Or.inl hfound) nofun
  | missing hpc => exact h.advance hpc nofun rfl rfl rfl rfl nofun nofun
  | exist hpc hexists => exact h.advance hpc nofun rfl rfl rfl rfl nofun nofun
  | extend hpc => exact h.advance hpc nofun rfl rfl rfl rfl (fun _ hfound ↦ Or.inl hfound) nofun
  | log hpc => exact h.advance hpc nofun rfl rfl rfl rfl (fun _ hfound ↦ Or.inl hfound) nofun
  | @update t path tx found entry hpc =>
    refine h.move (Or.inl (by rw [hpc]; exact nofun)) rfl nofun fun other hother ↦ ?_
    rcases List.mem_append.mp hother with hother | hother
    · exact (h.present_or_made hpc nofun rfl hother).imp_right fun ⟨_, hcall, _⟩ ↦ nomatch hcall
    · exact Or.inr ⟨.mkdircd path, rfl, (List.mem_singleton.mp hother).symm⟩
  | keep hpc => exact h.advance hpc nofun rfl rfl rfl rfl nofun nofun
  | @createDirectory t path tx directories reply tuple hpc hcreate =>
    rw [OneByOne, hpc] at hok
    obtain ⟨-, -, index, rfl, -⟩ := hnames.tree.create
      { s with tableDirectoryMeta := directories } hcreate hok rfl rfl rfl
    refine h.move (Or.inl (by rw [hpc]; exact nofun)) rfl nofun fun other hother ↦ ?_
    exact h.present_or_made hpc nofun rfl hother
  | @createFile t path tx files reply time tuple hpc hcreate =>
    have hthread := hnames.thread t
    rw [hpc] at hthread
    obtain ⟨⟨-, ⟨other, hother⟩, -⟩, -⟩ := hthread
    cases hother
  | put hpc hput =>
    have hroom := hok
    rw [OneByOne, hpc] at hroom
    refine h.move (Or.inl (by rw [hpc]; exact nofun)) rfl nofun fun other hother ↦ Or.inl ?_
    refine hnames.put_present hroom hput rfl other ?_
    rcases h.present_or_made hpc nofun rfl hother with hpresent | ⟨call, hcall, hsame⟩
    · exact Or.inr hpresent
    · exact Or.inl (hsame.symm.trans (congrArg Call.path (Option.some.inj hcall).symm))
  | commit hpc => exact h.advance hpc nofun rfl rfl rfl rfl nofun nofun
  | leave hpc hlock => exact h.advance hpc nofun rfl rfl rfl rfl nofun nofun

omit [DecidableEq T] in
/-- Calls that run one after another are careful. -/
theorem Sequential.careful (h : Sequential F s) (hnames : Names F P m s) {e : Event T}
    (hok : OneByOne F P s e) : Careful F P s e := by
  cases e with
  | start t call =>
    refine ⟨hok.1, fun t' call' hcall ↦ ?_⟩
    rw [hok.2 t'] at hcall
    cases hcall
  | step t =>
    rw [OneByOne] at hok
    rw [Careful]
    cases hpc : s.pc t with
    | read call tx found =>
      cases found with
      | none => trivial
      | some found =>
        rw [hpc] at hok
        exact hok
    | logged call tx found entry =>
      refine ⟨h.current t found (by rw [hpc]; rfl), fun hwritten ↦ ?_⟩
      have hthread := hnames.thread t
      rw [hpc] at hthread
      have hbusy : Pc.logged call tx found entry ≠ .idle := fun hidle ↦ by cases hidle
      rcases h.present_or_made hpc hbusy rfl hwritten with hpresent | ⟨_, hcall, -⟩
      · exact hpresent (by rw [hnames.lookup_eq, hthread.1.2.2.2])
      · cases hcall
    | updated call tx =>
      rw [hpc] at hok
      exact hok
    | _ => trivial

theorem sequential_of_reachable {s₀ : FileSystem T} (hP : Set.InjOn F.sha256 P)
    (hroot : [slash] ∈ P) (hinit : Initialized F s₀)
    (hrun : Reachable s₀ (Step F) (OneByOne F P) s) : (∃ m, Names F P m s) ∧ Sequential F s := by
  obtain ⟨hnames, hidle, -, hwritten, -⟩ := hinit.names hroot
  refine hrun.invariant (fun s ↦ (∃ m, Names F P m s) ∧ Sequential F s) ⟨hnames, ?_⟩ ?_
  · refine ⟨fun t _ ht ↦ absurd (hidle t) ht, fun t found hfound ↦ ?_, fun path hpath ↦ ?_⟩
    · rw [hidle] at hfound
      cases hfound
    · rw [hwritten] at hpath
      exact absurd hpath List.not_mem_nil
  · rintro s e s' - ⟨⟨m, hnames⟩, hsequential⟩ hok hstep
    exact ⟨hnames.step hP (hsequential.careful hnames hok) hstep,
      hsequential.step hnames hok hstep⟩

/-- As long as the calls run one after another on valid paths, none gets so far as to make a file, and
there is room for each new directory, the record of a directory lists the names of the paths that are
present under it, each once, as what they are. -/
theorem namespace_consistent {s₀ : FileSystem T} (hP : Set.InjOn F.sha256 P) (hroot : [slash] ∈ P)
    (hinit : Initialized F s₀) (hrun : Reachable s₀ (Step F) (OneByOne F P) s)
    (hidle : ∀ t, s.pc t = .idle) {directory : Path} (hdirectory : directory ∈ P) {i : UInt64}
    (hlookup : s.lookup F directory = some (some (i, true))) :
    ∃ record, s.tableDirectoryMeta.get i.toNat = some (some record) ∧
      (record.entries.map DirectoryMetaTuple.names).Nodup ∧
      ∀ name isDirectory, ⟨name, isDirectory⟩ ∈ record.entries ↔
        slash ∉ name ∧ join directory name ≠ [slash] ∧ join directory name ∈ P ∧
          ∃ index, s.lookup F (join directory name) = some (some (index, isDirectory)) := by
  obtain ⟨⟨m, hnames⟩, hsequential⟩ := sequential_of_reachable hP hroot hinit hrun
  have hi : m.lookup (F.sha256 directory) = some (i, true) :=
    Option.some.inj ((hnames.lookup_eq directory).symm.trans hlookup)
  refine ⟨_, hnames.get_record hlookup, hnames.tree.nodup _ _ hi, fun name isDirectory ↦ ?_⟩
  constructor
  · intro hentry
    obtain ⟨hflag, path, hwritten, hpath, hparent, hk, hname, hcanonical⟩ :=
      hnames.tree.written _ _ hi _ hentry
    obtain rfl : isDirectory = true := hflag
    obtain rfl := hP hparent hdirectory hk
    have hjoin : path = join (getParentDirectory path) name := by
      obtain ⟨name', hname', hjoin⟩ := hcanonical
      obtain rfl := Option.some.inj (hname.symm.trans hname')
      exact hjoin
    have hpresent : s.lookup F path ≠ some none := by
      refine (hsequential.finished path hwritten).resolve_right fun ⟨t, call, hcall, _⟩ ↦ ?_
      rw [hidle t] at hcall
      cases hcall
    rw [← hjoin]
    refine ⟨notMem_of_getNameFromPath hname, hcanonical.ne_root, hpath, ?_⟩
    rw [hnames.lookup_eq] at hpresent ⊢
    obtain ⟨⟨index, flag⟩, he⟩ := Option.ne_none_iff_exists'.mp fun hnone ↦ hpresent (congrArg some hnone)
    obtain rfl : flag = true := (hnames.tree.directory _ _ he).1
    exact ⟨index, congrArg some he⟩
  · rintro ⟨hslash, hne, hjoin, index, hpresent⟩
    have he : m.lookup (F.sha256 (join directory name)) = some (index, isDirectory) :=
      Option.some.inj ((hnames.lookup_eq _).symm.trans hpresent)
    have hnil : directory ≠ [] := by
      rintro rfl
      obtain ⟨path, hpath, hk, hlisted⟩ := hnames.tree.listed _ _ hi
      obtain rfl := hP hpath hdirectory hk
      rcases hlisted with hroot | hlisted
      · cases hroot
      · exact hlisted.1.ne_nil rfl
    obtain ⟨path, hpath, hk, hlisted⟩ := hnames.tree.listed _ _ he
    obtain rfl := hP hpath hjoin hk
    obtain ⟨-, i', hi', name', hname', hentry⟩ := hlisted.resolve_left hne
    rw [getParentDirectory_join hslash hne hnil, hi] at hi'
    obtain ⟨rfl, -⟩ := Prod.mk.inj (Option.some.inj hi')
    obtain rfl := Option.some.inj ((getNameFromPath_join hslash hne).symm.trans hname')
    obtain rfl : isDirectory = true := (hnames.tree.directory _ _ he).1
    exact hentry

omit [DecidableEq T] in
theorem rootServer_initialized [DecidableEq T] (h : rootServer T = some s) :
    Initialized smallConfig s := by
  rw [rootServer] at h
  obtain ⟨hashtable, hhash, h⟩ := Option.bind_eq_some_iff.mp h
  obtain ⟨files, -, h⟩ := Option.bind_eq_some_iff.mp h
  obtain ⟨directories, htable, hroot⟩ := Option.bind_eq_some_iff.mp h
  exact ⟨8, 8, 1, _, _, hashtable, files, directories, _, hhash, by decide, by decide,
    Nat.succ_injective, htable, hroot⟩

/-- A file is made in the root directory, whose record does not list it. -/
theorem file_not_listed :
    ∃ s₀ s : FileSystem Unit, rootServer Unit = some s₀ ∧ Initialized smallConfig s₀ ∧
      Reachable s₀ (Step smallConfig) (fun _ _ ↦ True) s ∧ (s.pc () matches .idle) = true ∧
      s.lookup smallConfig [slash, 97] = some (some (0, false)) ∧
      s.lookup smallConfig [slash] = some (some (0, true)) ∧ s.record 0 = [] := by
  have hrun : ((rootServer Unit).bind fun s₀ ↦
      (s₀.execAll smallConfig (fun _ _ ↦ true) (callOf () (.mknodcd [slash, 97]) 12)).map fun s ↦
        ((s.pc () matches .idle) && s.record 0 == [], s.lookup smallConfig [slash, 97],
          s.lookup smallConfig [slash])) =
      some (true, some (some (0, false)), some (some (0, true))) := by
    decide +kernel
  obtain ⟨s₀, hroot, hrun⟩ := Option.bind_eq_some_iff.mp hrun
  obtain ⟨s, hexec, hresult⟩ := Option.map_eq_some_iff.mp hrun
  simp only [Prod.mk.injEq, Bool.and_eq_true, beq_iff_eq] at hresult
  obtain ⟨⟨hidle, hrecord⟩, hfile, hdirectory⟩ := hresult
  exact ⟨s₀, s, hroot, rootServer_initialized hroot,
    reachable_execAll (fun _ _ _ ↦ trivial) Reachable.init hexec, hidle, hfile, hdirectory, hrecord⟩

/-- A test for the call `mkdircd("/a")` on the small server. -/
def oneDirectory (s : FileSystem Unit) : Event Unit → Bool
  | .start _ call =>
    (s.pc () matches .idle) &&
      match call with
      | .mkdircd path => path == [slash, 97] && !s.started.contains path
      | _ => false
  | .step _ =>
    match s.pc () with
    | .read call _ _ => (call matches .mkdircd _)
    | .updated _ _ =>
      decide (1 < s.tableDirectoryMeta.bitmapItems.varCountTotal) &&
        !s.tableDirectoryMeta.bitmapItems.bit 1
    | .created _ _ _ => !s.hashtable.headFreeBit.isEmpty
    | _ => true

/-- The paths of that call. -/
def onePath : Set Path := {[slash], [slash, 97]}

theorem injOn_onePath : Set.InjOn smallConfig.sha256 onePath := by
  have hne : smallConfig.sha256 [slash] ≠ smallConfig.sha256 [slash, 97] := by decide
  rintro p (rfl | rfl) q (rfl | rfl) hsame
  · rfl
  · exact absurd hsame hne
  · exact absurd hsame.symm hne
  · rfl

theorem known_oneDirectory : Known onePath (.mkdircd [slash, 97]) := by
  refine ⟨Or.inr rfl, Or.inl ?_, Or.inr ⟨[97], ?_, ?_⟩⟩ <;> decide

theorem oneByOne_of_test {s : FileSystem Unit} {e : Event Unit} (h : oneDirectory s e = true) :
    OneByOne smallConfig onePath s e := by
  cases e with
  | start t call =>
    obtain ⟨hidle, h⟩ := Bool.and_eq_true_iff.mp h
    refine ⟨?_, fun t' ↦ ?_⟩
    · split at h
      · obtain ⟨hpath, -⟩ := Bool.and_eq_true_iff.mp h
        rw [beq_iff_eq.mp hpath]
        exact known_oneDirectory
      · cases h
    · split at hidle
      · assumption
      · cases hidle
  | step t =>
    rw [oneDirectory] at h
    rw [OneByOne]
    cases hpc : s.pc t with
    | read call tx found =>
      rw [hpc] at h
      cases found with
      | none => trivial
      | some found =>
        intro _
        cases call with
        | mkdircd path => exact ⟨path, rfl⟩
        | _ => cases h
    | updated call tx =>
      rw [hpc] at h
      obtain ⟨hbound, hclear⟩ := Bool.and_eq_true_iff.mp h
      exact ⟨1, of_decide_eq_true hbound, (Bool.not_eq_true' _).mp hclear⟩
    | created call tx index =>
      rw [hpc] at h
      rintro hempty
      rw [hempty] at h
      cases h
    | _ => trivial

/-- The call `mkdircd("/a")` on the small server. -/
theorem exists_oneDirectory :
    ∃ s₀ s : FileSystem Unit, Initialized smallConfig s₀ ∧
      Reachable s₀ (Step smallConfig) (fun s e ↦ oneDirectory s e = true) s ∧
      (∀ t, s.pc t = .idle) ∧ s.lookup smallConfig [slash] = some (some (0, true)) ∧
      s.lookup smallConfig [slash, 97] = some (some (1, true)) ∧
      s.returned.any (Returned.made [slash, 97]) = true := by
  have hrun : ((rootServer Unit).bind fun s₀ ↦
      (s₀.execAll smallConfig oneDirectory (callOf () (.mkdircd [slash, 97]) 12)).map fun s ↦
        ((s.pc () matches .idle) && s.lookup smallConfig [slash] == some (some (0, true)) &&
          s.returned.any (Returned.made [slash, 97]), s.lookup smallConfig [slash, 97])) =
      some (true, some (some (1, true))) := by
    decide +kernel
  obtain ⟨s₀, hroot, hrun⟩ := Option.bind_eq_some_iff.mp hrun
  obtain ⟨s, hexec, hresult⟩ := Option.map_eq_some_iff.mp hrun
  simp only [Prod.mk.injEq, Bool.and_eq_true, beq_iff_eq] at hresult
  obtain ⟨⟨⟨hidle, hdirectory⟩, hreturned⟩, hlookup⟩ := hresult
  refine ⟨s₀, s, rootServer_initialized hroot, reachable_execAll (fun _ _ h ↦ h) Reachable.init hexec,
    fun t ↦ ?_, hdirectory, hlookup, hreturned⟩
  split at hidle
  · assumption
  · cases hidle

/-- A directory is made, and the root directory lists it. -/
theorem namespace_consistent_one :
    ∃ (s : FileSystem Unit) (record : DirectoryMeta),
      s.tableDirectoryMeta.get 0 = some (some record) ∧ ⟨[97], true⟩ ∈ record.entries := by
  obtain ⟨s₀, s, hinit, hrun, hidle, hroot, hlookup, -⟩ := exists_oneDirectory
  obtain ⟨record, hget, -, hentries⟩ := namespace_consistent injOn_onePath (Or.inl rfl) hinit
    (hrun.mono fun s e ↦ oneByOne_of_test) hidle (Or.inl rfl) hroot
  exact ⟨s, record, hget,
    (hentries [97] true).mpr ⟨by decide, by decide, Or.inr rfl, 1, hlookup⟩⟩

/-! ### Calls at the same time -/

/-- The calls make directories with different paths, which the hash tells apart. A record is written
back while it is the one that was read, and there is room for a new directory in the table. -/
def Distinct (P : Set Path) (s : FileSystem T) : Event T → Prop
  | .start _ call => Known P call ∧ call.path ∉ s.started ∧ ∃ path, call = .mkdircd path
  | .step t =>
    match s.pc t with
    | .logged _ _ found _ => s.tableDirectoryMeta.items found.index = found.parentMeta
    | .updated _ _ => ∃ index, s.tableDirectoryMeta.Free index
    | _ => True

/-- The invariant of the runs of calls with different paths. -/
structure Parallel (s : FileSystem T) : Prop where
  made : ∀ t call, (s.pc t).call = some call → (∃ path, call = .mkdircd path) ∧ call.path ∈ s.started
  written : ∀ path ∈ s.written, path ∈ s.started ∧
    ∀ t call, (s.pc t).call = some call → call.path = path → (s.pc t).past = true

/-- A thread goes on. -/
theorem Parallel.move (h : Parallel s) (hpc : s'.pc = Function.update s.pc t pc)
    (hcall : ∀ call, pc.call = some call → (s.pc t).call = some call)
    (hstarted : s'.started = s.started)
    (hwritten : ∀ path ∈ s'.written, path ∈ s.written ∨
      pc.past = true ∧ ∃ call, (s.pc t).call = some call ∧ call.path = path)
    (hpast : (s.pc t).past = true → pc.call ≠ none → pc.past = true)
    (hapart : ∀ t' call call', (s.pc t).call = some call → (s.pc t').call = some call' →
      call.path = call'.path → t = t') : Parallel s' := by
  have hself : s'.pc t = pc := by rw [hpc, Function.update_self]
  have hother (t' : T) (ht : t' ≠ t) : s'.pc t' = s.pc t' := by
    rw [hpc, Function.update_of_ne ht]
  have hback (t' : T) (call : Call) (hsome : (s'.pc t').call = some call) :
      (s.pc t').call = some call := by
    by_cases ht : t' = t
    · rw [ht, hself] at hsome
      exact ht ▸ hcall call hsome
    · rwa [hother t' ht] at hsome
  refine ⟨fun t' call hsome ↦ ?_, fun path hpath ↦ ?_⟩
  · rw [hstarted]
    exact h.made t' call (hback t' call hsome)
  · rw [hstarted]
    rcases hwritten path hpath with hold | ⟨hnow, own, hown, rfl⟩
    · refine ⟨(h.written path hold).1, fun t' call hsome hsame ↦ ?_⟩
      have hbefore := (h.written path hold).2 t' call (hback t' call hsome) hsame
      by_cases ht : t' = t
      · subst ht
        rw [hself] at hsome ⊢
        exact hpast hbefore (by rw [hsome]; exact Option.some_ne_none call)
      · rw [hother t' ht]
        exact hbefore
    · refine ⟨(h.made t own hown).2, fun t' call hsome hsame ↦ ?_⟩
      obtain rfl := hapart t' own call hown (hback t' call hsome) hsame.symm
      rw [hself]
      exact hnow

/-- A thread goes on with its call and writes nothing back. -/
theorem Parallel.advance (h : Parallel s) (hnames : Names F P m s) {before : Pc}
    (hbefore : s.pc t = before) (hpc : s'.pc = Function.update s.pc t pc)
    (hcall : ∀ call, pc.call = some call → before.call = some call)
    (hstarted : s'.started = s.started) (hwritten : s'.written = s.written)
    (hpast : before.past = true → pc.call ≠ none → pc.past = true) : Parallel s' := by
  subst hbefore
  exact h.move hpc hcall hstarted (fun path hpath ↦ Or.inl (hwritten ▸ hpath)) hpast
    fun t' call call' ↦ hnames.apart t t' call call'

omit [DecidableEq T] in
/-- A call is started with a path of its own. -/
theorem Parallel.started (h : Parallel s) {path : Path} (hwritten : s'.written = s.written)
    (hstarted : s'.started = s.started ++ [path]) (hnew : path ∉ s.started)
    (hpc : ∀ t call, (s'.pc t).call = some call →
      s'.pc t = s.pc t ∨ (∃ path, call = .mkdircd path) ∧ call.path = path) : Parallel s' := by
  refine ⟨fun t call hcall ↦ ?_, fun other hother ↦ ?_⟩
  · rw [hstarted]
    rcases hpc t call hcall with hsame | ⟨hmkdircd, rfl⟩
    · obtain ⟨hmkdircd, hpath⟩ := h.made t call (hsame ▸ hcall)
      exact ⟨hmkdircd, List.mem_append_left _ hpath⟩
    · exact ⟨hmkdircd, List.mem_append_right _ List.mem_cons_self⟩
  · rw [hstarted]
    rw [hwritten] at hother
    obtain ⟨hbefore, hpast⟩ := h.written other hother
    refine ⟨List.mem_append_left _ hbefore, fun t call hcall hpath ↦ ?_⟩
    rcases hpc t call hcall with hsame | ⟨-, rfl⟩
    · rw [hsame] at hcall ⊢
      exact hpast t call hcall hpath
    · exact absurd (hpath ▸ hbefore) hnew

/-- A step keeps the invariant. -/
theorem Parallel.step (h : Parallel s) (hnames : Names F P m s) {e : Event T}
    (hok : Distinct P s e) (hstep : Step F s e s') : Parallel s' := by
  cases hstep with
  | remote hpc hremote => exact h.started rfl rfl hok.2.1 fun _ _ _ ↦ Or.inl rfl
  | @start t call lock hpc hlocal hlock =>
    refine h.started rfl rfl hok.2.1 fun t' call' hcall ↦ ?_
    by_cases ht : t' = t
    · have hself : (s.locked t lock (.entered call)).pc t' = .entered call :=
        ht ▸ Function.update_self _ _ _
      obtain rfl := Option.some.inj ((congrArg Pc.call hself).symm.trans hcall)
      exact Or.inr ⟨hok.2.2, rfl⟩
    · exact Or.inl (Function.update_of_ne ht _ _)
  | swap hlock => exact ⟨h.made, h.written⟩
  | check hlock => exact ⟨h.made, h.written⟩
  | body hpc hholds hbody => exact h.advance hnames hpc rfl (fun _ hcall ↦ hcall) rfl rfl nofun
  | begin hpc hcreates hholds =>
    exact h.advance hnames hpc rfl (fun _ hcall ↦ hcall) rfl rfl nofun
  | parentRemote hpc hremote =>
    exact h.advance hnames hpc rfl (fun _ hcall ↦ hcall) rfl rfl nofun
  | parentLock hpc hlocal hlock =>
    exact h.advance hnames hpc rfl (fun _ hcall ↦ hcall) rfl rfl nofun
  | copy hpc hholds hread => exact h.advance hnames hpc rfl (fun _ hcall ↦ hcall) rfl rfl nofun
  | parentUnlock hpc hlock =>
    exact h.advance hnames hpc rfl (fun _ hcall ↦ hcall) rfl rfl nofun
  | missing hpc => exact h.advance hnames hpc rfl (fun _ hcall ↦ hcall) rfl rfl nofun
  | exist hpc hexists => exact h.advance hnames hpc rfl (fun _ hcall ↦ hcall) rfl rfl nofun
  | extend hpc => exact h.advance hnames hpc rfl (fun _ hcall ↦ hcall) rfl rfl nofun
  | log hpc => exact h.advance hnames hpc rfl (fun _ hcall ↦ hcall) rfl rfl nofun
  | @update t path tx found entry hpc =>
    have hcall : (s.pc t).call = some (.mkdircd path) := by rw [hpc]; rfl
    refine h.move rfl (fun _ hsome ↦ hcall.trans hsome) rfl (fun other hother ↦ ?_)
      (fun _ _ ↦ rfl) fun t' call call' ↦ hnames.apart t t' call call'
    rcases List.mem_append.mp hother with hother | hother
    · exact Or.inl hother
    · exact Or.inr ⟨rfl, _, hcall, (List.mem_singleton.mp hother).symm⟩
  | keep hpc => exact h.advance hnames hpc rfl (fun _ hcall ↦ hcall) rfl rfl nofun
  | @createDirectory t path tx directories reply tuple hpc hcreate =>
    cases reply with
    | none => exact h.advance hnames hpc rfl (fun _ hcall ↦ hcall) rfl rfl fun _ _ ↦ rfl
    | some index => exact h.advance hnames hpc rfl (fun _ hcall ↦ hcall) rfl rfl fun _ _ ↦ rfl
  | @createFile t path tx files reply time tuple hpc hcreate =>
    cases reply with
    | none => exact h.advance hnames hpc rfl (fun _ hcall ↦ hcall) rfl rfl fun _ _ ↦ rfl
    | some index => exact h.advance hnames hpc rfl (fun _ hcall ↦ hcall) rfl rfl fun _ _ ↦ rfl
  | put hpc hput => exact h.advance hnames hpc rfl (fun _ hcall ↦ hcall) rfl rfl fun _ _ ↦ rfl
  | commit hpc => exact h.advance hnames hpc rfl (fun _ hcall ↦ hcall) rfl rfl fun _ _ ↦ rfl
  | leave hpc hlock => exact h.advance hnames hpc rfl nofun rfl rfl fun _ hcall ↦ absurd rfl hcall

omit [DecidableEq T] in
/-- Calls with different paths are careful. -/
theorem Parallel.careful (h : Parallel s) {e : Event T} (hok : Distinct P s e) :
    Careful F P s e := by
  cases e with
  | start t call =>
    refine ⟨hok.1, fun t' call' hcall hpath ↦ hok.2.1 ?_⟩
    exact hpath ▸ (h.made t' call' hcall).2
  | step t =>
    rw [Distinct] at hok
    rw [Careful]
    cases hpc : s.pc t with
    | read call tx found =>
      cases found with
      | none => trivial
      | some found => exact fun _ ↦ (h.made t call (by rw [hpc]; rfl)).1
    | logged call tx found entry =>
      rw [hpc] at hok
      refine ⟨hok, fun hwritten ↦ ?_⟩
      have hpast := (h.written call.path hwritten).2 t call (by rw [hpc]; rfl) rfl
      rw [hpc] at hpast
      cases hpast
    | updated call tx =>
      rw [hpc] at hok
      exact hok
    | _ => trivial

/-- As long as each record is written back while it is the one that was read, calls of `mkdircd` with
different paths lose no entry, in whatever order their steps come: the name of a directory that was made
is in the record of its parent, and the count of a record is that of its names. -/
theorem no_entry_lost {s₀ : FileSystem T} (hP : Set.InjOn F.sha256 P) (hroot : [slash] ∈ P)
    (hinit : Initialized F s₀) (hrun : Reachable s₀ (Step F) (Distinct P) s) :
    (∀ r ∈ s.returned, r.result = true → ∀ path, r.call = .mkdircd path → ∃ i record name,
      s.lookup F (getParentDirectory path) = some (some (i, true)) ∧
        s.tableDirectoryMeta.get i.toNat = some (some record) ∧
        getNameFromPath path = some name ∧ ⟨name, true⟩ ∈ record.entries) ∧
    ∀ directory i record, s.lookup F directory = some (some (i, true)) →
      s.tableDirectoryMeta.get i.toNat = some (some record) →
      record.count = (record.entries.map DirectoryMetaTuple.names).toFinset.card := by
  obtain ⟨hstart, hidle, -, hwritten, -⟩ := hinit.names hroot
  have hparallel : Parallel s₀ := by
    refine ⟨fun t call hcall ↦ ?_, fun path hpath ↦ ?_⟩
    · rw [hidle] at hcall
      cases hcall
    · rw [hwritten] at hpath
      exact absurd hpath List.not_mem_nil
  obtain ⟨⟨m, hnames⟩, -⟩ := hrun.invariant (fun s ↦ (∃ m, Names F P m s) ∧ Parallel s)
    ⟨hstart, hparallel⟩ fun s e s' _ hinv hok hstep ↦ by
      obtain ⟨⟨m, hnames⟩, hparallel⟩ := hinv
      exact ⟨hnames.step hP (hparallel.careful hok) hstep, hparallel.step hnames hok hstep⟩
  refine ⟨fun r hr hresult path hpath ↦ ?_, fun directory i record hlookup hget ↦ ?_⟩
  · obtain ⟨i, name, hlookup, hname, hentry⟩ :=
      hnames.listed_lookup (hnames.returned r hr hresult path hpath)
    exact ⟨i, _, name, hlookup, hnames.get_record hlookup, hname, hentry⟩
  · obtain rfl := Option.some.inj (Option.some.inj ((hnames.get_record hlookup).symm.trans hget))
    exact hnames.count_eq hlookup

/-- Two directories are made at the same time. Each record is read before the other one is written back,
and the entry of the first one is lost. -/
theorem entry_lost :
    ∃ s₀ s : FileSystem Bool, rootServer Bool = some s₀ ∧ Initialized smallConfig s₀ ∧
      Reachable s₀ (Step smallConfig) (fun _ _ ↦ True) s ∧
      (s.pc true matches .idle) = true ∧ (s.pc false matches .idle) = true ∧
      (s.returned.any (Returned.made [slash, 97]) = true ∧
        s.returned.any (Returned.made [slash, 98]) = true) ∧
      s.started = [[slash, 97], [slash, 98]] ∧
      s.lookup smallConfig [slash] = some (some (0, true)) ∧ s.record 0 = [⟨[97], true⟩] := by
  have hrun : ((rootServer Bool).bind fun s₀ ↦
      (s₀.execAll smallConfig (fun _ _ ↦ true)
        (callOf true (.mkdircd [slash, 97]) 7 ++ callOf false (.mkdircd [slash, 98]) 12 ++
          List.replicate 5 (.step true))).map fun s ↦
        ((s.pc true matches .idle) && (s.pc false matches .idle) &&
          s.lookup smallConfig [slash] == some (some (0, true)) && s.record 0 == [⟨[97], true⟩],
          s.returned.any (Returned.made [slash, 97]) && s.returned.any (Returned.made [slash, 98]),
          s.started)) = some (true, true, [[slash, 97], [slash, 98]]) := by
    decide +kernel
  obtain ⟨s₀, hroot, hrun⟩ := Option.bind_eq_some_iff.mp hrun
  obtain ⟨s, hexec, hresult⟩ := Option.map_eq_some_iff.mp hrun
  simp only [Prod.mk.injEq, Bool.and_eq_true, beq_iff_eq] at hresult
  obtain ⟨⟨⟨⟨htrue, hfalse⟩, hlookup⟩, hrecord⟩, hreturned, hstarted⟩ := hresult
  exact ⟨s₀, s, hroot, rootServer_initialized hroot,
    reachable_execAll (fun _ _ _ ↦ trivial) Reachable.init hexec, htrue, hfalse, hreturned,
    hstarted, hlookup, hrecord⟩

/-- A directory is made, and its name is in the record of the root directory. -/
theorem no_entry_lost_one :
    ∃ s : FileSystem Unit, ∃ r ∈ s.returned, r.result = true ∧ ∃ i record name,
      s.lookup smallConfig [slash] = some (some (i, true)) ∧
        s.tableDirectoryMeta.get i.toNat = some (some record) ∧ ⟨name, true⟩ ∈ record.entries := by
  obtain ⟨s₀, s, hinit, hrun, -, -, -, hreturned⟩ := exists_oneDirectory
  -- the only call reads the record that it writes back
  have hdistinct : Reachable s₀ (Step smallConfig) (Distinct onePath) s := by
    refine hrun.strengthen fun s e hreach htest ↦ ?_
    obtain ⟨-, hsequential⟩ := sequential_of_reachable injOn_onePath (Or.inl rfl) hinit
      (hreach.mono fun s e ↦ oneByOne_of_test)
    have hone := oneByOne_of_test htest
    cases e with
    | start t call =>
      obtain ⟨-, htest⟩ := Bool.and_eq_true_iff.mp htest
      split at htest
      · obtain ⟨hpath, hnew⟩ := Bool.and_eq_true_iff.mp htest
        have hstarted : ∀ path, (!s.started.contains path) = true → path ∉ s.started := by simp
        exact ⟨hone.1, hstarted _ hnew, _, rfl⟩
      · cases htest
    | step t =>
      rw [OneByOne] at hone
      rw [Distinct]
      cases hpc : s.pc t with
      | logged call tx found entry => exact hsequential.current t found (by rw [hpc]; rfl)
      | updated call tx =>
        rw [hpc] at hone
        exact hone
      | _ => trivial
  obtain ⟨hlisted, -⟩ := no_entry_lost injOn_onePath (Or.inl rfl) hinit hdistinct
  obtain ⟨r, hr, hmade⟩ := List.any_eq_true.mp hreturned
  obtain ⟨hresult, hcall⟩ := Returned.made_iff.mp hmade
  obtain ⟨i, record, name, hlookup, hget, -, hentry⟩ := hlisted r hr hresult _ hcall
  exact ⟨s, r, hr, hresult, i, record, name, hlookup, hget, hentry⟩

end FileSystem

end SwitchDelta.Fs
