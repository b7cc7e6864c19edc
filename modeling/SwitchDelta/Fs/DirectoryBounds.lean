import SwitchDelta.Fs.Directories
import SwitchDelta.Fs.PathStrings

/-!
# The bounds of the records

A record has room for `MAX_DIRECTORY_COUNT` names of fewer than `MAX_FILE_NAME_LENGTH` characters. A
creation adds a name to its copy of the parent's record without a look at either bound.

`records_in_bounds` is for runs in which a creation that copies the record of its parent, and whose
path does not exist, finds room there for its name: all records and copies stay in bounds. The first
step that does not meet this leads to a state in which the next write goes beyond a record.
-/

set_option autoImplicit false
set_option relaxedAutoImplicit false

namespace SwitchDelta.Fs

open Foundation

/-! ### Records in bounds -/

/-- The names of a record lie in its array, and end there. -/
structure DirectoryMeta.InBounds (m : DirectoryMeta) : Prop where
  count : m.count ≤ MAX_DIRECTORY_COUNT
  names : ∀ i < m.count, (m.tuple i).names.length < MAX_FILE_NAME_LENGTH

/-- A record has room for one more name, which is that of a path. -/
structure DirectoryMeta.Room (m : DirectoryMeta) (path : Path) : Prop where
  count : m.count < MAX_DIRECTORY_COUNT
  name : ∀ name, getNameFromPath path = some name → name.length < MAX_FILE_NAME_LENGTH

theorem DirectoryMeta.inBounds_zero (tuple : ℕ → DirectoryMetaTuple) :
    (⟨0, tuple⟩ : DirectoryMeta).InBounds :=
  ⟨Nat.zero_le _, fun i hi ↦ absurd hi (Nat.not_lt_zero i)⟩

theorem DirectoryMeta.InBounds.add {m : DirectoryMeta} {entry : DirectoryMetaTuple}
    (h : m.InBounds) (hcount : m.count < MAX_DIRECTORY_COUNT)
    (hname : entry.names.length < MAX_FILE_NAME_LENGTH) : (m.add entry).InBounds := by
  refine ⟨hcount, fun i hi ↦ ?_⟩
  change (Function.update m.tuple m.count entry i).names.length < _
  by_cases heq : i = m.count
  · rw [heq, Function.update_self]
    exact hname
  · rw [Function.update_of_ne heq]
    exact h.names i (by change i < m.count + 1 at hi; omega)

namespace FileSystem

variable {T : Type}

/-- The copy of a thread is in bounds, and so is the write that comes next. -/
def Within (F : Config) (s : FileSystem T) : Pc → Prop
  | .copied call _ (some found) => found.parentMeta.InBounds ∧
    (s.lookup F call.path = some none → found.parentMeta.Room call.path)
  | .read call _ (some found) => found.parentMeta.InBounds ∧
    (s.lookup F call.path = some none → found.parentMeta.Room call.path)
  | .extended _ _ found entry => (found.parentMeta.add entry).InBounds
  | .logged _ _ found entry => (found.parentMeta.add entry).InBounds
  | _ => True

/-- All records are in bounds, and all copies. -/
structure InBounds (F : Config) (s : FileSystem T) : Prop where
  stored : ∀ index, s.tableDirectoryMeta.InUse index →
    (s.tableDirectoryMeta.items index).InBounds
  copies : ∀ t, Within F s (s.pc t)

/-- Where a creation copies the record of its parent and its path does not exist, the record has
room for its name. -/
def HasSpace (F : Config) (s : FileSystem T) : Event T → Prop
  | .start _ _ => True
  | .step t =>
    match s.pc t with
    | .parent call _ => s.Holds t .parent → s.lookup F call.path = some none →
      ∀ found, s.readDirectory F (getParentDirectory call.path) = some (some found) →
        found.parentMeta.Room call.path
    | _ => True

/-- The invariant: the hash table is in order as well. -/
structure Bounded (F : Config) (s : FileSystem T) : Prop where
  hash : ∃ count m chains, HashTable.Represents count s.hashtable m chains
  inBounds : InBounds F s

variable [DecidableEq T] {F : Config} {s s' s₀ : FileSystem T} {t : T} {call : Call} {pc : Pc}

/-- A thread goes on, and what the others look up is still missing before. -/
theorem Bounded.goto (h : Bounded F s)
    (hhash : ∃ count m chains, HashTable.Represents count s'.hashtable m chains)
    (hstored : ∀ index, s'.tableDirectoryMeta.InUse index →
      (s'.tableDirectoryMeta.items index).InBounds)
    (hlookup : ∀ path, s'.lookup F path = some none → s.lookup F path = some none)
    (hpc : s'.pc = Function.update s.pc t pc) (hwithin : Within F s' pc) : Bounded F s' := by
  refine ⟨hhash, hstored, fun t' ↦ ?_⟩
  rw [hpc]
  by_cases ht : t' = t
  · rw [ht, Function.update_self]
    exact hwithin
  · rw [Function.update_of_ne ht]
    have hother := h.inBounds.copies t'
    cases hplace : s.pc t' with
    | copied call tx found =>
      rw [hplace] at hother
      cases found with
      | none => trivial
      | some found => exact ⟨hother.1, fun hnone ↦ hother.2 (hlookup _ hnone)⟩
    | read call tx found =>
      rw [hplace] at hother
      cases found with
      | none => trivial
      | some found => exact ⟨hother.1, fun hnone ↦ hother.2 (hlookup _ hnone)⟩
    | extended call tx found entry =>
      rw [hplace] at hother
      exact hother
    | logged call tx found entry =>
      rw [hplace] at hother
      exact hother
    | _ => trivial

/-- A thread goes on, and the tables are the same. -/
theorem Bounded.same (h : Bounded F s) (hhash : s'.hashtable = s.hashtable)
    (hdirectories : s'.tableDirectoryMeta = s.tableDirectoryMeta)
    (hpc : s'.pc = Function.update s.pc t pc) (hwithin : Within F s' pc) : Bounded F s' := by
  refine h.goto (hhash ▸ h.hash) (hdirectories ▸ h.inBounds.stored) (fun path hnone ↦ ?_) hpc
    hwithin
  rw [lookup, hhash] at hnone
  exact hnone

omit [DecidableEq T] in
/-- The copy of a record is in bounds. -/
theorem Bounded.copy (h : Bounded F s) {tx : LocalTx} {found : Option ParentMeta}
    (hroom : HasSpace F s (.step t)) (hpc : s.pc t = .parent call tx) (hholds : s.Holds t .parent)
    (hread : s.readDirectory F (getParentDirectory call.path) = some found) :
    Within F s (.copied call tx found) := by
  cases found with
  | none => trivial
  | some found =>
    rw [HasSpace, hpc] at hroom
    refine ⟨?_, fun hnone ↦ hroom hholds hnone found hread⟩
    obtain ⟨entry, -, hentry⟩ := Option.bind_eq_some_iff.mp hread
    split at hentry
    · obtain ⟨item, hget, hitem⟩ := Option.map_eq_some_iff.mp hentry
      obtain ⟨parentMeta, rfl, rfl⟩ := Option.map_eq_some_iff.mp hitem
      obtain ⟨hinUse, rfl⟩ := Table.inUse_of_get hget
      exact h.inBounds.stored _ hinUse
    · cases hentry

omit [DecidableEq T] in
/-- A `put` only adds a path. -/
theorem Bounded.put (h : Bounded F s) {p : Path} {index : UInt64} {isDirectory result : Bool}
    {table : HashTable}
    (hput : s.hashtable.putAt (F.item p) (F.sha256 p) index isDirectory = some (table, result)) :
    (∃ count m chains, HashTable.Represents count table m chains) ∧
      ∀ path, table.getAt (F.item path) (F.sha256 path) = some none →
        s.lookup F path = some none := by
  obtain ⟨count, m, chains, hrepresents⟩ := h.hash
  obtain ⟨table', chains', hput', hrepresents'⟩ :=
    hrepresents.putAt_eq (F.sha256 p) (index, isDirectory)
  obtain ⟨rfl, -⟩ := Prod.mk.inj (Option.some.inj (hput'.symm.trans hput))
  refine ⟨⟨count, _, chains', hrepresents'⟩, fun path hnone ↦ ?_⟩
  have hnone' := Option.some.inj ((hrepresents'.getAt_eq (F.sha256 path)).symm.trans hnone)
  refine (hrepresents.getAt_eq (F.sha256 path)).trans (congrArg some ?_)
  rw [Contents.put] at hnone'
  split_ifs at hnone' with hroom
  · by_cases heq : F.sha256 path = F.sha256 p
    · rw [heq, Finmap.lookup_insert] at hnone'
      cases hnone'
    · rwa [Finmap.lookup_insert_of_ne _ heq] at hnone'
  · exact hnone'

/-- A step keeps the records in bounds. -/
theorem Bounded.step (h : Bounded F s) {e : Event T} (hroom : HasSpace F s e)
    (hstep : Step F s e s') : Bounded F s' := by
  have hcopies := h.inBounds.copies
  have hidle {σ : FileSystem T} {t : T} (hσ : σ.pc = s.pc) :
      σ.pc = Function.update s.pc t (s.pc t) := by rw [hσ, Function.update_eq_self]
  cases hstep with
  | @remote t call hpc => exact h.same rfl rfl (hidle rfl) (by rw [hpc]; trivial)
  | start hpc => exact h.same rfl rfl rfl trivial
  | @swap t use lock hlock => exact h.same rfl rfl (hidle rfl) (hcopies t)
  | @check t use lock hlock => exact h.same rfl rfl (hidle rfl) (hcopies t)
  | body hpc => exact h.same rfl rfl rfl trivial
  | begin hpc => exact h.same rfl rfl rfl trivial
  | parentRemote hpc => exact h.same rfl rfl rfl trivial
  | parentLock hpc => exact h.same rfl rfl rfl trivial
  | copy hpc hholds hread => exact h.same rfl rfl rfl (h.copy hroom hpc hholds hread)
  | @parentUnlock t call tx found lock hpc hlock =>
    have hcopy := hcopies t
    rw [hpc] at hcopy
    refine h.same rfl rfl rfl ?_
    cases found with
    | none => trivial
    | some found => exact hcopy
  | missing hpc => exact h.same rfl rfl rfl trivial
  | exist hpc => exact h.same rfl rfl rfl trivial
  | @extend t call tx found entry hpc hlookup hcount hname =>
    have hcopy := hcopies t
    rw [hpc] at hcopy
    exact h.same rfl rfl rfl (hcopy.1.add hcount hname)
  | @log t call tx found entry hpc =>
    have hcopy := hcopies t
    rw [hpc] at hcopy
    exact h.same rfl rfl rfl hcopy
  | @update t path tx found entry hpc =>
    have hcopy := hcopies t
    rw [hpc] at hcopy
    refine h.goto h.hash (fun index hindex ↦ ?_) (fun _ hnone ↦ hnone) rfl trivial
    change (Function.update s.tableDirectoryMeta.items found.index _ index).InBounds
    by_cases heq : index = found.index
    · rw [heq, Function.update_self]
      exact hcopy
    · rw [Function.update_of_ne heq]
      exact h.inBounds.stored index hindex
  | keep hpc => exact h.same rfl rfl rfl trivial
  | @createDirectory t path tx directories reply tuple hpc hcreate =>
    refine h.goto h.hash (fun index hindex ↦ ?_) (fun _ hnone ↦ hnone) rfl ?_
    · rcases Table.items_of_createItem hcreate hindex with hnew | ⟨hinUse, hold⟩
      · exact (congrArg DirectoryMeta.InBounds hnew).mpr (DirectoryMeta.inBounds_zero tuple)
      · exact (congrArg DirectoryMeta.InBounds hold).mpr (h.inBounds.stored index hinUse)
    · cases reply <;> trivial
  | @createFile t path tx files reply time tuple hpc hcreate =>
    refine h.same rfl rfl rfl ?_
    cases reply <;> trivial
  | put hpc hput =>
    obtain ⟨hhash, hlookup⟩ := h.put hput
    exact h.goto hhash h.inBounds.stored hlookup rfl trivial
  | commit hpc => exact h.same rfl rfl rfl trivial
  | leave hpc hlock => exact h.same rfl rfl rfl trivial

omit [DecidableEq T] in
/-- A new server has no names. -/
theorem Initialized.bounded (hinit : Initialized F s) : Bounded F s := by
  obtain ⟨⟨m, hnames⟩, hidle, -⟩ := hinit.names (show [slash] ∈ (Set.univ : Set Path) from trivial)
  obtain ⟨count, chains, hrepresents⟩ := hnames.tree.hash
  refine ⟨⟨count, m, chains, hrepresents⟩, ?_, fun t ↦ by rw [hidle]; trivial⟩
  obtain ⟨count, countDirectory, size, items, nodes, hashtable, files, directories, tuple, hhash,
    hpos, hbound, hnodes, htable, hroot⟩ := hinit.tables
  have hconstructed := Table.construct_constructed hbound hnodes htable
  have hclear (index : ℕ) : ¬directories.InUse index := fun hinUse ↦
    Bool.false_ne_true ((hconstructed.clear index).symm.trans hinUse.2)
  rw [rootInitialize] at hroot
  split_ifs at hroot with hlocal
  · obtain ⟨⟨directories', reply⟩, hcreate, hroot⟩ := Option.bind_eq_some_iff.mp hroot
    obtain ⟨index, rfl, hroot⟩ := Option.bind_eq_some_iff.mp hroot
    obtain ⟨⟨table, result⟩, -, hroot⟩ := Option.bind_eq_some_iff.mp hroot
    split_ifs at hroot with hresult
    obtain rfl := Option.some.inj hroot
    intro other hother
    rcases Table.items_of_createItem hcreate hother with hnew | ⟨hinUse, -⟩
    · exact (congrArg DirectoryMeta.InBounds hnew).mpr (DirectoryMeta.inBounds_zero tuple)
    · exact absurd hinUse (hclear other)
  · obtain rfl := Option.some.inj hroot
    exact fun other hother ↦ absurd hother (hclear other)

/-- The records and their copies stay in bounds while each creation that adds a name finds room for
it. Where one does not, the next write goes beyond its copy. -/
theorem records_in_bounds (hinit : Initialized F s₀)
    (hrun : Reachable s₀ (Step F) (HasSpace F) s) : InBounds F s ∧
      ∀ t, ¬HasSpace F s (.step t) → ∃ s', Step F s (.step t) s' ∧ ¬InBounds F s' := by
  have hbounded := hrun.invariant (Bounded F) hinit.bounded fun σ e σ' _ h hok hstep ↦
    h.step hok hstep
  refine ⟨hbounded.inBounds, fun t hfull ↦ ?_⟩
  rw [HasSpace] at hfull
  split at hfull
  · next call tx hpc =>
    push Not at hfull
    obtain ⟨hholds, hnone, found, hread, hroom⟩ := hfull
    refine ⟨_, Step.copy hpc hholds hread, fun hinBounds ↦ ?_⟩
    have hcopy := hinBounds.copies t
    change Within F _ (Function.update s.pc t (.copied call tx (some found)) t) at hcopy
    rw [Function.update_self] at hcopy
    exact hroom (hcopy.2 hnone)
  · exact absurd trivial hfull

/-- A test of the room that a creation finds on the small server. -/
def roomFor (s : FileSystem Unit) : Event Unit → Bool
  | .start _ _ => true
  | .step t =>
    match s.pc t with
    | .parent call _ =>
      (s.readDirectory smallConfig (getParentDirectory call.path)).all fun found ↦
        found.all fun found ↦ decide (found.parentMeta.count < MAX_DIRECTORY_COUNT) &&
          (getNameFromPath call.path).all fun name ↦ decide (name.length < MAX_FILE_NAME_LENGTH)
    | _ => true

theorem hasSpace_of_test {s : FileSystem Unit} {e : Event Unit} (h : roomFor s e = true) :
    HasSpace smallConfig s e := by
  cases e with
  | start t call => trivial
  | step t =>
    rw [roomFor] at h
    rw [HasSpace]
    cases hpc : s.pc t with
    | parent call tx =>
      rw [hpc] at h
      intro _ _ found hread
      dsimp only at h
      rw [hread, Option.all_some, Option.all_some, Bool.and_eq_true, decide_eq_true_eq] at h
      refine ⟨h.1, fun name hname ↦ ?_⟩
      rw [hname, Option.all_some, decide_eq_true_eq] at h
      exact h.2
    | _ => trivial

/-- The root directory of the small server gets a name. -/
theorem records_in_bounds_one : ∃ s₀ s : FileSystem Unit, Initialized smallConfig s₀ ∧
    Reachable s₀ (Step smallConfig) (HasSpace smallConfig) s ∧
      (s.tableDirectoryMeta.items 0).count = 1 ∧ InBounds smallConfig s := by
  have hrun : ((rootServer Unit).bind fun s₀ ↦
      (s₀.execAll smallConfig roomFor (callOf () (.mkdircd [slash, 97]) 12)).map fun s ↦
        (s.tableDirectoryMeta.items 0).count) = some 1 := by
    decide +kernel
  obtain ⟨s₀, hroot, hrun⟩ := Option.bind_eq_some_iff.mp hrun
  obtain ⟨s, hexec, hcount⟩ := Option.map_eq_some_iff.mp hrun
  have hreachable : Reachable s₀ (Step smallConfig) (HasSpace smallConfig) s :=
    reachable_execAll (fun _ _ h ↦ hasSpace_of_test h) Reachable.init hexec
  exact ⟨s₀, s, rootServer_initialized hroot, hreachable, hcount,
    (records_in_bounds (rootServer_initialized hroot) hreachable).1⟩

/-- A creation whose path is canonical and has at most 254 characters. -/
def Creates (_ : FileSystem T) : Event T → Prop
  | .start _ call => call.creates = true ∧ PathStrings.Absolute call.path ∧ call.path.length ≤ 254
  | .step _ => True

/-- The events of a creation of `PathStrings.long 50`. -/
def makesLong : Event T → Bool
  | .start _ (.mkdircd path) => path == PathStrings.long 50
  | .start _ _ => false
  | .step _ => true

/-- Whether a thread has copied the record of the parent of `PathStrings.long 50`. -/
def copiesLong (s : FileSystem T) (t : T) : Bool :=
  match s.pc t with
  | .copied (.mkdircd path) _ (some _) => path == PathStrings.long 50
  | _ => false

/-- A name of 50 characters is copied to a record. -/
theorem record_overflows : ¬∀ (F : Config) (s₀ s : FileSystem Unit), Initialized F s₀ →
    Reachable s₀ (Step F) Creates s → InBounds F s := by
  intro h
  have hrun : ((rootServer Unit).bind fun s₀ ↦
      (s₀.execAll smallConfig (fun _ ↦ makesLong) (callOf () (.mkdircd (PathStrings.long 50)) 4)).map
        fun s ↦ (s.copiesLong (), s.lookup smallConfig (PathStrings.long 50))) =
          some (true, some none) := by
    decide +kernel
  obtain ⟨s₀, hroot, hrun⟩ := Option.bind_eq_some_iff.mp hrun
  obtain ⟨s, hexec, hresult⟩ := Option.map_eq_some_iff.mp hrun
  simp only [Prod.mk.injEq] at hresult
  obtain ⟨hcopied, hnone⟩ := hresult
  have hreachable : Reachable s₀ (Step smallConfig) Creates s := by
    refine reachable_execAll (fun _ e htest ↦ ?_) Reachable.init hexec
    rw [makesLong.eq_def] at htest
    split at htest
    · next t path =>
      obtain rfl := beq_iff_eq.mp htest
      exact ⟨rfl, (PathStrings.absolute_long (by decide)).1, by decide⟩
    · cases htest
    · trivial
  have hcopy := (h smallConfig s₀ s (rootServer_initialized hroot) hreachable).copies ()
  rw [copiesLong] at hcopied
  split at hcopied
  · next path tx found hpc =>
    obtain rfl := beq_iff_eq.mp hcopied
    rw [hpc] at hcopy
    have hname : getNameFromPath (PathStrings.long 50) = some (List.replicate 50 97) := by decide
    have hlength := (hcopy.2 hnone).name _ hname
    rw [List.length_replicate] at hlength
    exact absurd hlength (by decide)
  · cases hcopied

end FileSystem

end SwitchDelta.Fs
