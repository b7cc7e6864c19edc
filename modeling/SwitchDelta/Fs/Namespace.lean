import SwitchDelta.Fs.ServerExecution
import SwitchDelta.Fs.TableMap

/-!
# The namespace of the file system

A path is present if the hash table has it, and it is listed if the record of its parent directory has
its name. `mkdircd` first writes the name to the record, then makes the directory and puts it into the
hash table.

`Names` is the invariant of the runs in which only directories are made, no two calls with the same path
are in progress, and a record that is written back is the one that was read with the new name added. A
path that is present is listed, once, and what is listed has been written back by a call.
-/

set_option autoImplicit false
set_option relaxedAutoImplicit false

namespace SwitchDelta.Fs

open Foundation

/-! ### Paths -/

/-- The path of a name in a directory. -/
def join (directory name : Path) : Path :=
  if directory = [slash] then slash :: name else directory ++ slash :: name

/-- A path is that of its name in its parent directory. -/
def Canonical (path : Path) : Prop :=
  ∃ name, getNameFromPath path = some name ∧ path = join (getParentDirectory path) name

/-- A path as the calls assume it: the root, or a name in a directory. -/
def Valid (path : Path) : Prop := path = [slash] ∨ Canonical path

section

variable {path before after directory name : Path}

theorem splitLast_eq_none_iff : splitLast path = none ↔ slash ∉ path := by
  induction path with
  | nil => exact iff_of_true rfl List.not_mem_nil
  | cons c rest ih =>
    rw [splitLast, List.mem_cons, not_or]
    cases hrest : splitLast rest with
    | some parts =>
      rw [hrest] at ih
      exact iff_of_false (Option.some_ne_none _) fun hboth ↦ nomatch ih.mpr hboth.2
    | none =>
      rw [and_iff_left (ih.mp hrest)]
      by_cases hslash : c = slash
      · exact iff_of_false (by simp [hslash]) (not_not_intro hslash.symm)
      · exact iff_of_true (if_neg hslash) (Ne.symm hslash)

theorem splitLast_append (hafter : slash ∉ after) :
    splitLast (before ++ slash :: after) = some (before, after) := by
  induction before with
  | nil => rw [List.nil_append, splitLast, splitLast_eq_none_iff.mpr hafter, if_pos rfl]
  | cons c before ih => rw [List.cons_append, splitLast, ih]

theorem notMem_of_splitLast (h : splitLast path = some (before, after)) : slash ∉ after := by
  induction path generalizing before with
  | nil => cases h
  | cons c rest ih =>
    rw [splitLast] at h
    cases hrest : splitLast rest with
    | some parts =>
      rw [hrest] at h
      obtain ⟨-, rfl⟩ := Prod.mk.inj (Option.some.inj h)
      exact ih hrest
    | none =>
      rw [hrest] at h
      dsimp only at h
      split_ifs at h with hslash
      obtain ⟨-, rfl⟩ := Prod.mk.inj (Option.some.inj h)
      exact splitLast_eq_none_iff.mp hrest

theorem notMem_of_getNameFromPath (h : getNameFromPath path = some name) : slash ∉ name := by
  rw [getNameFromPath] at h
  split_ifs at h with hroot
  obtain ⟨parts, hparts, rfl⟩ := Option.map_eq_some_iff.mp h
  exact notMem_of_splitLast hparts

theorem getNameFromPath_root : getNameFromPath [slash] = none := if_pos rfl

theorem Canonical.ne_root (h : Canonical path) : path ≠ [slash] := by
  rintro rfl
  obtain ⟨name, hname, -⟩ := h
  exact nomatch getNameFromPath_root.symm.trans hname

/-- A canonical path is given by its parent directory and its name. -/
theorem Canonical.ext {other : Path} (h : Canonical path) (hother : Canonical other)
    (hparent : getParentDirectory path = getParentDirectory other)
    (hname : getNameFromPath path = getNameFromPath other) : path = other := by
  obtain ⟨name, hsome, hjoin⟩ := h
  obtain ⟨name', hsome', hjoin'⟩ := hother
  obtain rfl := Option.some.inj (hsome.symm.trans (hname.trans hsome'))
  rw [hjoin, hjoin', hparent]

theorem Canonical.ne_nil (h : Canonical path) : path ≠ [] := by
  rintro rfl
  obtain ⟨name, hname, -⟩ := h
  cases hname

/-- Where the last `/` of a joined path is. -/
theorem splitLast_join (hname : slash ∉ name) : splitLast (join directory name) =
    some (if directory = [slash] then [] else directory, name) := by
  rw [join]
  split_ifs with hroot
  · rw [← List.nil_append (slash :: name)]
    exact splitLast_append hname
  · exact splitLast_append hname

theorem getNameFromPath_join (hname : slash ∉ name) (hne : join directory name ≠ [slash]) :
    getNameFromPath (join directory name) = some name := by
  rw [getNameFromPath, if_neg hne, splitLast_join hname]
  rfl

theorem getParentDirectory_join (hname : slash ∉ name) (hne : join directory name ≠ [slash])
    (hdirectory : directory ≠ []) : getParentDirectory (join directory name) = directory := by
  rw [getParentDirectory, if_neg hne, splitLast_join hname]
  dsimp only
  by_cases hroot : directory = [slash]
  · rw [if_pos hroot, if_pos rfl, hroot]
  · rw [if_neg hroot, if_neg hdirectory]

end

/-! ### Records -/

/-- The entries of a record. -/
def DirectoryMeta.entries (m : DirectoryMeta) : List DirectoryMetaTuple :=
  (List.range m.count).map m.tuple

theorem DirectoryMeta.entries_add (m : DirectoryMeta) (entry : DirectoryMetaTuple) :
    (m.add entry).entries = m.entries ++ [entry] := by
  have hold : ∀ i ∈ List.range m.count, (m.add entry).tuple i = m.tuple i := fun i hi ↦
    Function.update_of_ne (List.mem_range.mp hi).ne _ _
  have hnew : (m.add entry).tuple m.count = entry := Function.update_self _ _ _
  rw [entries, add, List.range_succ, List.map_append, List.map_singleton]
  exact congrArg₂ (· ++ ·) (List.map_congr_left hold) (congrArg (fun e ↦ [e]) hnew)

/-! ### The invariant -/

namespace FileSystem

variable {T : Type}

/-- The entries of the record with the given index. -/
def record (s : FileSystem T) (index : ℕ) : List DirectoryMetaTuple :=
  (s.tableDirectoryMeta.items index).entries

variable (F : Config) (P : Set Path) (m : Contents)

/-- The name of a path is in the record of its parent directory. -/
def Listed (s : FileSystem T) (path : Path) : Prop :=
  Canonical path ∧ ∃ i, m.lookup (F.sha256 (getParentDirectory path)) = some (i, true) ∧
    ∃ name, getNameFromPath path = some name ∧ ⟨name, true⟩ ∈ s.record i.toNat

/-- What the tables hold. The contents of the hash table are `m`, and the paths are those of `P`. -/
structure Tree (s : FileSystem T) : Prop where
  hash : ∃ count chains, HashTable.Represents count s.hashtable m chains
  table : ∃ chain, s.tableDirectoryMeta.Chained chain
  total : s.tableDirectoryMeta.bitmapItems.varCountTotal ≤ 2 ^ 31
  directory : ∀ k e, m.lookup k = some e → e.2 = true ∧
    e.1.toNat < s.tableDirectoryMeta.bitmapItems.varCountTotal ∧
    s.tableDirectoryMeta.bitmapItems.bit e.1.toNat = true
  distinct : ∀ k k' e e', m.lookup k = some e → m.lookup k' = some e' → e.1.toNat = e'.1.toNat → k = k'
  listed : ∀ k e, m.lookup k = some e →
    ∃ path ∈ P, F.sha256 path = k ∧ (path = [slash] ∨ Listed F m s path)
  written : ∀ k e, m.lookup k = some e → ∀ entry ∈ s.record e.1.toNat, entry.isDirectories = true ∧
    ∃ path ∈ s.written, path ∈ P ∧ getParentDirectory path ∈ P ∧
      F.sha256 (getParentDirectory path) = k ∧ getNameFromPath path = some entry.names ∧
      Canonical path
  nodup : ∀ k e, m.lookup k = some e →
    ((s.record e.1.toNat).map DirectoryMetaTuple.names).Nodup

/-- A call as it should be: its path is valid, and the hash tells it and its parent from the others. -/
def Known (call : Call) : Prop :=
  call.path ∈ P ∧ getParentDirectory call.path ∈ P ∧ Valid call.path

/-- A copy was read from the record of the parent. -/
def Found (call : Call) (found : ParentMeta) : Prop :=
  ∃ i, m.lookup (F.sha256 (getParentDirectory call.path)) = some (i, true) ∧ found.index = i.toNat

/-- The call makes a directory whose path is not present yet. -/
def Creating (call : Call) : Prop :=
  Known P call ∧ (∃ path, call = .mkdircd path) ∧ Canonical call.path ∧
    m.lookup (F.sha256 call.path) = none

/-- A record that no path has yet. -/
def Fresh (s : FileSystem T) (index : ℕ) : Prop :=
  index < s.tableDirectoryMeta.bitmapItems.varCountTotal ∧
    s.tableDirectoryMeta.bitmapItems.bit index = true ∧ s.record index = [] ∧
    ∀ k e, m.lookup k = some e → e.1.toNat ≠ index

/-- The directory of a call that succeeds is listed. -/
def Succeeds (s : FileSystem T) (call : Call) (result : Bool) : Prop :=
  result = true → ∀ path, call = .mkdircd path → Listed F m s path

/-- What a thread knows. -/
def Thread (s : FileSystem T) : Pc → Prop
  | .idle => True
  | .entered call => Known P call
  | .began call _ => Known P call
  | .parent call _ => Known P call
  | .copied call _ found => Known P call ∧ ∀ f, found = some f → Found F m call f
  | .read call _ found => Known P call ∧ ∀ f, found = some f → Found F m call f
  | .extended call _ found entry => Creating F P m call ∧ Found F m call found ∧
      getNameFromPath call.path = some entry.names ∧ entry.isDirectories = true
  | .logged call _ found entry => Creating F P m call ∧ Found F m call found ∧
      getNameFromPath call.path = some entry.names ∧ entry.isDirectories = true
  | .updated call _ => Creating F P m call ∧ Listed F m s call.path
  | .created call _ index => Creating F P m call ∧ Listed F m s call.path ∧ Fresh m s index
  | .decided call _ result => Known P call ∧ Succeeds F m s call result
  | .leaving call _ result => Known P call ∧ Succeeds F m s call result

/-- The invariant. -/
structure Names (s : FileSystem T) : Prop where
  tree : Tree F P m s
  thread : ∀ t, Thread F P m s (s.pc t)
  apart : ∀ t t' call call', (s.pc t).call = some call → (s.pc t').call = some call' →
    call.path = call'.path → t = t'
  fresh : ∀ t t' call call' tx tx' index, s.pc t = .created call tx index →
    s.pc t' = .created call' tx' index → t = t'
  returned : ∀ r ∈ s.returned, Succeeds F m s r.call r.result

/-- What has to hold where a thread takes a step. -/
def Careful (s : FileSystem T) : Event T → Prop
  | .start _ call => Known P call ∧
      ∀ t call', (s.pc t).call = some call' → call'.path ≠ call.path
  | .step t =>
    match s.pc t with
    | .read call _ (some _) => s.lookup F call.path = some none → ∃ path, call = .mkdircd path
    | .logged call _ found _ =>
      s.tableDirectoryMeta.items found.index = found.parentMeta ∧ call.path ∉ s.written
    | .updated _ _ => ∃ index, s.tableDirectoryMeta.Free index
    | _ => True

/-! ### Growth -/

/-- What is present stays present, and what is in its record stays there. -/
structure Grows (m m' : Contents) (s s' : FileSystem T) : Prop where
  lookup : ∀ k e, m.lookup k = some e → m'.lookup k = some e
  record : ∀ k e, m.lookup k = some e → ∀ entry ∈ s.record e.1.toNat, entry ∈ s'.record e.1.toNat

variable {F P m} {m' : Contents} {s s' : FileSystem T} {path : Path} {call : Call} {found : ParentMeta}
  {result : Bool} {pc : Pc}

theorem Grows.of_eq (htable : s'.tableDirectoryMeta = s.tableDirectoryMeta) : Grows m m s s' where
  lookup _ _ h := h
  record _ _ _ entry hentry := by
    rw [FileSystem.record, htable]
    exact hentry

theorem Listed.mono (h : Listed F m s path) (hgrows : Grows m m' s s') : Listed F m' s' path := by
  obtain ⟨hcanonical, i, hi, name, hname, hentry⟩ := h
  exact ⟨hcanonical, i, hgrows.lookup _ _ hi, name, hname, hgrows.record _ _ hi _ hentry⟩

theorem Found.mono (h : Found F m call found) (hgrows : Grows m m' s s') :
    Found F m' call found := by
  obtain ⟨i, hi, hindex⟩ := h
  exact ⟨i, hgrows.lookup _ _ hi, hindex⟩

theorem Succeeds.mono (h : Succeeds F m s call result) (hgrows : Grows m m' s s') :
    Succeeds F m' s' call result := fun hresult path hpath ↦
  (h hresult path hpath).mono hgrows

theorem Thread.mono (h : Thread F P m s pc) (hgrows : Grows m m' s s')
    (habsent : ∀ call, pc.call = some call → m.lookup (F.sha256 call.path) = none →
      m'.lookup (F.sha256 call.path) = none)
    (hfresh : ∀ call tx index, pc = .created call tx index → Fresh m s index →
      Fresh m' s' index) : Thread F P m' s' pc := by
  have hcreating {call : Call} (hcall : pc.call = some call) (h : Creating F P m call) :
      Creating F P m' call := ⟨h.1, h.2.1, h.2.2.1, habsent call hcall h.2.2.2⟩
  cases pc with
  | idle => trivial
  | entered call => exact h
  | began call tx => exact h
  | parent call tx => exact h
  | copied call tx found => exact ⟨h.1, fun f hf ↦ (h.2 f hf).mono hgrows⟩
  | read call tx found => exact ⟨h.1, fun f hf ↦ (h.2 f hf).mono hgrows⟩
  | extended call tx found entry => exact ⟨hcreating rfl h.1, h.2.1.mono hgrows, h.2.2⟩
  | logged call tx found entry => exact ⟨hcreating rfl h.1, h.2.1.mono hgrows, h.2.2⟩
  | updated call tx => exact ⟨hcreating rfl h.1, h.2.mono hgrows⟩
  | created call tx index =>
    exact ⟨hcreating rfl h.1, h.2.1.mono hgrows, hfresh call tx index rfl h.2.2⟩
  | decided call tx result => exact ⟨h.1, h.2.mono hgrows⟩
  | leaving call tx result => exact ⟨h.1, h.2.mono hgrows⟩

/-- The call of a thread is as it should be. -/
theorem Thread.known (h : Thread F P m s pc) (hcall : pc.call = some call) : Known P call := by
  cases pc with
  | idle => cases hcall
  | entered call' => exact Option.some.inj hcall ▸ h
  | began call' tx => exact Option.some.inj hcall ▸ h
  | parent call' tx => exact Option.some.inj hcall ▸ h
  | copied call' tx found => exact Option.some.inj hcall ▸ h.1
  | read call' tx found => exact Option.some.inj hcall ▸ h.1
  | extended call' tx found entry => exact Option.some.inj hcall ▸ h.1.1
  | logged call' tx found entry => exact Option.some.inj hcall ▸ h.1.1
  | updated call' tx => exact Option.some.inj hcall ▸ h.1.1
  | created call' tx index => exact Option.some.inj hcall ▸ h.1.1
  | decided call' tx result => exact Option.some.inj hcall ▸ h.1
  | leaving call' tx result => exact Option.some.inj hcall ▸ h.1

/-- The tables are the same, and so is what has been written back. -/
theorem Tree.congr (h : Tree F P m s) (hhash : s'.hashtable = s.hashtable)
    (htable : s'.tableDirectoryMeta = s.tableDirectoryMeta) (hwritten : s'.written = s.written) :
    Tree F P m s' := by
  have hgrows : Grows m m s s' := Grows.of_eq htable
  have hrecord : s'.record = s.record := by
    funext index
    rw [record, htable]
    rfl
  refine ⟨hhash ▸ h.hash, htable ▸ h.table, htable ▸ h.total, htable ▸ h.directory, h.distinct,
    fun k e he ↦ ?_, ?_, hrecord ▸ h.nodup⟩
  · obtain ⟨path, hpath, hk, hlisted⟩ := h.listed k e he
    exact ⟨path, hpath, hk, hlisted.imp_right fun hlisted ↦ hlisted.mono hgrows⟩
  · rw [hrecord, hwritten]
    exact h.written

variable [DecidableEq T] {t : T}

/-- A thread takes a step. What the others know is kept. -/
theorem Names.move (h : Names F P m s) (htree : Tree F P m' s') (hgrows : Grows m m' s s')
    (hpc : s'.pc = Function.update s.pc t pc) (hthread : Thread F P m' s' pc)
    (habsent : ∀ t' ≠ t, ∀ call, (s.pc t').call = some call →
      m.lookup (F.sha256 call.path) = none → m'.lookup (F.sha256 call.path) = none)
    (hfresh : ∀ t' ≠ t, ∀ call tx index, s.pc t' = .created call tx index → Fresh m s index →
      Fresh m' s' index ∧ ∀ call' tx', pc ≠ .created call' tx' index)
    (hcall : ∀ call, pc.call = some call → (s.pc t).call = some call ∨
      ∀ t' call', (s.pc t').call = some call' → call'.path ≠ call.path)
    (hreturned : ∀ r ∈ s'.returned, r ∈ s.returned ∨ Succeeds F m' s' r.call r.result) :
    Names F P m' s' := by
  have hself : s'.pc t = pc := by rw [hpc, Function.update_self]
  have hother (t' : T) (ht : t' ≠ t) : s'.pc t' = s.pc t' := by
    rw [hpc, Function.update_of_ne ht]
  -- the call of the thread has a path of its own
  have halone (t' : T) (ht : t' ≠ t) (call call' : Call) (hc : pc.call = some call)
      (hc' : (s.pc t').call = some call') : call.path ≠ call'.path := by
    rcases hcall call hc with hsame | hnew
    · exact fun hpath ↦ ht (h.apart t t' call call' hsame hc' hpath).symm
    · exact (hnew t' call' hc').symm
  refine ⟨htree, fun t' ↦ ?_, fun t₁ t₂ c₁ c₂ hc₁ hc₂ hpath ↦ ?_,
    fun t₁ t₂ c₁ c₂ tx₁ tx₂ index hc₁ hc₂ ↦ ?_, fun r hr ↦ ?_⟩
  · by_cases ht : t' = t
    · rw [ht, hself]
      exact hthread
    · rw [hother t' ht]
      exact (h.thread t').mono hgrows (habsent t' ht) fun call tx index hcreated hold ↦
        (hfresh t' ht call tx index hcreated hold).1
  · by_cases ht₁ : t₁ = t
    · by_cases ht₂ : t₂ = t
      · exact ht₁.trans ht₂.symm
      · rw [ht₁, hself] at hc₁
        rw [hother t₂ ht₂] at hc₂
        exact absurd hpath (halone t₂ ht₂ c₁ c₂ hc₁ hc₂)
    · rw [hother t₁ ht₁] at hc₁
      by_cases ht₂ : t₂ = t
      · rw [ht₂, hself] at hc₂
        exact absurd hpath.symm (halone t₁ ht₁ c₂ c₁ hc₂ hc₁)
      · rw [hother t₂ ht₂] at hc₂
        exact h.apart t₁ t₂ c₁ c₂ hc₁ hc₂ hpath
  · have hold (t' : T) (ht : t' ≠ t) {c c' : Call} {tx tx' : LocalTx}
        (hc : s.pc t' = .created c tx index) (hpc : pc = .created c' tx' index) : False := by
      have hthread := h.thread t'
      rw [hc] at hthread
      exact (hfresh t' ht c tx index hc hthread.2.2).2 c' tx' hpc
    by_cases ht₁ : t₁ = t
    · by_cases ht₂ : t₂ = t
      · exact ht₁.trans ht₂.symm
      · rw [ht₁, hself] at hc₁
        rw [hother t₂ ht₂] at hc₂
        exact (hold t₂ ht₂ hc₂ hc₁).elim
    · rw [hother t₁ ht₁] at hc₁
      by_cases ht₂ : t₂ = t
      · rw [ht₂, hself] at hc₂
        exact (hold t₁ ht₁ hc₁ hc₂).elim
      · rw [hother t₂ ht₂] at hc₂
        exact h.fresh t₁ t₂ c₁ c₂ tx₁ tx₂ index hc₁ hc₂
  · rcases hreturned r hr with hr | hr
    · exact (h.returned r hr).mono hgrows
    · exact hr

/-- A thread goes on and leaves the tables alone. -/
theorem Names.goto (h : Names F P m s) (hhash : s'.hashtable = s.hashtable)
    (htable : s'.tableDirectoryMeta = s.tableDirectoryMeta) (hwritten : s'.written = s.written)
    (hpc : s'.pc = Function.update s.pc t pc) (hthread : Thread F P m s pc)
    (hcreated : ∀ call tx index, pc ≠ .created call tx index)
    (hcall : ∀ call, pc.call = some call → (s.pc t).call = some call ∨
      ∀ t' call', (s.pc t').call = some call' → call'.path ≠ call.path)
    (hreturned : ∀ r ∈ s'.returned, r ∈ s.returned ∨ Succeeds F m s r.call r.result) :
    Names F P m s' := by
  have hgrows : Grows m m s s' := Grows.of_eq htable
  have hfresh (index : ℕ) (hindex : Fresh m s index) : Fresh m s' index := by
    rw [Fresh, record, htable]
    exact hindex
  refine h.move (h.tree.congr hhash htable hwritten) hgrows hpc
    (hthread.mono hgrows (fun _ _ hnone ↦ hnone) fun _ _ index _ ↦ hfresh index)
    (fun _ _ _ _ hnone ↦ hnone)
    (fun t' ht call tx index _ hold ↦ ⟨hfresh index hold, fun call' tx' ↦ hcreated call' tx' index⟩)
    hcall fun r hr ↦ (hreturned r hr).imp_right fun hsucceeds ↦ hsucceeds.mono hgrows

/-- A thread goes on with its call. -/
theorem Names.advance (h : Names F P m s) {before : Pc} (hhash : s'.hashtable = s.hashtable)
    (htable : s'.tableDirectoryMeta = s.tableDirectoryMeta) (hwritten : s'.written = s.written)
    (hreturned : s'.returned = s.returned) (hbefore : s.pc t = before)
    (hpc : s'.pc = Function.update s.pc t pc) (hcall : pc.call = before.call)
    (hcreated : ∀ call tx index, pc ≠ .created call tx index)
    (hthread : Thread F P m s before → Thread F P m s pc) : Names F P m s' := by
  refine h.goto hhash htable hwritten hpc (hthread (hbefore ▸ h.thread t)) hcreated
    (fun call hsome ↦ Or.inl ?_) fun r hr ↦ Or.inl (hreturned ▸ hr)
  rw [hbefore, ← hcall]
  exact hsome

omit [DecidableEq T] in
/-- No thread goes on, and the tables are left alone. -/
theorem Names.same (h : Names F P m s) (hhash : s'.hashtable = s.hashtable)
    (htable : s'.tableDirectoryMeta = s.tableDirectoryMeta) (hwritten : s'.written = s.written)
    (hreturned : s'.returned = s.returned) (hpc : s'.pc = s.pc) : Names F P m s' := by
  have hgrows : Grows m m s s' := Grows.of_eq htable
  refine ⟨h.tree.congr hhash htable hwritten, fun t ↦ ?_, hpc ▸ h.apart, hpc ▸ h.fresh, ?_⟩
  · rw [hpc]
    refine (h.thread t).mono hgrows (fun _ _ hnone ↦ hnone) fun call tx index _ hold ↦ ?_
    rw [Fresh, record, htable]
    exact hold
  · rw [hreturned]
    exact fun r hr ↦ (h.returned r hr).mono hgrows

/-! ### The steps -/

/-- `updateRemoteMeta`. The record is still the one that was read. -/
theorem Names.update (h : Names F P m s) (hP : Set.InjOn F.sha256 P) {tx : LocalTx}
    {entry : DirectoryMetaTuple} (hpc : s.pc t = .logged (.mkdircd path) tx found entry)
    (hcurrent : s.tableDirectoryMeta.items found.index = found.parentMeta)
    (hnew : path ∉ s.written) :
    Names F P m { s.goto t (.updated (.mkdircd path) tx) with
      tableDirectoryMeta :=
        { s.tableDirectoryMeta with
          items := Function.update s.tableDirectoryMeta.items found.index
            (found.parentMeta.add entry) }
      written := s.written ++ [path] } := by
  set s' : FileSystem T := { s.goto t (.updated (.mkdircd path) tx) with
    tableDirectoryMeta :=
      { s.tableDirectoryMeta with
        items := Function.update s.tableDirectoryMeta.items found.index
          (found.parentMeta.add entry) }
    written := s.written ++ [path] } with hs'
  have hthread := h.thread t
  rw [hpc] at hthread
  obtain ⟨⟨⟨hpath, hparent, -⟩, -, hcanonical, habsent⟩, ⟨i, hi, hindex⟩, hname, hflag⟩ := hthread
  have hself : s'.record found.index = s.record found.index ++ [entry] := by
    rw [record, record, hcurrent, ← DirectoryMeta.entries_add]
    exact congrArg DirectoryMeta.entries (Function.update_self _ _ _)
  have hother (index : ℕ) (hne : index ≠ found.index) : s'.record index = s.record index :=
    congrArg DirectoryMeta.entries (Function.update_of_ne hne _ _)
  have hgrows : Grows m m s s' := by
    refine ⟨fun _ _ he ↦ he, fun k e he old hold ↦ ?_⟩
    by_cases hsame : e.1.toNat = found.index
    · rw [hsame, hself]
      exact List.mem_append_left _ (hsame ▸ hold)
    · rw [hother _ hsame]
      exact hold
  -- the record of which directory is written
  have howner (k : UniqueHash) (e : UInt64 × Bool) (he : m.lookup k = some e)
      (hsame : e.1.toNat = found.index) : F.sha256 (getParentDirectory path) = k :=
    h.tree.distinct _ _ _ _ hi he (hindex.symm.trans hsame.symm)
  have hlisted : Listed F m s' path := by
    refine ⟨hcanonical, i, hi, entry.names, hname, ?_⟩
    rw [← hindex, hself, ← hflag]
    exact List.mem_append_right _ List.mem_cons_self
  have hfresh (index : ℕ) (hold : Fresh m s index) : Fresh m s' index := by
    obtain ⟨hbound, hset, hrecord, hunused⟩ := hold
    refine ⟨hbound, hset, ?_, hunused⟩
    rw [hother index fun heq ↦ hunused _ _ hi (hindex.symm.trans heq.symm)]
    exact hrecord
  have htree : Tree F P m s' := by
    obtain ⟨chain, hchain⟩ := h.tree.table
    refine ⟨h.tree.hash, ⟨chain, hchain.leads, hchain.nodes, hchain.positions, hchain.mem_positions,
      hchain.countFree, hchain.unlocked⟩, h.tree.total, h.tree.directory, h.tree.distinct,
      fun k e he ↦ ?_, fun k e he old hold ↦ ?_, fun k e he ↦ ?_⟩
    · obtain ⟨q, hq, hk, hlisted⟩ := h.tree.listed k e he
      exact ⟨q, hq, hk, hlisted.imp_right fun hlisted ↦ hlisted.mono hgrows⟩
    · have hbefore (hold : old ∈ s.record e.1.toNat) : old.isDirectories = true ∧
          ∃ q ∈ s'.written, q ∈ P ∧ getParentDirectory q ∈ P ∧
            F.sha256 (getParentDirectory q) = k ∧ getNameFromPath q = some old.names ∧
            Canonical q := by
        obtain ⟨hold, q, hq, hrest⟩ := h.tree.written k e he old hold
        exact ⟨hold, q, List.mem_append_left _ hq, hrest⟩
      by_cases hsame : e.1.toNat = found.index
      · rw [hsame, hself, List.mem_append, List.mem_singleton, ← hsame] at hold
        rcases hold with hold | rfl
        · exact hbefore hold
        · exact ⟨hflag, path, List.mem_append_right _ List.mem_cons_self, hpath, hparent,
            howner k e he hsame, hname, hcanonical⟩
      · rw [hother _ hsame] at hold
        exact hbefore hold
    · by_cases hsame : e.1.toNat = found.index
      · have hnodup := h.tree.nodup k e he
        rw [hsame] at hnodup ⊢
        rw [hself, List.map_append, List.map_singleton]
        refine hnodup.append (List.nodup_singleton _) (List.disjoint_singleton.mpr fun hmem ↦ ?_)
        -- a name that is in the record has been written for the same path
        obtain ⟨old, hold, hnames⟩ := List.mem_map.mp hmem
        obtain ⟨-, q, hq, -, hqparent, hqk, hqname, hqcanonical⟩ :=
          h.tree.written k e he old (hsame ▸ hold)
        have hparents : getParentDirectory q = getParentDirectory path :=
          hP hqparent hparent (hqk.trans (howner k e he hsame).symm)
        have heq : q = path :=
          hqcanonical.ext hcanonical hparents (by rw [hqname, hnames]; exact hname.symm)
        exact hnew (heq ▸ hq)
      · rw [hother _ hsame]
        exact h.tree.nodup k e he
  refine h.move htree hgrows rfl ⟨⟨⟨hpath, hparent, Or.inr hcanonical⟩, ⟨path, rfl⟩, hcanonical,
    habsent⟩, hlisted⟩ (fun _ _ _ _ hnone ↦ hnone)
    (fun t' _ call tx index _ hold ↦ ⟨hfresh index hold, fun _ _ ↦ nofun⟩)
    (fun call hcall ↦ Or.inl ?_) fun r hr ↦ Or.inl hr
  rw [hpc]
  exact hcall

omit [DecidableEq T] in
/-- A record is created. -/
theorem Tree.create (h : Tree F P m s) (s' : FileSystem T) {directories : Table DirectoryMeta}
    {reply : Option ℕ}
    {tuple : ℕ → DirectoryMetaTuple}
    (hcreate : s.tableDirectoryMeta.createItem true (some ⟨0, tuple⟩) = some (directories, reply))
    (hroom : ∃ index, s.tableDirectoryMeta.Free index) (hhash : s'.hashtable = s.hashtable)
    (htable : s'.tableDirectoryMeta = directories) (hwritten : s'.written = s.written) :
    Tree F P m s' ∧ Grows m m s s' ∧ ∃ index, reply = some index ∧ Fresh m s' index ∧
      ∀ other, Fresh m s other → Fresh m s' other ∧ other ≠ index := by
  subst htable
  obtain ⟨chain, hchain⟩ := h.table
  obtain ⟨directories, index, chain', hcreated, hfree, hchain', hbitmap⟩ :=
    hchain.creation (c := .item true (some ⟨0, tuple⟩)) rfl hroom
  obtain ⟨rfl, rfl⟩ := Prod.mk.inj (Option.some.inj (hcreate.symm.trans hcreated))
  have hitems := Table.createItem_items hcreate
  obtain ⟨-, hbits, -, htotal⟩ := Bitmap.set_of_clear hfree.1 hfree.2
  rw [← hbitmap] at hbits htotal
  have hself : s'.record index = [] := by
    rw [record, hitems, Function.update_self]
    rfl
  have hother (other : ℕ) (hne : other ≠ index) : s'.record other = s.record other := by
    rw [record, hitems, Function.update_of_ne hne]
    rfl
  have hused {other : ℕ} (hset : s.tableDirectoryMeta.bitmapItems.bit other = true) :
      other ≠ index := by
    rintro rfl
    exact Bool.false_ne_true (hfree.2.symm.trans hset)
  have hbit {other : ℕ} (hset : s.tableDirectoryMeta.bitmapItems.bit other = true) :
      s'.tableDirectoryMeta.bitmapItems.bit other = true := (hbits other).mpr (Or.inr hset)
  have hrecord (k : UniqueHash) (e : UInt64 × Bool) (he : m.lookup k = some e) :
      s'.record e.1.toNat = s.record e.1.toNat := hother _ (hused (h.directory k e he).2.2)
  have hgrows : Grows m m s s' := by
    refine ⟨fun _ _ he ↦ he, fun k e he old hold ↦ ?_⟩
    rw [hrecord k e he]
    exact hold
  refine ⟨⟨hhash ▸ h.hash, ⟨chain', hchain'⟩, htotal.trans_le h.total, fun k e he ↦ ?_, h.distinct,
    fun k e he ↦ ?_, fun k e he ↦ ?_, fun k e he ↦ ?_⟩, hgrows, index, rfl, ?_,
    fun other hold ↦ ?_⟩
  · obtain ⟨hflag, hbound, hset⟩ := h.directory k e he
    exact ⟨hflag, hbound.trans_eq htotal.symm, hbit hset⟩
  · obtain ⟨q, hq, hk, hlisted⟩ := h.listed k e he
    exact ⟨q, hq, hk, hlisted.imp_right fun hlisted ↦ hlisted.mono hgrows⟩
  · rw [hrecord k e he, hwritten]
    exact h.written k e he
  · rw [hrecord k e he]
    exact h.nodup k e he
  · refine ⟨hfree.1.trans_eq htotal.symm, (hbits index).mpr (Or.inl rfl), hself, fun k e he ↦ ?_⟩
    exact hused (h.directory k e he).2.2
  · obtain ⟨hbound, hset, hrecord, hunused⟩ := hold
    exact ⟨⟨hbound.trans_eq htotal.symm, hbit hset, (hother _ (hused hset)).trans hrecord,
      hunused⟩, hused hset⟩

omit [DecidableEq T] in
/-- A record that no path has yet is put under a path, where there is room for it. -/
theorem Tree.put (h : Tree F P m s) (s' : FileSystem T) {index : ℕ} {table : HashTable} (hpath : path ∈ P)
    (hlisted : path = [slash] ∨ Listed F m s path)
    (habsent : m.lookup (F.sha256 path) = none) (hfresh : Fresh m s index)
    (hput : s.hashtable.putAt (F.item path) (F.sha256 path) (UInt64.ofNat index) true =
      some (table, result)) (hhash : s'.hashtable = table)
    (htable : s'.tableDirectoryMeta = s.tableDirectoryMeta) (hwritten : s'.written = s.written) :
    result = false ∧ Tree F P m s' ∨
      ∃ m', Tree F P m' s' ∧ Grows m m' s s' ∧
        (∀ k ≠ F.sha256 path, m'.lookup k = m.lookup k) ∧
        ∀ other, other ≠ index → Fresh m s other → Fresh m' s' other := by
  subst hhash
  obtain ⟨hbound, hset, hempty, hunused⟩ := hfresh
  obtain ⟨count, chains, hrepresents⟩ := h.hash
  obtain ⟨table, chains', hput', hrepresents'⟩ :=
    hrepresents.putAt_eq (F.sha256 path) (UInt64.ofNat index, true)
  obtain ⟨rfl, hresult⟩ := Prod.mk.inj (Option.some.inj (hput'.symm.trans hput))
  have hindex : (UInt64.ofNat index).toNat = index :=
    Nat.mod_eq_of_lt (hbound.trans_le (h.total.trans (by norm_num)))
  have hrecords : s'.record = s.record := by
    funext index
    rw [record, htable]
    rfl
  rw [Contents.put] at hrepresents' hresult
  split_ifs at hrepresents' hresult with hroom
  · set m' := m.insert (F.sha256 path) (UInt64.ofNat index, true)
    have hself : m'.lookup (F.sha256 path) = some (UInt64.ofNat index, true) :=
      Finmap.lookup_insert _
    have hother (k : UniqueHash) (hk : k ≠ F.sha256 path) : m'.lookup k = m.lookup k :=
      Finmap.lookup_insert_of_ne _ hk
    have hcases (k : UniqueHash) (e : UInt64 × Bool) (he : m'.lookup k = some e) :
        k = F.sha256 path ∧ e = (UInt64.ofNat index, true) ∨ m.lookup k = some e := by
      by_cases hk : k = F.sha256 path
      · exact Or.inl ⟨hk, Option.some.inj (he.symm.trans (hk ▸ hself))⟩
      · exact Or.inr ((hother k hk).symm.trans he)
    have hgrows : Grows m m' s s' := by
      refine ⟨fun k e he ↦ ?_, fun k e _ old hold ↦ hrecords ▸ hold⟩
      rw [hother k (by rintro rfl; cases habsent.symm.trans he), he]
    have hrecord : s.record (UInt64.ofNat index).toNat = [] := by
      rw [hindex]
      exact hempty
    refine Or.inr ⟨m', ⟨⟨count, chains', hrepresents'⟩, htable ▸ h.table, htable ▸ h.total,
      fun k e he ↦ ?_, fun k k' e e' he he' hsame ↦ ?_, fun k e he ↦ ?_, fun k e he ↦ ?_,
      fun k e he ↦ ?_⟩, hgrows, hother, fun other hne hold ↦ ?_⟩
    · rw [htable]
      rcases hcases k e he with ⟨-, rfl⟩ | he
      · refine ⟨rfl, ?_⟩
        rw [hindex]
        exact ⟨hbound, hset⟩
      · exact h.directory k e he
    · rcases hcases k e he with ⟨rfl, rfl⟩ | he
      · rcases hcases k' e' he' with ⟨rfl, -⟩ | he'
        · rfl
        · exact absurd (hsame.symm.trans hindex) (hunused k' e' he')
      · rcases hcases k' e' he' with ⟨rfl, rfl⟩ | he'
        · exact absurd (hsame.trans hindex) (hunused k e he)
        · exact h.distinct k k' e e' he he' hsame
    · rcases hcases k e he with ⟨rfl, -⟩ | he
      · exact ⟨path, hpath, rfl, hlisted.imp_right fun hlisted ↦ hlisted.mono hgrows⟩
      · obtain ⟨q, hq, hk, hlisted⟩ := h.listed k e he
        exact ⟨q, hq, hk, hlisted.imp_right fun hlisted ↦ hlisted.mono hgrows⟩
    · rw [hrecords, hwritten]
      rcases hcases k e he with ⟨-, rfl⟩ | he
      · rw [hrecord]
        exact fun entry hentry ↦ absurd hentry List.not_mem_nil
      · exact h.written k e he
    · rw [hrecords]
      rcases hcases k e he with ⟨-, rfl⟩ | he
      · rw [hrecord]
        exact List.nodup_nil
      · exact h.nodup k e he
    · obtain ⟨hbound', hset', hrecord', hunused'⟩ := hold
      refine ⟨htable ▸ hbound', htable ▸ hset', hrecords ▸ hrecord', fun k e he ↦ ?_⟩
      rcases hcases k e he with ⟨-, rfl⟩ | he
      · rw [hindex]
        exact hne.symm
      · exact hunused' k e he
  · have hgrows : Grows m m s s' := Grows.of_eq htable
    refine Or.inl ⟨hresult.symm, ⟨count, chains', hrepresents'⟩, htable ▸ h.table, htable ▸ h.total,
      htable ▸ h.directory, h.distinct, fun k e he ↦ ?_, ?_, hrecords ▸ h.nodup⟩
    · obtain ⟨q, hq, hk, hlisted⟩ := h.listed k e he
      exact ⟨q, hq, hk, hlisted.imp_right fun hlisted ↦ hlisted.mono hgrows⟩
    · rw [hrecords, hwritten]
      exact h.written

/-- `Table::create` for a new directory, where an index is free. -/
theorem Names.createDirectory (h : Names F P m s) {tx : LocalTx}
    {directories : Table DirectoryMeta} {reply : Option ℕ} {tuple : ℕ → DirectoryMetaTuple}
    (hpc : s.pc t = .updated (.mkdircd path) tx)
    (hcreate : s.tableDirectoryMeta.createItem true (some ⟨0, tuple⟩) = some (directories, reply))
    (hroom : ∃ index, s.tableDirectoryMeta.Free index) :
    Names F P m { s.goto t (reply.elim (.decided (.mkdircd path) tx false)
      (.created (.mkdircd path) tx)) with tableDirectoryMeta := directories } := by
  have hthread := h.thread t
  rw [hpc] at hthread
  obtain ⟨hcreating, hlisted⟩ := hthread
  obtain ⟨htree, hgrows, index, rfl, hfresh, hothers⟩ := h.tree.create
    { s.goto t (reply.elim (.decided (.mkdircd path) tx false) (.created (.mkdircd path) tx)) with
      tableDirectoryMeta := directories } hcreate hroom rfl rfl rfl
  refine h.move htree hgrows rfl ⟨hcreating, hlisted.mono hgrows, hfresh⟩
    (fun _ _ _ _ hnone ↦ hnone) (fun t' _ call tx other _ hold ↦ ?_)
    (fun call hcall ↦ Or.inl ?_) fun r hr ↦ Or.inl hr
  · obtain ⟨hkept, hne⟩ := hothers other hold
    exact ⟨hkept, fun call' tx' heq ↦ hne (Pc.created.inj heq).2.2.symm⟩
  · rw [hpc]
    exact hcall

/-- `HashTable::put` for a new directory. -/
theorem Names.put (h : Names F P m s) (hP : Set.InjOn F.sha256 P) {tx : LocalTx} {index : ℕ}
    {table : HashTable}
    (hput : s.hashtable.putAt (F.item call.path) (F.sha256 call.path) (UInt64.ofNat index)
      (call matches .mkdircd _) = some (table, result)) (hpc : s.pc t = .created call tx index) :
    ∃ m', Names F P m' { s.goto t (.decided call tx result) with hashtable := table } := by
  have hthread := h.thread t
  rw [hpc] at hthread
  obtain ⟨⟨hknown, ⟨path, rfl⟩, hcanonical, habsent⟩, hlisted, hfresh⟩ := hthread
  have hcall (call : Call) (hcall : (Pc.decided (.mkdircd path) tx result).call = some call) :
      (s.pc t).call = some call := by
    rw [hpc]
    exact hcall
  rcases h.tree.put { s.goto t (.decided (.mkdircd path) tx result) with hashtable := table }
    hknown.1 (Or.inr hlisted) habsent hfresh hput rfl rfl rfl with
    ⟨rfl, htree⟩ | ⟨m', htree, hgrows, hother, hothers⟩
  · exact ⟨m, h.move htree (Grows.of_eq rfl) rfl ⟨hknown, fun hfalse ↦ nomatch hfalse⟩
      (fun _ _ _ _ hnone ↦ hnone) (fun _ _ _ _ _ _ hold ↦ ⟨hold, fun _ _ ↦ nofun⟩)
      (fun c hc ↦ Or.inl (hcall c hc)) fun r hr ↦ Or.inl hr⟩
  · refine ⟨m', h.move htree hgrows rfl ⟨hknown, fun _ q hq ↦ ?_⟩ (fun t' ht c hc hnone ↦ ?_)
      (fun t' ht c tx' other hc hold ↦ ⟨hothers other ?_ hold, fun _ _ ↦ nofun⟩)
      (fun c hc ↦ Or.inl (hcall c hc)) fun r hr ↦ Or.inl hr⟩
    · obtain rfl := Call.mkdircd.inj hq
      exact hlisted.mono hgrows
    · -- the other threads make other directories
      refine (hother _ fun hsame ↦ ht ?_).trans hnone
      have hpath : c.path = path := hP ((h.thread t').known hc).1 hknown.1 hsame
      exact h.apart t' t c (.mkdircd path) hc (by rw [hpc]; rfl) hpath
    · rintro rfl
      exact ht (h.fresh t' t _ _ _ _ _ hc hpc)

omit [DecidableEq T] in
theorem Names.lookup_eq (h : Names F P m s) (path : Path) :
    s.lookup F path = some (m.lookup (F.sha256 path)) := by
  obtain ⟨count, chains, hrepresents⟩ := h.tree.hash
  exact hrepresents.getAt_eq (F.sha256 path)

omit [DecidableEq T] in
/-- What `readDirectoryMeta` finds. -/
theorem Names.readDirectory_found (h : Names F P m s) {read : Option ParentMeta}
    (hread : s.readDirectory F (getParentDirectory call.path) = some read) (hfound : read = some found) :
    Found F m call found ∧ s.tableDirectoryMeta.items found.index = found.parentMeta := by
  rw [readDirectory, h.lookup_eq, Option.bind_some] at hread
  split at hread
  · next i hi =>
    obtain ⟨item, hitem, hread⟩ := Option.map_eq_some_iff.mp hread
    subst hfound
    obtain ⟨parentMeta, rfl, rfl⟩ := Option.map_eq_some_iff.mp hread
    refine ⟨⟨i, hi, rfl⟩, ?_⟩
    rw [Table.get] at hitem
    split_ifs at hitem
    split at hitem
    · exact Option.some.inj (Option.some.inj hitem)
    · cases hitem
  · cases hfound.symm.trans (Option.some.inj hread).symm

/-- A step keeps the invariant. -/
theorem Names.step (h : Names F P m s) (hP : Set.InjOn F.sha256 P) {e : Event T}
    (hok : Careful F P s e) (hstep : Step F s e s') : ∃ m', Names F P m' s' := by
  cases hstep with
  | @remote t call hpc hremote =>
    have hidle : s.pc = Function.update s.pc t .idle := by rw [← hpc, Function.update_eq_self]
    refine ⟨m, h.goto rfl rfl rfl hidle trivial (fun _ _ _ ↦ nofun) nofun fun r hr ↦ ?_⟩
    rcases List.mem_append.mp hr with hr | hr
    · exact Or.inl hr
    · rw [List.mem_singleton.mp hr]
      exact Or.inr nofun
  | start hpc hlocal hlock =>
    refine ⟨m, h.goto rfl rfl rfl rfl hok.1 (fun _ _ _ ↦ nofun) (fun call hcall ↦ Or.inr ?_)
      fun r hr ↦ Or.inl hr⟩
    obtain rfl := Option.some.inj hcall
    exact hok.2
  | swap hlock => exact ⟨m, h.same rfl rfl rfl rfl rfl⟩
  | check hlock => exact ⟨m, h.same rfl rfl rfl rfl rfl⟩
  | @body t call files result hpc hholds hbody =>
    refine ⟨m, h.advance rfl rfl rfl rfl hpc rfl rfl nofun fun hthread ↦ ⟨hthread, fun _ path hpath ↦ ?_⟩⟩
    subst hpath
    cases hbody
  | begin hpc hcreates hholds => exact ⟨m, h.advance rfl rfl rfl rfl hpc rfl rfl nofun id⟩
  | parentRemote hpc hremote =>
    exact ⟨m, h.advance rfl rfl rfl rfl hpc rfl rfl nofun fun hthread ↦ ⟨hthread, nofun⟩⟩
  | parentLock hpc hlocal hlock => exact ⟨m, h.advance rfl rfl rfl rfl hpc rfl rfl nofun id⟩
  | copy hpc hholds hread =>
    exact ⟨m, h.advance rfl rfl rfl rfl hpc rfl rfl nofun fun hthread ↦
      ⟨hthread, fun f hf ↦ (h.readDirectory_found hread hf).1⟩⟩
  | parentUnlock hpc hlock => exact ⟨m, h.advance rfl rfl rfl rfl hpc rfl rfl nofun id⟩
  | missing hpc =>
    exact ⟨m, h.advance rfl rfl rfl rfl hpc rfl rfl nofun fun hthread ↦ ⟨hthread.1, nofun⟩⟩
  | exist hpc hexists =>
    exact ⟨m, h.advance rfl rfl rfl rfl hpc rfl rfl nofun fun hthread ↦ ⟨hthread.1, nofun⟩⟩
  | @extend t call tx found entry hpc hmissing hcount hlength hname hflag =>
    refine ⟨m, h.advance rfl rfl rfl rfl hpc rfl rfl nofun fun ⟨hknown, hfound⟩ ↦ ?_⟩
    have habsent : m.lookup (F.sha256 call.path) = none :=
      Option.some.inj ((h.lookup_eq call.path).symm.trans hmissing)
    have hcanonical : Canonical call.path := by
      refine hknown.2.2.resolve_left fun hroot ↦ ?_
      obtain ⟨i, hi, -⟩ := hfound found rfl
      have hparent : getParentDirectory call.path = call.path := by
        rw [hroot]
        rfl
      rw [hparent, habsent] at hi
      cases hi
    rw [Careful, hpc] at hok
    obtain ⟨path, hpath⟩ := hok hmissing
    have hsome := hcanonical
    obtain ⟨name, hsome, -⟩ := hsome
    refine ⟨⟨hknown, ⟨path, hpath⟩, hcanonical, habsent⟩, hfound found rfl, ?_, hflag path hpath⟩
    rw [hsome, hname name hsome]
  | log hpc => exact ⟨m, h.advance rfl rfl rfl rfl hpc rfl rfl nofun id⟩
  | @update t path tx found entry hpc =>
    rw [Careful, hpc] at hok
    exact ⟨m, h.update hP hpc hok.1 hok.2⟩
  | @keep t path tx found entry hpc =>
    have hthread := h.thread t
    rw [hpc] at hthread
    obtain ⟨⟨-, ⟨other, hother⟩, -⟩, -⟩ := hthread
    cases hother
  | createDirectory tuple hpc hcreate =>
    rw [Careful, hpc] at hok
    exact ⟨m, h.createDirectory hpc hcreate hok⟩
  | @createFile t path tx files reply time tuple hpc hcreate =>
    have hthread := h.thread t
    rw [hpc] at hthread
    obtain ⟨⟨-, ⟨other, hother⟩, -⟩, -⟩ := hthread
    cases hother
  | put hpc hput => exact h.put hP hput hpc
  | commit hpc => exact ⟨m, h.advance rfl rfl rfl rfl hpc rfl rfl nofun id⟩
  | @leave t call tx result lock hpc hlock =>
    have hthread := h.thread t
    rw [hpc] at hthread
    have hidle : (s.locked t lock .idle).pc = Function.update s.pc t .idle := rfl
    refine ⟨m, h.goto rfl rfl rfl hidle trivial (fun _ _ _ ↦ nofun) nofun fun r hr ↦ ?_⟩
    rcases List.mem_append.mp hr with hr | hr
    · exact Or.inl hr
    · rw [List.mem_singleton.mp hr]
      exact Or.inr hthread.2

/-! ### The initial state -/

/-- A new server, with what `Storage` constructs over a buffer of zeros and what `rootInitialize` adds.
The constructor does not accept a table of no directories. -/
structure Initialized (F : Config) (s : FileSystem T) : Prop where
  tables : ∃ (count countDirectory size : ℕ) (items : ℕ → DirectoryMeta) (nodes : ℕ → ℕ)
    (hashtable : HashTable) (files : Table FileMeta) (directories : Table DirectoryMeta)
    (tuple : ℕ → DirectoryMetaTuple),
    HashTable.construct HashTable.Buffer.zeroed count = some hashtable ∧
      0 < countDirectory ∧ countDirectory ≤ 2 ^ 31 ∧ Function.Injective nodes ∧
      Table.construct countDirectory size (fun _ ↦ 0) items nodes = some directories ∧
      (init hashtable files directories).rootInitialize F tuple = some s

omit [DecidableEq T] in
theorem Initialized.names (h : Initialized F s) (hroot : [slash] ∈ P) :
    (∃ m, Names F P m s) ∧ (∀ t, s.pc t = .idle) ∧ s.started = [] ∧ s.written = [] ∧
      s.returned = [] := by
  obtain ⟨count, countDirectory, size, items, nodes, hashtable, files, directories, tuple, hhash,
    hpos, hbound, hnodes, htable, hinit⟩ := h.tables
  have hconstructed := Table.construct_constructed hbound hnodes htable
  have hempty : Tree F P ∅ (init hashtable files directories : FileSystem T) :=
    ⟨⟨count, _, HashTable.construct_represents hhash⟩, ⟨_, hconstructed.chained hbound hnodes⟩,
      hconstructed.total.trans_le hbound, nofun, nofun, nofun, nofun, nofun⟩
  have hnames {m : Contents} (htree : Tree F P m s) (hpc : ∀ t, s.pc t = .idle)
      (hreturned : s.returned = []) : Names F P m s := by
    refine ⟨htree, fun t ↦ ?_, fun t t' call call' hcall ↦ ?_,
      fun t t' call call' tx tx' index hc ↦ ?_, ?_⟩
    · rw [hpc]
      trivial
    · rw [hpc] at hcall
      cases hcall
    · rw [hpc] at hc
      cases hc
    · rw [hreturned]
      exact fun r hr ↦ absurd hr List.not_mem_nil
  rw [rootInitialize] at hinit
  split_ifs at hinit with hlocal
  · obtain ⟨⟨directories', reply⟩, hcreate, hinit⟩ := Option.bind_eq_some_iff.mp hinit
    obtain ⟨index, rfl, hinit⟩ := Option.bind_eq_some_iff.mp hinit
    obtain ⟨⟨table, result⟩, hput, hinit⟩ := Option.bind_eq_some_iff.mp hinit
    split_ifs at hinit with hresult
    obtain rfl : result = true := hresult
    obtain rfl := Option.some.inj hinit
    have hfree : ∃ index, directories.Free index :=
      ⟨0, hpos.trans_eq hconstructed.total.symm, hconstructed.clear 0⟩
    obtain ⟨hcreated, -, index', hindex, hfresh, -⟩ := hempty.create
      { init hashtable files directories with tableDirectoryMeta := directories' }
      hcreate hfree rfl rfl rfl
    obtain rfl := Option.some.inj hindex
    rcases hcreated.put
      { init hashtable files directories with
        tableDirectoryMeta := directories'
        hashtable := table }
      hroot (Or.inl rfl) rfl hfresh hput rfl rfl rfl with ⟨hfalse, -⟩ | ⟨m, htree, -⟩
    · cases hfalse
    · exact ⟨⟨m, hnames htree (fun _ ↦ rfl) rfl⟩, fun _ ↦ rfl, rfl, rfl, rfl⟩
  · obtain rfl := Option.some.inj hinit
    exact ⟨⟨∅, hnames hempty (fun _ ↦ rfl) rfl⟩, fun _ ↦ rfl, rfl, rfl, rfl⟩

end FileSystem

end SwitchDelta.Fs
