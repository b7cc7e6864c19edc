import SwitchDelta.Fs.Directories
import SwitchDelta.Fs.PathStrings
import SwitchDelta.Fs.SoloCalls

/-!
# Making the ancestors of a path

`stack_mkdir` of the server, with its recursion as a stack of frames. It makes the parent of its
path, after a call of itself for the parent if the parent's own parent does not exist.

`stack_mkdir_iff` says when it makes all ancestors, on a server that nobody else uses, with room in
all tables. The parent must not be the root: `mkdircd` of the root waits for a lock that it has
itself. The path has to fit in the buffers, and the name of every directory that is made in its
record. And no ancestor may be missing above one that exists, since the recursion ends there.
-/

set_option autoImplicit false
set_option relaxedAutoImplicit false

namespace SwitchDelta.Fs

open Foundation
open PathStrings (Absolute render_concat render_eq_root_iff)

/-! ### The ancestors -/

/-- The directory of the first components of a path. -/
def directoryOf (path : Path) (k : ℕ) : Path := render slash ((components slash path).take k)

/-- The number of the components of a path. -/
def depth (path : Path) : ℕ := (components slash path).length

variable {path : Path} {k : ℕ}

theorem pieces_take (path : Path) (k : ℕ) : Pieces slash ((components slash path).take k) :=
  fun piece hpiece ↦ pieces_components path piece (List.mem_of_mem_take hpiece)

theorem directoryOf_depth (h : Absolute path) : directoryOf path (depth path) = path := by
  rw [directoryOf, depth, List.take_length, ← h.eq_render]

theorem directoryOf_succ (hk : k < depth path) :
    directoryOf path (k + 1) = join (directoryOf path k) ((components slash path)[k]) := by
  rw [directoryOf, List.take_add_one, List.getElem?_eq_getElem hk]
  exact render_concat (pieces_take path k)

theorem directoryOf_ne_root (hk : k < depth path) : directoryOf path (k + 1) ≠ [slash] := by
  rw [directoryOf, ne_eq, render_eq_root_iff (pieces_take path (k + 1)), List.take_eq_nil_iff]
  rintro (hzero | hnil)
  · exact Nat.succ_ne_zero k hzero
  · rw [depth, hnil] at hk
    exact absurd hk (Nat.not_lt_zero k)

theorem slash_notMem (hk : k < depth path) : slash ∉ (components slash path)[k] :=
  (pieces_components path _ (List.getElem_mem hk)).2

theorem getParentDirectory_directoryOf (hk : k ≤ depth path) :
    getParentDirectory (directoryOf path k) = directoryOf path (k - 1) := by
  cases k with
  | zero => rfl
  | succ k =>
    have hne := directoryOf_ne_root hk
    rw [directoryOf_succ hk] at hne ⊢
    exact getParentDirectory_join (slash_notMem hk) hne (normal_render (pieces_take path k)).ne_nil

theorem depth_pos (h : Absolute path) (hroot : path ≠ [slash]) : 0 < depth path :=
  Nat.pos_of_ne_zero fun hzero ↦ hroot (h.eq_root_iff.mpr hzero)

/-- The parent is the root if the path has one component. -/
theorem parent_eq_root_iff (h : Absolute path) (hroot : path ≠ [slash]) :
    getParentDirectory path = [slash] ↔ depth path = 1 := by
  have hpos := depth_pos h hroot
  have hparent : getParentDirectory path = directoryOf path (depth path - 1) :=
    (congrArg getParentDirectory (directoryOf_depth h)).symm.trans
      (getParentDirectory_directoryOf le_rfl)
  rw [hparent, directoryOf, render_eq_root_iff (pieces_take path _), List.take_eq_nil_iff]
  constructor
  · rintro (hone | hnil)
    · omega
    · rw [depth, hnil] at hpos
      exact absurd hpos (Nat.not_lt_zero 0)
  · intro hone
    exact Or.inl (by rw [hone])

theorem directoryOf_length_le (h : Absolute path) (hk : k ≤ depth path) :
    (directoryOf path k).length ≤ path.length := by
  obtain ⟨d, hd⟩ := Nat.exists_eq_add_of_le hk
  induction d generalizing k with
  | zero => rw [← show depth path = k from hd, directoryOf_depth h]
  | succ d ih =>
    have hlt : k < depth path := by omega
    have hname := (pieces_components path _ (List.getElem_mem hlt)).1
    have hnext := ih (k := k + 1) hlt (by omega)
    rw [directoryOf_succ hlt] at hnext
    exact (PathStrings.join_length_lt hname).le.trans hnext

/-! ### The recursion -/

namespace FileSystem

/-- Where a call of `stack_mkdir` is. -/
inductive Stage
  /-- Before `access`. -/
  | called
  /-- In `access`, or after it. -/
  | accessing
  /-- In the recursive call, or after it. -/
  | recursing
  /-- In `mkdircd`, or after it. -/
  | making

/-- A call of `stack_mkdir`. -/
structure Frame where
  path : Path
  stage : Stage

/-- The server with the calls of `stack_mkdir` that one thread is in, the innermost one first. -/
structure StackCall (T : Type) where
  fs : FileSystem T
  frames : List Frame

variable {T : Type} [DecidableEq T] (F : Config) (t : T)

/-- The steps of the thread. The buffers for the two parents have 256 bytes, and `strcpy` of a
longer path has no meaning. -/
inductive StackStep : StackCall T → StackCall T → Prop
  | access {s s' : FileSystem T} {path : Path} {rest : List Frame} : s.pc t = .idle →
      path.length ≤ 255 →
      Step F s (.start t (.access (getParentDirectory (getParentDirectory path)))) s' →
      StackStep ⟨s, ⟨path, .called⟩ :: rest⟩ ⟨s', ⟨path, .accessing⟩ :: rest⟩
  | inner {s s' : FileSystem T} {frames : List Frame} : Solo F t s s' →
      StackStep ⟨s, frames⟩ ⟨s', frames⟩
  | recurse {s : FileSystem T} {path : Path} {rest : List Frame} {r : Returned} : s.pc t = .idle →
      s.returned.getLast? = some r → r.result = false →
      StackStep ⟨s, ⟨path, .accessing⟩ :: rest⟩
        ⟨s, ⟨getParentDirectory path, .called⟩ :: ⟨path, .recursing⟩ :: rest⟩
  | skip {s s' : FileSystem T} {path : Path} {rest : List Frame} {r : Returned} : s.pc t = .idle →
      s.returned.getLast? = some r → r.result = true →
      Step F s (.start t (.mkdircd (getParentDirectory path))) s' →
      StackStep ⟨s, ⟨path, .accessing⟩ :: rest⟩ ⟨s', ⟨path, .making⟩ :: rest⟩
  | make {s s' : FileSystem T} {path : Path} {rest : List Frame} : s.pc t = .idle →
      Step F s (.start t (.mkdircd (getParentDirectory path))) s' →
      StackStep ⟨s, ⟨path, .recursing⟩ :: rest⟩ ⟨s', ⟨path, .making⟩ :: rest⟩
  | leave {s : FileSystem T} {path : Path} {rest : List Frame} : s.pc t = .idle →
      StackStep ⟨s, ⟨path, .making⟩ :: rest⟩ ⟨s, rest⟩

/-- The call has returned, and every proper ancestor of the path is a directory. -/
def Created (path : Path) (c : StackCall T) : Prop :=
  c.frames = [] ∧ c.fs.pc t = .idle ∧ ∀ k < depth path, ∃ index,
    c.fs.lookup F (directoryOf path k) = some (some (index, true))

/-- The calls have no step, and have not all returned. -/
def Halted (c : StackCall T) : Prop := c.frames ≠ [] ∧ ∀ c', ¬StackStep F t c c'

variable {F} {t} {s s' σ : FileSystem T} {c c' : StackCall T} {frames rest : List Frame}
  {frame : Frame}

theorem Created.final (h : Created F t path c) : ¬StackStep F t c c' := by
  obtain ⟨hframes, hidle, -⟩ := h
  intro hstep
  cases hstep with
  | inner hsolo => exact hsolo.1 hidle
  | _ => cases hframes

/-- In a call of the file system, the steps are those of that call. -/
theorem StackStep.of_busy (hstep : StackStep F t ⟨s, frames⟩ c') (hbusy : s.pc t ≠ .idle) :
    ∃ s', Solo F t s s' ∧ c' = ⟨s', frames⟩ := by
  cases hstep with
  | inner hsolo => exact ⟨_, hsolo, rfl⟩
  | access hidle => exact absurd hidle hbusy
  | recurse hidle => exact absurd hidle hbusy
  | skip hidle => exact absurd hidle hbusy
  | make hidle => exact absurd hidle hbusy
  | leave hidle => exact absurd hidle hbusy

/-- What a call of the file system comes to. -/
theorem eventually_inner {Q : FileSystem T → Prop} {R : StackCall T → Prop}
    (h : Eventually (Solo F t) Q s) (hnext : ∀ σ, Q σ → Eventually (StackStep F t) R ⟨σ, frames⟩) :
    Eventually (StackStep F t) R ⟨s, frames⟩ := by
  have hinner : Eventually (StackStep F t) (fun c ↦ c.frames = frames ∧ Q c.fs) ⟨s, frames⟩ := by
    refine h.map (fun σ ↦ (⟨σ, frames⟩ : StackCall T)) (fun _ _ hsolo ↦ .inner hsolo)
      (fun σ σ₁ r hsolo hstep ↦ ?_) fun σ hσ ↦ ⟨rfl, hσ⟩
    obtain ⟨σ', hsolo', rfl⟩ := hstep.of_busy hsolo.1
    exact ⟨σ', hsolo', rfl⟩
  refine hinner.bind fun c ⟨hframes, hQ⟩ ↦ ?_
  obtain ⟨σ, frames'⟩ := c
  obtain rfl : frames' = frames := hframes
  exact hnext σ hQ

theorem Stuck.halted (h : Stuck F t s) : Halted F t ⟨s, frame :: rest⟩ := by
  refine ⟨List.cons_ne_nil _ _, fun c' hstep ↦ ?_⟩
  obtain ⟨s', hsolo, -⟩ := hstep.of_busy h.1
  exact h.2 s' hsolo

/-! ### The tables -/

/-- The ancestors that do not exist. -/
def missing (F : Config) (path : Path) (s : FileSystem T) : Finset ℕ :=
  (Finset.range (depth path)).filter fun k ↦ s.lookup F (directoryOf path k) = some none

/-- The tables are in order, and have room for the missing ancestors. -/
structure Roomy (F : Config) (path : Path) (s : FileSystem T) : Prop where
  hash : ∃ count m chains, HashTable.Represents count s.hashtable m chains
  table : ∃ chain, s.tableDirectoryMeta.Chained chain
  total : s.tableDirectoryMeta.bitmapItems.varCountTotal ≤ 2 ^ 64
  items : (missing F path s).card ≤ s.hashtable.headFreeBit.length
  records : (missing F path s).card ≤ s.tableDirectoryMeta.bitmapItems.varCountFree

/-- Before a call of `stack_mkdir`: the thread is in no call, the ancestors of the path are on this
node, their hash items are not locked and all different. The root is there, all ancestors that are
there are directories, and the record of one whose next one is missing is not full. -/
structure Prepared (F : Config) (s : FileSystem T) (t : T) (path : Path) : Prop where
  absolute : Absolute path
  not_root : path ≠ [slash]
  outside : s.Outside t
  checkLocal : ∀ k < depth path, F.checkLocal (directoryOf path k) = true
  free : ∀ k < depth path, s.lock.words (F.item (directoryOf path k)) = 0
  injective : ∀ j < depth path, ∀ k < depth path,
    F.item (directoryOf path j) = F.item (directoryOf path k) → j = k
  roomy : Roomy F path s
  root : s.lookup F [slash] ≠ some none
  directories : ∀ k < depth path, ∀ index isDirectory,
    s.lookup F (directoryOf path k) = some (some (index, isDirectory)) →
      isDirectory = true ∧ s.tableDirectoryMeta.InUse index.toNat
  space : ∀ k, k + 1 < depth path → s.lookup F (directoryOf path (k + 1)) = some none →
    ∀ index isDirectory, s.lookup F (directoryOf path k) = some (some (index, isDirectory)) →
      (s.tableDirectoryMeta.items index.toNat).count < MAX_DIRECTORY_COUNT

/-- The directories from the depth `b` to the depth `j` are there, and the other ancestors are as
they were. The record of the last one can take one more name, if one is missing. -/
structure Level (F : Config) (s : FileSystem T) (t : T) (path : Path) (b j : ℕ) (σ : FileSystem T) :
    Prop where
  idle : σ.pc t = .idle
  lock : s.lock.Restored σ.lock
  roomy : Roomy F path σ
  present : ∀ k, b ≤ k → k ≤ j →
    ∃ index, σ.lookup F (directoryOf path k) = some (some (index, true))
  others : ∀ k < depth path, k < b ∨ j < k →
    σ.lookup F (directoryOf path k) = s.lookup F (directoryOf path k)
  record : j + 1 < depth path → ∃ parentMeta,
    σ.readDirectory F (directoryOf path j) = some (some parentMeta) ∧
      (s.lookup F (directoryOf path (j + 1)) = some none →
        parentMeta.parentMeta.count < MAX_DIRECTORY_COUNT)

variable {b j : ℕ}

omit [DecidableEq T] in
theorem Roomy.exists_lookup (h : Roomy F path s) (p : Path) :
    ∃ found, s.lookup F p = some found := by
  obtain ⟨count, m, chains, hrepresents⟩ := h.hash
  exact ⟨_, hrepresents.getAt_eq (F.sha256 p)⟩

omit [DecidableEq T] in
theorem Roomy.same (h : Roomy F path s) (hsame : SameTables s s') : Roomy F path s' := by
  have hlookup (p : Path) : s'.lookup F p = s.lookup F p := hsame.lookup p
  obtain ⟨hhash, -, hdirectories⟩ := hsame
  have hmissing : missing F path s' = missing F path s :=
    Finset.filter_congr fun k _ ↦ by rw [hlookup]
  refine ⟨hhash ▸ h.hash, hdirectories ▸ h.table, hdirectories ▸ h.total, ?_, ?_⟩
  · rw [hmissing, hhash]
    exact h.items
  · rw [hmissing, hdirectories]
    exact h.records

omit [DecidableEq T] in
theorem Level.outside (h : Level F s t path b j σ) (hout : s.Outside t) : σ.Outside t :=
  ⟨h.idle, fun use ↦ by rw [h.lock.pc, hout.2 use]⟩

omit [DecidableEq T] in
theorem Level.free (h : Level F s t path b j σ) (hprepared : Prepared F s t path)
    (hk : k < depth path) : σ.lock.words (F.item (directoryOf path k)) = 0 := by
  rw [h.lock.words]
  exact hprepared.free k hk

omit [DecidableEq T] in
/-- A call that is over has changed nothing. -/
theorem Level.over (h : Level F s t path b j σ) (hover : Over σ t s') :
    Level F s t path b j s' := by
  refine ⟨hover.idle, ⟨hover.lock.words.trans h.lock.words, hover.lock.pc.trans h.lock.pc⟩,
    h.roomy.same hover.tables, fun k hb hj ↦ ?_, fun k hk hother ↦ ?_, fun hj ↦ ?_⟩
  · rw [hover.tables.lookup]
    exact h.present k hb hj
  · rw [hover.tables.lookup]
    exact h.others k hk hother
  · rw [hover.tables.readDirectory]
    exact h.record hj

omit [DecidableEq T] in
/-- The record of a directory that is there. -/
theorem readDirectory_of_inUse {p : Path} {index : UInt64} {chain : List (ℕ × ℕ)}
    (hchained : s.tableDirectoryMeta.Chained chain)
    (hlookup : s.lookup F p = some (some (index, true)))
    (hinUse : s.tableDirectoryMeta.InUse index.toNat) : s.readDirectory F p =
      some (some ⟨s.tableDirectoryMeta.items index.toNat, index.toNat⟩) := by
  rw [readDirectory, hlookup, Option.bind_some]
  dsimp only
  rw [Table.get_of_inUse hchained.unlocked hinUse]
  rfl

omit [DecidableEq T] in
/-- A prepared server, at the depth of a directory that is there. -/
theorem Prepared.level (h : Prepared F s t path) (hb : b < depth path)
    (hpresent : s.lookup F (directoryOf path b) ≠ some none) : Level F s t path b b s := by
  obtain ⟨found, hfound⟩ := h.roomy.exists_lookup (directoryOf path b)
  cases found with
  | none => exact absurd hfound hpresent
  | some entry =>
    obtain ⟨index, isDirectory⟩ := entry
    obtain ⟨rfl, hinUse⟩ := h.directories b hb index isDirectory hfound
    obtain ⟨chain, hchained⟩ := h.roomy.table
    refine ⟨h.outside.1, ⟨rfl, rfl⟩, h.roomy, fun k hk hk' ↦ ?_, fun _ _ _ ↦ rfl, fun hlast ↦ ?_⟩
    · obtain rfl : k = b := by omega
      exact ⟨index, hfound⟩
    · exact ⟨_, readDirectory_of_inUse hchained hfound hinUse, fun hnone ↦
        h.space b hlast hnone index true hfound⟩

omit [DecidableEq T] in
/-- A `put` of a path that is missing takes an item. -/
theorem Roomy.put {p : Path} {index : ℕ} {count : ℕ} {m : Contents}
    {chains : AddressHash → List ℕ} {table : HashTable}
    (hrepresents : HashTable.Represents count s.hashtable m chains)
    (habsent : s.lookup F p = some none)
    (hput : s.hashtable.putAt (F.item p) (F.sha256 p) (UInt64.ofNat index) true =
      some (table, true)) :
    ∃ chains', HashTable.Represents count table
      (m.insert (F.sha256 p) (UInt64.ofNat index, true)) chains' ∧
        table.headFreeBit.length + 1 = s.hashtable.headFreeBit.length := by
  have hnone : m.lookup (F.sha256 p) = none :=
    Option.some.inj ((hrepresents.getAt_eq (F.sha256 p)).symm.trans habsent)
  obtain ⟨table', chains', hput', hrepresents'⟩ :=
    hrepresents.putAt_eq (F.sha256 p) (UInt64.ofNat index, true)
  obtain ⟨rfl, hresult⟩ := Prod.mk.inj (Option.some.inj (hput'.symm.trans hput))
  rw [Contents.put] at hrepresents' hresult
  split_ifs at hrepresents' hresult with hroom
  refine ⟨chains', hrepresents', ?_⟩
  have hsize := hrepresents.size
  have hsize' := hrepresents'.size
  rw [Contents.keys_insert,
    Finset.card_insert_of_notMem (by rwa [Finmap.mem_keys, ← Finmap.lookup_eq_none])] at hsize'
  omega

omit [DecidableEq T] in
/-- While an item is free, `put` succeeds. -/
theorem Roomy.exists_put {p : Path} {count : ℕ} {m : Contents}
    {chains : AddressHash → List ℕ}
    (hrepresents : HashTable.Represents count s.hashtable m chains)
    (hfree : 0 < s.hashtable.headFreeBit.length) (index : ℕ) : ∃ table,
    s.hashtable.putAt (F.item p) (F.sha256 p) (UInt64.ofNat index) true = some (table, true) := by
  obtain ⟨table, chains', hput, -⟩ :=
    hrepresents.putAt_eq (F.sha256 p) (UInt64.ofNat index, true)
  have hroom := hrepresents.room_iff.mpr (List.length_pos_iff.mp hfree)
  rw [Contents.put, if_pos (Or.inr hroom)] at hput
  exact ⟨table, hput⟩

omit [DecidableEq T] in
/-- While a record is free, a directory is created. -/
theorem exists_create {chain : List (ℕ × ℕ)} (hchained : s.tableDirectoryMeta.Chained chain)
    (hfree : 0 < s.tableDirectoryMeta.bitmapItems.varCountFree) (parentMeta : ParentMeta)
    (entry : DirectoryMetaTuple) (p : Path) (tuple : ℕ → DirectoryMetaTuple) :
    ∃ directories index chain', (s.writeParent parentMeta entry (.mkdircd p)).createItem true
      (some ⟨0, tuple⟩) = some (directories, some index) ∧ s.tableDirectoryMeta.Free index ∧
        directories.Chained chain' ∧
          directories.bitmapItems = (s.tableDirectoryMeta.bitmapItems.set index).1 := by
  have hwritten : (s.writeParent parentMeta entry (.mkdircd p)).Chained chain :=
    ⟨hchained.leads, hchained.nodes, hchained.positions, hchained.mem_positions,
      hchained.countFree, hchained.unlocked⟩
  have hexists : ∃ index, (s.writeParent parentMeta entry (.mkdircd p)).Free index := by
    rw [hchained.countFree, List.length_pos_iff] at hfree
    obtain ⟨node, hnode⟩ := List.exists_mem_of_ne_nil chain hfree
    exact ⟨node.2, (hwritten.mem_positions node.2).mp (List.mem_map_of_mem hnode)⟩
  obtain ⟨directories, index, chain', hcreate, hindex, hchained', hbits⟩ :=
    hwritten.creation (c := .item true (some ⟨0, tuple⟩)) rfl hexists
  exact ⟨directories, index, chain', hcreate, hindex, hchained', hbits⟩

omit [DecidableEq T] in
/-- The hashes of two ancestors. -/
theorem Prepared.hash_ne (h : Prepared F s t path) (hj : j < depth path) (hk : k < depth path)
    (hne : k ≠ j) : F.sha256 (directoryOf path k) ≠ F.sha256 (directoryOf path j) :=
  fun heq ↦ hne (h.injective k hk j hj (congrArg HashTable.getAddressHash heq))

omit [DecidableEq T] in
/-- The next directory has been made. -/
theorem Level.make {parentMeta : ParentMeta} (h : Level F s t path b j σ)
    (hprepared : Prepared F s t path) (hj : j + 1 < depth path) (hb : b ≤ j)
    (habsent : s.lookup F (directoryOf path (j + 1)) = some none)
    (hmakes : Makes F σ t (directoryOf path (j + 1)) parentMeta s') :
    Level F s t path b (j + 1) s' := by
  obtain ⟨count, m, chains, hrepresents⟩ := h.roomy.hash
  obtain ⟨chain, hchained⟩ := h.roomy.table
  obtain ⟨entry, tuple, index, hcreate, hput⟩ := hmakes.tables
  have habsent' : σ.lookup F (directoryOf path (j + 1)) = some none :=
    (h.others (j + 1) hj (Or.inr (Nat.lt_succ_self j))).trans habsent
  have hmem : j + 1 ∈ missing F path σ := Finset.mem_filter.mpr ⟨Finset.mem_range.mpr hj, habsent'⟩
  have hpos := Finset.card_pos.mpr ⟨j + 1, hmem⟩
  -- the two tables after the call
  obtain ⟨chains', hrepresents', hlength⟩ := Roomy.put hrepresents habsent' hput
  obtain ⟨directories, index', chain', hcreate', hfree, hchained', hbits⟩ :=
    exists_create hchained (hpos.trans_le h.roomy.records) parentMeta entry
      (directoryOf path (j + 1)) tuple
  obtain ⟨rfl, hindex⟩ := Prod.mk.inj (Option.some.inj (hcreate'.symm.trans hcreate))
  obtain rfl := Option.some.inj hindex
  obtain ⟨-, hset, hcount, htotal⟩ := Bitmap.set_of_clear hfree.1 hfree.2
  rw [← hbits] at hset hcount htotal
  -- what the hash table has
  have hself : s'.lookup F (directoryOf path (j + 1)) = some (some (UInt64.ofNat index', true)) :=
    (hrepresents'.getAt_eq _).trans (congrArg some (Finmap.lookup_insert m))
  have hother (k : ℕ) (hk : k < depth path) (hne : k ≠ j + 1) :
      s'.lookup F (directoryOf path k) = σ.lookup F (directoryOf path k) :=
    (hrepresents'.getAt_eq _).trans <| (congrArg some <| Finmap.lookup_insert_of_ne m <|
      hprepared.hash_ne hj hk hne).trans (hrepresents.getAt_eq _).symm
  have hmissing : missing F path s' = (missing F path σ).erase (j + 1) := by
    ext k
    rw [missing, missing, Finset.mem_erase, Finset.mem_filter, Finset.mem_filter, Finset.mem_range]
    by_cases hne : k = j + 1
    · rw [hne, hself]
      simp
    · exact ⟨fun ⟨hk, hnone⟩ ↦ ⟨hne, hk, (hother k hk hne).symm.trans hnone⟩,
        fun ⟨_, hk, hnone⟩ ↦ ⟨hk, (hother k hk hne).trans hnone⟩⟩
  have hcard : (missing F path s').card = (missing F path σ).card - 1 :=
    hmissing ▸ Finset.card_erase_of_mem hmem
  have hitems := h.roomy.items
  have hrecords := h.roomy.records
  refine ⟨hmakes.idle, ⟨hmakes.lock.words.trans h.lock.words, hmakes.lock.pc.trans h.lock.pc⟩,
    ⟨⟨count, _, chains', hrepresents'⟩, ⟨chain', hchained'⟩, htotal ▸ h.roomy.total, by omega,
      by omega⟩, fun k hbk hkj ↦ ?_, fun k hk hbelow ↦ ?_, fun _ ↦ ?_⟩
  · by_cases hne : k = j + 1
    · exact ⟨_, hne ▸ hself⟩
    · obtain ⟨index, hindex⟩ := h.present k hbk (by omega)
      exact ⟨index, (hother k (by omega) hne).trans hindex⟩
  · rw [hother k hk (by omega)]
    exact h.others k hk (by omega)
  · -- the new directory has a record of its own
    have hbound : index' < 2 ^ 64 := hfree.1.trans_le h.roomy.total
    have hindex : (UInt64.ofNat index').toNat = index' := Nat.mod_eq_of_lt hbound
    have hinUse : s'.tableDirectoryMeta.InUse (UInt64.ofNat index').toNat := by
      rw [hindex]
      exact ⟨hfree.1.trans_eq htotal.symm, (hset index').mpr (Or.inl rfl)⟩
    refine ⟨_, readDirectory_of_inUse hchained' hself hinUse, fun _ ↦ ?_⟩
    rw [hindex, Table.createItem_items hcreate, Function.update_self]
    exact (by decide : 0 < MAX_DIRECTORY_COUNT)

omit [DecidableEq T] in
/-- The next directory is there, and is the last one. -/
theorem Level.exists (h : Level F s t path b j σ) (hprepared : Prepared F s t path)
    (hj : j + 2 = depth path) (hpresent : s.lookup F (directoryOf path (j + 1)) ≠ some none) :
    Level F s t path b (j + 1) σ := by
  obtain ⟨found, hfound⟩ := hprepared.roomy.exists_lookup (directoryOf path (j + 1))
  refine ⟨h.idle, h.lock, h.roomy, fun k hbk hkj ↦ ?_, fun k hk hbelow ↦ h.others k hk (by omega),
    fun hlast ↦ by omega⟩
  by_cases hne : k = j + 1
  · subst hne
    cases found with
    | none => exact absurd hfound hpresent
    | some entry =>
      obtain ⟨index, isDirectory⟩ := entry
      obtain ⟨rfl, -⟩ := hprepared.directories (j + 1) (by omega) index isDirectory hfound
      exact ⟨index, (h.others (j + 1) (by omega) (by omega)).trans hfound⟩
  · exact h.present k hbk (by omega)

/-! ### The calls -/

/-- The name of a directory fits in a record. -/
def Fits (path : Path) (k : ℕ) : Prop :=
  ∀ name, getNameFromPath (directoryOf path k) = some name → name.length < MAX_FILE_NAME_LENGTH

/-- The missing directories from the depth `b` to the depth `j` fit in their records. -/
def Fitting (F : Config) (s : FileSystem T) (path : Path) (b j : ℕ) : Prop :=
  ∀ k, b < k → k ≤ j → s.lookup F (directoryOf path k) = some none → Fits path k

/-- What a call of `stack_mkdir` comes to: it has returned and made the directories to the depth
`j`, or it has come to a name that does not fit. -/
def StackOutcome (F : Config) (s : FileSystem T) (t : T) (path : Path) (b j : ℕ) (rest : List Frame)
    (c : StackCall T) : Prop :=
  (c.frames = rest ∧ Level F s t path b j c.fs ∧ Fitting F s path b j) ∨
    (Halted F t c ∧ ¬Fitting F s path b j)

theorem exists_start {p : Path} (hout : s.Outside t) (hlocal : F.checkLocal p = true) :
    (∃ s', Step F s (.start t (.access p)) s') ∧ ∃ s', Step F s (.start t (.mkdircd p)) s' :=
  ⟨⟨_, .start hout.1 hlocal (LockService.Step.readLock (F.item p) (hout.2 .item))⟩,
    ⟨_, .start hout.1 hlocal (LockService.Step.writeLock (F.getNodeHash p).toUInt16 (F.item p)
      (hout.2 .item))⟩⟩

/-- The call of `mkdircd` at the end. -/
theorem making_returns (h : Level F s t path b j σ) (hprepared : Prepared F s t path)
    (hj : j + 1 < depth path) (hb : b ≤ j) (hfitting : Fitting F s path b j)
    (hlast : s.lookup F (directoryOf path (j + 1)) = some none ∨ j + 2 = depth path) {p : Path}
    (hstart : Step F σ (.start t (.mkdircd (directoryOf path (j + 1)))) s') :
    Eventually (StackStep F t) (StackOutcome F s t path b (j + 1) rest)
      ⟨s', ⟨p, .making⟩ :: rest⟩ := by
  have hout := h.outside hprepared.outside
  have hparent : getParentDirectory (directoryOf path (j + 1)) = directoryOf path j :=
    getParentDirectory_directoryOf hj.le
  have hlocal := hprepared.checkLocal (j + 1) hj
  have hlocal' : F.checkLocal (getParentDirectory (directoryOf path (j + 1))) = true := by
    rw [hparent]
    exact hprepared.checkLocal j (by omega)
  have hword := h.free hprepared hj
  have hword' : σ.lock.words (F.item (getParentDirectory (directoryOf path (j + 1)))) = 0 := by
    rw [hparent]
    exact h.free hprepared (by omega)
  have hne : F.item (getParentDirectory (directoryOf path (j + 1))) ≠
      F.item (directoryOf path (j + 1)) := by
    rw [hparent]
    intro heq
    have hsame := hprepared.injective j (by omega) (j + 1) hj heq
    omega
  obtain ⟨parentMeta, hread, hcount⟩ := h.record hj
  rw [← hparent] at hread
  -- the frame goes once the call has returned
  have hleave {σ' : FileSystem T} (hlevel : Level F s t path b (j + 1) σ')
      (hfits : Fitting F s path b (j + 1)) : Eventually (StackStep F t)
        (StackOutcome F s t path b (j + 1) rest) ⟨σ', ⟨p, .making⟩ :: rest⟩ := by
    refine .next ⟨_, .leave hlevel.idle⟩ fun c hstep ↦ ?_
    cases hstep with
    | inner hsolo => exact absurd hlevel.idle hsolo.1
    | leave _ => exact .done (Or.inl ⟨rfl, hlevel, hfits⟩)
  have hsame := h.others (j + 1) hj (Or.inr (Nat.lt_succ_self j))
  by_cases habsent : s.lookup F (directoryOf path (j + 1)) = some none
  · have hpos : 0 < (missing F path σ).card :=
      Finset.card_pos.mpr
        ⟨j + 1, Finset.mem_filter.mpr ⟨Finset.mem_range.mpr hj, hsame.trans habsent⟩⟩
    by_cases hfits : Fits path (j + 1)
    · obtain ⟨count, m, chains, hrepresents⟩ := h.roomy.hash
      obtain ⟨chain, hchained⟩ := h.roomy.table
      refine eventually_inner (mkdircd_makes hout hlocal hlocal' hword hword' hne hread
        (hsame.trans habsent) (hcount habsent) hfits (fun entry tuple ↦ ?_)
        (Roomy.exists_put hrepresents (hpos.trans_le h.roomy.items)) hstart) fun σ' hmakes ↦ ?_
      · obtain ⟨directories, index, -, hcreate, -⟩ := exists_create hchained
          (hpos.trans_le h.roomy.records) parentMeta entry (directoryOf path (j + 1)) tuple
        exact ⟨directories, index, hcreate⟩
      · refine hleave (h.make hprepared hj hb habsent hmakes) fun k hbk hkj ↦ ?_
        by_cases hk : k = j + 1
        · exact hk ▸ fun _ ↦ hfits
        · exact hfitting k hbk (by omega)
    · have hlong := hfits
      rw [Fits] at hlong
      push Not at hlong
      obtain ⟨name, hname, hlength⟩ := hlong
      refine eventually_inner (mkdircd_overflows hout hlocal hlocal' hword hword' hne hread
        (hsame.trans habsent) hname hlength hstart) fun σ' hstuck ↦ ?_
      exact .done (Or.inr ⟨hstuck.halted, fun hall ↦
        hfits (hall (j + 1) (by omega) le_rfl habsent)⟩)
  · obtain ⟨found, hfound⟩ := h.roomy.exists_lookup (directoryOf path (j + 1))
    cases found with
    | none => exact absurd (hsame.symm.trans hfound) habsent
    | some entry =>
      refine eventually_inner (mkdircd_exists hout hlocal hlocal' hword hword' hne hread hfound
        hstart) fun σ' hover ↦ ?_
      refine hleave ((h.over hover).exists hprepared (hlast.resolve_left habsent) habsent)
        fun k hbk hkj ↦ ?_
      by_cases hk : k = j + 1
      · exact hk ▸ fun hnone ↦ absurd hnone habsent
      · exact hfitting k hbk (by omega)

/-- The call of `access` at the beginning. -/
theorem access_call (rest : List Frame) {i : ℕ} {found : Option (UInt64 × Bool)}
    (h : Level F s t path b b σ) (hprepared : Prepared F s t path) (hi : i ≤ depth path)
    (hlength : (directoryOf path i).length ≤ 255)
    (hfound : σ.lookup F (directoryOf path (i - 1 - 1)) = some found) :
    Eventually (StackStep F t) (fun c ↦ c.frames = ⟨directoryOf path i, .accessing⟩ :: rest ∧
      Level F s t path b b c.fs ∧
        ∃ r, c.fs.returned.getLast? = some r ∧ r.result = found.isSome)
      ⟨σ, ⟨directoryOf path i, .called⟩ :: rest⟩ := by
  have hpos := depth_pos hprepared.absolute hprepared.not_root
  have hout := h.outside hprepared.outside
  have hparent : getParentDirectory (getParentDirectory (directoryOf path i)) =
      directoryOf path (i - 1 - 1) := by
    rw [getParentDirectory_directoryOf hi, getParentDirectory_directoryOf (by omega)]
  have hlocal : F.checkLocal (directoryOf path (i - 1 - 1)) = true :=
    hprepared.checkLocal _ (by omega)
  obtain ⟨⟨σ', hstart⟩, -⟩ := exists_start hout hlocal
  refine .next ⟨_, .access h.idle hlength (hparent ▸ hstart)⟩ fun c hstep ↦ ?_
  cases hstep with
  | inner hsolo => exact absurd h.idle hsolo.1
  | access _ _ hstart =>
    rw [hparent] at hstart
    refine eventually_inner (access_returns hout hlocal (h.free hprepared (by omega)) hfound hstart)
      fun σ' ⟨hover, hreturned⟩ ↦ .done ⟨rfl, h.over hover,
        ⟨.access (directoryOf path (i - 1 - 1)), none, found.isSome⟩, ?_, rfl⟩
    change σ'.returned.getLast? = _
    rw [hreturned, List.getLast?_concat]

/-- A call of `stack_mkdir`, by how far the directory `b` is above its path. -/
theorem call_returns (rest : List Frame) (hprepared : Prepared F s t path)
    (hgap : ∀ k, b < k → k + 2 ≤ depth path → s.lookup F (directoryOf path k) = some none) {d : ℕ}
    (hd : b + d + 2 ≤ depth path) (hlength : ∀ k ≤ depth path, (directoryOf path k).length ≤ 255)
    (h : Level F s t path b b σ) : Eventually (StackStep F t)
      (StackOutcome F s t path b (b + d + 1) rest)
      ⟨σ, ⟨directoryOf path (b + d + 2), .called⟩ :: rest⟩ := by
  have hparent (d : ℕ) (hd : b + d + 2 ≤ depth path) :
      getParentDirectory (directoryOf path (b + d + 2)) = directoryOf path (b + d + 1) :=
    getParentDirectory_directoryOf hd
  have hlast (d : ℕ) (hd : b + d + 2 ≤ depth path) :
      s.lookup F (directoryOf path (b + d + 1)) = some none ∨ b + d + 2 = depth path := by
    by_cases hk : b + d + 2 = depth path
    · exact Or.inr hk
    · exact Or.inl (hgap (b + d + 1) (by omega) (by omega))
  induction d generalizing rest σ with
  | zero =>
    -- the directory is there, and there is no recursion
    obtain ⟨index, hindex⟩ := h.present b le_rfl le_rfl
    refine (access_call rest h hprepared hd (hlength _ hd) hindex).bind
      fun ⟨σ₁, frames⟩ ⟨hframes, hlevel, r, hr, hresult⟩ ↦ ?_
    dsimp only at hframes hlevel hr
    subst hframes
    obtain ⟨-, σ₂, hstart⟩ := exists_start (hlevel.outside hprepared.outside)
      (hprepared.checkLocal (b + 1) (by omega))
    refine .next ⟨_, .skip hlevel.idle hr hresult ((hparent 0 hd).symm ▸ hstart)⟩ fun c hstep ↦ ?_
    cases hstep with
    | inner hsolo => exact absurd hlevel.idle hsolo.1
    | recurse _ hr' hresult' =>
      obtain rfl := Option.some.inj (hr.symm.trans hr')
      cases hresult.symm.trans hresult'
    | skip _ _ _ hstart =>
      rw [hparent 0 hd] at hstart
      exact making_returns hlevel hprepared (by omega) le_rfl (fun k hb hk ↦ by omega) (hlast 0 hd)
        hstart
  | succ d ih =>
    -- the directory is missing, and the recursive call makes it
    have hnone : σ.lookup F (directoryOf path (b + (d + 1))) = some none :=
      (h.others _ (by omega) (by omega)).trans (hgap _ (by omega) (by omega))
    refine (access_call rest h hprepared hd (hlength _ hd) hnone).bind
      fun ⟨σ₁, frames⟩ ⟨hframes, hlevel, r, hr, hresult⟩ ↦ ?_
    dsimp only at hframes hlevel hr
    subst hframes
    refine .next ⟨_, .recurse hlevel.idle hr hresult⟩ fun c hstep ↦ ?_
    cases hstep with
    | inner hsolo => exact absurd hlevel.idle hsolo.1
    | skip _ hr' hresult' _ =>
      obtain rfl := Option.some.inj (hr.symm.trans hr')
      cases hresult.symm.trans hresult'
    | recurse _ _ _ =>
      rw [hparent (d + 1) hd]
      refine (ih _ (by omega) hlevel).bind fun ⟨σ₂, frames⟩ houtcome ↦ ?_
      rcases houtcome with ⟨hframes, hlevel, hfitting⟩ | ⟨hhalted, hlong⟩
      · dsimp only at hframes hlevel
        subst hframes
        obtain ⟨-, σ₃, hstart⟩ := exists_start (hlevel.outside hprepared.outside)
          (hprepared.checkLocal (b + d + 2) (by omega))
        refine .next ⟨_, .make hlevel.idle ((hparent (d + 1) hd).symm ▸ hstart)⟩ fun c hstep ↦ ?_
        cases hstep with
        | inner hsolo => exact absurd hlevel.idle hsolo.1
        | make _ hstart =>
          rw [hparent (d + 1) hd] at hstart
          exact making_returns hlevel hprepared (by omega) (by omega) hfitting (hlast (d + 1) hd)
            hstart
      · exact .done (Or.inr ⟨hhalted, fun hall ↦
          hlong fun k hb hk ↦ hall k hb (by omega)⟩)

omit [DecidableEq T] in
/-- The deepest ancestor, without the parent, that is there. -/
theorem Prepared.exists_base (h : Prepared F s t path) (hdepth : 2 ≤ depth path) : ∃ b d,
    b + d + 2 = depth path ∧ s.lookup F (directoryOf path b) ≠ some none ∧
      ∀ k, b < k → k + 2 ≤ depth path → s.lookup F (directoryOf path k) = some none := by
  let Present (k : ℕ) : Prop := s.lookup F (directoryOf path k) ≠ some none
  have hle : Nat.findGreatest Present (depth path - 2) ≤ depth path - 2 := Nat.findGreatest_le _
  refine ⟨Nat.findGreatest Present (depth path - 2),
    depth path - 2 - Nat.findGreatest Present (depth path - 2), by omega,
    Nat.findGreatest_spec (P := Present) (Nat.zero_le _) h.root, fun k hb hk ↦ ?_⟩
  exact not_not.mp (Nat.findGreatest_is_greatest hb (by omega))

/-- One halt is enough against the return. -/
theorem not_created (h : Eventually (StackStep F t)
    (fun c ↦ (∀ c', ¬StackStep F t c c') ∧ ¬Created F t path c) c) :
    ¬Eventually (StackStep F t) (Created F t path) c := by
  obtain ⟨c', hrun, hfinal, hnot⟩ := h.exists_run
  exact not_eventually_of_run (fun _ _ hcreated ↦ hcreated.final) hrun hnot hfinal

theorem Halted.not_created (h : Halted F t c) :
    (∀ c', ¬StackStep F t c c') ∧ ¬Created F t path c :=
  ⟨h.2, fun hcreated ↦ h.1 hcreated.1⟩

/-- A path in the root directory: the root is made again, and waits for its own lock. -/
theorem Prepared.waits (h : Prepared F s t path) (hroot : getParentDirectory path = [slash])
    (hlength : path.length ≤ 255) :
    Eventually (StackStep F t) (Halted F t) ⟨s, [⟨path, .called⟩]⟩ := by
  have hone : depth path = 1 := (parent_eq_root_iff h.absolute h.not_root).mp hroot
  have hlevel := h.level (b := 0) (by omega) h.root
  have hpath : directoryOf path 1 = path := hone ▸ directoryOf_depth h.absolute
  obtain ⟨index, hindex⟩ := hlevel.present 0 le_rfl le_rfl
  have hcall := access_call [] hlevel h hone.ge (by rwa [hpath]) hindex
  rw [hpath] at hcall
  refine hcall.bind fun ⟨σ, frames⟩ ⟨hframes, hlevel, r, hr, hresult⟩ ↦ ?_
  dsimp only at hframes hlevel hr
  subst hframes
  have hout := hlevel.outside h.outside
  have hlocal : F.checkLocal [slash] = true := h.checkLocal 0 (by omega)
  obtain ⟨-, σ', hstart⟩ := exists_start hout hlocal
  refine .next ⟨_, .skip hlevel.idle hr hresult (hroot.symm ▸ hstart)⟩ fun c hstep ↦ ?_
  cases hstep with
  | inner hsolo => exact absurd hlevel.idle hsolo.1
  | recurse _ hr' hresult' =>
    obtain rfl := Option.some.inj (hr.symm.trans hr')
    cases hresult.symm.trans hresult'
  | skip _ _ _ hstart =>
    rw [hroot] at hstart
    have hfree := hlevel.free h (show 0 < depth path by omega)
    exact eventually_inner (mkdircd_waits hout hlocal hfree rfl hstart) fun σ' hstuck ↦
      .done hstuck.halted

/-- `stack_mkdir` returns with all ancestors made if and only if the parent is not the root, the
path fits in the buffers, the names of the missing ancestors fit in the records, and none is missing
above one that exists. -/
theorem stack_mkdir_iff (h : Prepared F s t path) :
    Eventually (StackStep F t) (Created F t path) ⟨s, [⟨path, .called⟩]⟩ ↔
      getParentDirectory path ≠ [slash] ∧ path.length ≤ 255 ∧
      (∀ k < depth path, s.lookup F (directoryOf path k) = some none → Fits path k) ∧
      ∀ j k, j ≤ k → k + 1 < depth path → s.lookup F (directoryOf path j) = some none →
        s.lookup F (directoryOf path k) = some none := by
  have hpos := depth_pos h.absolute h.not_root
  by_cases hlength : path.length ≤ 255
  swap
  · refine iff_of_false (not_created (.done ⟨fun c' hstep ↦ ?_, fun hcreated ↦ ?_⟩))
      fun hcond ↦ hlength hcond.2.1
    · cases hstep with
      | access _ hshort => exact hlength hshort
      | inner hsolo => exact hsolo.1 h.outside.1
    · cases hcreated.1
  by_cases hroot : getParentDirectory path = [slash]
  · exact iff_of_false (not_created ((h.waits hroot hlength).mono fun _ ↦ Halted.not_created))
      fun hcond ↦ hcond.1 hroot
  have hdepth : 2 ≤ depth path := by
    have hne := mt (parent_eq_root_iff h.absolute h.not_root).mpr hroot
    omega
  obtain ⟨b, d, hd, hpresent, hgap⟩ := h.exists_base hdepth
  have hcall := call_returns [] h hgap hd.le
    (fun k hk ↦ (directoryOf_length_le h.absolute hk).trans hlength) (h.level (by omega) hpresent)
  rw [hd, directoryOf_depth h.absolute] at hcall
  have hj : b + d + 1 + 1 = depth path := hd
  by_cases hcond : (∀ k < depth path, s.lookup F (directoryOf path k) = some none → Fits path k) ∧
      ∀ j k, j ≤ k → k + 1 < depth path → s.lookup F (directoryOf path j) = some none →
        s.lookup F (directoryOf path k) = some none
  · refine iff_of_true (hcall.mono fun c houtcome ↦ ?_) ⟨hroot, hlength, hcond⟩
    rcases houtcome with ⟨hframes, hlevel, -⟩ | ⟨-, hlong⟩
    · refine ⟨hframes, hlevel.idle, fun k hk ↦ ?_⟩
      by_cases hbk : b ≤ k
      · exact hlevel.present k hbk (by omega)
      · -- an ancestor above the directory that is there
        obtain ⟨found, hfound⟩ := h.roomy.exists_lookup (directoryOf path k)
        cases found with
        | none => exact absurd (hcond.2 k b (by omega) (by omega) hfound) hpresent
        | some entry =>
          obtain ⟨index, isDirectory⟩ := entry
          obtain ⟨rfl, -⟩ := h.directories k hk index isDirectory hfound
          exact ⟨index, (hlevel.others k hk (by omega)).trans hfound⟩
    · exact absurd (fun k _ hk ↦ hcond.1 k (by omega)) hlong
  · refine iff_of_false (not_created (hcall.mono fun c houtcome ↦ ?_)) fun hall ↦ hcond hall.2.2
    rcases houtcome with ⟨hframes, hlevel, hfitting⟩ | ⟨hhalted, -⟩
    · refine ⟨fun c' hstep ↦ ?_, fun hcreated ↦ hcond ?_⟩
      · obtain ⟨σ, frames⟩ := c
        dsimp only at hframes hlevel
        subst hframes
        cases hstep with
        | inner hsolo => exact hsolo.1 hlevel.idle
      · have hbelow (k : ℕ) (hk : k < depth path)
            (hnone : s.lookup F (directoryOf path k) = some none) : b < k := by
          by_contra hle
          rcases (not_lt.mp hle).lt_or_eq with hlt | rfl
          · obtain ⟨index, hindex⟩ := hcreated.2.2 k hk
            cases ((hlevel.others k hk (Or.inl hlt)).trans hnone).symm.trans hindex
          · exact hpresent hnone
        exact ⟨fun k hk hnone ↦ hfitting k (hbelow k hk hnone) (by omega) hnone,
          fun j k hjk hk hnone ↦ hgap k ((hbelow j (by omega) hnone).trans_le hjk) hk⟩
    · exact hhalted.not_created

/-- The tables of the small server. -/
theorem rootServer_tables : ∃ s : FileSystem Unit, rootServer Unit = some s ∧
    s.hashtable.headFreeBit.length = 6 ∧ s.tableDirectoryMeta.bitmapItems.varCountFree = 7 ∧
      s.lookup smallConfig [slash] = some (some (0, true)) ∧
        (s.tableDirectoryMeta.items 0).count = 0 := by
  have hrun : (rootServer Unit).map (fun s ↦ ((s.hashtable.headFreeBit.length == 6) &&
      (s.tableDirectoryMeta.bitmapItems.varCountFree == 7) &&
      ((s.tableDirectoryMeta.items 0).count == 0), s.lookup smallConfig [slash])) =
        some (true, some (some (0, true))) := by
    decide +kernel
  obtain ⟨s, hroot, hresult⟩ := Option.map_eq_some_iff.mp hrun
  simp only [Prod.mk.injEq, Bool.and_eq_true, beq_iff_eq] at hresult
  obtain ⟨⟨⟨hitems, hrecords⟩, hcount⟩, hlookup⟩ := hresult
  exact ⟨s, hroot, hitems, hrecords, hlookup, hcount⟩

/-- The small server is prepared for a path of at most two names, whose hashes differ. -/
theorem exists_prepared (h : Absolute path) (hroot : path ≠ [slash]) (hdepth : depth path ≤ 2)
    (hinjective : ∀ j < depth path, ∀ k < depth path,
      smallConfig.item (directoryOf path j) = smallConfig.item (directoryOf path k) → j = k) :
    ∃ s : FileSystem Unit, rootServer Unit = some s ∧ Prepared smallConfig s () path := by
  obtain ⟨s, hserver, hitems, hrecords, hlookup, hcount⟩ := rootServer_tables
  obtain ⟨hashtable, files, directories, hinit⟩ := rootServer_eq hserver
  obtain ⟨⟨m, hnames⟩, hidle, -⟩ := (rootServer_initialized hserver).names
    (show [slash] ∈ (Set.univ : Set Path) from trivial)
  have hcard : (missing smallConfig path s).card ≤ 2 :=
    (Finset.card_filter_le _ _).trans ((Finset.card_range _).trans_le hdepth)
  obtain ⟨count, chains, hrepresents⟩ := hnames.tree.hash
  have hdirectory (p : Path) (index : UInt64) (isDirectory : Bool)
      (hfound : s.lookup smallConfig p = some (some (index, isDirectory))) :
      isDirectory = true ∧ s.tableDirectoryMeta.InUse index.toNat :=
    hnames.tree.directory (smallConfig.sha256 p) (index, isDirectory)
      (Option.some.inj ((hnames.lookup_eq p).symm.trans hfound))
  refine ⟨s, hserver, h, hroot, ⟨hidle (), fun use ↦ hinit ▸ rfl⟩, fun k _ ↦ ?_,
    fun k _ ↦ hinit ▸ rfl, hinjective, ⟨⟨count, m, chains, hrepresents⟩, hnames.tree.table,
      hnames.tree.total.trans (by norm_num), by omega, by omega⟩, ?_,
    fun k _ ↦ hdirectory (directoryOf path k), fun k hk _ index isDirectory hfound ↦ ?_⟩
  · exact smallConfig_local _
  · rw [hlookup]
    exact nofun
  · obtain rfl : k = 0 := by omega
    obtain ⟨rfl, -⟩ := Prod.mk.inj (Option.some.inj (Option.some.inj (hlookup.symm.trans hfound)))
    exact hcount.trans_lt (by decide)

/-- `/a` and `/a/b`. -/
theorem absolute_nested : Absolute [slash, 97] ∧ Absolute PathStrings.nested :=
  ⟨@PathStrings.absolute_render [[97]] (by simp [Pieces, slash]),
    @PathStrings.absolute_render [[97], [98]] (by simp [Pieces, slash])⟩

/-- The ancestors of `/a/b` on the small server. -/
theorem stack_mkdir_iff_nested : ∃ s : FileSystem Unit, rootServer Unit = some s ∧
    Prepared smallConfig s () PathStrings.nested ∧
      Eventually (StackStep smallConfig ()) (Created smallConfig () PathStrings.nested)
        ⟨s, [⟨PathStrings.nested, .called⟩]⟩ := by
  obtain ⟨s, hserver, hprepared⟩ := exists_prepared absolute_nested.2 (by decide) (by decide)
    (by decide +kernel)
  refine ⟨s, hserver, hprepared, (stack_mkdir_iff hprepared).mpr ⟨by decide, by decide,
    fun k hk _ name hname ↦ ?_, fun j k hjk hk hnone ↦ ?_⟩⟩
  · have hdepth : depth PathStrings.nested = 2 := by decide
    have hcases : k = 0 ∨ k = 1 := by omega
    rcases hcases with rfl | rfl
    · cases hname
    · have hsome : getNameFromPath (directoryOf PathStrings.nested 1) = some [97] := by decide
      rw [← Option.some.inj (hsome.symm.trans hname)]
      decide
  · have hdepth : depth PathStrings.nested = 2 := by decide
    obtain rfl : j = k := by omega
    exact hnone

/-- The call for `/a` never returns. -/
theorem stack_mkdir_waits : ¬∀ (F : Config) (s : FileSystem Unit) (path : Path),
    Prepared F s () path →
      Eventually (StackStep F ()) (Created F () path) ⟨s, [⟨path, .called⟩]⟩ := by
  intro h
  obtain ⟨s, -, hprepared⟩ := exists_prepared absolute_nested.1 (by decide) (by decide)
    (by decide +kernel)
  exact not_created ((hprepared.waits (by decide) (by decide)).mono fun _ ↦ Halted.not_created)
    (h smallConfig s [slash, 97] hprepared)

end FileSystem

end SwitchDelta.Fs
