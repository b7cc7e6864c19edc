import SwitchDelta.Fs.AtomicNames
import SwitchDelta.Fs.Directories

/-!
# Histories of the name service

What the threads see of the file system, whatever the order of their steps, they could see of the names
as an atomic object. A path is therefore made at most once, what has been made is found by every later
call, and an entry of the hash table refers to the same record in use for ever, which is no one else's.
-/

set_option autoImplicit false
set_option relaxedAutoImplicit false

namespace SwitchDelta.Fs

open Foundation

namespace FileSystem

variable {T : Type} [DecidableEq T] {F : Config} {P : Set Path} {m : Contents} {s s' : FileSystem T}
  {a : AtomicState T NameTable Call Bool} {h : List (Observation T Call Bool)}

/-! ### The start -/

/-- The names of a server that no call has come to yet. -/
def startNames (F : Config) (s : FileSystem T) : NameTable where
  kind path := if path = [slash] then ((s.lookup F path).bind id).map Prod.snd else none
  room := s.hashtable.headFreeBit.length

/-- The table of the files as `Storage` constructs it over a buffer of zeros. -/
def FilesConstructed (s : FileSystem T) : Prop :=
  ∃ (count size : ℕ) (items : ℕ → FileMeta) (nodes : ℕ → ℕ), count ≤ 2 ^ 31 ∧
    Function.Injective nodes ∧
    Table.construct count size (fun _ ↦ 0) items nodes = some s.tableFileMeta

/-- What a run rests on: the entries, the object, and the locks. -/
structure Running [Fintype T] (F : Config) (P : Set Path) (m : Contents) (s : FileSystem T)
    (a : AtomicState T NameTable Call Bool) : Prop where
  indexed : Indexed F P m s
  agrees : Agrees F P m s a
  placed : Placed F Set.univ s
  lock : LockService.Inv s.lock

omit [DecidableEq T] in
theorem Initialized.lock_eq (hinit : Initialized F s) : s.lock = LockService.init := by
  obtain ⟨_, _, _, _, _, hashtable, files, directories, tuple, -, -, -, -, -, hroot⟩ := hinit.tables
  obtain ⟨hashtable', directories', rfl⟩ := rootInitialize_eq hroot
  rfl

omit [DecidableEq T] in
theorem Initialized.running [Fintype T] (hinit : Initialized F s) (hfiles : FilesConstructed s)
    (hP : Set.InjOn F.sha256 P) (hroot : [slash] ∈ P) :
    ∃ m, Running F P m s ⟨startNames F s, fun _ ↦ .idle⟩ := by
  obtain ⟨⟨m, hnames⟩, hidle, -, hwritten, -⟩ := hinit.names hroot
  obtain ⟨count, size, items, nodes, hcount, hnodes, hconstruct⟩ := hfiles
  have hconstructed := Table.construct_constructed hcount hnodes hconstruct
  have hordered : s.Ordered := by
    refine ⟨⟨_, hconstructed.chained hcount hnodes⟩, hnames.tree.table, fun isDirectory ↦ ?_⟩
    cases isDirectory
    · exact hconstructed.total.trans_le hcount
    · exact hnames.tree.total
  -- nothing is listed yet, so only the root is there
  have honly (path : Path) (hpath : path ∈ P) (e : UInt64 × Bool)
      (he : m.lookup (F.sha256 path) = some e) : path = [slash] := by
    obtain ⟨other, hother, hsame, hlisted⟩ := hnames.tree.listed _ e he
    obtain rfl := hP hother hpath hsame
    refine hlisted.resolve_right fun ⟨_, i, hi, name, _, hentry⟩ ↦ ?_
    obtain ⟨-, written, hmem, -⟩ := hnames.tree.written _ _ hi _ hentry
    rw [hwritten] at hmem
    exact absurd hmem List.not_mem_nil
  refine ⟨m, ⟨hnames.tree.hash, hordered, fun k e he ↦ ?_, fun k k' e e' he he' _ ↦
    hnames.tree.distinct k k' e e' he he', fun t ↦ ?_, fun t t' call call' tx tx' index hpc ↦ ?_⟩,
    ⟨fun path hpath ↦ ?_, rfl, fun t ↦ ?_⟩, fun t ↦ ?_, ?_⟩
  · obtain ⟨hkind, hused⟩ := hnames.tree.directory k e he
    rw [hkind]
    exact hused
  · rw [hidle]
    trivial
  · rw [hidle] at hpc
    cases hpc
  · change (if path = [slash] then _ else none) = _
    split_ifs with hslash
    · rw [hnames.lookup_eq]
      rfl
    · cases hlookup : m.lookup (F.sha256 path) with
      | none => rfl
      | some e => exact absurd (honly path hpath e hlookup) hslash
  · rw [hidle]
    rfl
  · rw [hidle, hinit.lock_eq]
    exact ⟨rfl, rfl, fun c hc ↦ by cases hc⟩
  · rw [hinit.lock_eq]
    exact LockService.Inv.init

/-! ### The runs -/

/-- One step. -/
theorem Running.step [Fintype T] (hrunning : Running F P m s a) (hthreads : Fintype.card T < 2 ^ 31)
    (hP : Set.InjOn F.sha256 P) {e : Event T} (hok : Sound P s e) (hstep : Step F s e s') :
    ∃ m' a', (∀ k e, m.lookup k = some e → m'.lookup k = some e) ∧
      (nameService F).History a (observe F s e s') a' ∧ Running F P m' s' a' := by
  obtain ⟨m', a', hgrows, hhistory, hindexed, hagrees⟩ :=
    step_matched hP hrunning.indexed hrunning.agrees hrunning.placed hrunning.lock hok hstep
  have hcreates : CreatesIn Set.univ s e := by
    cases e
    · exact fun _ ↦ trivial
    · trivial
  exact ⟨m', a', hgrows, hhistory, hindexed, hagrees, hrunning.placed.step hcreates hstep,
    hstep.lock_inv hthreads hrunning.lock⟩

/-- What is seen of a run is a history of the object. -/
theorem Running.history [Fintype T] (hrunning : Running F P m s a)
    (hthreads : Fintype.card T < 2 ^ 31) (hP : Set.InjOn F.sha256 P)
    (hrun : Observed s (Step F) (Sound P) (observe F) h s') :
    ∃ m' a', (nameService F).History a h a' ∧ Running F P m' s' a' := by
  obtain ⟨a', hhistory, m', hrunning'⟩ := hrun.simulates
    (R := fun s a ↦ ∃ m, Running F P m s a) ⟨m, hrunning⟩ fun s e s' a _ ⟨m, hrunning⟩ hok hstep ↦ by
      obtain ⟨m', a', -, hhistory, hrunning'⟩ := hrunning.step hthreads hP hok hstep
      exact ⟨a', hhistory, m', hrunning'⟩
  exact ⟨m', a', hhistory, hrunning'⟩

/-- An entry is never lost. -/
theorem Running.grows [Fintype T] (hrunning : Running F P m s a)
    (hthreads : Fintype.card T < 2 ^ 31) (hP : Set.InjOn F.sha256 P)
    (hrun : Reachable s (Step F) (Sound P) s') :
    ∃ m' a', (∀ k e, m.lookup k = some e → m'.lookup k = some e) ∧ Running F P m' s' a' := by
  refine hrun.invariant (fun s' ↦ ∃ m' a', (∀ k e, m.lookup k = some e → m'.lookup k = some e) ∧
    Running F P m' s' a') ⟨m, a, fun _ _ ↦ id, hrunning⟩ ?_
  rintro s₁ e s₂ - ⟨m₁, a₁, hgrows, hrunning⟩ hok hstep
  obtain ⟨m₂, a₂, hgrows', -, hrunning'⟩ := hrunning.step hthreads hP hok hstep
  exact ⟨m₂, a₂, fun k e he ↦ hgrows' k e (hgrows k e he), hrunning'⟩

/-! ### Creations -/

/-- A creation of a path that succeeds. -/
def MakesPath (path : Path) (call : Call) (result : Bool) : Bool :=
  result && call.creates && call.path == path

theorem makes_iff {path : Path} {call : Call} {result : Bool} :
    MakesPath path call result = true ↔ result = true ∧ call.creates = true ∧ call.path = path := by
  rw [MakesPath, Bool.and_eq_true, Bool.and_eq_true, beq_iff_eq, and_assoc]

/-! ### Two threads -/

/-- A number of events, each of which passes a test where it happens, with what is seen of them. -/
def seenAll (F : Config) (test : FileSystem T → Event T → Bool) (s : FileSystem T) :
    List (Event T) → Option (List (Observation T Call Bool) × FileSystem T)
  | [] => some ([], s)
  | e :: events =>
    if test s e then
      (s.exec F e).bind fun s' ↦
        (seenAll F test s' events).map fun seen ↦ (observe F s e s' ++ seen.1, seen.2)
    else none

theorem observed_seenAll {test : FileSystem T → Event T → Bool}
    (htest : ∀ s e, test s e = true → Sound P s e) {events : List (Event T)}
    (hseen : s.seenAll F test events = some (h, s')) :
    Observed s (Step F) (Sound P) (observe F) h s' := by
  induction events generalizing s h with
  | nil =>
    obtain ⟨rfl, rfl⟩ := Prod.mk.inj (Option.some.inj hseen)
    exact .init
  | cons e events ih =>
    rw [seenAll] at hseen
    split_ifs at hseen with hpass
    obtain ⟨s₁, hfirst, hseen⟩ := Option.bind_eq_some_iff.mp hseen
    obtain ⟨⟨h₁, s₂⟩, hrest, hseen⟩ := Option.map_eq_some_iff.mp hseen
    obtain ⟨rfl, rfl⟩ := Prod.mk.inj hseen
    exact (Observed.single (htest s e hpass) (step_of_exec hfirst)).trans (ih hrest)

theorem rootServer_filesConstructed (hserver : rootServer T = some s) : FilesConstructed s := by
  rw [rootServer] at hserver
  obtain ⟨hashtable, -, hserver⟩ := Option.bind_eq_some_iff.mp hserver
  obtain ⟨files, hconstruct, hserver⟩ := Option.bind_eq_some_iff.mp hserver
  obtain ⟨directories, -, hserver⟩ := Option.bind_eq_some_iff.mp hserver
  obtain ⟨hashtable', directories', rfl⟩ := rootInitialize_eq hserver
  exact ⟨8, 1, _, Nat.succ, by decide, Nat.succ_injective, hconstruct⟩

/-- A test for calls with the path `/a` on the small server. -/
def onPathA (s : FileSystem T) : Event T → Bool
  | .start _ call => call.path == [slash, 97]
  | .step t =>
    match s.pc t with
    | .updated call _ => decide (1 < (s.bitmap call.isDirectory).varCountTotal) &&
        !(s.bitmap call.isDirectory).bit 1
    | _ => true

omit [DecidableEq T] in
theorem sound_onPathA (s : FileSystem T) (e : Event T) (h : onPathA s e = true) :
    Sound onePath s e := by
  cases e with
  | start t call =>
    have hpath : call.path = [slash, 97] := beq_iff_eq.mp h
    rw [Sound, Among, hpath]
    exact ⟨Or.inr rfl, Or.inl (by decide)⟩
  | step t =>
    rw [onPathA] at h
    rw [Sound]
    cases hpc : s.pc t with
    | updated call tx =>
      rw [hpc] at h
      obtain ⟨hbound, hclear⟩ := Bool.and_eq_true_iff.mp h
      exact ⟨1, of_decide_eq_true hbound, (Bool.not_eq_true' _).mp hclear⟩
    | _ => trivial

/-- Two threads make the directory `/a` at the same time. -/
def twoCreations : List (Event Bool) :=
  .start true (.mkdircd [slash, 97]) :: .start false (.mkdircd [slash, 97]) ::
    (List.replicate 12 (.step true) ++ List.replicate 8 (.step false))

/-- One of them looks for it afterwards. -/
def accessAfter : List (Event Bool) := [.start true (.access [slash, 97]), .step true, .step true]

/-- What is seen of both: one directory is made, and it is found. -/
theorem exists_twoCreations :
    ∃ (s₀ s s' : FileSystem Bool) (h h' : List (Observation Bool Call Bool)),
      Initialized smallConfig s₀ ∧ FilesConstructed s₀ ∧
      Observed s₀ (Step smallConfig) (Sound onePath) (observe smallConfig) h s ∧
      Observed s (Step smallConfig) (Sound onePath) (observe smallConfig) h' s' ∧
      answerCount (MakesPath [slash, 97]) h = 1 ∧
      answerCount (fun call _ ↦ call matches .access [47, 97]) h' = 1 ∧ s.pc true = .idle ∧
      s.lookup smallConfig [slash, 97] = some (some (1, true)) := by
  have hrun : ((rootServer Bool).bind fun s₀ ↦
      (s₀.seenAll smallConfig onPathA twoCreations).bind fun r ↦
        (r.2.seenAll smallConfig onPathA accessAfter).map fun r' ↦
          (r.2.isIdle true && answerCount (MakesPath [slash, 97]) r.1 == 1 &&
            answerCount (fun call _ ↦ call matches .access [47, 97]) r'.1 == 1,
            r.2.lookup smallConfig [slash, 97])) = some (true, some (some (1, true))) := by
    decide +kernel
  obtain ⟨s₀, hroot, hrun⟩ := Option.bind_eq_some_iff.mp hrun
  obtain ⟨⟨h, s⟩, hfirst, hrun⟩ := Option.bind_eq_some_iff.mp hrun
  obtain ⟨⟨h', s'⟩, hsecond, hresult⟩ := Option.map_eq_some_iff.mp hrun
  simp only [Prod.mk.injEq, Bool.and_eq_true, beq_iff_eq] at hresult
  obtain ⟨⟨⟨hidle, hmade⟩, hfound⟩, hlookup⟩ := hresult
  refine ⟨s₀, s, s', h, h', rootServer_initialized hroot, rootServer_filesConstructed hroot,
    observed_seenAll sound_onPathA hfirst, observed_seenAll sound_onPathA hsecond, hmade, hfound,
    idle_of_isIdle hidle, hlookup⟩

/-! ### What the threads see -/

/-- Any number of threads see the file system as an atomic object of names: each call does what it does
at one moment between its start and its return, in whatever order the steps of the threads come. The
object ends with the names that are in the hash table. -/
theorem names_atomic [Fintype T] (hthreads : Fintype.card T < 2 ^ 31) (hP : Set.InjOn F.sha256 P)
    (hroot : [slash] ∈ P) (hinit : Initialized F s) (hfiles : FilesConstructed s)
    (hrun : Observed s (Step F) (Sound P) (observe F) h s') :
    ∃ a, (nameService F).History ⟨startNames F s, fun _ ↦ .idle⟩ h a ∧
      ∀ path ∈ P, (s'.lookup F path).map (Option.map Prod.snd) = some (a.object.kind path) := by
  obtain ⟨m, hrunning⟩ := hinit.running hfiles hP hroot
  obtain ⟨m', a, hhistory, hrunning'⟩ := hrunning.history hthreads hP hrun
  refine ⟨a, hhistory, fun path hpath ↦ ?_⟩
  rw [hrunning'.indexed.lookup_eq, hrunning'.agrees.kind path hpath]
  rfl

/-- Two threads make a directory at the same time. -/
theorem names_atomic_two : ∃ (n : NameTable) (h : List (Observation Bool Call Bool))
    (a : AtomicState Bool NameTable Call Bool),
    (nameService smallConfig).History ⟨n, fun _ ↦ .idle⟩ h a ∧ answerCount (MakesPath [slash, 97]) h = 1 ∧
      a.object.kind [slash, 97] = some true := by
  obtain ⟨s₀, s, -, h, -, hinit, hfiles, hrun, -, hmade, -, -, hlookup⟩ := exists_twoCreations
  obtain ⟨a, hhistory, hnames⟩ := names_atomic (by decide) injOn_onePath (Or.inl rfl) hinit hfiles hrun
  refine ⟨_, h, a, hhistory, hmade, ?_⟩
  have hkind := hnames [slash, 97] (Or.inr rfl)
  rw [hlookup] at hkind
  exact (Option.some.inj hkind).symm

/-- In every run, an entry of the hash table refers to a record in use of its table, which no other path
refers to, and it stays as it is in whatever comes after. -/
theorem references_stay [Fintype T] (hthreads : Fintype.card T < 2 ^ 31) (hP : Set.InjOn F.sha256 P)
    (hroot : [slash] ∈ P) {s₀ : FileSystem T} (hinit : Initialized F s₀)
    (hfiles : FilesConstructed s₀) (hrun : Reachable s₀ (Step F) (Sound P) s)
    (hrest : Reachable s (Step F) (Sound P) s') {path : Path} (hpath : path ∈ P) {index : UInt64}
    {isDirectory : Bool} (hlookup : s.lookup F path = some (some (index, isDirectory))) :
    s'.lookup F path = some (some (index, isDirectory)) ∧ s'.InUse isDirectory index.toNat ∧
      ∀ other ∈ P, s'.lookup F other = some (some (index, isDirectory)) → other = path := by
  obtain ⟨m₀, hrunning₀⟩ := hinit.running hfiles hP hroot
  obtain ⟨m, a, -, hrunning⟩ := hrunning₀.grows hthreads hP hrun
  obtain ⟨m', a', hgrows, hrunning'⟩ := hrunning.grows hthreads hP hrest
  have hbefore : m.lookup (F.sha256 path) = some (index, isDirectory) :=
    Option.some.inj ((hrunning.indexed.lookup_eq path).symm.trans hlookup)
  have hafter := hgrows _ _ hbefore
  refine ⟨by rw [hrunning'.indexed.lookup_eq, hafter], hrunning'.indexed.used _ _ hafter,
    fun other hother hsame ↦ ?_⟩
  have hentry : m'.lookup (F.sha256 other) = some (index, isDirectory) :=
    Option.some.inj ((hrunning'.indexed.lookup_eq other).symm.trans hsame)
  exact hP hother hpath (hrunning'.indexed.distinct _ _ _ _ hentry hafter rfl rfl)

/-- The directory of two threads keeps its record. -/
theorem references_stay_two : ∃ s s' : FileSystem Bool,
    s.lookup smallConfig [slash, 97] = some (some (1, true)) ∧
      s'.lookup smallConfig [slash, 97] = some (some (1, true)) ∧ s'.InUse true 1 := by
  obtain ⟨s₀, s, s', h, h', hinit, hfiles, hrun, hrest, -, -, -, hlookup⟩ := exists_twoCreations
  obtain ⟨hstays, hused, -⟩ := references_stay (by decide) injOn_onePath (Or.inl rfl) hinit hfiles
    hrun.reachable hrest.reachable (Or.inr rfl) hlookup
  exact ⟨s, s', hlookup, hstays, hused⟩

/-! ### What the calls find -/

/-- A path of this node is there. -/
def Exists (F : Config) (path : Path) (n : NameTable) : Prop :=
  n.kind path ≠ none ∧ F.checkLocal path = true

/-- A path is never lost. -/
theorem exists_stays {path : Path} {n n' : NameTable} {call : Call} {result : Bool}
    (heffect : NameEffect F n call result n') (hexists : Exists F path n) : Exists F path n' := by
  refine ⟨?_, hexists.2⟩
  cases heffect with
  | create hcreates hlocal hnone hparent hroom =>
    change Function.update n.kind call.path _ path ≠ none
    rw [Function.update_of_ne]
    · exact hexists.1
    · rintro rfl
      exact hexists.1 hnone
  | _ => exact hexists.1

/-- A creation that succeeds makes a path that was not there. -/
theorem exists_of_makes {path : Path} {n n' : NameTable} {call : Call} {result : Bool}
    (heffect : NameEffect F n call result n') (hmakes : MakesPath path call result = true) :
    ¬Exists F path n ∧ Exists F path n' := by
  obtain ⟨hresult, hcreates, rfl⟩ := makes_iff.mp hmakes
  cases heffect with
  | remote => cases hresult
  | refuse => cases hresult
  | access => cases hcreates
  | getattr => cases hcreates
  | extentMetaWrite => cases hcreates
  | create hcreates hlocal hnone hparent hroom =>
    refine ⟨fun hexists ↦ hexists.1 hnone, ?_, hlocal⟩
    change Function.update n.kind call.path _ call.path ≠ none
    rw [Function.update_self]
    exact Option.some_ne_none _

/-- What a call answers about a path that is there. -/
theorem answer_of_exists {n n' : NameTable} {call : Call} {result : Bool}
    (heffect : NameEffect F n call result n') (hexists : Exists F call.path n) :
    (call.creates = true → result = false) ∧
      (call = .access call.path ∨ call = .getattr call.path → result = true) := by
  have hsome : (n.kind call.path).isSome = true := Option.isSome_iff_ne_none.mpr hexists.1
  cases heffect with
  | remote hremote =>
    exact absurd (F.admits_of_checkLocal hexists.2) (hremote ▸ Bool.false_ne_true)
  | create hcreates hlocal hnone hparent hroom => exact absurd hnone hexists.1
  | refuse hcreates =>
    refine ⟨fun _ ↦ rfl, fun hcall ↦ ?_⟩
    rcases hcall with hcall | hcall <;> rw [hcall] at hcreates <;> cases hcreates
  | access => exact ⟨nofun, fun _ ↦ hsome⟩
  | getattr => exact ⟨nofun, fun _ ↦ hsome⟩
  | extentMetaWrite u => exact ⟨nofun, nofun⟩

/-- However the threads run, at most one creation of a path succeeds, and when it has returned, every
call that comes later finds the path: no other creation of it succeeds, and `access` and `getattr` do. -/
theorem created_once [Fintype T] (hthreads : Fintype.card T < 2 ^ 31) (hP : Set.InjOn F.sha256 P)
    (hroot : [slash] ∈ P) {s₀ : FileSystem T} (hinit : Initialized F s₀)
    (hfiles : FilesConstructed s₀) {h' : List (Observation T Call Bool)}
    (hrun : Observed s₀ (Step F) (Sound P) (observe F) h s)
    (hrest : Observed s (Step F) (Sound P) (observe F) h' s') (path : Path) :
    answerCount (MakesPath path) (h ++ h') ≤ 1 ∧
      (answerCount (MakesPath path) h ≠ 0 → ∀ t, s.pc t = .idle → ∀ call result,
        .respond t call result ∈ h' → call.path = path →
          (call.creates = true → result = false) ∧
            (call = .access path ∨ call = .getattr path → result = true)) := by
  obtain ⟨m₀, hrunning₀⟩ := hinit.running hfiles hP hroot
  obtain ⟨m, a, hhistory, hrunning⟩ := hrunning₀.history hthreads hP hrun
  obtain ⟨m', a', hhistory', hrunning'⟩ := hrunning.history hthreads hP hrest
  have honce {h : List (Observation T Call Bool)} {a : AtomicState T NameTable Call Bool}
      (hhistory : (nameService F).History ⟨startNames F s₀, fun _ ↦ .idle⟩ h a) :
      AtomicObject.Once (Exists F path) (MakesPath path) h a :=
    hhistory.once (fun _ ↦ rfl) (fun _ _ _ _ ↦ exists_stays) fun _ _ _ _ ↦ exists_of_makes
  refine ⟨(honce (hhistory.trans hhistory')).answered, fun hmade t hidle call result hmem hpath ↦ ?_⟩
  have hprogress : a.progress t = .idle := by
    rw [hrunning.agrees.progress, hidle]
    rfl
  obtain ⟨n, n', hexists, heffect⟩ := hhistory'.effect_of_respond
    (fun _ _ _ _ ↦ exists_stays) ((honce hhistory).holds hmade) hprogress hmem
  subst hpath
  exact answer_of_exists heffect hexists

/-- One of two creations at the same time succeeds, and an `access` that comes later finds the path. -/
theorem created_once_two : ∃ h h' : List (Observation Bool Call Bool),
    answerCount (MakesPath [slash, 97]) (h ++ h') = 1 ∧
      answerCount (fun call _ ↦ call matches .access [47, 97]) h' = 1 ∧
      ∀ result, .respond true (.access [slash, 97]) result ∈ h' → result = true := by
  obtain ⟨s₀, s, s', h, h', hinit, hfiles, hrun, hrest, hmade, hfound, hidle, -⟩ :=
    exists_twoCreations
  obtain ⟨hle, hlater⟩ := created_once (by decide) injOn_onePath (Or.inl rfl) hinit hfiles hrun hrest
    [slash, 97]
  refine ⟨h, h', hle.antisymm ?_, hfound, fun result hmem ↦ ?_⟩
  · rw [← hmade, answerCount, answerCount, List.countP_append]
    exact Nat.le_add_right _ _
  · exact (hlater (by rw [hmade]; decide) true hidle _ result hmem rfl).2 (Or.inl rfl)

end FileSystem

end SwitchDelta.Fs
