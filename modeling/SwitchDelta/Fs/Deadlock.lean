import SwitchDelta.Fs.Server

/-!
# Waiting for hash items

A creation waits for the hash item of the parent directory while it holds that of its own path, and
which hash items these are is left to the hash function. `calls_do_not_deadlock`: as long as the hash
items of the created paths and those of their parents form no cycle, some call that is in progress can
always go on.
-/

set_option autoImplicit false
set_option relaxedAutoImplicit false

namespace SwitchDelta.Fs

open Foundation

theorem Call.writes_of_creates {c : Call} (h : c.creates = true) : c.writes = true := by
  cases c <;> first | rfl | exact absurd h Bool.false_ne_true

namespace FileSystem

variable {T : Type} [DecidableEq T] (F : Config)

/-! ### Waiting -/

/-- The next step of a thread is a comparison with the word of a hash item that fails. -/
def Waits (s : FileSystem T) (t : T) (a : AddressHash) : Prop :=
  ∃ use, (∃ key, s.lock.pc (t, use) = .writeSpin a key ∧ s.lock.words a ≠ 0) ∨
    (s.lock.pc (t, use) = .readSpin a ∧ upperHalf (s.lock.words a) ≠ 0)

/-- A thread has locked a hash item. -/
def HoldsItem (s : FileSystem T) (t : T) (a : AddressHash) : Prop :=
  ∃ use, (∃ key, s.lock.pc (t, use) = .writing a key) ∨ s.lock.pc (t, use) = .reading a

/-- The creation of a path locks one hash item while it holds the other. -/
def Nests (P : Set Path) (a b : AddressHash) : Prop :=
  ∃ path ∈ P, F.checkLocal path = true ∧ F.checkLocal (getParentDirectory path) = true ∧
    F.item path = a ∧ F.item (getParentDirectory path) = b

/-- The hash items of a set of paths and of their parents form no cycle. -/
def Acyclic (P : Set Path) : Prop := ∀ a, ¬Relation.TransGen (Nests F P) a a

/-- The creations are of paths of the set. -/
def CreatesIn (P : Set Path) (_ : FileSystem T) : Event T → Prop
  | .start _ call => call.creates = true → call.path ∈ P
  | .step _ => True

/-! ### Where the locks are -/

/-- The lock of the path's hash item has been entered. -/
def Entered (call : Call) (l : LockPc AddressHash) : Prop :=
  if call.writes then
    ∃ key, l = .writeSpin (F.item call.path) key ∨ l = .writing (F.item call.path) key
  else l = .readSpin (F.item call.path) ∨ l = .reading (F.item call.path)

/-- The path's hash item is locked. -/
def Inside (call : Call) (l : LockPc AddressHash) : Prop :=
  if call.writes then ∃ key, l = .writing (F.item call.path) key else l = .reading (F.item call.path)

/-- Where a thread is in the lock of its path's hash item. -/
def ItemLock : Pc → LockPc AddressHash → Prop
  | .idle, l => l = .out
  | .entered call, l => Entered F call l
  | .leaving call _ _, l => Inside F call l
  | .began call _, l => call.creates = true ∧ Inside F call l
  | .parent call _, l => call.creates = true ∧ Inside F call l
  | .copied call _ _, l => call.creates = true ∧ Inside F call l
  | .read call _ _, l => call.creates = true ∧ Inside F call l
  | .extended call _ _ _, l => call.creates = true ∧ Inside F call l
  | .logged call _ _ _, l => call.creates = true ∧ Inside F call l
  | .updated call _, l => call.creates = true ∧ Inside F call l
  | .created call _ _, l => call.creates = true ∧ Inside F call l
  | .decided call _ _, l => call.creates = true ∧ Inside F call l

/-- Where a thread is in the lock of the parent's hash item. -/
def ParentLock : Pc → LockPc AddressHash → Prop
  | .parent call _, l =>
    F.checkLocal (getParentDirectory call.path) = true ∧
      (l = .readSpin (F.item (getParentDirectory call.path)) ∨
        l = .reading (F.item (getParentDirectory call.path)))
  | .copied call _ _, l => l = .reading (F.item (getParentDirectory call.path))
  | _, l => l = .out

/-- A thread is in the locks that its program counter says. -/
structure PlacedAt (P : Set Path) (pc : Pc) (item parent : LockPc AddressHash) : Prop where
  item : ItemLock F pc item
  parent : ParentLock F pc parent
  path : ∀ c, pc.call = some c → c.creates = true → c.path ∈ P ∧ F.checkLocal c.path = true

/-- All threads are in the locks that their program counters say. -/
def Placed (P : Set Path) (s : FileSystem T) : Prop :=
  ∀ t, PlacedAt F P (s.pc t) (s.lock.pc (t, .item)) (s.lock.pc (t, .parent))

variable {F} {P : Set Path} {s s' : FileSystem T} {t : T}

/-- A thread goes on without a step of a lock. -/
theorem Placed.goto (h : Placed F P s) {pc pc' : Pc} (hpc : s.pc t = pc)
    (hpc' : s'.pc = Function.update s.pc t pc') (hlock : s'.lock = s.lock)
    (hitem : ItemLock F pc (s.lock.pc (t, .item)) → ItemLock F pc' (s.lock.pc (t, .item)))
    (hparent : ParentLock F pc (s.lock.pc (t, .parent)) → ParentLock F pc' (s.lock.pc (t, .parent)))
    (hcall : pc'.call = pc.call) :
    Placed F P s' := by
  intro t'
  rw [hpc', hlock]
  by_cases ht : t' = t
  · subst ht
    have hplaced := h t'
    rw [hpc] at hplaced
    rw [Function.update_self]
    exact ⟨hitem hplaced.item, hparent hplaced.parent, fun c hc ↦ hplaced.path c (hcall ▸ hc)⟩
  · rw [Function.update_of_ne ht]
    exact h t'

/-- A thread goes on with a step of one of its locks. -/
theorem Placed.locked (h : Placed F P s) {pc : Pc} {use : Use} {l : LockPc AddressHash}
    {lock : LockService AddressHash (T × Use)}
    (hpc : s'.pc = Function.update s.pc t pc) (hlock : s'.lock = lock)
    (hmove : lock.pc = Function.update s.lock.pc (t, use) l)
    (hplaced : PlacedAt F P pc (Function.update s.lock.pc (t, use) l (t, .item))
      (Function.update s.lock.pc (t, use) l (t, .parent))) : Placed F P s' := by
  intro t'
  rw [hpc, hlock, hmove]
  by_cases ht : t' = t
  · subst ht
    rw [Function.update_self]
    exact hplaced
  · have hne (use' : Use) : (t', use') ≠ (t, use) := fun heq ↦ ht (Prod.mk.inj heq).1
    rw [Function.update_of_ne ht, Function.update_of_ne (hne _), Function.update_of_ne (hne _)]
    exact h t'

/-- A thread goes on with a step of the lock of its path's hash item. -/
theorem Placed.item (h : Placed F P s) {pc : Pc} {l : LockPc AddressHash}
    {lock : LockService AddressHash (T × Use)} (hpc : s'.pc = Function.update s.pc t pc)
    (hlock : s'.lock = lock) (hmove : lock.pc = Function.update s.lock.pc (t, .item) l)
    (hitem : ItemLock F pc l) (hparent : ParentLock F pc (s.lock.pc (t, .parent)))
    (hpath : ∀ c, pc.call = some c → c.creates = true → c.path ∈ P ∧ F.checkLocal c.path = true) :
    Placed F P s' := by
  have hne : (t, Use.parent) ≠ (t, Use.item) := fun heq ↦ by cases heq
  refine h.locked hpc hlock hmove ?_
  rw [Function.update_self, Function.update_of_ne hne]
  exact ⟨hitem, hparent, hpath⟩

/-- A thread goes on with a step of the lock of the parent's hash item. -/
theorem Placed.parent (h : Placed F P s) {pc : Pc} {l : LockPc AddressHash}
    {lock : LockService AddressHash (T × Use)} (hpc : s'.pc = Function.update s.pc t pc)
    (hlock : s'.lock = lock) (hmove : lock.pc = Function.update s.lock.pc (t, .parent) l)
    (hitem : ItemLock F pc (s.lock.pc (t, .item))) (hparent : ParentLock F pc l)
    (hcall : ∀ c, pc.call = some c → (s.pc t).call = some c) : Placed F P s' := by
  have hne : (t, Use.item) ≠ (t, Use.parent) := fun heq ↦ by cases heq
  refine h.locked hpc hlock hmove ?_
  rw [Function.update_self, Function.update_of_ne hne]
  exact ⟨hitem, hparent, fun c hc ↦ (h t).path c (hcall c hc)⟩

omit [DecidableEq T] in
/-- A thread that has got the lock of its path's hash item. -/
theorem Placed.entered_of_holds (h : Placed F P s) {c : Call} (hpc : s.pc t = .entered c)
    (hholds : s.Holds t .item) : Inside F c (s.lock.pc (t, .item)) := by
  have hitem := (h t).item
  rw [hpc] at hitem
  obtain ⟨a, hholds⟩ := hholds
  rw [Inside]
  change Entered F c _ at hitem
  rw [Entered] at hitem
  split_ifs at hitem ⊢ with hwrites
  · obtain ⟨key, hspin | hwriting⟩ := hitem
    · rw [hspin] at hholds
      rcases hholds with ⟨_, hne⟩ | hne <;> cases hne
    · exact ⟨key, hwriting⟩
  · rcases hitem with hspin | hreading
    · rw [hspin] at hholds
      rcases hholds with ⟨_, hne⟩ | hne <;> cases hne
    · exact hreading

/-- What a spinning lock becomes. -/
inductive Spins : LockPc AddressHash → LockPc AddressHash → Prop
  | write (a : AddressHash) (key : UInt64) : Spins (.writeSpin a key) (.writing a key)
  | read (a : AddressHash) : Spins (.readSpin a) (.reading a)

theorem Inside.not_spins {c : Call} {l l' : LockPc AddressHash} (h : Inside F c l) :
    ¬Spins l l' := by
  intro hspin
  rw [Inside] at h
  split_ifs at h
  · obtain ⟨key, rfl⟩ := h
    cases hspin
  · rw [h] at hspin
    cases hspin

theorem Entered.spin {c : Call} {l l' : LockPc AddressHash} (h : Entered F c l) (hspin : Spins l l') :
    Entered F c l' := by
  rw [Entered] at h ⊢
  split_ifs at h ⊢
  · obtain ⟨key, rfl | rfl⟩ := h
    · cases hspin
      exact ⟨key, Or.inr rfl⟩
    · cases hspin
  · rcases h with rfl | rfl
    · cases hspin
      exact Or.inr rfl
    · cases hspin

theorem ItemLock.spin {pc : Pc} {l l' : LockPc AddressHash} (h : ItemLock F pc l)
    (hspin : Spins l l') : ItemLock F pc l' := by
  cases pc with
  | idle =>
    obtain rfl : l = .out := h
    cases hspin
  | entered c => exact Entered.spin h hspin
  | leaving => exact absurd hspin h.not_spins
  | _ => exact absurd hspin h.2.not_spins

theorem ParentLock.spin {pc : Pc} {l l' : LockPc AddressHash} (h : ParentLock F pc l)
    (hspin : Spins l l') : ParentLock F pc l' := by
  cases pc with
  | parent c tx =>
    obtain ⟨hlocal, rfl | rfl⟩ := h
    · cases hspin
      exact ⟨hlocal, Or.inr rfl⟩
    · cases hspin
  | copied c tx found =>
    obtain rfl : l = .reading _ := h
    cases hspin
  | _ =>
    obtain rfl : l = .out := h
    cases hspin

/-- A step of a spinning lock. -/
theorem Placed.spin (h : Placed F P s) {use : Use} {l : LockPc AddressHash}
    {lock : LockService AddressHash (T × Use)}
    (hmove : lock.pc = Function.update s.lock.pc (t, use) l)
    (hspin : Spins (s.lock.pc (t, use)) l) : Placed F P { s with lock } := by
  obtain ⟨hitem, hparent, hpath⟩ := h t
  have hpc : ({ s with lock } : FileSystem T).pc = Function.update s.pc t (s.pc t) :=
    (Function.update_eq_self t s.pc).symm
  cases use with
  | item => exact h.item hpc rfl hmove (hitem.spin hspin) hparent hpath
  | parent => exact h.parent hpc rfl hmove hitem (hparent.spin hspin) fun _ ↦ id

/-- A step keeps the threads in their locks. -/
theorem Placed.step (h : Placed F P s) {e : Event T} (hok : CreatesIn P s e)
    (hstep : Step F s e s') : Placed F P s' := by
  cases hstep with
  | remote hpc hlocal => exact h
  | @start t c lock hpc hlocal hlock =>
    have hitem := (h t).item
    have hparent := (h t).parent
    rw [hpc] at hitem hparent
    rw [enter] at hlock
    have hpath (c' : Call) (hc' : (Pc.entered c).call = some c') (hcreates : c'.creates = true) :
        c'.path ∈ P ∧ F.checkLocal c'.path = true := by
      obtain rfl := Option.some.inj hc'
      exact ⟨hok hcreates, (F.admits_of_creates hcreates).symm.trans hlocal⟩
    split_ifs at hlock with hwrites
    · cases hlock with
      | writeLock =>
        refine h.item rfl rfl rfl ?_ hparent hpath
        change Entered F c _
        rw [Entered, if_pos hwrites]
        exact ⟨_, Or.inl rfl⟩
    · cases hlock with
      | readLock =>
        refine h.item rfl rfl rfl ?_ hparent hpath
        change Entered F c _
        rw [Entered, if_neg hwrites]
        split_ifs
        · exact Or.inr rfl
        · exact Or.inl rfl
  | @swap t use lock hlock =>
    cases hlock with
    | swap hpc hzero => exact h.spin rfl (hpc ▸ Spins.write _ _)
  | @check t use lock hlock =>
    cases hlock with
    | check hpc hfree => exact h.spin rfl (hpc ▸ Spins.read _)
  | @body t c files result hpc hholds hbody =>
    exact h.goto hpc rfl rfl (fun _ ↦ h.entered_of_holds hpc hholds) id rfl
  | @begin t c hpc hcreates hholds =>
    exact h.goto hpc rfl rfl (fun _ ↦ ⟨hcreates, h.entered_of_holds hpc hholds⟩) id rfl
  | @parentRemote t c tx hpc hremote => exact h.goto hpc rfl rfl id id rfl
  | @parentLock t c tx lock hpc hlocal hlock =>
    have hitem := (h t).item
    rw [hpc] at hitem
    cases hlock with
    | readLock =>
      refine h.parent rfl rfl rfl hitem ⟨hlocal, ?_⟩ (by rw [hpc]; exact fun _ ↦ id)
      split_ifs
      · exact Or.inr rfl
      · exact Or.inl rfl
  | @copy t c tx found hpc hholds hread =>
    refine h.goto hpc rfl rfl id (fun hl ↦ ?_) rfl
    obtain ⟨a, hholds⟩ := hholds
    obtain ⟨-, hspin | hreading⟩ := hl
    · rw [hspin] at hholds
      rcases hholds with ⟨_, hne⟩ | hne <;> cases hne
    · exact hreading
  | @parentUnlock t c tx found lock hpc hlock =>
    have hitem := (h t).item
    rw [hpc] at hitem
    cases hlock with
    | readUnlock => exact h.parent rfl rfl rfl hitem rfl (by rw [hpc]; exact fun _ ↦ id)
  | @missing t c tx hpc => exact h.goto hpc rfl rfl id id rfl
  | @exist t c tx found entry hpc hexists => exact h.goto hpc rfl rfl id id rfl
  | @extend t c tx found entry hpc hnone hcount hname hname' hflag =>
    exact h.goto hpc rfl rfl id id rfl
  | @log t c tx found entry hpc => exact h.goto hpc rfl rfl id id rfl
  | @update t path tx found entry hpc => exact h.goto hpc rfl rfl id id rfl
  | @keep t path tx found entry hpc => exact h.goto hpc rfl rfl id id rfl
  | @createDirectory t path tx directories reply tuple hpc hcreate =>
    cases reply with
    | none => exact h.goto hpc rfl rfl id id rfl
    | some index => exact h.goto hpc rfl rfl id id rfl
  | @createFile t path tx files reply time tuple hpc hcreate =>
    cases reply with
    | none => exact h.goto hpc rfl rfl id id rfl
    | some index => exact h.goto hpc rfl rfl id id rfl
  | @put t c tx index table result hpc hput => exact h.goto hpc rfl rfl id id rfl
  | @commit t c tx result hpc => exact h.goto hpc rfl rfl And.right id rfl
  | @leave t c tx result lock hpc hlock =>
    have hparent := (h t).parent
    rw [hpc] at hparent
    rw [leave] at hlock
    split_ifs at hlock
    · cases hlock with
      | writeUnlock => exact h.item rfl rfl rfl rfl hparent fun c' hc' ↦ by cases hc'
    · cases hlock with
      | readUnlock => exact h.item rfl rfl rfl rfl hparent fun c' hc' ↦ by cases hc'

/-! ### The lock words -/

section

variable [Fintype T]

omit [DecidableEq T] in
/-- The threads are too few for the reader count of a word to overflow. -/
theorem readerCount_lt (hthreads : Fintype.card T < 2 ^ 31) (role : T × Use → LockRole) :
    readerCount role + 1 < 2 ^ 32 := by
  have hcard : Fintype.card (T × Use) = Fintype.card T * 2 := Fintype.card_prod T Use
  have hle : readerCount role ≤ Fintype.card (T × Use) := Finset.card_le_univ _
  omega

/-- A step is no step of the locks or a proper one. -/
theorem Step.lock (hthreads : Fintype.card T < 2 ^ 31) {e : Event T} (hstep : Step F s e s') :
    s'.lock = s.lock ∨ ∃ e', LockService.Proper s.lock e' ∧ LockService.Step s.lock e' s'.lock := by
  cases hstep with
  | @start t c lock hpc hlocal hlock =>
    refine Or.inr ⟨_, ?_, hlock⟩
    rw [enter]
    split_ifs
    · exact F.getNodeHash_toUInt16_ne_zero c.path
    · exact readerCount_lt hthreads _
  | swap hlock =>
    refine Or.inr ⟨_, ?_, hlock⟩
    trivial
  | check hlock =>
    refine Or.inr ⟨_, ?_, hlock⟩
    trivial
  | parentLock _ _ hlock =>
    refine Or.inr ⟨_, ?_, hlock⟩
    exact readerCount_lt hthreads _
  | parentUnlock _ hlock =>
    refine Or.inr ⟨_, ?_, hlock⟩
    trivial
  | @leave t c tx result lock hpc hlock =>
    refine Or.inr ⟨_, ?_, hlock⟩
    rw [FileSystem.leave]
    split_ifs
    · trivial
    · trivial
  | _ => exact Or.inl rfl

theorem Step.lock_inv (hthreads : Fintype.card T < 2 ^ 31) {e : Event T} (hstep : Step F s e s')
    (h : LockService.Inv s.lock) : LockService.Inv s'.lock := by
  rcases hstep.lock hthreads with hsame | ⟨e', hproper, hlock⟩
  · rwa [hsame]
  · exact h.step hproper hlock

/-! ### No deadlock -/

omit [Fintype T] [DecidableEq T] in
/-- A thread is in the lock of the parent's hash item only while it has locked its own for write. -/
theorem Placed.shape (h : Placed F P s) (t : T) :
    s.lock.pc (t, .parent) = .out ∨
      ∃ path key, path ∈ P ∧ F.checkLocal path = true ∧
        s.lock.pc (t, .item) = .writing (F.item path) key ∧
        (s.lock.pc (t, .parent) = .reading (F.item (getParentDirectory path)) ∨
          F.checkLocal (getParentDirectory path) = true ∧
            s.lock.pc (t, .parent) = .readSpin (F.item (getParentDirectory path))) := by
  obtain ⟨hitem, hparent, hpath⟩ := h t
  have hinside (c : Call) (hcreates : c.creates = true)
      (hin : Inside F c (s.lock.pc (t, .item))) :
      ∃ key, s.lock.pc (t, .item) = .writing (F.item c.path) key := by
    rwa [Inside, if_pos (Call.writes_of_creates hcreates)] at hin
  cases hpc : s.pc t with
  | parent c tx =>
    rw [hpc] at hitem hparent hpath
    obtain ⟨hcreates, hin⟩ := hitem
    obtain ⟨key, hwriting⟩ := hinside c hcreates hin
    obtain ⟨hP, hlocal⟩ := hpath c rfl hcreates
    obtain ⟨hparentLocal, hspin | hreading⟩ := hparent
    · exact Or.inr ⟨c.path, key, hP, hlocal, hwriting, Or.inr ⟨hparentLocal, hspin⟩⟩
    · exact Or.inr ⟨c.path, key, hP, hlocal, hwriting, Or.inl hreading⟩
  | copied c tx found =>
    rw [hpc] at hitem hparent hpath
    obtain ⟨hcreates, hin⟩ := hitem
    obtain ⟨key, hwriting⟩ := hinside c hcreates hin
    obtain ⟨hP, hlocal⟩ := hpath c rfl hcreates
    exact Or.inr ⟨c.path, key, hP, hlocal, hwriting, Or.inl hparent⟩
  | _ =>
    rw [hpc] at hparent
    exact Or.inl hparent

/-- A lock that a thread spins in or reads in. -/
def Counts (l : LockPc AddressHash) (a : AddressHash) : Prop :=
  (∃ key, l = .writeSpin a key) ∨ l = .readSpin a ∨ l = .reading a

omit [Fintype T] [DecidableEq T] in
/-- A thread spins or reads in one of its locks at most. -/
theorem Placed.use_unique (h : Placed F P s) {use use' : Use} {a b : AddressHash}
    (hcounts : Counts (s.lock.pc (t, use)) a) (hcounts' : Counts (s.lock.pc (t, use')) b) :
    use = use' := by
  have hout (b : AddressHash) : ¬Counts .out b := by
    rintro (⟨key, hne⟩ | hne | hne) <;> cases hne
  have hwriting (a b : AddressHash) (key : UInt64) : ¬Counts (.writing a key) b := by
    rintro (⟨key, hne⟩ | hne | hne) <;> cases hne
  rcases h.shape t with hparent | ⟨path, key, -, -, hitem, -⟩
  · have hitem (use : Use) (a : AddressHash) (hc : Counts (s.lock.pc (t, use)) a) : use = .item := by
      cases use with
      | item => rfl
      | parent => exact absurd (hparent ▸ hc) (hout a)
    exact (hitem use a hcounts).trans (hitem use' b hcounts').symm
  · have hparent (use : Use) (a : AddressHash) (hc : Counts (s.lock.pc (t, use)) a) :
        use = .parent := by
      cases use with
      | item => exact absurd (hitem ▸ hc) (hwriting _ a key)
      | parent => rfl
    exact (hparent use a hcounts).trans (hparent use' b hcounts').symm

omit [Fintype T] [DecidableEq T] in
/-- A thread that is in a lock is in a call. -/
theorem Placed.busy (h : Placed F P s) {use : Use} (hlock : s.lock.pc (t, use) ≠ .out) :
    s.pc t ≠ .idle := by
  intro hidle
  obtain ⟨hitem, hparent, -⟩ := h t
  rw [hidle] at hitem hparent
  cases use with
  | item => exact hlock hitem
  | parent => exact hlock hparent

omit [Fintype T] [DecidableEq T] in
/-- A thread that reads or spins in a lock does not wait for any other. -/
theorem Placed.waits_at (h : Placed F P s) {use : Use} {a b : AddressHash}
    (hcounts : Counts (s.lock.pc (t, use)) a) (hwaits : s.Waits t b) :
    (∃ key, s.lock.pc (t, use) = .writeSpin b key) ∨
      s.lock.pc (t, use) = .readSpin b ∧ upperHalf (s.lock.words b) ≠ 0 := by
  obtain ⟨use', ⟨key, hspin, -⟩ | ⟨hspin, hwait⟩⟩ := hwaits
  · obtain rfl := h.use_unique hcounts (Or.inl ⟨key, hspin⟩)
    exact Or.inl ⟨key, hspin⟩
  · obtain rfl := h.use_unique hcounts (Or.inr (Or.inl hspin))
    exact Or.inr ⟨hspin, hwait⟩

omit [Fintype T] [DecidableEq T] in
/-- A thread that waits while it has locked a hash item for write waits for that of the parent. -/
theorem Placed.nests_of_waits (h : Placed F P s) {a b : AddressHash} {key : UInt64}
    (hwriting : s.lock.pc (t, .item) = .writing a key) (hwaits : s.Waits t b) : Nests F P a b := by
  obtain ⟨use, hwaits⟩ := hwaits
  cases use with
  | item =>
    rw [hwriting] at hwaits
    rcases hwaits with ⟨_, hne, -⟩ | ⟨hne, -⟩ <;> cases hne
  | parent =>
    rcases h.shape t with hparent | ⟨path, key', hP, hlocal, hitem, hreading | ⟨hparent, hspin⟩⟩
    · rw [hparent] at hwaits
      rcases hwaits with ⟨_, hne, -⟩ | ⟨hne, -⟩ <;> cases hne
    · rw [hreading] at hwaits
      rcases hwaits with ⟨_, hne, -⟩ | ⟨hne, -⟩ <;> cases hne
    · obtain ⟨rfl, -⟩ := LockPc.writing.inj (hwriting.symm.trans hitem)
      rw [hspin] at hwaits
      rcases hwaits with ⟨_, hne, -⟩ | ⟨heq, -⟩
      · cases hne
      · exact ⟨path, hP, hlocal, hparent, rfl, LockPc.readSpin.inj heq⟩

omit [DecidableEq T] in
/-- A word with a key has a writer, which has it for its own path's hash item. -/
theorem Placed.exists_writer_of_key (h : Placed F P s) (hinv : LockService.Inv s.lock)
    {a : AddressHash} (hkey : upperHalf (s.lock.words a) ≠ 0) :
    ∃ t key, s.lock.pc (t, .item) = .writing a key := by
  rw [ne_eq, upperHalf_eq_zero_iff] at hkey
  obtain ⟨⟨t, use⟩, hrole⟩ := (hinv.guarded a).owner.mp hkey
  obtain ⟨key, hwriting⟩ := LockService.role_eq_writing hrole
  cases use with
  | item => exact ⟨t, key, hwriting⟩
  | parent =>
    rcases h.shape t with hout | ⟨path, _, -, -, -, hreading | ⟨-, hspin⟩⟩
    · cases hwriting.symm.trans hout
    · cases hwriting.symm.trans hreading
    · cases hwriting.symm.trans hspin

omit [DecidableEq T] in
/-- The hash item that a thread waits for is locked for write, if every call waits. -/
theorem Placed.exists_writer (h : Placed F P s) (hinv : LockService.Inv s.lock)
    (hall : ∀ t, s.pc t ≠ .idle → ∃ a, s.Waits t a) {a : AddressHash} (hwaits : s.Waits t a) :
    ∃ t' key, s.lock.pc (t', .item) = .writing a key := by
  by_cases hkey : upperHalf (s.lock.words a) = 0
  · -- a writer that waits for readers only, of which one would go on
    exfalso
    have hword : s.lock.words a ≠ 0 := by
      obtain ⟨use, ⟨key, -, hword⟩ | ⟨-, hword⟩⟩ := hwaits
      · exact hword
      · exact absurd hkey hword
    have hbusy := mt (hinv.guarded a).eq_zero_iff.mpr hword
    push Not at hbusy
    obtain ⟨⟨t', use⟩, hrole⟩ := hbusy
    have hlock : s.lock.pc (t', use) = .readSpin a ∨ s.lock.pc (t', use) = .reading a := by
      refine LockService.role_counted ?_
      cases hcases : s.lock.roleAt a (t', use) with
      | idle => exact absurd hcases hrole
      | waiting => exact Or.inl hcases
      | reading => exact Or.inr hcases
      | writing =>
        have howner := (hinv.guarded a).owner.mpr ⟨_, hcases⟩
        exact absurd ((upperHalf_eq_zero_iff _).mp hkey) howner
    have hin : s.lock.pc (t', use) ≠ .out := by
      rcases hlock with heq | heq <;> rw [heq] <;> exact fun hout ↦ by cases hout
    obtain ⟨b, hwaits'⟩ := hall t' (h.busy hin)
    rcases h.waits_at (Or.inr hlock) hwaits' with ⟨key, hpc⟩ | ⟨hpc, hwait⟩
    · rw [hpc] at hlock
      rcases hlock with heq | heq <;> cases heq
    · rw [hpc] at hlock
      rcases hlock with heq | heq
      · exact hwait (LockPc.readSpin.inj heq ▸ hkey)
      · cases heq
  · exact h.exists_writer_of_key hinv hkey

omit [DecidableEq T] in
/-- The hash items that are locked for write are finitely many. -/
theorem finite_written (s : FileSystem T) :
    {a | ∃ t key, s.lock.pc (t, .item) = .writing a key}.Finite := by
  have hunion : {a | ∃ t key, s.lock.pc (t, .item) = .writing a key} =
      ⋃ t, {a | ∃ key, s.lock.pc (t, .item) = .writing a key} := by
    ext a
    rw [Set.mem_iUnion]
    rfl
  rw [hunion]
  refine Set.finite_iUnion fun t ↦ Set.Subsingleton.finite ?_
  rintro a ⟨key, ha⟩ b ⟨key', hb⟩
  exact (LockPc.writing.inj (ha.symm.trans hb)).1

omit [DecidableEq T] in
/-- Not every call waits. -/
theorem Placed.not_all_wait (h : Placed F P s) (hinv : LockService.Inv s.lock)
    (hacyclic : Acyclic F P) (hbusy : s.pc t ≠ .idle) :
    ¬∀ t, s.pc t ≠ .idle → ∃ a, s.Waits t a := by
  intro hall
  obtain ⟨a, hwaits⟩ := hall t hbusy
  obtain ⟨b, hcycle⟩ := exists_transGen_self (r := Nests F P) (finite_written s)
    ⟨a, h.exists_writer hinv hall hwaits⟩ fun a ⟨t', key, hwriting⟩ ↦ by
      have hin : s.lock.pc (t', .item) ≠ .out := by
        rw [hwriting]
        exact fun hout ↦ by cases hout
      obtain ⟨b, hwaits'⟩ := hall t' (h.busy hin)
      exact ⟨b, h.exists_writer hinv hall hwaits', h.nests_of_waits hwriting hwaits'⟩
  exact hacyclic b hcycle

omit [Fintype T] [DecidableEq T] in
/-- No thread waits for a hash item that it has locked. -/
theorem Placed.not_holds (h : Placed F P s) (hacyclic : Acyclic F P) {a : AddressHash}
    (hwaits : s.Waits t a) : ¬s.HoldsItem t a := by
  rintro ⟨use, ⟨key, hwriting⟩ | hreading⟩
  · cases use with
    | item => exact hacyclic a (Relation.TransGen.single (h.nests_of_waits hwriting hwaits))
    | parent =>
      rcases h.shape t with hout | ⟨path, _, -, -, -, hreading | ⟨-, hspin⟩⟩
      · cases hwriting.symm.trans hout
      · cases hwriting.symm.trans hreading
      · cases hwriting.symm.trans hspin
  · rcases h.waits_at (Or.inr (Or.inr hreading)) hwaits with ⟨_, hspin⟩ | ⟨hspin, -⟩
    · cases hreading.symm.trans hspin
    · cases hreading.symm.trans hspin

/-- As long as the hash items of the created paths and of their parents form no cycle, some call that
is in progress does not wait for a hash item, and no call waits for one that it has locked itself. -/
theorem calls_do_not_deadlock (hthreads : Fintype.card T < 2 ^ 31) (P : Set Path)
    (hacyclic : Acyclic F P) {s₀ s : FileSystem T} (hlock : s₀.lock = LockService.init)
    (hidle : ∀ t, s₀.pc t = .idle) (hrun : Reachable s₀ (Step F) (CreatesIn P) s) :
    ((∃ t, s.pc t ≠ .idle) → ∃ t, s.pc t ≠ .idle ∧ ∀ a, ¬s.Waits t a) ∧
      ∀ t a, s.Waits t a → ¬s.HoldsItem t a := by
  have hstart : Placed F P s₀ ∧ LockService.Inv s₀.lock := by
    rw [hlock]
    refine ⟨fun t ↦ ?_, LockService.Inv.init⟩
    rw [hidle, hlock]
    exact ⟨rfl, rfl, fun c hc ↦ by cases hc⟩
  obtain ⟨hplaced, hinv⟩ := hrun.invariant (fun s ↦ Placed F P s ∧ LockService.Inv s.lock) hstart
    fun _ _ _ _ hinv hok hstep ↦ ⟨hinv.1.step hok hstep, hstep.lock_inv hthreads hinv.2⟩
  refine ⟨fun ⟨t, hbusy⟩ ↦ ?_, fun t a hwaits ↦ hplaced.not_holds hacyclic hwaits⟩
  have hnot := hplaced.not_all_wait hinv hacyclic hbusy
  push Not at hnot
  exact hnot

end

/-- A server of one node whose tables are empty. -/
def noFiles (T : Type) : FileSystem T :=
  init ⟨⟨fun _ ↦ 0, 0, 0⟩, fun _ ↦ 0, HashTable.Buffer.zeroed.itemsChained, []⟩
    ⟨⟨fun _ ↦ 0, 0, 0⟩, false, fun _ ↦ ⟨0, 0, 0, fun _ ↦ ⟨0, 0⟩⟩, none, fun _ ↦ none⟩
    ⟨⟨fun _ ↦ 0, 0, 0⟩, false, fun _ ↦ ⟨0, fun _ ↦ ⟨[], false⟩⟩, none, fun _ ↦ none⟩

/-- One node, with a hash function whose low word is given. -/
def oneNode (low : Path → UInt64) : Config where
  sha256 := fun path ↦ ⟨fun i ↦ if i = 0 then low path else 0⟩
  countNode := 1
  hashLocalNode := 1
  Dotx := true
  countNode_pos := Config.toNat_one_pos
  countNode_lt := Config.toNat_one_lt

/-- The path `/a`. -/
def pathA : Path := [slash, 97]

/-- The server after a thread has come to the lock of `/a`. -/
def atLock (low : Path → UInt64) : FileSystem Unit :=
  { (noFiles Unit).locked ()
      ⟨fun _ ↦ 0, 1, Function.update (fun _ ↦ .out) ((), .item)
        (.writeSpin ((oneNode low).item pathA) (lockKey 1 0))⟩ (.entered (.mkdircd pathA)) with
    started := [pathA] }

theorem step_atLock (low : Path → UInt64) :
    Step (oneNode low) (noFiles Unit) (.start () (.mkdircd pathA)) (atLock low) := by
  refine Step.start rfl rfl ?_
  exact LockService.Step.writeLock (s := (noFiles Unit).lock) 1 ((oneNode low).item pathA) rfl

/-- Where `/a` and `/` have the same hash item, a single thread waits for the item that it has locked
itself. -/
theorem same_item_deadlock :
    ∃ s : FileSystem Unit, Reachable (noFiles Unit) (Step (oneNode fun _ ↦ 0)) (fun _ _ ↦ True) s ∧
      s.pc () ≠ .idle ∧ s.Waits () 0 ∧ s.HoldsItem () 0 := by
  let s₁ := atLock fun _ ↦ 0
  let key := lockKey 1 0
  let l₂ : LockService AddressHash (Unit × Use) :=
    { s₁.lock with
      words := Function.update s₁.lock.words 0 key
      pc := Function.update s₁.lock.pc ((), .item) (.writing 0 key) }
  let s₂ : FileSystem Unit := { s₁ with lock := l₂ }
  let s₃ : FileSystem Unit :=
    { s₂.goto () (.began (.mkdircd pathA) ((oneNode fun _ ↦ 0).TxLocalBegin s₂.txManager).2) with
      txManager := ((oneNode fun _ ↦ 0).TxLocalBegin s₂.txManager).1 }
  let l₄ : LockService AddressHash (Unit × Use) :=
    { l₂ with
      words := Function.update l₂.words 0 (l₂.words 0 + 1)
      pc := Function.update l₂.pc ((), .parent)
        (if upperHalf (l₂.words 0) = 0 then .reading 0 else .readSpin 0) }
  let s₄ : FileSystem Unit := s₃.locked () l₄
    (.parent (.mkdircd pathA) ((oneNode fun _ ↦ 0).TxLocalBegin s₂.txManager).2)
  have hswap : Step (oneNode fun _ ↦ 0) s₁ (.step ()) s₂ := Step.swap (LockService.Step.swap rfl rfl)
  have hbegin : Step (oneNode fun _ ↦ 0) s₂ (.step ()) s₃ :=
    Step.begin rfl rfl ⟨0, Or.inl ⟨key, rfl⟩⟩
  have hlock : Step (oneNode fun _ ↦ 0) s₃ (.step ()) s₄ :=
    Step.parentLock rfl rfl (LockService.Step.readLock 0 rfl)
  have hrun : Reachable (noFiles Unit) (Step (oneNode fun _ ↦ 0)) (fun _ _ ↦ True) s₄ :=
    (((Reachable.init.step trivial (step_atLock _)).step trivial hswap).step trivial hbegin).step
      trivial hlock
  have hbusy : s₄.pc () ≠ .idle := fun hidle ↦ by cases hidle
  have hkey : upperHalf (l₂.words 0) ≠ 0 := by decide +kernel
  have hspin : s₄.lock.pc ((), .parent) = .readSpin 0 := if_neg hkey
  have hword : upperHalf (s₄.lock.words 0) ≠ 0 := by decide +kernel
  exact ⟨s₄, hrun, hbusy, ⟨.parent, Or.inr ⟨hspin, hword⟩⟩, ⟨.item, Or.inl ⟨key, rfl⟩⟩⟩

/-- Where the hash items of `/a` and `/` differ, the thread goes on. -/
theorem calls_do_not_deadlock_two :
    ∃ s : FileSystem Unit, Reachable (noFiles Unit) (Step (oneNode fun path ↦ path.length.toUInt64))
      (CreatesIn {pathA}) s ∧ s.pc () ≠ .idle ∧ ∀ a, ¬s.Waits () a := by
  have hnests {a b : AddressHash} (h : Nests (oneNode fun path ↦ path.length.toUInt64) {pathA} a b) :
      a = 2 ∧ b = 1 := by
    obtain ⟨path, rfl, -, -, rfl, rfl⟩ := h
    exact ⟨rfl, rfl⟩
  have hacyclic : Acyclic (oneNode fun path ↦ path.length.toUInt64) {pathA} := by
    intro a hcycle
    obtain ⟨b, hfirst, -⟩ := Relation.TransGen.head'_iff.mp hcycle
    obtain ⟨c, -, hlast⟩ := Relation.TransGen.tail'_iff.mp hcycle
    have hne := (hnests hfirst).1.symm.trans (hnests hlast).2
    exact absurd hne (by decide)
  have hok : CreatesIn {pathA} (noFiles Unit) (.start () (.mkdircd pathA)) := fun _ ↦ rfl
  have hrun := Reachable.init.step hok (step_atLock fun path ↦ path.length.toUInt64)
  have hbusy : ∃ t, (atLock fun path ↦ path.length.toUInt64).pc t ≠ .idle :=
    ⟨(), fun hidle ↦ by cases hidle⟩
  obtain ⟨⟨⟩, hne, hgoes⟩ := (calls_do_not_deadlock (by decide) {pathA} hacyclic rfl (fun _ ↦ rfl)
    hrun).1 hbusy
  exact ⟨_, hrun, hne, hgoes⟩

end FileSystem

end SwitchDelta.Fs
