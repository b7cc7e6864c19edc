import SwitchDelta.Fs.MemoryLayout
import SwitchDelta.Fs.SoloCalls
import SwitchDelta.Fs.Transactions

/-!
# The memory of the log

The log is a region of `LOCALLOGSIZE` bytes, and the entries are in it one after the other.
`TxLocalBegin` takes the next one for every creation and never returns to the first.

`LogTrace` is a run of the server with what it writes to the log. `log_in_bounds` says that all of
it is inside the region if and only if at most `LOCALLOGSIZE / sizeof(LocalLogEntry)` transactions have
begun. A record fits in an entry in any case.
-/

set_option autoImplicit false
set_option relaxedAutoImplicit false

namespace SwitchDelta.Fs

open Foundation

/-! ### What is written -/

/-- The fields of `LocalLogEntry`, which is packed. -/
inductive LogField
  | TxID
  | begin
  | logData
  | commit

/-- The size of a field. -/
def LogField.size : LogField → ℕ
  | .TxID => 8
  | .begin => 1
  | .logData => 4086
  | .commit => 1

/-- `sizeof(LocalLogEntry)`. -/
def sizeofLocalLogEntry : ℕ :=
  LogField.TxID.size + LogField.begin.size + LogField.logData.size + LogField.commit.size

/-- `sizeof(DirectoryMeta)`: the counter and the tuples, each with a name and a flag. -/
def sizeofDirectoryMeta : ℕ := 8 + MAX_DIRECTORY_COUNT * (MAX_FILE_NAME_LENGTH + 1)

/-- A number of bytes that are written to a field of an entry. -/
structure LogWrite where
  index : ℕ
  field : LogField
  size : ℕ

/-- The address of the entry. -/
def LogWrite.address (LocalLogAddress : UInt64) (w : LogWrite) : UInt64 :=
  LocalLogAddress + UInt64.ofNat w.index * UInt64.ofNat sizeofLocalLogEntry

/-- The entry is inside the region of the log, and the bytes fit in the field. -/
structure LogWrite.InBounds (LocalLogAddress : UInt64) (w : LogWrite) : Prop where
  entry : (w.address LocalLogAddress - LocalLogAddress).toNat + sizeofLocalLogEntry ≤
    LOCALLOGSIZE.toNat
  size : w.size ≤ w.field.size

/-- An entry is inside the region if it is one of the first. -/
theorem LogWrite.entry_iff {LocalLogAddress : UInt64} {w : LogWrite} (hindex : w.index ≤ 10240) :
    (w.address LocalLogAddress - LocalLogAddress).toNat + sizeofLocalLogEntry ≤
      LOCALLOGSIZE.toNat ↔ w.index < 10240 := by
  have hsize : sizeofLocalLogEntry = 4096 := rfl
  have hlog : LOCALLOGSIZE.toNat = 4096 * 10240 := by decide
  have hoffset : (w.address LocalLogAddress - LocalLogAddress).toNat = w.index * 4096 := by
    rw [address, add_sub_cancel_left, UInt64.toNat_mul, UInt64.toNat_ofNat', UInt64.toNat_ofNat',
      hsize]
    omega
  rw [hoffset, hlog, hsize]
  omega

namespace TxManager

/-- What `TxLocalBegin` writes. -/
def beginWrites (m : TxManager) : List LogWrite :=
  [⟨m.LocalLogIndex, .TxID, 8⟩, ⟨m.LocalLogIndex, .begin, 1⟩]

/-- What `TxWriteData` writes, for the record of a directory. -/
def dataWrites (TxID : ℕ) : List LogWrite := [⟨TxID, .logData, sizeofDirectoryMeta⟩]

/-- What `TxLocalCommit` writes. -/
def commitWrites (TxID : ℕ) : List LogWrite := [⟨TxID, .commit, 1⟩]

end TxManager

namespace FileSystem

/-- The server with what has been written to the log, and the number of the transactions that have
begun. -/
structure LogTrace (T : Type) where
  fs : FileSystem T
  writes : List LogWrite
  begun : ℕ

variable {T : Type} [DecidableEq T] (F : Config)

/-- The writes of the calls of `TxManager` between two places. -/
def placeWrites (m : TxManager) : Pc → Pc → List LogWrite
  | .entered _, .began _ _ => m.beginWrites
  | .extended _ tx _ _, .logged _ _ _ _ => TxManager.dataWrites tx.LocalTxID
  | .decided _ tx _, .leaving _ _ _ => TxManager.commitWrites tx.LocalTxID
  | _, _ => []

/-- What a thread writes to the log when it goes from one place to the next one. -/
def logWrites (m : TxManager) (pc pc' : Pc) : List LogWrite :=
  if F.Dotx then placeWrites m pc pc' else []

/-- The transactions that begin there. -/
def begins : Pc → Pc → ℕ
  | .entered _, .began _ _ => 1
  | _, _ => 0

/-- A step, with what it writes to the log. -/
inductive LogStep : LogTrace T → Event T → LogTrace T → Prop
  | start {c : LogTrace T} {t : T} {call : Call} {s' : FileSystem T} :
      Step F c.fs (.start t call) s' → LogStep c (.start t call) ⟨s', c.writes, c.begun⟩
  | step {c : LogTrace T} {t : T} {s' : FileSystem T} : Step F c.fs (.step t) s' →
      LogStep c (.step t)
        ⟨s', c.writes ++ logWrites F c.fs.txManager (c.fs.pc t) (s'.pc t),
          c.begun + begins (c.fs.pc t) (s'.pc t)⟩

variable {F} {s s' : FileSystem T} {t : T} {c c' : LogTrace T}

/-- What a step of a thread does to the log: nothing, or one of the calls of `TxManager`. -/
inductive LogEffect (F : Config) (m : TxManager) (pc pc' : Pc) : TxManager → Prop
  | none : logWrites F m pc pc' = [] → begins pc pc' = 0 → LogEffect F m pc pc' m
  | begin : logWrites F m pc pc' = (if F.Dotx then m.beginWrites else []) → begins pc pc' = 1 →
      LogEffect F m pc pc' (F.TxLocalBegin m).1
  | data {tx : LocalTx} (data : DirectoryMeta) : Pc.transaction pc = some ⟨tx, none⟩ →
      logWrites F m pc pc' = (if F.Dotx then TxManager.dataWrites tx.LocalTxID else []) →
      begins pc pc' = 0 → LogEffect F m pc pc' (F.TxWriteData m tx data).1
  | commit {tx : LocalTx} (action : Bool) : Pc.transaction pc = some ⟨tx, none⟩ →
      logWrites F m pc pc' = (if F.Dotx then TxManager.commitWrites tx.LocalTxID else []) →
      begins pc pc' = 0 → LogEffect F m pc pc' (F.TxLocalCommit m tx action)

omit [DecidableEq T] in
/-- A step that leaves the log alone. -/
theorem logEffect_none {m : TxManager} {pc pc' : Pc} (hwrites : placeWrites m pc pc' = [])
    (hbegins : begins pc pc' = 0) : LogEffect F m pc pc' m :=
  .none (by rw [logWrites, hwrites, ite_self]) hbegins

omit [DecidableEq T] in
theorem logEffect_self (m : TxManager) (pc : Pc) : LogEffect F m pc pc m := by
  cases pc <;> exact logEffect_none rfl rfl

/-- A thread goes from one place to the next one. -/
theorem logEffect_goto {m m' : TxManager} {pc pc' : Pc} (hpc : s.pc t = pc)
    (hpc' : s'.pc = Function.update s.pc t pc') (h : LogEffect F m pc pc' m') :
    LogEffect F m (s.pc t) (s'.pc t) m' := by
  rw [hpc', Function.update_self, hpc]
  exact h

theorem Step.logEffect (hstep : Step F s (.step t) s') :
    LogEffect F s.txManager (s.pc t) (s'.pc t) s'.txManager := by
  cases hstep with
  | swap hlock => exact logEffect_self _ _
  | check hlock => exact logEffect_self _ _
  | body hpc => exact logEffect_goto hpc rfl (logEffect_none rfl rfl)
  | begin hpc => exact logEffect_goto hpc rfl (.begin rfl rfl)
  | parentRemote hpc => exact logEffect_goto hpc rfl (logEffect_none rfl rfl)
  | parentLock hpc => exact logEffect_goto hpc rfl (logEffect_none rfl rfl)
  | copy hpc => exact logEffect_goto hpc rfl (logEffect_none rfl rfl)
  | parentUnlock hpc => exact logEffect_goto hpc rfl (logEffect_none rfl rfl)
  | missing hpc => exact logEffect_goto hpc rfl (logEffect_none rfl rfl)
  | exist hpc => exact logEffect_goto hpc rfl (logEffect_none rfl rfl)
  | extend hpc => exact logEffect_goto hpc rfl (logEffect_none rfl rfl)
  | log hpc => exact logEffect_goto hpc rfl (.data _ rfl rfl rfl)
  | update hpc => exact logEffect_goto hpc rfl (logEffect_none rfl rfl)
  | keep hpc => exact logEffect_goto hpc rfl (logEffect_none rfl rfl)
  | @createDirectory _ path tx directories reply tuple hpc =>
    refine logEffect_goto hpc rfl ?_
    cases reply <;> exact logEffect_none rfl rfl
  | @createFile _ path tx files reply time tuple hpc =>
    refine logEffect_goto hpc rfl ?_
    cases reply <;> exact logEffect_none rfl rfl
  | put hpc => exact logEffect_goto hpc rfl (logEffect_none rfl rfl)
  | commit hpc => exact logEffect_goto hpc rfl (.commit _ rfl rfl rfl)
  | leave hpc => exact logEffect_goto hpc rfl (logEffect_none rfl rfl)

/-! ### The invariant -/

/-- The wrapper `TxLocalBegin` has returned zero to every thread. -/
def Zeros (s : FileSystem T) : Prop :=
  ∀ t d, Pc.transaction (s.pc t) = some d → d.tx.LocalTxID = 0

theorem Zeros.goto {pc : Pc} (h : Zeros s) (hpc : s'.pc = Function.update s.pc t pc)
    (hzero : ∀ d, Pc.transaction pc = some d → d.tx.LocalTxID = 0) : Zeros s' := by
  intro t' d hd
  rw [hpc] at hd
  by_cases ht : t' = t
  · rw [ht, Function.update_self] at hd
    exact hzero d hd
  · rw [Function.update_of_ne ht] at hd
    exact h t' d hd

/-- The transaction stays the same. -/
theorem Zeros.keep {pc pc' : Pc} (h : Zeros s) (hpc : s.pc t = pc)
    (hpc' : s'.pc = Function.update s.pc t pc')
    (hsame : (Pc.transaction pc').map (fun d ↦ d.tx.LocalTxID) =
      (Pc.transaction pc).map fun d ↦ d.tx.LocalTxID) : Zeros s' := by
  refine h.goto hpc' fun d hd ↦ ?_
  rw [hd, Option.map_some] at hsame
  obtain ⟨d', hd', hid⟩ := Option.map_eq_some_iff.mp hsame.symm
  rw [← hid]
  exact h t d' (by rw [hpc, hd'])

theorem Zeros.step {e : Event T} (h : Zeros s) (hstep : Step F s e s') : Zeros s' := by
  cases hstep with
  | remote hpc => exact h
  | start hpc => exact h.goto rfl fun _ hd ↦ by cases hd
  | swap hlock => exact h
  | check hlock => exact h
  | body hpc => exact h.goto rfl fun _ hd ↦ by cases hd
  | begin hpc =>
    refine h.goto rfl fun d hd ↦ ?_
    obtain rfl := Option.some.inj hd
    rw [Config.TxLocalBegin]
    split_ifs <;> rfl
  | parentRemote hpc => exact h.keep hpc rfl rfl
  | parentLock hpc => exact h.keep hpc rfl rfl
  | copy hpc => exact h.keep hpc rfl rfl
  | parentUnlock hpc => exact h.keep hpc rfl rfl
  | missing hpc => exact h.keep hpc rfl rfl
  | exist hpc => exact h.keep hpc rfl rfl
  | extend hpc => exact h.keep hpc rfl rfl
  | log hpc =>
    refine h.keep hpc rfl ?_
    rw [Config.TxWriteData]
    split_ifs <;> rfl
  | update hpc => exact h.keep hpc rfl rfl
  | keep hpc => exact h.keep hpc rfl rfl
  | @createDirectory _ path tx directories reply tuple hpc =>
    refine h.keep hpc rfl ?_
    cases reply <;> rfl
  | @createFile _ path tx files reply time tuple hpc =>
    refine h.keep hpc rfl ?_
    cases reply <;> rfl
  | put hpc => exact h.keep hpc rfl rfl
  | commit hpc => exact h.keep hpc rfl rfl
  | leave hpc => exact h.goto rfl fun _ hd ↦ by cases hd

/-- The invariant: the entries of the transactions that have begun come one after the other, and
nothing else is written but the first entry. -/
structure Traced (F : Config) (c : LogTrace T) : Prop where
  zeros : Zeros c.fs
  index : F.Dotx = true → c.fs.txManager.LocalLogIndex = c.begun
  written : ∀ w ∈ c.writes,
    F.Dotx = true ∧ w.size ≤ w.field.size ∧ (w.index = 0 ∨ w.index < c.begun)
  begun : F.Dotx = true → ∀ index < c.begun, ⟨index, .TxID, 8⟩ ∈ c.writes

omit [DecidableEq T] in
/-- Writes to the first entry, or to one of a transaction that has begun. -/
theorem Traced.append (h : Traced F c) {writes : List LogWrite} {n : ℕ} (hzeros : Zeros s')
    (hindex : F.Dotx = true → s'.txManager.LocalLogIndex = c.begun + n)
    (hwrites : ∀ w ∈ writes, F.Dotx = true ∧ w.size ≤ w.field.size ∧
      (w.index = 0 ∨ w.index < c.begun + n))
    (hbegun : F.Dotx = true → ∀ index, c.begun ≤ index → index < c.begun + n →
      ⟨index, .TxID, 8⟩ ∈ writes) : Traced F ⟨s', c.writes ++ writes, c.begun + n⟩ := by
  refine ⟨hzeros, hindex, fun w hw ↦ ?_, fun hDotx index hless ↦ List.mem_append.mpr ?_⟩
  · rcases List.mem_append.mp hw with hold | hnew
    · obtain ⟨hDotx, hsize, hplace⟩ := h.written w hold
      exact ⟨hDotx, hsize, hplace.imp_right fun hless ↦ hless.trans_le (Nat.le_add_right _ _)⟩
    · exact hwrites w hnew
  · by_cases hold : index < c.begun
    · exact Or.inl (h.begun hDotx index hold)
    · exact Or.inr (hbegun hDotx index (not_lt.mp hold) hless)

theorem Traced.step (h : Traced F c) {e : Event T} (hstep : LogStep F c e c') : Traced F c' := by
  cases hstep with
  | @start t call s' hstart =>
    have hlog : s'.txManager = c.fs.txManager := by cases hstart <;> rfl
    exact ⟨h.zeros.step hstart, hlog ▸ h.index, h.written, h.begun⟩
  | @step t s' hstep =>
    have hzeros := h.zeros.step hstep
    have heffect := hstep.logEffect
    generalize hm : s'.txManager = m at heffect
    cases heffect with
    | none hwrites hbegins =>
      rw [hwrites, hbegins]
      exact h.append hzeros (fun hDotx ↦ hm ▸ h.index hDotx) (fun w hw ↦ absurd hw List.not_mem_nil)
        fun _ index hle hless ↦ by omega
    | begin hwrites hbegins =>
      rw [hwrites, hbegins]
      refine h.append hzeros (fun hDotx ↦ ?_) (fun w hw ↦ ?_) fun hDotx index hle hless ↦ ?_
      · rw [hm, Config.TxLocalBegin, if_pos hDotx]
        exact congrArg (· + 1) (h.index hDotx)
      · split_ifs at hw with hDotx
        · have hindex := h.index hDotx
          rcases List.mem_pair.mp hw with rfl | rfl
          · exact ⟨hDotx, le_rfl, Or.inr (by dsimp only; omega)⟩
          · exact ⟨hDotx, le_rfl, Or.inr (by dsimp only; omega)⟩
        · cases hw
      · obtain rfl : index = c.begun := by omega
        rw [if_pos hDotx, TxManager.beginWrites, h.index hDotx]
        exact List.mem_cons_self
    | @data tx data htx hwrites hbegins =>
      rw [hwrites, hbegins]
      refine h.append hzeros (fun hDotx ↦ ?_) (fun w hw ↦ ?_) fun _ index hle hless ↦ by omega
      · rw [hm, Config.TxWriteData, if_pos hDotx]
        exact h.index hDotx
      · split_ifs at hw with hDotx
        · rw [List.mem_singleton.mp hw]
          have hfits : sizeofDirectoryMeta ≤ LogField.logData.size := by decide
          exact ⟨hDotx, hfits, Or.inl (h.zeros t _ htx)⟩
        · cases hw
    | @commit tx action htx hwrites hbegins =>
      rw [hwrites, hbegins]
      refine h.append hzeros (fun hDotx ↦ ?_) (fun w hw ↦ ?_) fun _ index hle hless ↦ by omega
      · rw [hm, Config.TxLocalCommit, if_pos hDotx]
        exact h.index hDotx
      · split_ifs at hw with hDotx
        · rw [List.mem_singleton.mp hw]
          exact ⟨hDotx, le_rfl, Or.inl (h.zeros t _ htx)⟩
        · cases hw

/-- The invariant of every run. -/
theorem Traced.of_run {s₀ : FileSystem T} (hidle : ∀ t, s₀.pc t = .idle)
    (hempty : s₀.txManager.LocalLogIndex = 0)
    (hrun : Reachable ⟨s₀, [], 0⟩ (LogStep F) (fun _ _ ↦ True) c) : Traced F c := by
  refine hrun.invariant (Traced F) ⟨fun t d hd ↦ ?_, fun _ ↦ hempty,
    fun w hw ↦ absurd hw List.not_mem_nil, fun _ index hless ↦ absurd hless (Nat.not_lt_zero _)⟩
    fun _ _ _ _ h _ hstep ↦ h.step hstep
  change Pc.transaction (s₀.pc t) = some d at hd
  rw [hidle] at hd
  cases hd

/-- Everything that is written to the log is inside its region if and only if no more transactions
have begun than the region has entries. -/
theorem log_in_bounds {s₀ : FileSystem T} (hidle : ∀ t, s₀.pc t = .idle)
    (hempty : s₀.txManager.LocalLogIndex = 0)
    (hrun : Reachable ⟨s₀, [], 0⟩ (LogStep F) (fun _ _ ↦ True) c) (LocalLogAddress : UInt64) :
    (∀ w ∈ c.writes, w.InBounds LocalLogAddress) ↔
      (F.Dotx = true → c.begun ≤ LOCALLOGSIZE.toNat / sizeofLocalLogEntry) := by
  have htraced := Traced.of_run hidle hempty hrun
  have hentries : LOCALLOGSIZE.toNat / sizeofLocalLogEntry = 10240 := by decide
  rw [hentries]
  constructor
  · intro hall hDotx
    by_contra hmore
    have hwrite := htraced.begun hDotx 10240 (not_le.mp hmore)
    exact lt_irrefl 10240 ((LogWrite.entry_iff le_rfl).mp (hall _ hwrite).entry)
  · intro hfew w hw
    obtain ⟨hDotx, hsize, hplace⟩ := htraced.written w hw
    have hless : w.index < 10240 := by
      have hbegun := hfew hDotx
      omega
    exact ⟨(LogWrite.entry_iff hless.le).mpr hless, hsize⟩

/-! ### A run of many calls -/

/-- What has been written in a run. -/
theorem exists_trace {s₀ : FileSystem T} {ok : FileSystem T → Event T → Prop}
    (hrun : Reachable s₀ (Step F) ok s) : ∃ c,
      Reachable ⟨s₀, [], 0⟩ (LogStep F) (fun _ _ ↦ True) c ∧ c.fs = s := by
  induction hrun with
  | init => exact ⟨_, .init, rfl⟩
  | @step _ _ e _ _ hstep ih =>
    obtain ⟨c, hc, rfl⟩ := ih
    cases e with
    | start t call => exact ⟨_, hc.step trivial (.start hstep), rfl⟩
    | step t => exact ⟨_, hc.step trivial (.step hstep), rfl⟩

/-- One more transaction has begun, or will. -/
def Begins (t : T) (n : ℕ) (s : FileSystem T) : Prop :=
  n + 1 ≤ s.txManager.LocalLogIndex ∨
    n ≤ s.txManager.LocalLogIndex ∧ ∃ path, s.pc t = .entered (.mkdircd path)

theorem Begins.step {n : ℕ} (hDotx : F.Dotx = true) (h : Begins t n s) (hsolo : Solo F t s s') :
    Begins t n s' := by
  rcases h with h | ⟨h, path, hpc⟩
  · left
    have heffect := hsolo.2.logEffect
    generalize hm : s'.txManager = m at heffect
    cases heffect with
    | none => exact h
    | begin =>
      rw [Config.TxLocalBegin, if_pos hDotx]
      exact h.trans (Nat.le_succ _)
    | data =>
      rw [Config.TxWriteData, if_pos hDotx]
      exact h
    | commit =>
      rw [Config.TxLocalCommit, if_pos hDotx]
      exact h
  · rcases hsolo.2.next_or with ⟨use, lock, -, rfl⟩ | ⟨use, lock, -, rfl⟩ | hnext
    · exact Or.inr ⟨h, path, hpc⟩
    · exact Or.inr ⟨h, path, hpc⟩
    · rw [hpc] at hnext
      obtain ⟨-, ⟨files, result, hbody, -⟩ | ⟨-, rfl⟩⟩ := hnext
      · cases hbody
      · left
        change n + 1 ≤ (F.TxLocalBegin s.txManager).1.LocalLogIndex
        rw [Config.TxLocalBegin, if_pos hDotx]
        exact Nat.succ_le_succ h

theorem Begins.run {n : ℕ} (hDotx : F.Dotx = true) (h : Begins t n s)
    (hrun : Relation.ReflTransGen (Solo F t) s s') : Begins t n s' := by
  induction hrun with
  | refl => exact h
  | tail _ hsolo ih => exact ih.step hDotx hsolo

/-- The steps of one thread are steps of the server. -/
theorem reachable_solo {s₀ : FileSystem T} {ok : FileSystem T → Event T → Prop}
    (hok : ∀ s, ok s (.step t)) (hs : Reachable s₀ (Step F) ok s)
    (hrun : Relation.ReflTransGen (Solo F t) s s') : Reachable s₀ (Step F) ok s' := by
  induction hrun with
  | refl => exact hs
  | tail _ hsolo ih => exact ih.step (hok _) hsolo.2

/-- A call whose parent does not exist can be made any number of times, and begins a transaction
each time. -/
theorem exists_calls {path : Path} (hDotx : F.Dotx = true) (hout : s.Outside t)
    (hlocal : ∀ path, F.checkLocal path = true) (hwords : ∀ a, s.lock.words a = 0)
    (hne : F.item (getParentDirectory path) ≠ F.item path)
    (hread : s.readDirectory F (getParentDirectory path) = some none) (n : ℕ) : ∃ s',
      Reachable s (Step F) (fun _ e ↦ e = .start t (.mkdircd path) ∨ e = .step t) s' ∧
        Over s t s' ∧ n ≤ s'.txManager.LocalLogIndex := by
  induction n with
  | zero => exact ⟨s, .init, ⟨hout.1, ⟨rfl, rfl⟩, ⟨rfl, rfl, rfl⟩⟩, Nat.zero_le _⟩
  | succ n ih =>
    obtain ⟨s₁, hrun, hover, hn⟩ := ih
    have hout₁ := hover.outside hout
    have hzero (a : AddressHash) : s₁.lock.words a = 0 := hover.lock.words ▸ hwords a
    have hread₁ := (hover.tables.readDirectory _).trans hread
    have hstart : Step F s₁ (.start t (.mkdircd path)) _ := .start hout₁.1 (hlocal path)
      (LockService.Step.writeLock (F.getNodeHash path).toUInt16 (F.item path) (hout₁.2 .item))
    obtain ⟨s', hsolo, hover'⟩ := (mkdircd_missing hout₁ (hlocal _) (hlocal _) (hzero _) (hzero _)
      hne hread₁ hstart).exists_run
    have hbegins : Begins t n s' := by
      refine Begins.run hDotx (Or.inr ?_) hsolo
      exact ⟨hn, path, Function.update_self _ _ _⟩
    refine ⟨s', reachable_solo (fun _ ↦ Or.inr rfl) (hrun.step (Or.inl rfl) hstart) hsolo,
      ⟨hover'.idle, ?_, hover.tables.trans hover'.tables⟩, hbegins.resolve_right ?_⟩
    · exact ⟨hover'.lock.words.trans hover.lock.words, hover'.lock.pc.trans hover.lock.pc⟩
    · rintro ⟨-, path, hpc⟩
      cases hover'.idle.symm.trans hpc

/-- A call fails on the small server, and its writes are inside the log. -/
theorem log_in_bounds_one : ∃ (s₀ : FileSystem Unit) (c : LogTrace Unit),
    rootServer Unit = some s₀ ∧
      Reachable ⟨s₀, [], 0⟩ (LogStep smallConfig) (fun _ _ ↦ True) c ∧ c.begun = 1 ∧
        ∀ w ∈ c.writes, w.InBounds 0 := by
  have hrun : ((rootServer Unit).bind fun s₀ ↦
      (s₀.execAll smallConfig (fun _ _ ↦ true) (callOf () (.mkdircd [slash, 97]) 12)).map fun s ↦
        (s.txManager.LocalLogIndex, s₀.txManager.LocalLogIndex)) = some (1, 0) := by
    decide +kernel
  obtain ⟨s₀, hroot, hrun⟩ := Option.bind_eq_some_iff.mp hrun
  obtain ⟨s, hexec, hresult⟩ := Option.map_eq_some_iff.mp hrun
  obtain ⟨hindex, hempty⟩ := Prod.mk.inj hresult
  obtain ⟨hashtable, files, directories, hinit⟩ := rootServer_eq hroot
  have hidle (t : Unit) : s₀.pc t = .idle := hinit ▸ rfl
  have hreachable : Reachable s₀ (Step smallConfig) (fun _ _ ↦ True) s :=
    reachable_execAll (fun _ _ _ ↦ trivial) Reachable.init hexec
  obtain ⟨c, hc, rfl⟩ := exists_trace hreachable
  have hbegun : c.begun = 1 := ((Traced.of_run hidle hempty hc).index rfl).symm.trans hindex
  exact ⟨s₀, c, hroot, hc, hbegun, (log_in_bounds hidle hempty hc 0).mpr fun _ ↦ by
    rw [hbegun]
    decide⟩

/-- Calls that fail fill the log, and the next one writes behind it. -/
theorem log_overflows : ¬∀ (F : Config) (s₀ : FileSystem Unit) (c : LogTrace Unit)
    (LocalLogAddress : UInt64), (∀ t, s₀.pc t = .idle) → s₀.txManager.LocalLogIndex = 0 →
      Reachable ⟨s₀, [], 0⟩ (LogStep F) (fun _ _ ↦ True) c →
        ∀ w ∈ c.writes, w.InBounds LocalLogAddress := by
  intro h
  have hserver : (rootServer Unit).map (fun s ↦ s.lookup smallConfig [slash, 97]) =
      some (some none) := by
    decide +kernel
  obtain ⟨s₀, hroot, hlookup⟩ := Option.map_eq_some_iff.mp hserver
  obtain ⟨hashtable, files, directories, hinit⟩ := rootServer_eq hroot
  have hread : s₀.readDirectory smallConfig (getParentDirectory [slash, 97, slash, 98]) =
      some none := by
    have hparent : getParentDirectory [slash, 97, slash, 98] = [slash, 97] := by decide
    rw [hparent, readDirectory, hlookup]
    rfl
  obtain ⟨s, hrun, -, hmore⟩ := exists_calls (F := smallConfig) (t := ()) rfl
    ⟨hinit ▸ rfl, fun use ↦ hinit ▸ rfl⟩ smallConfig_local (fun a ↦ hinit ▸ rfl) (by decide) hread
    10241
  obtain ⟨c, hc, rfl⟩ := exists_trace hrun
  have htraced := Traced.of_run (fun t ↦ hinit ▸ rfl) (hinit ▸ rfl) hc
  have hindex := htraced.index rfl
  have hwrite := htraced.begun rfl 10240 (by omega)
  have hbounds := h smallConfig s₀ c 0 (fun t ↦ hinit ▸ rfl) (hinit ▸ rfl) hc _ hwrite
  exact lt_irrefl 10240 ((LogWrite.entry_iff le_rfl).mp hbounds.entry)

end FileSystem

end SwitchDelta.Fs
