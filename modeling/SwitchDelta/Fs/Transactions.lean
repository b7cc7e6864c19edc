import SwitchDelta.Fs.ServerExecution

/-!
# The transactions of the creations

Each creation begins a transaction, for which the log allocates an entry, and names the entry again when
it writes and commits. The wrapper `TxLocalBegin` does not return the number of the entry but zero.

`transactions_match` is about the runs in which the log is empty whenever a transaction begins. The
invariant says that every transaction has an entry of its own, names it, and finds there what it wrote.
-/

set_option autoImplicit false
set_option relaxedAutoImplicit false

namespace SwitchDelta.Fs

open Foundation

/-! ### Transactions -/

/-- A transaction with its decision, if it has been committed or aborted. -/
structure Decided where
  tx : LocalTx
  decision : Option Bool

/-- The transaction of a thread. -/
def Pc.transaction : Pc → Option Decided
  | .idle => none
  | .entered _ => none
  | .began _ tx => some ⟨tx, none⟩
  | .parent _ tx => some ⟨tx, none⟩
  | .copied _ tx _ => some ⟨tx, none⟩
  | .read _ tx _ => some ⟨tx, none⟩
  | .extended _ tx _ _ => some ⟨tx, none⟩
  | .logged _ tx _ _ => some ⟨tx, none⟩
  | .updated _ tx => some ⟨tx, none⟩
  | .created _ tx _ => some ⟨tx, none⟩
  | .decided _ tx _ => some ⟨tx, none⟩
  | .leaving _ tx result => tx.map fun tx ↦ ⟨tx, some result⟩

/-- The transaction of a call that has returned. -/
def Returned.transaction (r : Returned) : Option Decided := r.tx.map fun tx ↦ ⟨tx, some r.result⟩

/-- A transaction finds in an entry what it wrote. -/
def Decided.In (d : Decided) (entry : LocalLogEntry) : Prop :=
  (∀ data, d.tx.logged = some data → entry.logData = some data) ∧
    ∀ action, d.decision = some action → entry.commit = action

namespace FileSystem

variable {T : Type} [DecidableEq T] {F : Config}

/-- The transaction of a thread, or of the call that returned as the `n`-th one. -/
def transaction (s : FileSystem T) : T ⊕ ℕ → Option Decided
  | .inl t => Pc.transaction (s.pc t)
  | .inr n => s.returned[n]?.bind Returned.transaction

/-- Where a transaction is begun, the log is empty. -/
def BeginsFirst (F : Config) (s : FileSystem T) : Event T → Prop
  | .start _ _ => True
  | .step t => ∀ call, s.pc t = .entered call → call.creates = true → s.Holds t .item →
      F.Dotx = true → s.txManager.LocalLogIndex = 0

/-- The invariant of the log. -/
structure LogInv (F : Config) (s : FileSystem T) : Prop where
  unique : ∀ c c' d d' e, s.transaction c = some d → s.transaction c' = some d' →
    d.tx.entry = some e → d'.tx.entry = some e → c = c'
  own : ∀ c d, s.transaction c = some d →
    d.tx.entry = if F.Dotx then some d.tx.LocalTxID else none
  bound : ∀ c d e, s.transaction c = some d → d.tx.entry = some e → e < s.txManager.LocalLogIndex
  data : ∀ c d e, s.transaction c = some d → d.tx.entry = some e → d.In (s.txManager.log e)
  begun : ∀ e, (s.txManager.log e).begun = true →
    ∃ c d, s.transaction c = some d ∧ d.tx.entry = some e

variable {s s' : FileSystem T} {t : T}

/-! ### The invariant is kept -/

omit [DecidableEq T] in
/-- The transactions get other holders. -/
theorem LogInv.relabel (h : LogInv F s) (f : T ⊕ ℕ ≃ T ⊕ ℕ) (hlog : s'.txManager = s.txManager)
    (hsame : ∀ c, s'.transaction c = s.transaction (f c)) : LogInv F s' where
  unique c c' d d' e hc hc' he he' :=
    f.injective (h.unique _ _ d d' e (hsame c ▸ hc) (hsame c' ▸ hc') he he')
  own c d hc := h.own _ d (hsame c ▸ hc)
  bound c d e hc he := hlog ▸ h.bound _ d e (hsame c ▸ hc) he
  data c d e hc he := hlog ▸ h.data _ d e (hsame c ▸ hc) he
  begun e he := by
    rw [hlog] at he
    obtain ⟨c, d, hc, hd⟩ := h.begun e he
    exact ⟨f.symm c, d, by rw [hsame, Equiv.apply_symm_apply, hc], hd⟩

omit [DecidableEq T] in
/-- No transaction changes. -/
theorem LogInv.same (h : LogInv F s) (hlog : s'.txManager = s.txManager)
    (hsame : s'.transaction = s.transaction) : LogInv F s' :=
  h.relabel (Equiv.refl _) hlog fun c ↦ congrFun hsame c

/-- A thread goes on with the same transaction. -/
theorem transaction_goto {pc : Pc} (hpc : s'.pc = Function.update s.pc t pc)
    (hreturned : s'.returned = s.returned) (htx : Pc.transaction pc = Pc.transaction (s.pc t)) :
    s'.transaction = s.transaction := by
  funext c
  cases c with
  | inl t' =>
    rw [transaction, transaction, hpc]
    by_cases ht : t' = t
    · rw [ht, Function.update_self, htx]
    · rw [Function.update_of_ne ht]
  | inr n => rw [transaction, transaction, hreturned]

/-- A thread goes on with another transaction. -/
theorem transaction_update {pc : Pc} {d : Option Decided}
    (hpc : s'.pc = Function.update s.pc t pc) (hreturned : s'.returned = s.returned)
    (hd : Pc.transaction pc = d) : s'.transaction = Function.update s.transaction (.inl t) d := by
  subst hd
  funext c
  cases c with
  | inl t' =>
    rw [transaction, hpc]
    by_cases ht : t' = t
    · rw [ht, Function.update_self, Function.update_self]
    · have hne : (Sum.inl t' : T ⊕ ℕ) ≠ .inl t := fun heq ↦ ht (Sum.inl.inj heq)
      rw [Function.update_of_ne ht, Function.update_of_ne hne]
      rfl
  | inr n =>
    rw [Function.update_of_ne (by simp), transaction, hreturned]
    rfl

/-- What a transaction of the next state is, where that of a thread has been replaced. -/
theorem transaction_cases {d : Decided}
    (htransaction : s'.transaction = Function.update s.transaction (.inl t) (some d)) {c : T ⊕ ℕ}
    {d₁ : Decided} (hc : s'.transaction c = some d₁) :
    c = .inl t ∧ d₁ = d ∨ s.transaction c = some d₁ ∧ c ≠ .inl t := by
  rw [htransaction] at hc
  by_cases hct : c = .inl t
  · rw [hct, Function.update_self] at hc
    exact Or.inl ⟨hct, (Option.some.inj hc).symm⟩
  · rw [Function.update_of_ne hct] at hc
    exact Or.inr ⟨hc, hct⟩

/-- A transaction that has no entry. -/
theorem LogInv.begin_off (h : LogInv F s) (hnone : s.transaction (.inl t) = none)
    (hDotx : F.Dotx = false) (hlog : s'.txManager = s.txManager)
    (htransaction : s'.transaction =
      Function.update s.transaction (.inl t) (some ⟨⟨0, none, none⟩, none⟩)) : LogInv F s' := by
  have hentry (c : T ⊕ ℕ) (d : Decided) (hc : s'.transaction c = some d) : d.tx.entry = none := by
    rcases transaction_cases htransaction hc with ⟨-, rfl⟩ | ⟨hc, -⟩
    · rfl
    · rw [h.own c d hc, hDotx, if_neg Bool.false_ne_true]
  have hno {c : T ⊕ ℕ} {d : Decided} {e : ℕ} (hc : s'.transaction c = some d) :
      d.tx.entry ≠ some e := by
    rw [hentry c d hc]
    exact (Option.some_ne_none e).symm
  refine ⟨fun c _ d _ e hc _ he _ ↦ absurd he (hno hc), fun c d hc ↦ ?_,
    fun c d e hc he ↦ absurd he (hno hc), fun c d e hc he ↦ absurd he (hno hc), fun e he ↦ ?_⟩
  · rw [hDotx, if_neg Bool.false_ne_true]
    exact hentry c d hc
  · rw [hlog] at he
    obtain ⟨c, d, hc, hd⟩ := h.begun e he
    have hct : c ≠ .inl t := by
      rintro rfl
      exact absurd (hnone.symm.trans hc).symm (Option.some_ne_none d)
    exact ⟨c, d, by rw [htransaction, Function.update_of_ne hct, hc], hd⟩

/-- A transaction that gets the first entry of the log. -/
theorem LogInv.begin_on (h : LogInv F s) (hnone : s.transaction (.inl t) = none)
    (hDotx : F.Dotx = true) (hfirst : s.txManager.LocalLogIndex = 0)
    (hlog : s'.txManager = s.txManager.TxLocalBegin)
    (htransaction : s'.transaction = Function.update s.transaction (.inl t)
      (some ⟨⟨0, some s.txManager.LocalLogIndex, none⟩, none⟩)) : LogInv F s' := by
  have hindex : s'.txManager.LocalLogIndex = s.txManager.LocalLogIndex + 1 := by
    rw [hlog]
    rfl
  have hold {c : T ⊕ ℕ} {d : Decided} {e : ℕ} (hc : s.transaction c = some d)
      (he : d.tx.entry = some e) : e ≠ s.txManager.LocalLogIndex :=
    Nat.ne_of_lt (h.bound c d e hc he)
  refine ⟨fun c c' d d' e hc hc' he he' ↦ ?_, fun c d hc ↦ ?_, fun c d e hc he ↦ ?_,
    fun c d e hc he ↦ ?_, fun e he ↦ ?_⟩
  · rcases transaction_cases htransaction hc with ⟨rfl, rfl⟩ | ⟨hc, -⟩
    · rcases transaction_cases htransaction hc' with ⟨rfl, -⟩ | ⟨hc', -⟩
      · rfl
      · exact absurd (Option.some.inj he).symm (hold hc' he')
    · rcases transaction_cases htransaction hc' with ⟨rfl, rfl⟩ | ⟨hc', -⟩
      · exact absurd (Option.some.inj he').symm (hold hc he)
      · exact h.unique c c' d d' e hc hc' he he'
  · rcases transaction_cases htransaction hc with ⟨rfl, rfl⟩ | ⟨hc, -⟩
    · rw [hDotx, if_pos rfl, hfirst]
    · exact h.own c d hc
  · rw [hindex]
    rcases transaction_cases htransaction hc with ⟨rfl, rfl⟩ | ⟨hc, -⟩
    · exact Option.some.inj he ▸ Nat.lt_succ_self _
    · exact Nat.lt_succ_of_lt (h.bound c d e hc he)
  · rcases transaction_cases htransaction hc with ⟨rfl, rfl⟩ | ⟨hc, -⟩
    · exact ⟨fun _ hdata ↦ absurd hdata.symm (Option.some_ne_none _),
        fun _ haction ↦ absurd haction.symm (Option.some_ne_none _)⟩
    · have hsame : s'.txManager.log e = s.txManager.log e := by
        rw [hlog]
        exact Function.update_of_ne (hold hc he) _ _
      rw [hsame]
      exact h.data c d e hc he
  · by_cases hnew : e = s.txManager.LocalLogIndex
    · exact ⟨.inl t, _, by rw [htransaction, Function.update_self], congrArg some hnew.symm⟩
    · have hsame : s'.txManager.log e = s.txManager.log e := by
        rw [hlog]
        exact Function.update_of_ne hnew _ _
      rw [hsame] at he
      obtain ⟨c, d, hc, hd⟩ := h.begun e he
      have hct : c ≠ .inl t := by
        rintro rfl
        exact absurd (hnone.symm.trans hc).symm (Option.some_ne_none d)
      exact ⟨c, d, by rw [htransaction, Function.update_of_ne hct, hc], hd⟩

/-- The transaction of a thread writes to its entry. -/
theorem LogInv.write (h : LogInv F s) {d d' : Decided} (hd : s.transaction (.inl t) = some d)
    (htransaction : s'.transaction = Function.update s.transaction (.inl t) (some d'))
    (hentry : d'.tx.entry = d.tx.entry) (hid : d'.tx.LocalTxID = d.tx.LocalTxID)
    (hindex : s'.txManager.LocalLogIndex = s.txManager.LocalLogIndex)
    (hlog : ∀ e, d.tx.entry ≠ some e → s'.txManager.log e = s.txManager.log e)
    (hbegun : ∀ e, (s'.txManager.log e).begun = (s.txManager.log e).begun)
    (hin : ∀ e, d.tx.entry = some e → d.In (s.txManager.log e) → d'.In (s'.txManager.log e)) :
    LogInv F s' := by
  -- the other transactions have other entries
  have hback (c : T ⊕ ℕ) (d₁ : Decided) (hc : s'.transaction c = some d₁) :
      ∃ d₂, s.transaction c = some d₂ ∧ d₁.tx.entry = d₂.tx.entry ∧
        d₁.tx.LocalTxID = d₂.tx.LocalTxID := by
    rcases transaction_cases htransaction hc with ⟨rfl, rfl⟩ | ⟨hc, -⟩
    · exact ⟨d, hd, hentry, hid⟩
    · exact ⟨d₁, hc, rfl, rfl⟩
  refine ⟨fun c c' d₁ d₂ e hc hc' he he' ↦ ?_, fun c d₁ hc ↦ ?_, fun c d₁ e hc he ↦ ?_,
    fun c d₁ e hc he ↦ ?_, fun e he ↦ ?_⟩
  · obtain ⟨d₃, hc, hd₃, -⟩ := hback c d₁ hc
    obtain ⟨d₄, hc', hd₄, -⟩ := hback c' d₂ hc'
    exact h.unique c c' d₃ d₄ e hc hc' (hd₃ ▸ he) (hd₄ ▸ he')
  · obtain ⟨d₃, hc, hd₃, hid₃⟩ := hback c d₁ hc
    rw [hd₃, hid₃]
    exact h.own c d₃ hc
  · obtain ⟨d₃, hc, hd₃, -⟩ := hback c d₁ hc
    rw [hindex]
    exact h.bound c d₃ e hc (hd₃ ▸ he)
  · rcases transaction_cases htransaction hc with ⟨rfl, rfl⟩ | ⟨hc, hne⟩
    · rw [hentry] at he
      exact hin e he (h.data _ d e hd he)
    · rw [hlog e fun hsame ↦ hne (h.unique c _ d₁ d e hc hd he hsame)]
      exact h.data c d₁ e hc he
  · rw [hbegun] at he
    obtain ⟨c, d₁, hc, hd₁⟩ := h.begun e he
    by_cases hct : c = .inl t
    · subst hct
      obtain rfl := Option.some.inj (hd.symm.trans hc)
      exact ⟨_, d', by rw [htransaction, Function.update_self], hentry.trans hd₁⟩
    · exact ⟨c, d₁, by rw [htransaction, Function.update_of_ne hct, hc], hd₁⟩

/-- The transaction of a call that returns. -/
theorem LogInv.leave (h : LogInv F s) {r : Returned} (hlog : s'.txManager = s.txManager)
    (hpc : s'.pc = Function.update s.pc t .idle) (hreturned : s'.returned = s.returned ++ [r])
    (hr : Pc.transaction (s.pc t) = r.transaction) : LogInv F s' := by
  refine h.relabel (Equiv.swap (.inl t) (.inr s.returned.length)) hlog fun c ↦ ?_
  cases c with
  | inl t' =>
    by_cases ht : t' = t
    · rw [ht, Equiv.swap_apply_left, transaction, transaction, hpc, Function.update_self,
        List.getElem?_eq_none le_rfl]
      rfl
    · have hne : (Sum.inl t' : T ⊕ ℕ) ≠ .inl t := fun heq ↦ ht (Sum.inl.inj heq)
      rw [Equiv.swap_apply_of_ne_of_ne hne Sum.inl_ne_inr, transaction, transaction, hpc,
        Function.update_of_ne ht]
  | inr n =>
    by_cases hn : n = s.returned.length
    · subst hn
      rw [Equiv.swap_apply_right, transaction, transaction, hreturned, List.getElem?_concat_length,
        hr]
      rfl
    · have hne : (Sum.inr n : T ⊕ ℕ) ≠ .inr s.returned.length := fun heq ↦ hn (Sum.inr.inj heq)
      rw [Equiv.swap_apply_of_ne_of_ne Sum.inr_ne_inl hne, transaction, transaction, hreturned]
      rcases Nat.lt_or_gt_of_ne hn with hlt | hgt
      · rw [List.getElem?_append_left hlt]
      · rw [List.getElem?_eq_none (by rw [List.length_append]; exact hgt),
          List.getElem?_eq_none hgt.le]

/-- A thread goes on with the same transaction and leaves the log alone. -/
theorem LogInv.goto (h : LogInv F s) {pc pc' : Pc} (hpc : s.pc t = pc)
    (hpc' : s'.pc = Function.update s.pc t pc') (hreturned : s'.returned = s.returned)
    (hlog : s'.txManager = s.txManager) (htx : Pc.transaction pc' = Pc.transaction pc) :
    LogInv F s' :=
  h.same hlog (transaction_goto hpc' hreturned (by rw [hpc, htx]))

/-- `TxWriteData`. -/
theorem LogInv.log (h : LogInv F s) {tx : LocalTx} {data : DirectoryMeta} {pc : Pc}
    (htx : Pc.transaction (s.pc t) = some ⟨tx, none⟩) (hpc : s'.pc = Function.update s.pc t pc)
    (hpctx : Pc.transaction pc = some ⟨(F.TxWriteData s.txManager tx data).2, none⟩)
    (hreturned : s'.returned = s.returned)
    (hlog : s'.txManager = (F.TxWriteData s.txManager tx data).1) : LogInv F s' := by
  rw [Config.TxWriteData] at hpctx hlog
  cases hDotx : F.Dotx with
  | false =>
    rw [hDotx, if_neg Bool.false_ne_true] at hpctx hlog
    exact h.same hlog (transaction_goto hpc hreturned (hpctx.trans htx.symm))
  | true =>
    rw [hDotx, if_pos rfl] at hpctx hlog
    have hown : tx.entry = some tx.LocalTxID := by
      rw [h.own (.inl t) ⟨tx, none⟩ htx, hDotx, if_pos rfl]
    have hother (e : ℕ) (he : tx.entry ≠ some e) : s'.txManager.log e = s.txManager.log e := by
      rw [hlog]
      exact Function.update_of_ne (fun heq ↦ he (hown.trans (congrArg some heq.symm))) _ _
    have hself : s'.txManager.log tx.LocalTxID =
        { s.txManager.log tx.LocalTxID with logData := some data } := by
      rw [hlog]
      exact Function.update_self _ _ _
    refine h.write (d := ⟨tx, none⟩) htx (transaction_update hpc hreturned hpctx) rfl rfl
      (by rw [hlog]; rfl) hother (fun e ↦ ?_) fun e he hin ↦ ?_
    · by_cases heq : e = tx.LocalTxID
      · rw [heq, hself]
      · rw [hother e fun he ↦ heq (Option.some.inj (he.symm.trans hown))]
    · obtain rfl : e = tx.LocalTxID := Option.some.inj (he.symm.trans hown)
      rw [hself]
      exact ⟨fun _ hdata ↦ hdata, fun _ haction ↦ absurd haction.symm (Option.some_ne_none _)⟩

/-- `TxLocalCommit`. -/
theorem LogInv.commit (h : LogInv F s) {tx : LocalTx} {result : Bool} {pc : Pc}
    (htx : Pc.transaction (s.pc t) = some ⟨tx, none⟩) (hpc : s'.pc = Function.update s.pc t pc)
    (hpctx : Pc.transaction pc = some ⟨tx, some result⟩) (hreturned : s'.returned = s.returned)
    (hlog : s'.txManager = F.TxLocalCommit s.txManager tx result) : LogInv F s' := by
  have htransaction := transaction_update hpc hreturned hpctx
  rw [Config.TxLocalCommit] at hlog
  cases hDotx : F.Dotx with
  | false =>
    rw [hDotx, if_neg Bool.false_ne_true] at hlog
    have hnone (e : ℕ) : tx.entry ≠ some e := by
      rw [h.own (.inl t) ⟨tx, none⟩ htx, hDotx, if_neg Bool.false_ne_true]
      exact (Option.some_ne_none e).symm
    exact h.write (d := ⟨tx, none⟩) htx htransaction rfl rfl (by rw [hlog])
      (fun e _ ↦ by rw [hlog]) (fun e ↦ by rw [hlog]) fun e he ↦ absurd he (hnone e)
  | true =>
    rw [hDotx, if_pos rfl] at hlog
    have hown : tx.entry = some tx.LocalTxID := by
      rw [h.own (.inl t) ⟨tx, none⟩ htx, hDotx, if_pos rfl]
    have hother (e : ℕ) (he : tx.entry ≠ some e) : s'.txManager.log e = s.txManager.log e := by
      rw [hlog]
      exact Function.update_of_ne (fun heq ↦ he (hown.trans (congrArg some heq.symm))) _ _
    have hself : s'.txManager.log tx.LocalTxID =
        { s.txManager.log tx.LocalTxID with commit := result } := by
      rw [hlog]
      exact Function.update_self _ _ _
    refine h.write (d := ⟨tx, none⟩) htx htransaction rfl rfl
      (by rw [hlog]; rfl) hother (fun e ↦ ?_) fun e he hin ↦ ?_
    · by_cases heq : e = tx.LocalTxID
      · rw [heq, hself]
      · rw [hother e fun he ↦ heq (Option.some.inj (he.symm.trans hown))]
    · obtain rfl : e = tx.LocalTxID := Option.some.inj (he.symm.trans hown)
      rw [hself]
      exact ⟨hin.1, fun _ haction ↦ Option.some.inj haction⟩

/-- A step keeps the invariant of the log. -/
theorem LogInv.step (h : LogInv F s) {e : Event T} (hok : BeginsFirst F s e) (hstep : Step F s e s') :
    LogInv F s' := by
  cases hstep with
  | @remote t call hpc hremote =>
    refine h.leave (t := t) rfl ?_ rfl (by rw [hpc]; rfl)
    rw [← hpc, Function.update_eq_self]
  | start hpc hlocal hlock => exact h.goto hpc rfl rfl rfl rfl
  | swap hlock => exact h.same rfl rfl
  | check hlock => exact h.same rfl rfl
  | body hpc hholds hbody => exact h.goto hpc rfl rfl rfl rfl
  | @begin t call hpc hcreates hholds =>
    have hnone : s.transaction (.inl t) = none := by
      rw [transaction, hpc]
      rfl
    have hfirst := hok call hpc hcreates hholds
    cases hDotx : F.Dotx with
    | false =>
      have hwrapper : F.TxLocalBegin s.txManager = (s.txManager, ⟨0, none, none⟩) :=
        if_neg (by rw [hDotx]; exact Bool.false_ne_true)
      rw [hwrapper]
      exact h.begin_off hnone hDotx rfl (transaction_update rfl rfl rfl)
    | true =>
      have hwrapper : F.TxLocalBegin s.txManager =
          (s.txManager.TxLocalBegin, ⟨0, some s.txManager.LocalLogIndex, none⟩) := if_pos hDotx
      rw [hwrapper]
      exact h.begin_on hnone hDotx (hfirst hDotx) rfl (transaction_update rfl rfl rfl)
  | parentRemote hpc hremote => exact h.goto hpc rfl rfl rfl rfl
  | parentLock hpc hlocal hlock => exact h.goto hpc rfl rfl rfl rfl
  | copy hpc hholds hread => exact h.goto hpc rfl rfl rfl rfl
  | parentUnlock hpc hlock => exact h.goto hpc rfl rfl rfl rfl
  | missing hpc => exact h.goto hpc rfl rfl rfl rfl
  | exist hpc hexists => exact h.goto hpc rfl rfl rfl rfl
  | extend hpc => exact h.goto hpc rfl rfl rfl rfl
  | @log t call tx found entry hpc => exact h.log (by rw [hpc]; rfl) rfl rfl rfl rfl
  | update hpc => exact h.goto hpc rfl rfl rfl rfl
  | keep hpc => exact h.goto hpc rfl rfl rfl rfl
  | @createDirectory t path tx directories reply tuple hpc hcreate =>
    cases reply with
    | none => exact h.goto hpc rfl rfl rfl rfl
    | some index => exact h.goto hpc rfl rfl rfl rfl
  | @createFile t path tx files reply time tuple hpc hcreate =>
    cases reply with
    | none => exact h.goto hpc rfl rfl rfl rfl
    | some index => exact h.goto hpc rfl rfl rfl rfl
  | put hpc hput => exact h.goto hpc rfl rfl rfl rfl
  | @commit t call tx result hpc => exact h.commit (by rw [hpc]; rfl) rfl rfl rfl rfl
  | @leave t call tx result lock hpc hlock => exact h.leave rfl rfl rfl (by rw [hpc]; rfl)

/-- As long as a transaction begins only while the log is empty, each one names the entry that was
allocated for it, no entry belongs to two of them, and an entry holds what its transaction wrote. When
all calls have returned, each entry in use has the record and the decision of its call. -/
theorem transactions_match {s₀ s : FileSystem T} (hidle : ∀ t, s₀.pc t = .idle)
    (hreturned : s₀.returned = []) (hlog : ∀ e, (s₀.txManager.log e).begun = false)
    (hrun : Reachable s₀ (Step F) (BeginsFirst F) s) :
    (∀ c d e, s.transaction c = some d → d.tx.entry = some e →
      d.tx.LocalTxID = e ∧ d.In (s.txManager.log e)) ∧
    (∀ c c' d d' e, s.transaction c = some d → s.transaction c' = some d' → d.tx.entry = some e →
      d'.tx.entry = some e → c = c') ∧
    ((∀ t, s.pc t = .idle) → ∀ e, (s.txManager.log e).begun = true →
      ∃ r ∈ s.returned, ∃ tx, r.tx = some tx ∧ tx.entry = some e ∧
        (s.txManager.log e).commit = r.result ∧
        ∀ data, tx.logged = some data → (s.txManager.log e).logData = some data) := by
  have hnone (c : T ⊕ ℕ) : s₀.transaction c = none := by
    cases c with
    | inl t =>
      rw [transaction, hidle]
      rfl
    | inr n =>
      rw [transaction, hreturned]
      rfl
  have hno {c : T ⊕ ℕ} {d : Decided} (hc : s₀.transaction c = some d) : False :=
    absurd ((hnone c).symm.trans hc).symm (Option.some_ne_none d)
  have hstart : LogInv F s₀ :=
    ⟨fun _ _ _ _ _ hc _ _ _ ↦ (hno hc).elim, fun _ _ hc ↦ (hno hc).elim,
      fun _ _ _ hc _ ↦ (hno hc).elim, fun _ _ _ hc _ ↦ (hno hc).elim,
      fun e he ↦ absurd ((hlog e).symm.trans he) Bool.false_ne_true⟩
  have hinv : LogInv F s :=
    hrun.invariant (LogInv F) hstart fun _ _ _ _ hinv hok hstep ↦ hinv.step hok hstep
  refine ⟨fun c d e hc he ↦ ⟨?_, hinv.data c d e hc he⟩, hinv.unique, fun hall e he ↦ ?_⟩
  · have hown := hinv.own c d hc
    split_ifs at hown
    · exact Option.some.inj (hown.symm.trans he)
    · exact absurd (he.symm.trans hown) (Option.some_ne_none e)
  · obtain ⟨c, d, hc, hd⟩ := hinv.begun e he
    have hin := hinv.data c d e hc hd
    cases c with
    | inl t =>
      rw [transaction, hall] at hc
      exact absurd hc.symm (Option.some_ne_none d)
    | inr n =>
      obtain ⟨r, hr, hmap⟩ := Option.bind_eq_some_iff.mp hc
      obtain ⟨tx, htx, rfl⟩ := Option.map_eq_some_iff.mp hmap
      exact ⟨r, List.mem_of_getElem? hr, tx, htx, hd, hin.2 r.result rfl, hin.1⟩

/-- Two directories are made one after the other. Both transactions write to the entry of the first, and
that of the second has not got its decision. -/
theorem second_transaction_unmatched :
    ∃ s₀ s : FileSystem Unit, rootServer Unit = some s₀ ∧
      Reachable s₀ (Step smallConfig) (fun _ _ ↦ True) s ∧
      ((s.pc () matches .idle) && (s.txManager.log 1).begun) = true ∧
      (s.txManager.log 1).commit = false ∧ s.returned.map (fun r ↦ r.result) = [true, true] ∧
      s.returned.map (fun r ↦ r.tx.bind fun tx ↦ tx.entry) = [some 0, some 1] := by
  have hrun : ((rootServer Unit).bind fun s₀ ↦
      (s₀.execAll smallConfig (fun _ _ ↦ true)
        (callOf () (.mkdircd [slash, 97]) 12 ++ callOf () (.mkdircd [slash, 98]) 12)).map fun s ↦
        ((s.pc () matches .idle) && (s.txManager.log 1).begun, (s.txManager.log 1).commit,
          s.returned.map fun r ↦ r.result, s.returned.map fun r ↦ r.tx.bind fun tx ↦ tx.entry)) =
      some (true, false, [true, true], [some 0, some 1]) := by
    decide +kernel
  obtain ⟨s₀, hroot, hrun⟩ := Option.bind_eq_some_iff.mp hrun
  obtain ⟨s, hexec, hresult⟩ := Option.map_eq_some_iff.mp hrun
  simp only [Prod.mk.injEq] at hresult
  exact ⟨s₀, s, hroot, reachable_execAll (fun _ _ _ ↦ trivial) Reachable.init hexec, hresult⟩

/-- A directory is made, with a transaction of its own. -/
theorem transactions_match_one :
    ∃ s : FileSystem Unit, (s.txManager.log 0).begun = true ∧ ∃ r ∈ s.returned,
      (s.txManager.log 0).commit = r.result := by
  have hrun : ((rootServer Unit).bind fun s₀ ↦
      (s₀.execAll smallConfig
        (fun s _ ↦ s.txManager.LocalLogIndex == 0 || !(s.pc () matches .entered _))
        (callOf () (.mkdircd [slash, 97]) 12)).map fun s ↦
        (s.pc () matches .idle, (s.txManager.log 0).begun)) = some (true, true) := by
    decide +kernel
  obtain ⟨s₀, hroot, hrun⟩ := Option.bind_eq_some_iff.mp hrun
  obtain ⟨s, hexec, hresult⟩ := Option.map_eq_some_iff.mp hrun
  obtain ⟨hidle, hbegun⟩ := Prod.mk.inj hresult
  obtain ⟨hashtable, files, directories, rfl⟩ := rootServer_eq hroot
  have hreach : Reachable (init hashtable files directories) (Step smallConfig)
      (BeginsFirst smallConfig) s := by
    refine reachable_execAll (fun s e htest ↦ ?_) Reachable.init hexec
    cases e with
    | start t call => trivial
    | step t =>
      intro call hpc _ _ _
      rw [hpc, Bool.or_eq_true_iff] at htest
      exact htest.elim (fun hzero ↦ beq_iff_eq.mp hzero) fun hno ↦ absurd hno Bool.false_ne_true
  have hall : ∀ t, s.pc t = .idle := by
    rintro ⟨⟩
    split at hidle
    · assumption
    · cases hidle
  obtain ⟨-, -, hentries⟩ :=
    transactions_match (F := smallConfig) (fun _ ↦ rfl) rfl (fun _ ↦ rfl) hreach
  obtain ⟨r, hr, -, -, -, hcommit, -⟩ := hentries hall 0 hbegun
  exact ⟨s, hbegun, r, hr, hcommit⟩

end FileSystem

end SwitchDelta.Fs
