import SwitchDelta.Foundation.Transition

/-!
# The lock words of the hash items

`LockService` keeps a lock in the first eight bytes of each hash item. The upper half of the word is the
key of the writer that has the lock, the lower half counts the readers, those that still wait for the
writer included: a reader adds itself before it looks at the upper half.

`words_guard_items` is the safety of the lock: over any interleaving of its atomic steps a writer is
alone, and a word whose locks have all been released is zero. The keys repeat after `2 ^ 16` writes,
which does no harm, since no one compares them.
-/

set_option autoImplicit false
set_option relaxedAutoImplicit false

namespace SwitchDelta.Fs

open Foundation

/-! ### Lock words -/

/-- The key of `WriteLock`. -/
def lockKey (NodeID WriteID : UInt16) : UInt64 :=
  ((NodeID.toUInt64 <<< 16) + WriteID.toUInt64) <<< 32

/-- The upper half of a word: the shift of `ReadLock`, and the four bytes at `LockAddress + 4`. -/
def upperHalf (word : UInt64) : UInt64 := word >>> 32

/-- A zero is stored to the upper half. -/
def clearUpperHalf (word : UInt64) : UInt64 := word &&& 0xFFFFFFFF

theorem upperHalf_toNat (word : UInt64) : (upperHalf word).toNat = word.toNat / 2 ^ 32 := by
  rw [upperHalf, UInt64.toNat_shiftRight, show (32 : UInt64).toNat % 64 = 32 from rfl,
    Nat.shiftRight_eq_div_pow]

theorem upperHalf_eq_zero_iff (word : UInt64) : upperHalf word = 0 ↔ word.toNat / 2 ^ 32 = 0 := by
  rw [← upperHalf_toNat, ← UInt64.toNat_inj]
  rfl

theorem clearUpperHalf_toNat (word : UInt64) :
    (clearUpperHalf word).toNat = word.toNat % 2 ^ 32 := by
  rw [clearUpperHalf, UInt64.toNat_and,
    show (0xFFFFFFFF : UInt64).toNat = 2 ^ 32 - 1 from rfl, Nat.and_two_pow_sub_one_eq_mod]

/-- The key fills the upper half. -/
theorem lockKey_toNat (NodeID WriteID : UInt16) :
    (lockKey NodeID WriteID).toNat = (NodeID.toNat * 2 ^ 16 + WriteID.toNat) * 2 ^ 32 := by
  have hnode := NodeID.toNat_lt
  have hid := WriteID.toNat_lt
  have hshift : (NodeID.toUInt64 <<< 16).toNat = NodeID.toNat * 2 ^ 16 := by
    rw [UInt64.toNat_shiftLeft, UInt16.toNat_toUInt64,
      show (16 : UInt64).toNat % 64 = 16 from rfl, Nat.shiftLeft_eq]
    exact Nat.mod_eq_of_lt (by omega)
  have hsum : (NodeID.toUInt64 <<< 16 + WriteID.toUInt64).toNat =
      NodeID.toNat * 2 ^ 16 + WriteID.toNat := by
    rw [UInt64.toNat_add, hshift, UInt16.toNat_toUInt64]
    exact Nat.mod_eq_of_lt (by omega)
  rw [lockKey, UInt64.toNat_shiftLeft, hsum, show (32 : UInt64).toNat % 64 = 32 from rfl,
    Nat.shiftLeft_eq]
  exact Nat.mod_eq_of_lt (by omega)

/-! ### One word -/

/-- What a thread is to a lock word. -/
inductive LockRole
  | idle
  | waiting
  | reading
  | writing
  deriving DecidableEq

/-- The thread counts as a reader. -/
def LockRole.Counted (role : LockRole) : Prop := role = .waiting ∨ role = .reading

instance (role : LockRole) : Decidable role.Counted := inferInstanceAs (Decidable (_ ∨ _))

/-- What a reader is to a word that it has added itself to. -/
def readRole (word : UInt64) : LockRole := if upperHalf word = 0 then .reading else .waiting

theorem readRole_counted (word : UInt64) : (readRole word).Counted := by
  rw [readRole]
  split_ifs
  · exact Or.inr rfl
  · exact Or.inl rfl

section Word

variable {T : Type} [Fintype T] [DecidableEq T]

/-- The number of readers, the waiting ones included. -/
def readerCount (role : T → LockRole) : ℕ := (Finset.univ.filter fun t ↦ (role t).Counted).card

/-- A word agrees with the threads: it counts the readers, it has a key exactly while there is a
writer, of which there is only one, and no one reads then. -/
structure Guarded (word : UInt64) (role : T → LockRole) : Prop where
  readers : word.toNat % 2 ^ 32 = readerCount role
  owner : word.toNat / 2 ^ 32 ≠ 0 ↔ ∃ t, role t = .writing
  unique : ∀ t t', role t = .writing → role t' = .writing → t = t'
  exclusive : ∀ t, role t = .reading → word.toNat / 2 ^ 32 = 0

variable {word : UInt64} {role : T → LockRole} {t : T}

theorem readerCount_update (role : T → LockRole) (t : T) (r : LockRole) :
    readerCount (Function.update role t r) + (if (role t).Counted then 1 else 0) =
      readerCount role + if r.Counted then 1 else 0 := by
  have hsplit : ∀ role : T → LockRole, readerCount role =
      ((Finset.univ.erase t).filter fun t ↦ (role t).Counted).card +
        if (role t).Counted then 1 else 0 := by
    intro role
    rw [readerCount, ← Finset.insert_erase (Finset.mem_univ t), Finset.filter_insert]
    split_ifs with hcounted
    · rw [Finset.card_insert_of_notMem (by simp), Finset.insert_erase (Finset.mem_univ t)]
    · rw [Finset.insert_erase (Finset.mem_univ t), Nat.add_zero]
  have hsame : ((Finset.univ.erase t).filter fun t' ↦ (Function.update role t r t').Counted) =
      (Finset.univ.erase t).filter fun t' ↦ (role t').Counted := by
    refine Finset.filter_congr fun t' ht' ↦ ?_
    rw [Function.update_of_ne (Finset.ne_of_mem_erase ht')]
  rw [hsplit (Function.update role t r), hsplit role, hsame, Function.update_self]
  omega

omit [DecidableEq T] in
theorem Guarded.zero : Guarded 0 (fun _ : T ↦ LockRole.idle) := by
  refine ⟨?_, ?_, ?_, ?_⟩
  · simp [readerCount, LockRole.Counted]
  · simp
  · simp
  · simp

omit [DecidableEq T] in
/-- A word that is zero has no one in its lock, and a word without anyone in its lock is zero. -/
theorem Guarded.eq_zero_iff (h : Guarded word role) : word = 0 ↔ ∀ t, role t = .idle := by
  have hzero : word = 0 ↔ word.toNat = 0 := by
    rw [← UInt64.toNat_inj]
    rfl
  have hcount : readerCount role = 0 ↔ ∀ t, ¬(role t).Counted := by
    simp [readerCount, Finset.card_eq_zero, Finset.filter_eq_empty_iff]
  rw [hzero]
  constructor
  · intro hword t
    have hnone := hcount.mp (by rw [← h.readers, hword]; rfl) t
    have hwriter : role t ≠ .writing := fun hw ↦ by
      have hne := h.owner.mpr ⟨t, hw⟩
      rw [hword] at hne
      exact hne rfl
    cases hrole : role t with
    | idle => rfl
    | waiting => exact absurd (Or.inl hrole) hnone
    | reading => exact absurd (Or.inr hrole) hnone
    | writing => exact absurd hrole hwriter
  · intro hidle
    have hlow : word.toNat % 2 ^ 32 = 0 := by
      rw [h.readers, hcount]
      intro t
      rw [hidle t]
      decide
    have hhigh : word.toNat / 2 ^ 32 = 0 := by
      by_contra hne
      obtain ⟨t, ht⟩ := h.owner.mp hne
      rw [hidle t] at ht
      cases ht
    omega

/-- The compare and swap of `WriteLock` succeeds. -/
theorem Guarded.swap (h : Guarded 0 role) {key : UInt64} (hlow : key.toNat % 2 ^ 32 = 0)
    (hhigh : key.toNat / 2 ^ 32 ≠ 0) : Guarded key (Function.update role t .writing) := by
  have hidle := h.eq_zero_iff.mp rfl
  have hcount := readerCount_update role t .writing
  have hnone : readerCount role = 0 := by
    rw [← h.readers]
    rfl
  rw [hidle t, if_neg (by decide), if_neg (by decide), hnone] at hcount
  have hwriting : ∀ t', Function.update role t .writing t' = .writing → t' = t := by
    intro t' ht'
    by_contra hne
    rw [Function.update_of_ne hne, hidle t'] at ht'
    cases ht'
  refine ⟨by omega, iff_of_true hhigh ⟨t, Function.update_self t _ role⟩, fun t₁ t₂ h₁ h₂ ↦ ?_,
    fun t' ht' ↦ ?_⟩
  · rw [hwriting t₁ h₁, hwriting t₂ h₂]
  · by_cases hne : t' = t
    · rw [hne, Function.update_self] at ht'
      cases ht'
    · rw [Function.update_of_ne hne, hidle t'] at ht'
      cases ht'

/-- `WriteUnlock`. -/
theorem Guarded.writeUnlock (h : Guarded word role) (ht : role t = .writing) :
    Guarded (clearUpperHalf word) (Function.update role t .idle) := by
  have hcount := readerCount_update role t .idle
  rw [ht, if_neg (by decide), if_neg (by decide)] at hcount
  have hlow := clearUpperHalf_toNat word
  have hlt := Nat.mod_lt word.toNat (show 2 ^ 32 > 0 by decide)
  have hnone : ∀ t', Function.update role t .idle t' ≠ .writing := by
    intro t' ht'
    by_cases hne : t' = t
    · rw [hne, Function.update_self] at ht'
      cases ht'
    · rw [Function.update_of_ne hne] at ht'
      exact hne (h.unique t' t ht' ht)
  refine ⟨?_, ?_, fun t₁ t₂ h₁ ↦ absurd h₁ (hnone t₁), fun t' _ ↦ by omega⟩
  · rw [hlow, Nat.mod_mod, h.readers]
    omega
  · refine iff_of_false (by omega) ?_
    rintro ⟨t', ht'⟩
    exact hnone t' ht'

/-- The addition of `ReadLock`. -/
theorem Guarded.readLock (h : Guarded word role) (ht : role t = .idle)
    (hbound : readerCount role + 1 < 2 ^ 32) :
    Guarded (word + 1) (Function.update role t (readRole word)) := by
  have hcount := readerCount_update role t (readRole word)
  rw [ht, if_neg (by decide), if_pos (readRole_counted word)] at hcount
  have hlt := word.toNat_lt
  have hreaders := h.readers
  have hsum : (word + 1).toNat = word.toNat + 1 := by
    rw [UInt64.toNat_add, show (1 : UInt64).toNat = 1 from rfl]
    exact Nat.mod_eq_of_lt (by omega)
  have hhigh : (word + 1).toNat / 2 ^ 32 = word.toNat / 2 ^ 32 := by omega
  have hwriting : ∀ t', Function.update role t (readRole word) t' = .writing ↔
      role t' = .writing := by
    intro t'
    by_cases hne : t' = t
    · rw [hne, Function.update_self, ht]
      rcases readRole_counted word with hrole | hrole <;> simp [hrole]
    · rw [Function.update_of_ne hne]
  refine ⟨by omega, ?_, fun t₁ t₂ h₁ h₂ ↦ ?_, fun t' ht' ↦ ?_⟩
  · simp only [hhigh, hwriting]
    exact h.owner
  · exact h.unique t₁ t₂ ((hwriting t₁).mp h₁) ((hwriting t₂).mp h₂)
  · rw [hhigh]
    by_cases hne : t' = t
    · rw [hne, Function.update_self, readRole] at ht'
      split_ifs at ht' with hfree
      exact (upperHalf_eq_zero_iff word).mp hfree
    · rw [Function.update_of_ne hne] at ht'
      exact h.exclusive t' ht'

/-- The wait of `ReadLock` ends. -/
theorem Guarded.check (h : Guarded word role) (ht : role t = .waiting) (hfree : upperHalf word = 0) :
    Guarded word (Function.update role t .reading) := by
  have hcount := readerCount_update role t .reading
  rw [ht, if_pos (by decide), if_pos (by decide)] at hcount
  have hhigh := (upperHalf_eq_zero_iff word).mp hfree
  have hwriting : ∀ t', Function.update role t .reading t' = .writing ↔ role t' = .writing := by
    intro t'
    by_cases hne : t' = t
    · rw [hne, Function.update_self, ht]
      simp
    · rw [Function.update_of_ne hne]
  refine ⟨?_, ?_, fun t₁ t₂ h₁ h₂ ↦ ?_, fun _ _ ↦ hhigh⟩
  · rw [h.readers]
    omega
  · simp only [hwriting]
    exact h.owner
  · exact h.unique t₁ t₂ ((hwriting t₁).mp h₁) ((hwriting t₂).mp h₂)

/-- `ReadUnlock`. -/
theorem Guarded.readUnlock (h : Guarded word role) (ht : role t = .reading) :
    Guarded (word - 1) (Function.update role t .idle) := by
  have hcount := readerCount_update role t .idle
  rw [ht, if_pos (by decide), if_neg (by decide)] at hcount
  have hreaders := h.readers
  have hhigh := h.exclusive t ht
  have hsub : (word - 1).toNat = word.toNat - 1 := by
    rw [UInt64.toNat_sub_of_le]
    · rfl
    · rw [UInt64.le_iff_toNat_le, show (1 : UInt64).toNat = 1 from rfl]
      omega
  have hwriting : ∀ t', role t' ≠ .writing := fun t' ht' ↦ h.owner.mpr ⟨t', ht'⟩ hhigh
  have hnone : ∀ t', Function.update role t .idle t' ≠ .writing := by
    intro t'
    by_cases hne : t' = t
    · rw [hne, Function.update_self]
      decide
    · rw [Function.update_of_ne hne]
      exact hwriting t'
  refine ⟨by omega, ?_, fun t₁ t₂ h₁ ↦ absurd h₁ (hnone t₁), fun t' _ ↦ by omega⟩
  refine iff_of_false (by omega) ?_
  rintro ⟨t', ht'⟩
  exact hnone t' ht'

end Word

/-! ### The service -/

/-- Where a thread is in the code of a lock. -/
inductive LockPc (α : Type)
  | out
  | writeSpin (a : α) (key : UInt64)
  | writing (a : α) (key : UInt64)
  | readSpin (a : α)
  | reading (a : α)

/-- `LockService` and the threads that use it. A thread that nests its locks stands for several here,
one for each lock that it is in. -/
structure LockService (α T : Type) where
  words : α → UInt64
  WriteID : UInt16
  pc : T → LockPc α

namespace LockService

variable {α T : Type} [DecidableEq α] [DecidableEq T]

/-- The locks before their first use. -/
def init : LockService α T where
  words := fun _ ↦ 0
  WriteID := 0
  pc := fun _ ↦ .out

/-- The atomic steps. -/
inductive Event (α T : Type)
  | writeLock (t : T) (NodeID : UInt16) (a : α)
  | swap (t : T)
  | writeUnlock (t : T)
  | readLock (t : T) (a : α)
  | check (t : T)
  | readUnlock (t : T)

/-- A thread takes an atomic step: in `WriteLock` the addition to `WriteID` and the compare and swap,
in `ReadLock` the addition to the word and the comparison of its upper half with zero. A comparison
that fails changes nothing and is not a step. -/
inductive Step : LockService α T → Event α T → LockService α T → Prop
  | writeLock {s : LockService α T} {t : T} (NodeID : UInt16) (a : α) : s.pc t = .out →
      Step s (.writeLock t NodeID a)
        { s with
          WriteID := s.WriteID + 1
          pc := Function.update s.pc t (.writeSpin a (lockKey NodeID s.WriteID)) }
  | swap {s : LockService α T} {t : T} {a : α} {key : UInt64} :
      s.pc t = .writeSpin a key → s.words a = 0 →
      Step s (.swap t)
        { s with
          words := Function.update s.words a key
          pc := Function.update s.pc t (.writing a key) }
  | writeUnlock {s : LockService α T} {t : T} {a : α} {key : UInt64} : s.pc t = .writing a key →
      Step s (.writeUnlock t)
        { s with
          words := Function.update s.words a (clearUpperHalf (s.words a))
          pc := Function.update s.pc t .out }
  | readLock {s : LockService α T} {t : T} (a : α) : s.pc t = .out →
      Step s (.readLock t a)
        { s with
          words := Function.update s.words a (s.words a + 1)
          pc := Function.update s.pc t
            (if upperHalf (s.words a) = 0 then .reading a else .readSpin a) }
  | check {s : LockService α T} {t : T} {a : α} : s.pc t = .readSpin a →
      upperHalf (s.words a) = 0 →
      Step s (.check t) { s with pc := Function.update s.pc t (.reading a) }
  | readUnlock {s : LockService α T} {t : T} {a : α} : s.pc t = .reading a →
      Step s (.readUnlock t)
        { s with
          words := Function.update s.words a (s.words a - 1)
          pc := Function.update s.pc t .out }

/-- What a thread is to the word of an address. -/
def role (a : α) : LockPc α → LockRole
  | .writing b _ => if b = a then .writing else .idle
  | .readSpin b => if b = a then .waiting else .idle
  | .reading b => if b = a then .reading else .idle
  | _ => .idle

omit [DecidableEq T] in
theorem role_eq_writing {a : α} {l : LockPc α} (h : role a l = .writing) :
    ∃ key, l = .writing a key := by
  cases l with
  | writing b key =>
    by_cases hb : b = a
    · exact ⟨key, hb ▸ rfl⟩
    · rw [role, if_neg hb] at h
      cases h
  | readSpin b =>
    rw [role] at h
    split_ifs at h
  | reading b =>
    rw [role] at h
    split_ifs at h
  | _ => cases h

omit [DecidableEq T] in
theorem role_counted {a : α} {l : LockPc α} (h : (role a l).Counted) :
    l = .readSpin a ∨ l = .reading a := by
  cases l with
  | writing b key =>
    rw [role] at h
    split_ifs at h <;> rcases h with h | h <;> cases h
  | readSpin b =>
    by_cases hb : b = a
    · exact Or.inl (hb ▸ rfl)
    · rw [role, if_neg hb] at h
      rcases h with h | h <;> cases h
  | reading b =>
    by_cases hb : b = a
    · exact Or.inr (hb ▸ rfl)
    · rw [role, if_neg hb] at h
      rcases h with h | h <;> cases h
  | _ => rcases h with h | h <;> cases h

/-- What the threads are to the word of an address. -/
def roleAt (s : LockService α T) (a : α) (t : T) : LockRole := role a (s.pc t)

variable [Fintype T]

/-- What the callers have to see to: the id of a node is not zero, and a word has fewer than `2 ^ 32`
readers. -/
def Proper (s : LockService α T) : Event α T → Prop
  | .writeLock _ NodeID _ => NodeID ≠ 0
  | .readLock _ a => readerCount (s.roleAt a) + 1 < 2 ^ 32
  | _ => True

/-- The invariant: each word is guarded, and the keys of the writers fill the upper half. -/
structure Inv (s : LockService α T) : Prop where
  guarded : ∀ a, Guarded (s.words a) (s.roleAt a)
  keys : ∀ t a key, s.pc t = .writeSpin a key →
    key.toNat % 2 ^ 32 = 0 ∧ key.toNat / 2 ^ 32 ≠ 0

variable {s s' : LockService α T} {a b : α} {t : T}

omit [DecidableEq T] in
theorem Inv.init : Inv (init : LockService α T) := by
  refine ⟨fun a ↦ Guarded.zero, fun t a key h ↦ ?_⟩
  cases h

omit [Fintype T] in
/-- A thread moves on. -/
theorem role_update (pc : T → LockPc α) (t : T) (p : LockPc α) (a : α) :
    (fun t' ↦ role a (Function.update pc t p t')) =
      Function.update (fun t' ↦ role a (pc t')) t (role a p) := by
  funext t'
  by_cases hne : t' = t
  · rw [hne, Function.update_self, Function.update_self]
  · rw [Function.update_of_ne hne, Function.update_of_ne hne]

/-- A thread moves on at the word of one address. The other words are not affected. -/
theorem Inv.move (h : Inv s) {p : LockPc α} {word : UInt64} {id : UInt16}
    (hword : Guarded word (Function.update (s.roleAt a) t (role a p)))
    (hother : ∀ b, b ≠ a → role b p = role b (s.pc t)) (hkey : ∀ b key, p ≠ .writeSpin b key) :
    Inv { words := Function.update s.words a word, WriteID := id,
          pc := Function.update s.pc t p } := by
  refine ⟨fun b ↦ ?_, fun t' b key ht' ↦ ?_⟩
  · change Guarded (Function.update s.words a word b)
      (fun t' ↦ role b (Function.update s.pc t p t'))
    rw [role_update]
    by_cases hb : b = a
    · rw [hb, Function.update_self]
      exact hword
    · rw [Function.update_of_ne hb, hother b hb, Function.update_eq_self]
      exact h.guarded b
  · change Function.update s.pc t p t' = .writeSpin b key at ht'
    by_cases hne : t' = t
    · rw [hne, Function.update_self] at ht'
      exact absurd ht' (hkey b key)
    · rw [Function.update_of_ne hne] at ht'
      exact h.keys t' b key ht'

/-- One step keeps the invariant. -/
theorem Inv.step (h : Inv s) {e : Event α T} (hok : Proper s e) (hstep : Step s e s') : Inv s' := by
  cases hstep with
  | @writeLock t NodeID a hpc =>
    refine ⟨fun b ↦ ?_, fun t' b key ht' ↦ ?_⟩
    · change Guarded (s.words b) (fun t' ↦ role b (Function.update s.pc t _ t'))
      have hidle : role b (.writeSpin a (lockKey NodeID s.WriteID)) = role b (s.pc t) := by
        rw [hpc]
        rfl
      rw [role_update, hidle, Function.update_eq_self]
      exact h.guarded b
    · change Function.update s.pc t _ t' = _ at ht'
      by_cases hne : t' = t
      · rw [hne, Function.update_self] at ht'
        obtain ⟨-, rfl⟩ := LockPc.writeSpin.inj ht'
        have hnode : NodeID.toNat ≠ 0 := fun hzero ↦ hok (UInt16.toNat_inj.mp hzero)
        rw [lockKey_toNat]
        constructor
        · exact Nat.mul_mod_left _ _
        · rw [Nat.mul_div_cancel _ (by decide)]
          omega
      · rw [Function.update_of_ne hne] at ht'
        exact h.keys t' b key ht'
  | @swap t a key hpc hzero =>
    obtain ⟨hlow, hhigh⟩ := h.keys t a key hpc
    have hword := h.guarded a
    rw [hzero] at hword
    refine h.move ?_ (fun b hb ↦ ?_) (fun _ _ heq ↦ by cases heq)
    · rw [role, if_pos rfl]
      exact hword.swap hlow hhigh
    · simp [hpc, role, hb.symm]
  | @writeUnlock t a key hpc =>
    refine h.move ?_ (fun b hb ↦ ?_) (fun _ _ heq ↦ by cases heq)
    · exact (h.guarded a).writeUnlock (by simp [roleAt, hpc, role])
    · simp [hpc, role, hb.symm]
  | @readLock t a hpc =>
    have hrole : role a (if upperHalf (s.words a) = 0 then .reading a else .readSpin a) =
        readRole (s.words a) := by
      rw [readRole]
      split_ifs <;> simp [role]
    refine h.move ?_ (fun b hb ↦ ?_) (fun _ _ heq ↦ by split_ifs at heq)
    · rw [hrole]
      exact (h.guarded a).readLock (by simp [roleAt, hpc, role]) hok
    · split_ifs <;> simp [hpc, role, hb.symm]
  | @check t a hpc hfree =>
    have hsame : Function.update s.words a (s.words a) = s.words := Function.update_eq_self a s.words
    rw [← hsame]
    refine h.move ?_ (fun b hb ↦ ?_) (fun _ _ heq ↦ by cases heq)
    · rw [role, if_pos rfl]
      exact (h.guarded a).check (by simp [roleAt, hpc, role]) hfree
    · simp [hpc, role, hb.symm]
  | @readUnlock t a hpc =>
    refine h.move ?_ (fun b hb ↦ ?_) (fun _ _ heq ↦ by cases heq)
    · exact (h.guarded a).readUnlock (by simp [roleAt, hpc, role])
    · simp [hpc, role, hb.symm]

/-- The lock words keep writers alone: over every interleaving of the atomic steps, two threads between
the return of `WriteLock` and `WriteUnlock` of an address are one, no thread is there while another is
between the return of `ReadLock` and `ReadUnlock`, and the word is zero when every lock of the address
has been released. -/
theorem words_guard_items
    (hrun : Reachable (LockService.init : LockService α T) Step Proper s) (a : α) :
    (∀ t t' key key', s.pc t = .writing a key → s.pc t' = .writing a key' → t = t') ∧
      (∀ t t' key, s.pc t = .writing a key → s.pc t' ≠ .reading a) ∧
      ((∀ t, s.roleAt a t = .idle) → s.words a = 0) := by
  have hinv : Inv s := hrun.invariant Inv Inv.init fun s e s' _ h hok hstep ↦ h.step hok hstep
  have hguarded := hinv.guarded a
  have hwriting : ∀ {t key}, s.pc t = .writing a key → s.roleAt a t = .writing := fun ht ↦ by
    simp [roleAt, ht, role]
  refine ⟨fun t t' key key' ht ht' ↦ ?_, fun t t' key ht ht' ↦ ?_, hguarded.eq_zero_iff.mpr⟩
  · exact hguarded.unique t t' (hwriting ht) (hwriting ht')
  · have hreading : s.roleAt a t' = .reading := by simp [roleAt, ht', role]
    exact hguarded.owner.mpr ⟨t, hwriting ht⟩ (hguarded.exclusive t' hreading)

/-- A writer has the word while a reader waits for it, and then both have released it. -/
theorem words_guard_items_two :
    ∃ s : LockService Unit (Fin 2), Reachable LockService.init Step Proper s ∧ s.WriteID = 1 ∧
      s.words () = 0 := by
  let key := lockKey 1 0
  let s₁ : LockService Unit (Fin 2) :=
    { words := fun _ ↦ 0, WriteID := 1, pc := Function.update (fun _ ↦ .out) 0 (.writeSpin () key) }
  let s₂ : LockService Unit (Fin 2) :=
    { s₁ with
      words := Function.update s₁.words () key, pc := Function.update s₁.pc 0 (.writing () key) }
  let s₃ : LockService Unit (Fin 2) :=
    { s₂ with
      words := Function.update s₂.words () (s₂.words () + 1)
      pc := Function.update s₂.pc 1
        (if upperHalf (s₂.words ()) = 0 then .reading () else .readSpin ()) }
  let s₄ : LockService Unit (Fin 2) :=
    { s₃ with
      words := Function.update s₃.words () (clearUpperHalf (s₃.words ()))
      pc := Function.update s₃.pc 0 .out }
  let s₅ : LockService Unit (Fin 2) := { s₄ with pc := Function.update s₄.pc 1 (.reading ()) }
  let s₆ : LockService Unit (Fin 2) :=
    { s₅ with
      words := Function.update s₅.words () (s₅.words () - 1)
      pc := Function.update s₅.pc 1 .out }
  have hstep₁ : Step LockService.init (.writeLock 0 1 ()) s₁ := Step.writeLock 1 () rfl
  have hstep₂ : Step s₁ (.swap 0) s₂ := Step.swap rfl rfl
  have hstep₃ : Step s₂ (.readLock 1 ()) s₃ := Step.readLock () rfl
  have hstep₄ : Step s₃ (.writeUnlock 0) s₄ := Step.writeUnlock rfl
  have hwaits : s₄.pc 1 = .readSpin () := if_neg (show ¬upperHalf (s₂.words ()) = 0 by decide)
  have hstep₅ : Step s₄ (.check 1) s₅ := Step.check hwaits (by decide)
  have hstep₆ : Step s₅ (.readUnlock 1) s₆ := Step.readUnlock rfl
  have hok₁ : Proper (LockService.init : LockService Unit (Fin 2)) (.writeLock 0 1 ()) :=
    show (1 : UInt16) ≠ 0 by decide
  have hok₃ : Proper s₂ (.readLock 1 ()) :=
    show readerCount (s₂.roleAt ()) + 1 < 2 ^ 32 by decide
  have hok₂ : Proper s₁ (.swap 0) := trivial
  have hok₄ : Proper s₃ (.writeUnlock 0) := trivial
  have hok₅ : Proper s₄ (.check 1) := trivial
  have hok₆ : Proper s₅ (.readUnlock 1) := trivial
  have hrun : Reachable (LockService.init : LockService Unit (Fin 2)) Step Proper s₆ :=
    (((((Reachable.init.step hok₁ hstep₁).step hok₂ hstep₂).step hok₃ hstep₃).step hok₄
      hstep₄).step hok₅ hstep₅).step hok₆ hstep₆
  obtain ⟨-, -, hzero⟩ := words_guard_items hrun ()
  exact ⟨s₆, hrun, rfl, hzero (by decide)⟩

end LockService

end SwitchDelta.Fs
