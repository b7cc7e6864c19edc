import SwitchDelta.Fs.Bitmap

/-!
# Sequences of bitmap calls

After any calls of `set` and `clear`, the bits of a bitmap are those that the last call on each
position left (`Bitmap.Tracks`), and the counter is the number of clear ones.

`findFree` multiplies the index of a byte by eight as an `unsigned int`. So it returns the least clear
position only if this is less than `2 ^ 32`, which is sure for the bitmaps of up to `2 ^ 32` bits
(`Bitmap.correct_iff_le`).
-/

set_option autoImplicit false
set_option relaxedAutoImplicit false

namespace SwitchDelta.Fs

/-! ### Counting and searching -/

section

variable {α : Type*} {f : ℕ → Option α} {g g' : ℕ → Bool} {n i : ℕ}

/-- A search of the first numbers ends at the first one that has a result. -/
theorem findSome?_range_eq_some {a : α} (hi : i < n) (hsome : f i = some a)
    (hnone : ∀ j < i, f j = none) : (List.range n).findSome? f = some a := by
  induction n with
  | zero => exact absurd hi (Nat.not_lt_zero i)
  | succ n ih =>
    rw [List.range_succ, List.findSome?_append]
    rcases Nat.lt_succ_iff_lt_or_eq.mp hi with hless | rfl
    · rw [ih hless, Option.some_or]
    · have hearlier : (List.range i).findSome? f = none :=
        List.findSome?_eq_none_iff.mpr fun j hj ↦ hnone j (List.mem_range.mp hj)
      rw [hearlier, Option.none_or, List.findSome?_singleton, hsome]

/-- One number fewer is counted if the predicate changes at this number only. -/
theorem countP_range_flip (hi : i < n) (hg : g i = true) (hg' : g' i = false)
    (hother : ∀ j ≠ i, g' j = g j) :
    (List.range n).countP g = (List.range n).countP g' + 1 := by
  induction n with
  | zero => exact absurd hi (Nat.not_lt_zero i)
  | succ n ih =>
    rw [List.range_succ, List.countP_append, List.countP_append, List.countP_singleton,
      List.countP_singleton]
    rcases Nat.lt_succ_iff_lt_or_eq.mp hi with hless | rfl
    · rw [ih hless, hother n hless.ne']
      omega
    · have hearlier : (List.range i).countP g' = (List.range i).countP g :=
        List.countP_congr fun j hj ↦ by rw [hother j (List.mem_range.mp hj).ne]
      rw [hearlier, hg, hg']
      rfl

/-- A loop that counts. -/
theorem foldl_count {β : Type*} (l : List β) (p : β → Prop) [DecidablePred p] (free : ℕ) :
    l.foldl (fun free x ↦ if p x then free + 1 else free) free =
      free + l.countP fun x ↦ decide (p x) := by
  induction l generalizing free with
  | nil => rfl
  | cons x l ih =>
    rw [List.foldl_cons, ih, List.countP_cons]
    by_cases hp : p x
    · rw [if_pos hp, if_pos (decide_eq_true hp)]
      omega
    · rw [if_neg hp, if_neg (by simpa using hp)]
      omega

end

namespace Bitmap

/-! ### The operations -/

/-- `Bitmap::findFree`, for a pointer that is not null. The position is computed as an
`unsigned int`. -/
def findFree (b : Bitmap) : Option ℕ :=
  if 0 < b.varCountFree then
    (List.range (b.varCountTotal / 8)).findSome? fun index ↦
      (List.range 8).findSome? fun offset ↦
        if b.bytes index &&& mask offset = 0 then some ((index * 8 + offset) % 2 ^ 32) else none
  else none

/-- A call that changes a bit. -/
inductive Call
  | set (pos : ℕ)
  | clear (pos : ℕ)

/-- The position of a call. -/
def Call.pos : Call → ℕ
  | .set pos => pos
  | .clear pos => pos

/-- The bit that a call leaves at its position. -/
def Call.value : Call → Bool
  | .set _ => true
  | .clear _ => false

/-- A call. -/
def call (b : Bitmap) : Call → Bitmap × Bool
  | .set pos => b.set pos
  | .clear pos => b.clear pos

/-- A sequence of calls. -/
def calls (b : Bitmap) (cs : List Call) : Bitmap := cs.foldl (fun b c ↦ (b.call c).1) b

/-! ### What they should do -/

/-- The bit of a position in the buffer that the constructor is given. -/
def initial (buffer : ℕ → UInt8) (pos : ℕ) : Bool :=
  decide (buffer (pos / 8) &&& mask (pos % 8) ≠ 0)

/-- The bit that the last call on a position left, or the initial one. -/
def last (buffer : ℕ → UInt8) (cs : List Call) (pos : ℕ) : Bool :=
  match cs.reverse.find? fun c ↦ c.pos == pos with
  | some c => c.value
  | none => initial buffer pos

/-- A bitmap after a sequence of calls, as its callers rely on it. -/
structure Tracks (count : ℕ) (buffer : ℕ → UInt8) (cs : List Call) (b : Bitmap) : Prop where
  get : ∀ pos, b.get pos = if pos < count then some (last buffer cs pos) else none
  frame : ∀ c pos, pos ≠ c.pos → (b.call c).1.get pos = b.get pos
  countFree : b.countFree = (List.range count).countP fun pos ↦ !last buffer cs pos
  result : ∀ c, (b.call c).2 = decide (c.pos < count)
  outside : ∀ c, ¬c.pos < count → (b.call c).1 = b
  findFree : ∀ pos, b.findFree = some pos ↔
    pos < count ∧ last buffer cs pos = false ∧ ∀ other < pos, last buffer cs other = true
  findFree_isSome : b.findFree.isSome = true ↔ ∃ pos < count, last buffer cs pos = false

/-- The constructor returns a bitmap that is as it should be after every sequence of calls. -/
def Correct (count : ℕ) (buffer : ℕ → UInt8) : Prop :=
  ∃ b, construct count buffer = some b ∧ ∀ cs, Tracks count buffer cs (b.calls cs)

variable {b : Bitmap} {count pos : ℕ} {buffer : ℕ → UInt8} {cs : List Call} {c : Call}
  {f : ℕ → Bool}

/-! ### The invariant -/

/-- The bits in range are those of `f`, and the clear ones are counted. -/
structure Holds (count : ℕ) (f : ℕ → Bool) (b : Bitmap) : Prop where
  total : b.varCountTotal = count
  bit : ∀ pos < count, b.bit pos = f pos
  free : b.varCountFree = (List.range count).countP fun pos ↦ !f pos

theorem last_snoc (pos : ℕ) : last buffer (cs ++ [c]) pos =
    if c.pos = pos then c.value else last buffer cs pos := by
  rw [last, List.reverse_append, List.reverse_singleton, List.singleton_append, List.find?_cons]
  by_cases heq : c.pos = pos
  · rw [if_pos heq, beq_iff_eq.mpr heq]
  · rw [if_neg heq, beq_eq_false_iff_ne.mpr heq]
    rfl

theorem calls_snoc : b.calls (cs ++ [c]) = ((b.calls cs).call c).1 := by
  rw [calls, List.foldl_append]
  rfl

/-- The counter of the constructor. -/
theorem foldl_initial (n : ℕ) : (List.range n).foldl (fun free index ↦
    (List.range 8).foldl (fun free offset ↦
      if buffer index &&& mask offset = 0 then free + 1 else free) free) 0 =
      (List.range (8 * n)).countP fun pos ↦ !initial buffer pos := by
  induction n with
  | zero => rfl
  | succ n ih =>
    rw [@List.range_succ n, List.foldl_append, ih, List.foldl_cons, List.foldl_nil, foldl_count,
      Nat.mul_succ, List.range_add, List.countP_append, List.countP_map]
    refine congrArg _ (List.countP_congr fun offset hoffset ↦ ?_)
    have hless := List.mem_range.mp hoffset
    have hindex : (8 * n + offset) / 8 = n := by omega
    have hrest : (8 * n + offset) % 8 = offset := by omega
    rw [Function.comp_apply, initial, hindex, hrest]
    simp

theorem holds_construct (h : construct count buffer = some b) : Holds count (initial buffer) b := by
  rw [construct] at h
  split_ifs at h with hcount
  obtain rfl := Option.some.inj h
  have hmul : 8 * (count / 8) = count := by omega
  refine ⟨rfl, fun pos _ ↦ rfl, ?_⟩
  dsimp only
  rw [foldl_initial, hmul]

/-- A call out of range fails and changes nothing. -/
theorem Holds.call_outside (h : Holds count f b) (hpos : ¬c.pos < count) :
    b.call c = (b, false) := by
  rw [← h.total] at hpos
  cases c with
  | set pos => exact if_neg hpos
  | clear pos => exact if_neg hpos

/-- `set` in range. -/
theorem Holds.set (h : Holds count f b) (hpos : pos < count) :
    (b.set pos).2 = true ∧ Holds count (Function.update f pos true) (b.set pos).1 := by
  have hrange : pos < b.varCountTotal := h.total ▸ hpos
  have hbit := h.bit pos hpos
  by_cases hset : b.bit pos = true
  · have hcall : b.set pos = (b, true) := (if_pos hrange).trans (if_pos hset)
    have hsame : Function.update f pos true = f := by
      rw [← hset, hbit, Function.update_eq_self]
    rw [hcall, hsame]
    exact ⟨rfl, h⟩
  · have hclear : b.bit pos = false := Bool.eq_false_iff.mpr hset
    obtain ⟨hresult, hbits, hfree, htotal⟩ := set_of_clear hrange hclear
    refine ⟨hresult, htotal.trans h.total, fun other hother ↦ ?_, ?_⟩
    · rw [Bool.eq_iff_iff, hbits]
      by_cases heq : other = pos
      · rw [heq, Function.update_self]
        exact iff_of_true (Or.inl rfl) rfl
      · rw [Function.update_of_ne heq, ← h.bit other hother, or_iff_right heq]
    · have hcount := @countP_range_flip (fun other ↦ !f other)
        (fun other ↦ !Function.update f pos true other) count pos hpos
        (by rw [← hbit, hclear]; rfl) (by rw [Function.update_self]; rfl)
        fun other hother ↦ by rw [Function.update_of_ne hother]
      rw [hfree, h.free, hcount, Nat.add_sub_cancel]

/-- `clear` in range. -/
theorem Holds.clear (h : Holds count f b) (hpos : pos < count) :
    (b.clear pos).2 = true ∧ Holds count (Function.update f pos false) (b.clear pos).1 := by
  have hrange : pos < b.varCountTotal := h.total ▸ hpos
  have hbit := h.bit pos hpos
  by_cases hset : b.bit pos = true
  · obtain ⟨hresult, hbits, hfree, htotal⟩ := clear_of_set hrange hset
    refine ⟨hresult, htotal.trans h.total, fun other hother ↦ ?_, ?_⟩
    · rw [Bool.eq_iff_iff, hbits]
      by_cases heq : other = pos
      · rw [heq, Function.update_self]
        exact iff_of_false (fun hboth ↦ hboth.1 rfl) Bool.false_ne_true
      · rw [Function.update_of_ne heq, ← h.bit other hother, and_iff_right heq]
    · have hcount := @countP_range_flip (fun other ↦ !Function.update f pos false other)
        (fun other ↦ !f other) count pos hpos
        (by rw [Function.update_self]; rfl) (by rw [← hbit, hset]; rfl)
        fun other hother ↦ by rw [Function.update_of_ne hother]
      rw [hfree, h.free, hcount]
  · have hclear : b.bit pos = false := Bool.eq_false_iff.mpr hset
    have hcall : b.clear pos = (b, true) := (if_pos hrange).trans (if_neg hset)
    have hsame : Function.update f pos false = f := by
      rw [← hclear, hbit, Function.update_eq_self]
    rw [hcall, hsame]
    exact ⟨rfl, h⟩

/-- A call in range succeeds and leaves its bit. -/
theorem Holds.call_inside (h : Holds count f b) (hpos : c.pos < count) :
    (b.call c).2 = true ∧ Holds count (Function.update f c.pos c.value) (b.call c).1 := by
  cases c with
  | set pos => exact h.set hpos
  | clear pos => exact h.clear hpos

/-- The invariant of the calls. -/
theorem Holds.calls (h : Holds count (initial buffer) b) (cs : List Call) :
    Holds count (last buffer cs) (b.calls cs) := by
  induction cs using List.reverseRecOn with
  | nil => exact h
  | append_singleton cs c ih =>
    rw [calls_snoc]
    by_cases hpos : c.pos < count
    · obtain ⟨htotal, hbit, hfree⟩ := (ih.call_inside hpos).2
      have hlast : last buffer (cs ++ [c]) = Function.update (last buffer cs) c.pos c.value := by
        funext pos
        rw [last_snoc]
        by_cases heq : c.pos = pos
        · rw [if_pos heq, ← heq, Function.update_self]
        · rw [if_neg heq, Function.update_of_ne (Ne.symm heq)]
      rw [hlast]
      exact ⟨htotal, hbit, hfree⟩
    · have hlast (pos : ℕ) (hless : pos < count) :
          last buffer (cs ++ [c]) pos = last buffer cs pos := by
        rw [last_snoc, if_neg]
        rintro rfl
        exact hpos hless
      rw [ih.call_outside hpos]
      refine ⟨ih.total, fun pos hless ↦ (ih.bit pos hless).trans (hlast pos hless).symm, ?_⟩
      rw [ih.free]
      exact List.countP_congr fun pos hmem ↦ by rw [hlast pos (List.mem_range.mp hmem)]

/-! ### The search -/

theorem Holds.get (h : Holds count f b) (pos : ℕ) :
    b.get pos = if pos < count then some (f pos) else none := by
  rw [Bitmap.get, h.total]
  split_ifs with hpos
  · rw [h.bit pos hpos]
  · rfl

/-- The bit of a position, by the byte and the place in it. -/
theorem and_mask_eq_zero {index offset : ℕ} (hoffset : offset < 8) :
    b.bytes index &&& mask offset = 0 ↔ b.bit (index * 8 + offset) = false := by
  have hindex : (index * 8 + offset) / 8 = index := by omega
  have hrest : (index * 8 + offset) % 8 = offset := by omega
  rw [bit, hindex, hrest, decide_eq_false_iff_not, not_not]

/-- `findFree` where there is a clear bit. -/
theorem Holds.findFree_of_clear (h : Holds count f b) (hcount : count % 8 = 0) (hpos : pos < count)
    (hclear : f pos = false) (hfirst : ∀ other < pos, f other = true) :
    b.findFree = some (pos % 2 ^ 32) := by
  have hbefore (index offset : ℕ) (hoffset : offset < 8) (hless : index * 8 + offset < pos) :
      ¬b.bytes index &&& mask offset = 0 := by
    rw [and_mask_eq_zero hoffset, h.bit _ (hless.trans hpos), hfirst _ hless]
    exact nofun
  have hfree : 0 < b.varCountFree := by
    rw [h.free, List.countP_pos_iff]
    exact ⟨pos, List.mem_range.mpr hpos, by rw [hclear]; rfl⟩
  have hindex : pos / 8 < b.varCountTotal / 8 := by
    rw [h.total]
    omega
  have hsplit : pos / 8 * 8 + pos % 8 = pos := by omega
  rw [findFree, if_pos hfree]
  -- the byte of the position is the first one with a clear bit, and the position the first in it
  refine findSome?_range_eq_some hindex
    (findSome?_range_eq_some (Nat.mod_lt pos (by decide)) ?_ fun offset hoffset ↦ ?_)
    fun index hless ↦ List.findSome?_eq_none_iff.mpr fun offset hoffset ↦ ?_
  · rw [if_pos, hsplit]
    rw [and_mask_eq_zero (Nat.mod_lt pos (by decide)), hsplit, h.bit pos hpos, hclear]
  · exact if_neg (hbefore _ _ (by omega) (by omega))
  · have hrange := List.mem_range.mp hoffset
    exact if_neg (hbefore _ _ hrange (by omega))

/-- `findFree` where every bit is set. -/
theorem Holds.findFree_of_full (h : Holds count f b) (hfull : ∀ pos < count, f pos = true) :
    b.findFree = none := by
  have hfree : b.varCountFree = 0 := by
    rw [h.free, List.countP_eq_zero]
    intro pos hpos
    rw [hfull pos (List.mem_range.mp hpos)]
    exact Bool.false_ne_true
  rw [findFree, hfree]
  rfl

/-- The first clear bit. -/
theorem exists_first (h : ∃ pos < count, f pos = false) :
    ∃ pos < count, f pos = false ∧ ∀ other < pos, f other = true := by
  obtain ⟨hpos, hclear⟩ := Nat.find_spec h
  refine ⟨Nat.find h, hpos, hclear, fun other hless ↦ ?_⟩
  have hnot := Nat.find_min h hless
  exact Bool.eq_true_of_not_eq_false fun hother ↦ hnot ⟨hless.trans hpos, hother⟩

/-- In a bitmap of at most `2 ^ 32` bits `findFree` is exact. -/
theorem Holds.findFree_iff (h : Holds count f b) (hcount : count % 8 = 0)
    (hbound : count ≤ 2 ^ 32) (pos : ℕ) : b.findFree = some pos ↔
      pos < count ∧ f pos = false ∧ ∀ other < pos, f other = true := by
  constructor
  · intro hfind
    by_cases hsome : ∃ pos < count, f pos = false
    · obtain ⟨first, hless, hclear, hfirst⟩ := exists_first hsome
      rw [h.findFree_of_clear hcount hless hclear hfirst,
        Nat.mod_eq_of_lt (hless.trans_le hbound)] at hfind
      obtain rfl := Option.some.inj hfind
      exact ⟨hless, hclear, hfirst⟩
    · have hfull : ∀ pos < count, f pos = true := fun pos hpos ↦
        Bool.eq_true_of_not_eq_false fun hclear ↦ hsome ⟨pos, hpos, hclear⟩
      rw [h.findFree_of_full hfull] at hfind
      exact absurd hfind.symm (Option.some_ne_none _)
  · rintro ⟨hless, hclear, hfirst⟩
    rw [h.findFree_of_clear hcount hless hclear hfirst, Nat.mod_eq_of_lt (hless.trans_le hbound)]

theorem Holds.findFree_isSome (h : Holds count f b) (hcount : count % 8 = 0) :
    b.findFree.isSome = true ↔ ∃ pos < count, f pos = false := by
  constructor
  · intro hsome
    by_contra hnone
    have hfull : ∀ pos < count, f pos = true := fun pos hpos ↦
      Bool.eq_true_of_not_eq_false fun hclear ↦ hnone ⟨pos, hpos, hclear⟩
    rw [h.findFree_of_full hfull] at hsome
    exact absurd hsome Bool.false_ne_true
  · intro hexists
    obtain ⟨first, hless, hclear, hfirst⟩ := exists_first hexists
    rw [h.findFree_of_clear hcount hless hclear hfirst]
    rfl

/-! ### The limit of the search -/

theorem Holds.tracks (h : Holds count (last buffer cs) b) (hcount : count % 8 = 0)
    (hbound : count ≤ 2 ^ 32) : Tracks count buffer cs b where
  get := h.get
  frame c pos hne := by
    by_cases hpos : c.pos < count
    · rw [(h.call_inside hpos).2.get, h.get, Function.update_of_ne hne]
    · rw [h.call_outside hpos]
  countFree := h.free
  result c := by
    by_cases hpos : c.pos < count
    · rw [(h.call_inside hpos).1, decide_eq_true hpos]
    · rw [h.call_outside hpos, decide_eq_false hpos]
  outside c hpos := by rw [h.call_outside hpos]
  findFree := h.findFree_iff hcount hbound
  findFree_isSome := h.findFree_isSome hcount

theorem last_sets {n : ℕ} (hpos : pos < n) :
    last buffer ((List.range n).map Call.set) pos = true := by
  induction n with
  | zero => exact absurd hpos (Nat.not_lt_zero pos)
  | succ n ih =>
    rw [List.range_succ, List.map_append, List.map_singleton, last_snoc]
    by_cases heq : n = pos
    · exact if_pos heq
    · exact (if_neg heq).trans (ih (by omega))

/-- Where the first clear position is `2 ^ 32` or more, `findFree` returns another one. -/
theorem Holds.findFree_ne (h : Holds count f b) (hcount : count % 8 = 0) (hpos : 2 ^ 32 < count)
    (hclear : f (2 ^ 32) = false) (hfirst : ∀ other < 2 ^ 32, f other = true) :
    b.findFree = some 0 ∧ b.get 0 = some true ∧ b.get (2 ^ 32) = some false := by
  refine ⟨(h.findFree_of_clear hcount hpos hclear hfirst).trans ?_, ?_, ?_⟩
  · rw [Nat.mod_self]
  · rw [h.get, if_pos (by omega), hfirst 0 (by norm_num)]
  · rw [h.get, if_pos hpos, hclear]

/-- A bitmap answers every sequence of calls as it should exactly where it has at most `2 ^ 32`
bits: in a longer one `findFree` cuts the positions from there on, and a bitmap of `2 ^ 35` bits is
never constructed. -/
theorem correct_iff_le (hcount : count % 8 = 0) : Correct count buffer ↔ count ≤ 2 ^ 32 := by
  constructor
  · rintro ⟨b, hconstruct, htracks⟩
    by_contra hbound
    have hpos : 2 ^ 32 < count := Nat.lt_of_not_le hbound
    let full := (List.range (2 ^ 32)).map Call.set
    have hholds := (holds_construct hconstruct).calls (full ++ [Call.clear (2 ^ 32)])
    have hclear : last buffer (full ++ [Call.clear (2 ^ 32)]) (2 ^ 32) = false := by
      rw [last_snoc]
      exact if_pos rfl
    have hfirst (other : ℕ) (hless : other < 2 ^ 32) :
        last buffer (full ++ [Call.clear (2 ^ 32)]) other = true := by
      rw [last_snoc]
      exact (if_neg hless.ne').trans (last_sets hless)
    have hleast := ((htracks _).findFree (2 ^ 32)).mpr ⟨hpos, hclear, hfirst⟩
    rw [(hholds.findFree_ne hcount hpos hclear hfirst).1] at hleast
    exact absurd (Option.some.inj hleast) (by norm_num)
  · intro hbound
    have hsome := construct_isSome ⟨hcount, (by omega : count / 8 < 2 ^ 32)⟩ buffer
    obtain ⟨b, hconstruct⟩ := Option.isSome_iff_exists.mp hsome
    exact ⟨b, hconstruct, fun cs ↦ ((holds_construct hconstruct).calls cs).tracks hcount hbound⟩

theorem correct_sixteen : 16 % 8 = 0 ∧ Correct 16 fun _ ↦ 0x0F :=
  ⟨rfl, (correct_iff_le rfl).mpr (by norm_num)⟩

/-- Every bit is set but that of position `2 ^ 32`. -/
def almostFull (index : ℕ) : UInt8 := if index = 2 ^ 29 then 0x7F else 0xFF

theorem mask_set : ∀ offset : Fin 8, (0xFF : UInt8) &&& mask offset ≠ 0 := by
  decide

/-- `findFree` returns position zero, which is set, in a bitmap whose only clear position is
`2 ^ 32`. -/
theorem findFree_cut : ¬Correct (2 ^ 32 + 8) almostFull ∧
    ∃ b, construct (2 ^ 32 + 8) almostFull = some b ∧ b.findFree = some 0 ∧
      b.get 0 = some true ∧ b.get (2 ^ 32) = some false := by
  have hsome : (construct (2 ^ 32 + 8) almostFull).isSome = true :=
    construct_isSome ⟨by norm_num, by norm_num⟩ almostFull
  obtain ⟨b, hconstruct⟩ := Option.isSome_iff_exists.mp hsome
  have hclear : initial almostFull (2 ^ 32) = false := by
    decide +kernel
  have hfirst (other : ℕ) (hless : other < 2 ^ 32) : initial almostFull other = true := by
    have hne : other / 8 ≠ 2 ^ 29 := by omega
    rw [initial, almostFull, if_neg hne]
    exact decide_eq_true (mask_set ⟨other % 8, Nat.mod_lt _ (by decide)⟩)
  have hfind := (holds_construct hconstruct).findFree_ne (by norm_num) (by norm_num) hclear hfirst
  refine ⟨?_, b, hconstruct, hfind⟩
  rintro ⟨b', hconstruct', htracks⟩
  obtain rfl := Option.some.inj (hconstruct.symm.trans hconstruct')
  have hzero := ((htracks []).findFree 0).mp hfind.1
  have hset : last almostFull [] 0 = true := hfirst 0 (by norm_num)
  rw [hset] at hzero
  exact absurd hzero.2.1 nofun

end Bitmap

end SwitchDelta.Fs
