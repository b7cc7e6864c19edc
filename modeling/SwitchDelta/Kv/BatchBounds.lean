import SwitchDelta.Kv.Convergence

/-!
# The arrays of the batching index server

`server_batch_CPC` collects requests in `batch` and, when built with `COMT`, runs a task with a flag
in `ctx` for each of them. `batch` has `FLAGS_batch_size + kMaxWcCnt` entries, computed in 32 bits,
while `tasks` and `ctx` have `CTX_NUM + kMaxWcCnt`, a constant; all three are indexed by the same
counter, a signed `int`.

The model lists every index that the function and its workers use. `batch_bounds_iff` says for which
values of the flags they stay within the arrays, whatever is polled.
-/

set_option autoImplicit false
set_option relaxedAutoImplicit false

namespace SwitchDelta.Kv

/-! ### Indices -/

/-- The build, and the flags that the batching server reads. -/
structure BatchConfig where
  comt : Bool
  batch : Bool
  batch_size : UInt32

/-- `CTX_NUM`. -/
def ctxNum : ℕ := 16

/-- `max_size`, and the bound of the loop that starts the tasks: both are sums of `uint32_t`. -/
def BatchConfig.max_size (cfg : BatchConfig) : UInt32 :=
  cfg.batch_size + 16

/-- The arrays of `server_batch_CPC`. -/
inductive BatchArray
  | batch
  | tasks
  | ctx
  deriving DecidableEq

/-- The number of elements of an array. -/
def BatchConfig.allocated (cfg : BatchConfig) : BatchArray → ℕ
  | .batch => cfg.max_size.toNat
  | .tasks | .ctx => ctxNum + kMaxWcCnt

/-- An index lies within its array. -/
def BatchConfig.InBounds (cfg : BatchConfig) (access : BatchArray × ℤ) : Prop :=
  0 ≤ access.2 ∧ access.2 < cfg.allocated access.1

instance (cfg : BatchConfig) (access : BatchArray × ℤ) : Decidable (cfg.InBounds access) :=
  inferInstanceAs (Decidable (_ ∧ _))

/-! ### The function -/

/-- An `int` after an increment. -/
def incr (value : ℤ) : ℤ :=
  (value + 1).bmod (2 ^ 32)

/-- The loop that starts the tasks. -/
def init_accesses (cfg : BatchConfig) : List (BatchArray × ℤ) :=
  if cfg.comt then
    (List.range cfg.max_size.toNat).flatMap fun (i : ℕ) ↦ [(.tasks, (i : ℤ)), (.ctx, (i : ℤ))]
  else []

/-- What one round of the main loop polls and what its batch makes the loops over the tasks do: for
each request whether it sets `onpath`, which entries start their task, and whether one of the tasks
suspends. -/
structure PollRound where
  requests : List Bool
  starts : ℕ → Bool
  suspends : Bool

/-- The loop over the completions of a poll: each request becomes `batch[batch_cnt++]`. -/
def collect_accesses : ℤ → ℕ → List (BatchArray × ℤ) × ℤ
  | batch_cnt, 0 => ([], batch_cnt)
  | batch_cnt, n + 1 =>
    let rest := collect_accesses (incr batch_cnt) n
    ((.batch, batch_cnt) :: rest.1, rest.2)

/-- `batch_cnt < FLAGS_batch_size && !onpath && FLAGS_batch`. The `int` is converted to
`uint32_t`. -/
def keeps (cfg : BatchConfig) (batch_cnt : ℤ) (round : PollRound) : Bool :=
  decide (batch_cnt % 2 ^ 32 < cfg.batch_size.toNat) && !round.requests.any id && cfg.batch

/-- The loops over a sorted batch. A worker uses its entry of `ctx` and `batch`. -/
def apply_accesses (cfg : BatchConfig) (batch_cnt : ℤ) (round : PollRound) :
    List (BatchArray × ℤ) :=
  (List.range batch_cnt.toNat).flatMap fun (i : ℕ) ↦
    (.batch, (i : ℤ)) ::
      if cfg.comt then
        (if round.starts i then [(.tasks, (i : ℤ)), (.ctx, (i : ℤ))] else []) ++
          if round.suspends then [(.ctx, (i : ℤ))] else []
      else []

/-- The main loop from the given `batch_cnt` on. -/
def loop_accesses (cfg : BatchConfig) : ℤ → List PollRound → List (BatchArray × ℤ)
  | _, [] => []
  | batch_cnt, round :: rounds =>
    let (accesses, batch_cnt) := collect_accesses batch_cnt round.requests.length
    accesses ++
      if keeps cfg batch_cnt round then loop_accesses cfg batch_cnt rounds
      else apply_accesses cfg batch_cnt round ++ loop_accesses cfg 0 rounds

/-- Every index that `server_batch_CPC` uses. -/
def batch_accesses (cfg : BatchConfig) (rounds : List PollRound) : List (BatchArray × ℤ) :=
  init_accesses cfg ++ loop_accesses cfg 0 rounds

/-! ### When they are in bounds -/

/-- The condition on the flags. -/
def BatchConfig.Fits (cfg : BatchConfig) : Prop :=
  if cfg.comt then cfg.batch_size ≤ 16
  else if cfg.batch then cfg.batch_size ≤ 2147483633
  else cfg.batch_size < 4294967280

instance (cfg : BatchConfig) : Decidable cfg.Fits :=
  inferInstanceAs (Decidable (if cfg.comt then cfg.batch_size ≤ 16
    else if cfg.batch then cfg.batch_size ≤ 2147483633
    else cfg.batch_size < 4294967280))

theorem incr_of_lt {value : ℤ} (hnonneg : 0 ≤ value) (hlt : value < 2 ^ 31 - 1) :
    incr value = value + 1 :=
  Int.bmod_eq_of_le (by omega) (by omega)

/-- Collecting without an overflow: the indices from `batch_cnt` on. -/
theorem mem_collect_accesses {batch_cnt : ℤ} {n : ℕ} (hnonneg : 0 ≤ batch_cnt)
    (hlt : batch_cnt + n ≤ 2 ^ 31) {access : BatchArray × ℤ}
    (haccess : access ∈ (collect_accesses batch_cnt n).1) :
    access.1 = .batch ∧ batch_cnt ≤ access.2 ∧ access.2 < batch_cnt + n := by
  induction n generalizing batch_cnt with
  | zero => exact absurd haccess List.not_mem_nil
  | succ n ih =>
    rw [collect_accesses] at haccess
    rcases List.mem_cons.mp haccess with rfl | haccess
    · exact ⟨rfl, le_rfl, by omega⟩
    · rcases Nat.eq_zero_or_pos n with rfl | hn
      · exact absurd haccess List.not_mem_nil
      · rw [incr_of_lt hnonneg (by omega)] at haccess
        obtain ⟨harray, hle, hlt⟩ := ih (by omega) (by omega) haccess
        exact ⟨harray, by omega, by omega⟩

/-- The counter after a poll, and after an overflow the smallest `int`. -/
theorem collect_accesses_cnt {batch_cnt : ℤ} {n : ℕ} (hnonneg : 0 ≤ batch_cnt)
    (hlt : batch_cnt + n ≤ 2 ^ 31) (hfits : batch_cnt < 2 ^ 31) :
    (collect_accesses batch_cnt n).2 =
      if batch_cnt + n = 2 ^ 31 then -2 ^ 31 else batch_cnt + n := by
  induction n generalizing batch_cnt with
  | zero =>
    rw [collect_accesses, if_neg (by push_cast; omega)]
    push_cast
    omega
  | succ n ih =>
    rw [collect_accesses]
    by_cases hlast : batch_cnt = 2 ^ 31 - 1
    · obtain rfl : n = 0 := by push_cast at hlt; omega
      rw [hlast, collect_accesses, if_pos (by norm_num), incr]
      decide
    · rw [incr_of_lt hnonneg (by omega), ih (by omega) (by push_cast at hlt; omega) (by omega)]
      push_cast
      congr 1 <;> [skip; omega]
      rw [eq_iff_iff]
      omega

section Fits

variable {cfg : BatchConfig} (hfits : cfg.Fits)

include hfits

/-- The sum for `max_size` does not overflow. -/
theorem BatchConfig.Fits.max_size_eq : cfg.max_size.toNat = cfg.batch_size.toNat + 16 := by
  have hle : cfg.batch_size.toNat < 4294967280 := by
    unfold BatchConfig.Fits at hfits
    split_ifs at hfits
    · exact (UInt32.le_iff_toNat_le.mp hfits).trans_lt (by decide)
    · exact (UInt32.le_iff_toNat_le.mp hfits).trans_lt (by decide)
    · exact UInt32.lt_iff_toNat_lt.mp hfits
  rw [BatchConfig.max_size, UInt32.toNat_add]
  exact Nat.mod_eq_of_lt (by simp only [UInt32.reduceToNat]; omega)

theorem BatchConfig.Fits.batch_size_le (hbatch : cfg.batch = true) :
    cfg.batch_size.toNat ≤ 2147483633 := by
  unfold BatchConfig.Fits at hfits
  split_ifs at hfits
  · exact (UInt32.le_iff_toNat_le.mp hfits).trans (by decide)
  · exact UInt32.le_iff_toNat_le.mp hfits

theorem BatchConfig.Fits.of_comt (hcomt : cfg.comt = true) : cfg.batch_size.toNat ≤ 16 := by
  unfold BatchConfig.Fits at hfits
  rw [if_pos hcomt] at hfits
  exact UInt32.le_iff_toNat_le.mp hfits

theorem BatchConfig.Fits.inBounds_batch {i : ℤ} (hnonneg : 0 ≤ i)
    (hlt : i < cfg.batch_size.toNat + 16) : cfg.InBounds (.batch, i) := by
  refine ⟨hnonneg, ?_⟩
  simp only [BatchConfig.allocated, hfits.max_size_eq]
  push_cast
  exact hlt

/-- Where a task is used, the batch is short. -/
theorem BatchConfig.Fits.inBounds_of_comt {array : BatchArray} {i : ℤ} (hcomt : cfg.comt = true)
    (hnonneg : 0 ≤ i) (hlt : i < cfg.batch_size.toNat + 16) : cfg.InBounds (array, i) := by
  have hle := hfits.of_comt hcomt
  cases array with
  | batch => exact hfits.inBounds_batch hnonneg hlt
  | tasks =>
    refine ⟨hnonneg, ?_⟩
    simp only [BatchConfig.allocated, ctxNum, kMaxWcCnt]
    omega
  | ctx =>
    refine ⟨hnonneg, ?_⟩
    simp only [BatchConfig.allocated, ctxNum, kMaxWcCnt]
    omega

theorem BatchConfig.Fits.init_inBounds {access : BatchArray × ℤ}
    (haccess : access ∈ init_accesses cfg) : cfg.InBounds access := by
  unfold init_accesses at haccess
  split_ifs at haccess with hcomt
  · obtain ⟨i, hi, haccess⟩ := List.mem_flatMap.mp haccess
    have hlt := List.mem_range.mp hi
    rw [hfits.max_size_eq] at hlt
    simp only [List.mem_cons, List.not_mem_nil, or_false] at haccess
    rcases haccess with rfl | rfl <;> exact hfits.inBounds_of_comt hcomt (by omega) (by omega)
  · exact absurd haccess List.not_mem_nil

theorem BatchConfig.Fits.apply_inBounds {batch_cnt : ℤ} {round : PollRound}
    (hcnt : batch_cnt ≤ cfg.batch_size.toNat + 16) {access : BatchArray × ℤ}
    (haccess : access ∈ apply_accesses cfg batch_cnt round) : cfg.InBounds access := by
  obtain ⟨i, hi, haccess⟩ := List.mem_flatMap.mp haccess
  have hlt := List.mem_range.mp hi
  rcases List.mem_cons.mp haccess with rfl | haccess
  · exact hfits.inBounds_batch (by omega) (by omega)
  · by_cases hcomt : cfg.comt = true
    · rw [if_pos hcomt] at haccess
      have hi : access.2 = i := by
        rcases List.mem_append.mp haccess with h | h
        · split_ifs at h
          · simp only [List.mem_cons, List.not_mem_nil, or_false] at h
            rcases h with rfl | rfl <;> rfl
          · exact absurd h List.not_mem_nil
        · split_ifs at h
          · rw [List.mem_singleton.mp h]
          · exact absurd h List.not_mem_nil
      obtain ⟨array, j⟩ := access
      obtain rfl : j = i := hi
      exact hfits.inBounds_of_comt hcomt (by omega) (by omega)
    · rw [if_neg hcomt] at haccess
      exact absurd haccess List.not_mem_nil

/-- The main loop, from a counter with which a round can start. -/
theorem BatchConfig.Fits.loop_inBounds {batch_cnt : ℤ} {rounds : List PollRound}
    (hnonneg : 0 ≤ batch_cnt)
    (hcnt : batch_cnt = 0 ∨ (cfg.batch = true ∧ batch_cnt < cfg.batch_size.toNat))
    (hrounds : ∀ round ∈ rounds, round.requests.length ≤ kMaxWcCnt) {access : BatchArray × ℤ}
    (haccess : access ∈ loop_accesses cfg batch_cnt rounds) : cfg.InBounds access := by
  induction rounds generalizing batch_cnt with
  | nil => exact absurd haccess List.not_mem_nil
  | cons round rounds ih =>
    have hlength := hrounds round List.mem_cons_self
    rw [kMaxWcCnt] at hlength
    have hsum : batch_cnt + round.requests.length ≤ 2 ^ 31 ∧
        batch_cnt + round.requests.length ≤ cfg.batch_size.toNat + 16 ∧ batch_cnt < 2 ^ 31 := by
      rcases hcnt with rfl | ⟨hbatch, hlt⟩
      · omega
      · have hle := hfits.batch_size_le hbatch
        omega
    have hcollect := collect_accesses_cnt hnonneg hsum.1 hsum.2.2
    rw [loop_accesses] at haccess
    rcases List.mem_append.mp haccess with haccess | haccess
    · obtain ⟨harray, hle, hlt⟩ := mem_collect_accesses hnonneg hsum.1 haccess
      obtain ⟨array, i⟩ := access
      obtain rfl : array = .batch := harray
      exact hfits.inBounds_batch (by omega) (by omega)
    · split_ifs at haccess with hkeeps
      · -- the round is kept: the counter is still below the batch size
        unfold keeps at hkeeps
        simp only [Bool.and_eq_true, decide_eq_true_eq] at hkeeps
        obtain ⟨⟨hlt, -⟩, hbatch⟩ := hkeeps
        have hle := hfits.batch_size_le hbatch
        rw [hcollect] at hlt haccess
        split_ifs at hlt haccess
        · omega
        · refine ih (by omega) (Or.inr ⟨hbatch, by omega⟩)
            (fun r hr ↦ hrounds r (List.mem_cons_of_mem _ hr)) haccess
      · rcases List.mem_append.mp haccess with haccess | haccess
        · refine hfits.apply_inBounds ?_ haccess
          rw [hcollect]
          split_ifs <;> omega
        · exact ih le_rfl (Or.inl rfl) (fun r hr ↦ hrounds r (List.mem_cons_of_mem _ hr)) haccess

end Fits

/-! ### When they are not -/

/-- A poll of sixteen requests, and one of a single request, that do not set `onpath`. -/
def fullRound : PollRound := ⟨List.replicate 16 false, fun _ ↦ true, false⟩

def singleRound : PollRound := ⟨[false], fun _ ↦ true, false⟩

/-- Polls of one request fill the array as long as the batch size is not reached. -/
theorem loop_accesses_singles {cfg : BatchConfig} (hbatch : cfg.batch = true) {k : ℕ} {c : ℤ}
    (hnonneg : 0 ≤ c) (hlt : c + k < 2 ^ 31 - 1) (hsize : c + k < cfg.batch_size.toNat)
    (rounds : List PollRound) {access : BatchArray × ℤ}
    (haccess : access ∈ loop_accesses cfg (c + k) rounds) :
    access ∈ loop_accesses cfg c (List.replicate k singleRound ++ rounds) := by
  induction k generalizing c with
  | zero => simpa using haccess
  | succ k ih =>
    push_cast at hlt hsize haccess
    have hkeeps : keeps cfg (c + 1) singleRound = true := by
      unfold keeps
      simp only [Bool.and_eq_true, decide_eq_true_eq]
      exact ⟨⟨by omega, rfl⟩, hbatch⟩
    rw [List.replicate_succ, List.cons_append, loop_accesses]
    refine List.mem_append_right _ ?_
    simp only [singleRound, List.length_singleton, collect_accesses] at hkeeps ⊢
    rw [incr_of_lt hnonneg (by omega), if_pos hkeeps]
    refine ih (by omega) (by omega) (by omega) ?_
    rw [add_assoc, add_comm 1 (k : ℤ)]
    exact haccess

/-- There are 32 tasks. -/
theorem not_inBounds_task (cfg : BatchConfig) : ¬ cfg.InBounds (.tasks, 32) := by
  rintro ⟨-, hlt⟩
  simp [BatchConfig.allocated, ctxNum, kMaxWcCnt] at hlt

/-- A full poll uses sixteen entries. -/
theorem full_round_access (cfg : BatchConfig) (hsize : cfg.max_size.toNat ≤ 15) :
    ∃ access ∈ batch_accesses cfg [fullRound], ¬ cfg.InBounds access := by
  have hmem : (BatchArray.batch, (15 : ℤ)) ∈ (collect_accesses 0 16).1 := by decide
  refine ⟨(.batch, 15), List.mem_append_right _ (List.mem_append_left _ hmem), fun h ↦ ?_⟩
  have hlt := h.2
  simp only [BatchConfig.allocated] at hlt
  omega

/-- For other flags some polls lead out of an array. -/
theorem exists_access_of_not_fits {cfg : BatchConfig} (hnot : ¬ cfg.Fits) :
    ∃ rounds, (∀ round ∈ rounds, round.requests.length ≤ kMaxWcCnt) ∧
      ∃ access ∈ batch_accesses cfg rounds, ¬ cfg.InBounds access := by
  have hfull : ∀ round ∈ [fullRound], round.requests.length ≤ kMaxWcCnt := by decide
  have hsize : cfg.max_size.toNat = (cfg.batch_size.toNat + 16) % 2 ^ 32 := UInt32.toNat_add _ _
  have htop := cfg.batch_size.toNat_lt
  by_cases hwrap : 4294967280 ≤ cfg.batch_size.toNat
  · exact ⟨[fullRound], hfull, full_round_access cfg (by omega)⟩
  unfold BatchConfig.Fits at hnot
  split_ifs at hnot with hcomt hbatch
  · -- the loop that starts the tasks runs past their arrays
    rw [UInt32.le_iff_toNat_le] at hnot
    refine ⟨[], by simp, (.tasks, 32), ?_, not_inBounds_task cfg⟩
    refine List.mem_append_left _ ?_
    rw [init_accesses, if_pos hcomt]
    refine List.mem_flatMap.mpr ⟨32, List.mem_range.mpr ?_, List.mem_cons_self⟩
    simp only [UInt32.reduceToNat] at hnot
    omega
  · -- the counter overflows
    rw [UInt32.le_iff_toNat_le] at hnot
    simp only [UInt32.reduceToNat] at hnot
    refine ⟨List.replicate 2147483633 singleRound ++ [fullRound], ?_, (.batch, -2 ^ 31), ?_, ?_⟩
    · intro round hround
      rcases List.mem_append.mp hround with hround | hround
      · rw [List.eq_of_mem_replicate hround]
        decide
      · exact hfull round hround
    · refine List.mem_append_right _ (loop_accesses_singles hbatch le_rfl (by omega) (by omega) _ ?_)
      rw [loop_accesses]
      exact List.mem_append_left _ (by decide +kernel)
    · rintro ⟨hnonneg, -⟩
      exact absurd hnonneg (by decide)
  · rw [UInt32.not_lt, UInt32.le_iff_toNat_le] at hnot
    exact absurd hnot hwrap

/-- All indices stay within the arrays, whatever is polled, for exactly these flags: up to 16
requests a batch with `COMT`, and otherwise batch sizes for which the 32-bit sums and the counter do
not overflow. -/
theorem batch_bounds_iff (cfg : BatchConfig) :
    (∀ rounds : List PollRound, (∀ round ∈ rounds, round.requests.length ≤ kMaxWcCnt) →
      ∀ access ∈ batch_accesses cfg rounds, cfg.InBounds access) ↔ cfg.Fits := by
  constructor
  · intro h
    by_contra hnot
    obtain ⟨rounds, hrounds, access, haccess, hout⟩ := exists_access_of_not_fits hnot
    exact hout (h rounds hrounds access haccess)
  · intro hfits rounds hrounds access haccess
    rcases List.mem_append.mp haccess with haccess | haccess
    · exact hfits.init_inBounds haccess
    · exact hfits.loop_inBounds le_rfl (Or.inl rfl) hrounds haccess

/-- With `COMT` and a batch size of 17, task 32 is started in an array of 32 tasks. -/
theorem batch_bounds_comt_17 :
    ¬ ∀ (cfg : BatchConfig) (rounds : List PollRound),
      (∀ round ∈ rounds, round.requests.length ≤ kMaxWcCnt) →
        ∀ access ∈ batch_accesses cfg rounds, cfg.InBounds access := by
  intro h
  exact absurd (h ⟨true, true, 17⟩ [] (by simp) (.tasks, 32) (by decide)) (by decide)

end SwitchDelta.Kv
