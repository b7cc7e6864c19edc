import Mathlib

/-!
# Latency percentiles

The performance tool of the benchmarks counts the latencies of an epoch in `kLatencyArray` buckets
(`PerfTool.end_copy`) and prints their percentiles (`PerfTool.print_latency_file`). One pass over the
cumulative counts updates the four percentiles; a percentile that is still zero counts as not yet
set. The line of `l_p999` asks whether `l_p99` is set, in place of `l_p999` itself.

So the percentiles are in order, and each is the latency of a bucket among the samples, exactly where
some bucket with a positive latency has a cumulative share above zero and below `0.999`
(`PerfTool.percentiles_iff`). Shares are compared as rational numbers.
-/

set_option autoImplicit false
set_option relaxedAutoImplicit false

namespace SwitchDelta.Perf

/-- Nanoseconds in a microsecond. -/
def kUS : UInt64 := 1000

/-- The number of the buckets. -/
def kLatencyArray : ℕ := 10000

/-- Ten units of a bucket's width are a nanosecond. -/
def ns2unit : UInt64 := 10

/-- The latencies of a `PerfConfig`, in microseconds. The slowest one fits the tool's `uint64_t`s
also in tenths of a nanosecond. -/
structure PerfConfig where
  slowest_latency : UInt64
  fastest_latency : UInt64
  fastest_lt_slowest : fastest_latency.toNat < slowest_latency.toNat
  slowest_lt : slowest_latency.toNat * 10000 < 2 ^ 64

namespace PerfConfig

/-- `kLatencyRange`. -/
def kLatencyRange (config : PerfConfig) : UInt64 :=
  config.slowest_latency - config.fastest_latency

/-- `kLatencyUnit`, by `config_latency`. -/
def kLatencyUnit (config : PerfConfig) : UInt64 :=
  config.kLatencyRange * 10000 / UInt64.ofNat kLatencyArray

/-- The latency of a bucket, as `print_latency_file` computes it. -/
def latency (config : PerfConfig) (i : ℕ) : UInt64 :=
  UInt64.ofNat i * config.kLatencyUnit / ns2unit + config.fastest_latency * kUS

/-- The bucket of a latency, as `get_pos` returns it. -/
def position (config : PerfConfig) (res : UInt64) : UInt64 :=
  (max (config.fastest_latency * kUS) (min res (config.slowest_latency * kUS - 1)) -
    config.fastest_latency * kUS) * ns2unit / config.kLatencyUnit

variable {config : PerfConfig} {i j : ℕ}

/-- A value is moved into an interval. -/
theorem clamp_bounds {low high : UInt64} (hle : low ≤ high) (res : UInt64) :
    low ≤ max low (min res high) ∧ max low (min res high) ≤ high := by
  have hmax (x : UInt64) : max low x = if low ≤ x then x else low := rfl
  have hmin : min res high = if res ≤ high then res else high := rfl
  rw [hmax, hmin]
  split_ifs <;> grind

theorem kLatencyRange_toNat : config.kLatencyRange.toNat =
    config.slowest_latency.toNat - config.fastest_latency.toNat :=
  UInt64.toNat_sub_of_le _ _ (UInt64.le_iff_toNat_le.mpr config.fastest_lt_slowest.le)

theorem kLatencyUnit_toNat : config.kLatencyUnit.toNat =
    config.slowest_latency.toNat - config.fastest_latency.toNat := by
  have hfit := config.slowest_lt
  have hten : (10000 : UInt64).toNat = 10000 := rfl
  have harray : (UInt64.ofNat kLatencyArray).toNat = 10000 := rfl
  have hproduct : (config.slowest_latency.toNat - config.fastest_latency.toNat) * 10000 < 2 ^ 64 :=
    (Nat.mul_le_mul_right _ (Nat.sub_le _ _)).trans_lt hfit
  rw [kLatencyUnit, UInt64.toNat_div, UInt64.toNat_mul, kLatencyRange_toNat, hten, harray,
    Nat.mod_eq_of_lt hproduct]
  exact Nat.mul_div_cancel _ (by norm_num)

/-- A configured latency in nanoseconds. -/
theorem mul_kUS_toNat {us : UInt64} (hus : us.toNat * 10000 < 2 ^ 64) :
    (us * kUS).toNat = us.toNat * 1000 := by
  have hfit : us.toNat * 1000 < 2 ^ 64 := by linarith
  have hthousand : kUS.toNat = 1000 := rfl
  rw [UInt64.toNat_mul, hthousand, Nat.mod_eq_of_lt hfit]

theorem fastest_toNat : (config.fastest_latency * kUS).toNat =
    config.fastest_latency.toNat * 1000 := by
  have hless := config.fastest_lt_slowest
  have hfit := config.slowest_lt
  exact mul_kUS_toNat (by linarith)

theorem slowest_toNat : (config.slowest_latency * kUS - 1).toNat =
    config.slowest_latency.toNat * 1000 - 1 := by
  have hless := config.fastest_lt_slowest
  have hone : (1 : UInt64).toNat = 1 := rfl
  have hslowest := mul_kUS_toNat config.slowest_lt
  rw [UInt64.toNat_sub_of_le, hslowest, hone]
  rw [UInt64.le_iff_toNat_le, hslowest, hone]
  omega

/-- The latency of a bucket does not overflow. -/
theorem latency_toNat (hi : i ≤ kLatencyArray) : (config.latency i).toNat =
    i * (config.slowest_latency.toNat - config.fastest_latency.toNat) / 10 +
      config.fastest_latency.toNat * 1000 := by
  have hless := config.fastest_lt_slowest
  have hfit := config.slowest_lt
  have hten : ns2unit.toNat = 10 := rfl
  have harray : i ≤ 10000 := hi
  have hindex : (UInt64.ofNat i).toNat = i :=
    UInt64.toNat_ofNat_of_lt' (by omega : i < 2 ^ 64)
  have hwidth := Nat.mul_le_mul_right
    (config.slowest_latency.toNat - config.fastest_latency.toNat) harray
  have hproduct : i * (config.slowest_latency.toNat - config.fastest_latency.toNat) < 2 ^ 64 := by
    omega
  have hsum : i * (config.slowest_latency.toNat - config.fastest_latency.toNat) / 10 +
      config.fastest_latency.toNat * 1000 < 2 ^ 64 := by omega
  rw [latency, UInt64.toNat_add, UInt64.toNat_div, UInt64.toNat_mul, hindex, kLatencyUnit_toNat,
    fastest_toNat, hten, Nat.mod_eq_of_lt hproduct, Nat.mod_eq_of_lt hsum]

/-- Later buckets have greater latencies. -/
theorem latency_mono (hij : i ≤ j) (hj : j ≤ kLatencyArray) :
    config.latency i ≤ config.latency j := by
  rw [UInt64.le_iff_toNat_le, latency_toNat (hij.trans hj), latency_toNat hj]
  exact Nat.add_le_add_right (Nat.div_le_div_right (Nat.mul_le_mul_right _ hij)) _

/-- The last bucket has a positive latency. -/
theorem latency_last_ne : config.latency (kLatencyArray - 1) ≠ 0 := by
  intro hzero
  have hvalue := @latency_toNat config (kLatencyArray - 1) (Nat.sub_le _ _)
  have hless := config.fastest_lt_slowest
  have harray : kLatencyArray = 10000 := rfl
  rw [hzero, harray, UInt64.toNat_zero] at hvalue
  omega

/-- A position is a bucket. -/
theorem position_lt (res : UInt64) : (config.position res).toNat < kLatencyArray := by
  have hless := config.fastest_lt_slowest
  have hfit := config.slowest_lt
  have hten : ns2unit.toNat = 10 := rfl
  have harray : kLatencyArray = 10000 := rfl
  have hlow := @fastest_toNat config
  have hhigh := @slowest_toNat config
  set low := config.fastest_latency * kUS
  set high := config.slowest_latency * kUS - 1
  have hle : low ≤ high := UInt64.le_iff_toNat_le.mpr (by omega)
  obtain ⟨hge, hmost⟩ : low ≤ max low (min res high) ∧ max low (min res high) ≤ high :=
    clamp_bounds hle res
  have hmostNat := UInt64.le_iff_toNat_le.mp hmost
  have hproduct : ((max low (min res high)).toNat - low.toNat) * 10 < 2 ^ 64 := by omega
  rw [position, UInt64.toNat_div, UInt64.toNat_mul, UInt64.toNat_sub_of_le _ _ hge,
    kLatencyUnit_toNat, hten, harray, Nat.mod_eq_of_lt hproduct, Nat.div_lt_iff_lt_mul (by omega)]
  omega

end PerfConfig

/-! ### The tool -/

/-- The part of a `PerfTool` that latencies go through. A bucket array may be missing. -/
structure PerfTool where
  config : PerfConfig
  latency_bucket : ℕ → Option (ℕ → UInt64)
  latency_bucket_back : ℕ → ℕ → UInt64
  ans : ℕ → UInt64
  fast : ℕ → UInt64
  last : ℕ → UInt64
  average : ℚ
  l_p50 : UInt64
  l_p90 : UInt64
  l_p99 : UInt64
  l_p999 : UInt64

namespace PerfTool

/-- `get_pos`, which also keeps the fastest and the slowest latency. -/
def get_pos (tool : PerfTool) (type_id : ℕ) (res : UInt64) : PerfTool × UInt64 :=
  let fast := if res < tool.fast type_id then res else tool.fast type_id
  let last := if tool.last type_id < res then res else tool.last type_id
  ({ tool with
      fast := Function.update tool.fast type_id fast
      last := Function.update tool.last type_id last }, tool.config.position res)

/-- `end_copy` on the thread that measures, for tools with one phase. -/
def end_copy (tool : PerfTool) (type_id : ℕ) (res : UInt64) : PerfTool :=
  let (tool, pos) := tool.get_pos type_id res
  { tool with
    latency_bucket := Function.update tool.latency_bucket type_id
      ((tool.latency_bucket type_id).map fun bucket ↦
        Function.update bucket pos.toNat (bucket pos.toNat + 1)) }

/-- One step of the first loop of `print_latency_file`: what a bucket counted since the last epoch
is added up. -/
def collect (type_id : ℕ) (bucket : ℕ → UInt64) (tool : PerfTool) (i : ℕ) : PerfTool :=
  let tmp := bucket i
  let fresh := tmp - tool.latency_bucket_back type_id i
  let ans := Function.update tool.ans i (tool.ans i + fresh)
  { tool with
    average := tool.average + (fresh * UInt64.ofNat i).toNat
    ans := Function.update ans (i + 1) (ans i)
    latency_bucket_back := Function.update tool.latency_bucket_back type_id
      (Function.update (tool.latency_bucket_back type_id) i tmp) }

/-- The cumulative share of a bucket. -/
def share (tool : PerfTool) (i : ℕ) : ℚ := (tool.ans i).toNat / (tool.ans kLatencyArray).toNat

/-- One step of the second loop of `print_latency_file`. -/
def percentile (tool : PerfTool) (i : ℕ) : PerfTool :=
  if tool.ans i = 0 then tool
  else
    let latency := tool.config.latency i
    let share := tool.share i
    let l_p50 := if share < 1 / 2 ∨ tool.l_p50 = 0 then latency else tool.l_p50
    let l_p90 := if share < 9 / 10 ∨ tool.l_p90 = 0 then latency else tool.l_p90
    let l_p99 := if share < 99 / 100 ∨ tool.l_p99 = 0 then latency else tool.l_p99
    -- the source tests `l_p99` here, which is already the new one
    let l_p999 := if share < 999 / 1000 ∨ l_p99 = 0 then latency else tool.l_p999
    { tool with l_p50 := l_p50, l_p90 := l_p90, l_p99 := l_p99, l_p999 := l_p999 }

/-- What `print_latency_file` computes between its loops: the average, and no percentile yet. -/
def unset (tool : PerfTool) : PerfTool :=
  let total := tool.ans kLatencyArray
  let average := if total = 0 then 0 else
    tool.average / total.toNat * tool.config.kLatencyUnit.toNat / ns2unit.toNat +
      (tool.config.fastest_latency * kUS).toNat
  { tool with average := average, l_p50 := 0, l_p90 := 0, l_p99 := 0, l_p999 := 0 }

/-- `print_latency_file`, which exits where the bucket array is missing. -/
def print_latency_file (tool : PerfTool) (type_id : ℕ) : Option PerfTool :=
  match tool.latency_bucket type_id with
  | none => none
  | some bucket =>
    let collected := (List.range kLatencyArray).foldl (collect type_id bucket)
      { tool with ans := Function.update tool.ans 0 0, average := 0 }
    some ((List.range kLatencyArray).foldl percentile collected.unset)

/-- What a bucket counted since the last epoch. -/
def fresh (tool : PerfTool) (type_id i : ℕ) : UInt64 :=
  match tool.latency_bucket type_id with
  | none => 0
  | some bucket => bucket i - tool.latency_bucket_back type_id i

/-- The samples of an epoch in the first buckets. -/
def cumulative (tool : PerfTool) (type_id n : ℕ) : ℕ :=
  ∑ i ∈ Finset.range n, (tool.fresh type_id i).toNat

/-- A percentile is the latency of a bucket between the first and the last bucket with samples. -/
def Bracketed (tool : PerfTool) (type_id : ℕ) (percentile : UInt64) : Prop :=
  ∃ first pos last, first ≤ pos ∧ pos ≤ last ∧ last < kLatencyArray ∧
    tool.fresh type_id first ≠ 0 ∧ tool.fresh type_id last ≠ 0 ∧
      percentile = tool.config.latency pos

/-! ### A pass that takes zero for unset -/

section

variable {live below : ℕ → Prop} {L : ℕ → UInt64} {n : ℕ} {x y : UInt64}

/-- A percentile after the first buckets: it is the latency of the last live bucket below the
threshold, or of the first live one with a positive latency. -/
structure Reached (live below : ℕ → Prop) (L : ℕ → UInt64) (n : ℕ) (x : UInt64) : Prop where
  unset : x = 0 → ∀ i < n, live i → L i = 0
  set : x ≠ 0 → ∃ a < n, live a ∧ x = L a ∧ (∀ i < n, live i → below i → i ≤ a) ∧
    (below a ∨ ∀ i < a, live i → L i = 0)

/-- The percentile whose line asks for another one: it is the latency of the last live bucket below
the threshold, or zero if no such bucket has a positive latency. -/
def Missed (live below : ℕ → Prop) (L : ℕ → UInt64) (n : ℕ) (y : UInt64) : Prop :=
  (∃ a < n, live a ∧ below a ∧ y = L a ∧ ∀ i < n, live i → below i → i ≤ a) ∨
    y = 0 ∧ ∀ i < n, live i → below i → L i = 0

theorem Reached.zero (hx : x = 0) : Reached live below L 0 x :=
  ⟨fun _ i hi ↦ absurd hi (Nat.not_lt_zero i), fun hne ↦ absurd hx hne⟩

theorem Reached.skip (h : Reached live below L n x) (hlive : ¬live n) :
    Reached live below L (n + 1) x := by
  have hbefore {i : ℕ} (hi : i < n + 1) (hi' : live i) : i < n :=
    (Nat.lt_succ_iff_lt_or_eq.mp hi).resolve_right fun heq ↦ hlive (heq ▸ hi')
  refine ⟨fun hzero i hi hi' ↦ h.unset hzero i (hbefore hi hi') hi', fun hne ↦ ?_⟩
  obtain ⟨a, ha, hlast⟩ := h.set hne
  exact ⟨a, ha.trans (Nat.lt_succ_self n), hlast.1, hlast.2.1,
    fun i hi hi' ↦ hlast.2.2.1 i (hbefore hi hi') hi', hlast.2.2.2⟩

theorem Reached.step [DecidablePred below] (h : Reached live below L n x) (hlive : live n)
    (hmono : ∀ i < n, L i ≤ L n) :
    Reached live below L (n + 1) (if below n ∨ x = 0 then L n else x) := by
  split_ifs with htaken
  · constructor
    · intro hzero i hi _
      rcases Nat.lt_succ_iff_lt_or_eq.mp hi with hless | rfl
      · have hle := UInt64.le_iff_toNat_le.mp (hmono i hless)
        rw [hzero, UInt64.toNat_zero, Nat.le_zero] at hle
        exact UInt64.toNat_inj.mp hle
      · exact hzero
    · intro _
      exact ⟨n, Nat.lt_succ_self n, hlive, rfl, fun i hi _ _ ↦ Nat.le_of_lt_succ hi,
        htaken.imp_right h.unset⟩
  · rw [not_or] at htaken
    refine ⟨fun hzero ↦ absurd hzero htaken.2, fun hne ↦ ?_⟩
    obtain ⟨a, ha, halive, hvalue, hlast, hfirst⟩ := h.set hne
    refine ⟨a, ha.trans (Nat.lt_succ_self n), halive, hvalue, fun i hi hi' hbelow ↦ ?_, hfirst⟩
    rcases Nat.lt_succ_iff_lt_or_eq.mp hi with hless | rfl
    · exact hlast i hless hi' hbelow
    · exact absurd hbelow htaken.1

theorem Missed.zero (hy : y = 0) : Missed live below L 0 y :=
  Or.inr ⟨hy, fun i hi ↦ absurd hi (Nat.not_lt_zero i)⟩

theorem Missed.keep (h : Missed live below L n y) (hother : ¬(live n ∧ below n)) :
    Missed live below L (n + 1) y := by
  have hbefore {i : ℕ} (hi : i < n + 1) (hi' : live i) (hbelow : below i) : i < n :=
    (Nat.lt_succ_iff_lt_or_eq.mp hi).resolve_right fun heq ↦ hother (heq ▸ ⟨hi', hbelow⟩)
  rcases h with ⟨a, ha, halive, habelow, hvalue, hlast⟩ | ⟨hzero, hall⟩
  · exact Or.inl ⟨a, ha.trans (Nat.lt_succ_self n), halive, habelow, hvalue,
      fun i hi hi' hbelow ↦ hlast i (hbefore hi hi' hbelow) hi' hbelow⟩
  · exact Or.inr ⟨hzero, fun i hi hi' hbelow ↦ hall i (hbefore hi hi' hbelow) hi' hbelow⟩

theorem Missed.step {below' : ℕ → Prop} [DecidablePred below] (h : Missed live below L n y)
    (hother : Reached live below' L (n + 1) x) (hlive : live n) :
    Missed live below L (n + 1) (if below n ∨ x = 0 then L n else y) := by
  by_cases hbelow : below n
  · rw [if_pos (Or.inl hbelow)]
    exact Or.inl ⟨n, Nat.lt_succ_self n, hlive, hbelow, rfl, fun i hi _ _ ↦ Nat.le_of_lt_succ hi⟩
  · by_cases hzero : x = 0
    · rw [if_pos (Or.inr hzero)]
      have hall := hother.unset hzero
      exact Or.inr ⟨hall n (Nat.lt_succ_self n) hlive, fun i hi hi' _ ↦ hall i hi hi'⟩
    · rw [if_neg (not_or.mpr ⟨hbelow, hzero⟩)]
      exact h.keep fun hboth ↦ hbelow hboth.2

variable {below' : ℕ → Prop}

/-- Two percentiles are in the order of their thresholds. -/
theorem Reached.le {x' : UInt64} (h : Reached live below L n x) (h' : Reached live below' L n x')
    (hsub : ∀ i, below i → below' i) (hmono : ∀ i j, i ≤ j → j < n → L i ≤ L j) (hne : x' ≠ 0) :
    x ≤ x' := by
  by_cases hzero : x = 0
  · rw [hzero, UInt64.le_iff_toNat_le]
    exact Nat.zero_le _
  · obtain ⟨a, ha, halive, rfl, -, hfirst⟩ := h.set hzero
    obtain ⟨b, hb, hblive, rfl, hlast, -⟩ := h'.set hne
    refine hmono a b (hfirst.elim (fun hbelow ↦ hlast a ha halive (hsub a hbelow)) fun hall ↦ ?_) hb
    by_contra hless
    exact hne (hall b (Nat.lt_of_not_le hless) hblive)

/-- The bucket of a percentile is no later than that of the one whose line asks for another. -/
theorem Reached.exists_le (h : Reached live below L n x) (hsub : ∀ i, below i → below' i) {b i : ℕ}
    (hlast : ∀ i < n, live i → below' i → i ≤ b) (hi : i < n) (hlive : live i) (hbelow : below' i)
    (hne : L i ≠ 0) : x ≠ 0 ∧ ∃ a ≤ b, live a ∧ x = L a := by
  have hset : x ≠ 0 := fun hzero ↦ hne (h.unset hzero i hi hlive)
  obtain ⟨a, ha, halive, hvalue, -, hfirst⟩ := h.set hset
  refine ⟨hset, a, hfirst.elim (fun hbelow ↦ hlast a ha halive (hsub a hbelow)) fun hall ↦ ?_,
    halive, hvalue⟩
  by_contra hless
  have hle := hlast i hi hlive hbelow
  exact hne (hall i (by omega) hlive)

/-- Where a live bucket below the threshold has a positive latency, the line that asks for another
percentile is exact. -/
theorem Missed.exists_last (h : Missed live below L n y) {i : ℕ} (hi : i < n) (hlive : live i)
    (hbelow : below i) (hne : L i ≠ 0) :
    ∃ b < n, live b ∧ below b ∧ y = L b ∧ ∀ i < n, live i → below i → i ≤ b :=
  h.resolve_right fun hzero ↦ hne (hzero.2 i hi hlive hbelow)

/-- Otherwise it stays zero. -/
theorem Missed.eq_zero (h : Missed live below L n y)
    (hall : ∀ i < n, live i → below i → L i = 0) : y = 0 := by
  rcases h with ⟨a, ha, halive, habelow, hvalue, -⟩ | ⟨hzero, -⟩
  · exact hvalue.trans (hall a ha halive habelow)
  · exact hzero

end

/-! ### The two loops -/

variable {tool start : PerfTool} {type_id n i : ℕ} {bucket : ℕ → UInt64}

theorem cumulative_succ : tool.cumulative type_id (n + 1) =
    tool.cumulative type_id n + (tool.fresh type_id n).toNat := by
  rw [cumulative, Finset.sum_range_succ]
  rfl

theorem cumulative_mono {m : ℕ} (hmn : m ≤ n) :
    tool.cumulative type_id m ≤ tool.cumulative type_id n :=
  Finset.sum_le_sum_of_subset (Finset.range_mono hmn)

/-- Some bucket among the first ones has samples. -/
theorem exists_first (h : tool.cumulative type_id (n + 1) ≠ 0) :
    ∃ first ≤ n, tool.fresh type_id first ≠ 0 := by
  obtain ⟨first, hmem, hne⟩ := Finset.exists_ne_zero_of_sum_ne_zero h
  refine ⟨first, Nat.le_of_lt_succ (Finset.mem_range.mp hmem), fun hzero ↦ hne ?_⟩
  rw [hzero, UInt64.toNat_zero]

/-- Some bucket after the first ones has samples. -/
theorem exists_last {m : ℕ} (hmn : m ≤ n)
    (h : tool.cumulative type_id m < tool.cumulative type_id n) :
    ∃ last, m ≤ last ∧ last < n ∧ tool.fresh type_id last ≠ 0 := by
  by_contra hnone
  push Not at hnone
  refine h.ne (Finset.sum_subset (Finset.range_mono hmn) fun last hmem hnot ↦ ?_)
  rw [hnone last (by simpa using hnot) (Finset.mem_range.mp hmem), UInt64.toNat_zero]

/-- The tool after some steps of the first loop. -/
structure Collected (start : PerfTool) (type_id : ℕ) (bucket : ℕ → UInt64) (n : ℕ)
    (tool : PerfTool) : Prop where
  config : tool.config = start.config
  latency_bucket : tool.latency_bucket = start.latency_bucket
  back : ∀ i, tool.latency_bucket_back type_id i =
    if i < n then bucket i else start.latency_bucket_back type_id i
  ans : ∀ i ≤ n, (tool.ans i).toNat = start.cumulative type_id (min (i + 1) n) % 2 ^ 64

theorem Collected.step (h : Collected start type_id bucket n tool)
    (hbucket : start.latency_bucket type_id = some bucket) :
    Collected start type_id bucket (n + 1) (collect type_id bucket tool n) where
  config := h.config
  latency_bucket := h.latency_bucket
  back i := by
    dsimp only [collect]
    rw [Function.update_self]
    by_cases heq : i = n
    · rw [heq, Function.update_self, if_pos (Nat.lt_succ_self n)]
    · rw [Function.update_of_ne heq, h.back]
      exact if_congr (by omega) rfl rfl
  ans := by
    have hfresh : bucket n - tool.latency_bucket_back type_id n = start.fresh type_id n := by
      rw [fresh, hbucket, h.back, if_neg (Nat.lt_irrefl n)]
    have hsum : (tool.ans n + start.fresh type_id n).toNat =
        start.cumulative type_id (n + 1) % 2 ^ 64 := by
      rw [UInt64.toNat_add, h.ans n le_rfl, cumulative_succ, min_eq_right (Nat.le_succ n),
        Nat.mod_add_mod]
    intro i hi
    dsimp only [collect]
    rw [hfresh]
    by_cases hlast : i = n + 1
    · rw [hlast, Function.update_self, Function.update_self, hsum,
        min_eq_right (Nat.le_succ (n + 1))]
    · rw [Function.update_of_ne hlast]
      by_cases heq : i = n
      · rw [heq, Function.update_self, hsum, min_self]
      · have hmin : min (i + 1) (n + 1) = min (i + 1) n := by omega
        rw [Function.update_of_ne heq, h.ans i (by omega), hmin]

theorem collected (hzero : start.ans 0 = 0)
    (hbucket : start.latency_bucket type_id = some bucket) (n : ℕ) :
    Collected start type_id bucket n ((List.range n).foldl (collect type_id bucket) start) := by
  induction n with
  | zero =>
    refine ⟨rfl, rfl, fun i ↦ (if_neg (Nat.not_lt_zero i)).symm, fun i hi ↦ ?_⟩
    rw [Nat.le_zero.mp hi, min_eq_right (Nat.zero_le _)]
    exact congrArg UInt64.toNat hzero
  | succ n ih =>
    rw [List.range_succ, List.foldl_append]
    exact ih.step hbucket

/-- The tool after some steps of the second loop. -/
structure Scanned (start : PerfTool) (n : ℕ) (tool : PerfTool) : Prop where
  config : tool.config = start.config
  ans : tool.ans = start.ans
  latency_bucket : tool.latency_bucket = start.latency_bucket
  latency_bucket_back : tool.latency_bucket_back = start.latency_bucket_back
  p50 : Reached (start.ans · ≠ 0) (start.share · < 1 / 2) start.config.latency n tool.l_p50
  p90 : Reached (start.ans · ≠ 0) (start.share · < 9 / 10) start.config.latency n tool.l_p90
  p99 : Reached (start.ans · ≠ 0) (start.share · < 99 / 100) start.config.latency n tool.l_p99
  p999 : Missed (start.ans · ≠ 0) (start.share · < 999 / 1000) start.config.latency n tool.l_p999

theorem Scanned.step (h : Scanned start n tool) (hn : n < kLatencyArray) :
    Scanned start (n + 1) (tool.percentile n) := by
  have hmono : ∀ i < n, start.config.latency i ≤ start.config.latency n := fun i hi ↦
    PerfConfig.latency_mono hi.le hn.le
  have hshare : tool.share n = start.share n := by
    rw [share, share, h.ans]
  unfold percentile
  rw [h.ans, h.config, hshare]
  by_cases hlive : start.ans n = 0
  · rw [if_pos hlive]
    have hskip : ¬start.ans n ≠ 0 := not_not_intro hlive
    exact ⟨h.config, h.ans, h.latency_bucket, h.latency_bucket_back, h.p50.skip hskip,
      h.p90.skip hskip, h.p99.skip hskip, h.p999.keep fun hboth ↦ hskip hboth.1⟩
  · rw [if_neg hlive]
    have hp99 := h.p99.step hlive hmono
    exact ⟨rfl, rfl, h.latency_bucket, h.latency_bucket_back, h.p50.step hlive hmono,
      h.p90.step hlive hmono, hp99, h.p999.step hp99 hlive⟩

theorem scanned (hstart : start.l_p50 = 0 ∧ start.l_p90 = 0 ∧ start.l_p99 = 0 ∧ start.l_p999 = 0)
    (hn : n ≤ kLatencyArray) : Scanned start n ((List.range n).foldl percentile start) := by
  induction n with
  | zero =>
    obtain ⟨h50, h90, h99, h999⟩ := hstart
    exact ⟨rfl, rfl, rfl, rfl, Reached.zero h50, Reached.zero h90, Reached.zero h99,
      Missed.zero h999⟩
  | succ n ih =>
    rw [List.range_succ, List.foldl_append]
    exact (ih (by omega)).step (by omega)

/-! ### An epoch -/

/-- A sample is counted in its bucket. -/
theorem fresh_end_copy (hbucket : tool.latency_bucket type_id = some bucket) (res : UInt64) :
    (tool.end_copy type_id res).fresh type_id i =
      tool.fresh type_id i + if (tool.config.position res).toNat = i then 1 else 0 := by
  unfold fresh end_copy
  dsimp only [get_pos]
  rw [Function.update_self, hbucket, Option.map_some]
  dsimp only
  split_ifs with heq
  · rw [heq, Function.update_self, sub_add_eq_add_sub]
  · rw [Function.update_of_ne (Ne.symm heq), add_zero]

theorem end_copy_bucket (hbucket : tool.latency_bucket type_id = some bucket) (res : UInt64) :
    ∃ bucket', (tool.end_copy type_id res).latency_bucket type_id = some bucket' := by
  unfold end_copy
  dsimp only [get_pos]
  rw [Function.update_self, hbucket]
  exact ⟨_, rfl⟩

/-- The samples of an epoch are counted in their buckets. -/
theorem fresh_epoch (hbucket : tool.latency_bucket type_id = some bucket)
    (samples : List UInt64) :
    (samples.foldl (fun tool res ↦ tool.end_copy type_id res) tool).fresh type_id i =
      tool.fresh type_id i +
        UInt64.ofNat (samples.countP fun res ↦ (tool.config.position res).toNat = i) := by
  induction samples generalizing tool bucket with
  | nil => exact (add_zero _).symm
  | cons res samples ih =>
    obtain ⟨bucket', hbucket'⟩ := end_copy_bucket hbucket res
    have hconfig : (tool.end_copy type_id res).config = tool.config := rfl
    rw [List.foldl_cons, ih hbucket', fresh_end_copy hbucket, hconfig, List.countP_cons,
      UInt64.ofNat_add, add_assoc]
    congr 1
    rw [add_comm]
    by_cases heq : (tool.config.position res).toNat = i <;> simp [heq]

/-- The samples of an epoch that begins with nothing to count, by the buckets up to one. -/
theorem cumulative_epoch (hbucket : tool.latency_bucket type_id = some bucket)
    (hnothing : ∀ i < kLatencyArray, tool.fresh type_id i = 0) {samples : List UInt64}
    (hfit : samples.length < 2 ^ 64) (hn : n ≤ kLatencyArray) :
    (samples.foldl (fun tool res ↦ tool.end_copy type_id res) tool).cumulative type_id n =
      samples.countP fun res ↦ (tool.config.position res).toNat < n := by
  induction n with
  | zero => exact (List.countP_eq_zero.mpr fun res _ ↦ by simp).symm
  | succ n ih =>
    have hcount : samples.countP (fun res ↦ (tool.config.position res).toNat = n) < 2 ^ 64 :=
      List.countP_le_length.trans_lt hfit
    rw [cumulative_succ, ih (by omega), fresh_epoch hbucket, hnothing n (by omega), zero_add,
      UInt64.toNat_ofNat_of_lt' hcount]
    clear ih hcount hfit
    induction samples with
    | nil => rfl
    | cons res samples ih =>
      simp only [List.countP_cons, decide_eq_true_eq]
      split_ifs <;> omega

/-- Every sample of an epoch is counted. -/
theorem cumulative_epoch_all (hbucket : tool.latency_bucket type_id = some bucket)
    (hnothing : ∀ i < kLatencyArray, tool.fresh type_id i = 0) {samples : List UInt64}
    (hfit : samples.length < 2 ^ 64) :
    (samples.foldl (fun tool res ↦ tool.end_copy type_id res) tool).cumulative type_id
      kLatencyArray = samples.length := by
  rw [cumulative_epoch hbucket hnothing hfit le_rfl, List.countP_eq_length]
  exact fun res _ ↦ decide_eq_true (PerfConfig.position_lt res)

/-! ### A printed line -/

/-- The percentiles are in order, and each is among the samples. -/
structure Correct (tool : PerfTool) (type_id : ℕ) (printed : PerfTool) : Prop where
  p50_le : printed.l_p50 ≤ printed.l_p90
  p90_le : printed.l_p90 ≤ printed.l_p99
  p99_le : printed.l_p99 ≤ printed.l_p999
  p50 : tool.Bracketed type_id printed.l_p50
  p90 : tool.Bracketed type_id printed.l_p90
  p99 : tool.Bracketed type_id printed.l_p99
  p999 : tool.Bracketed type_id printed.l_p999

/-- The cumulative counts between the two loops. -/
structure Counted (tool : PerfTool) (type_id : ℕ) (start : PerfTool) : Prop where
  config : start.config = tool.config
  fresh : ∀ i < kLatencyArray, start.fresh type_id i = 0
  ans : ∀ i < kLatencyArray, (start.ans i).toNat = tool.cumulative type_id (i + 1)
  total : (start.ans kLatencyArray).toNat = tool.cumulative type_id kLatencyArray

theorem Collected.unset (h : Collected start type_id bucket n tool) :
    Collected start type_id bucket n tool.unset :=
  ⟨h.config, h.latency_bucket, h.back, h.ans⟩

/-- The second loop begins with what the first one left, and with no percentile set. -/
theorem print_eq (hbucket : tool.latency_bucket type_id = some bucket) : ∃ start,
    tool.print_latency_file type_id =
        some ((List.range kLatencyArray).foldl percentile start) ∧
      (start.l_p50 = 0 ∧ start.l_p90 = 0 ∧ start.l_p99 = 0 ∧ start.l_p999 = 0) ∧
      Collected { tool with ans := Function.update tool.ans 0 0, average := 0 } type_id bucket
        kLatencyArray start := by
  have hcollected := @collected { tool with ans := Function.update tool.ans 0 0, average := 0 }
    type_id bucket (Function.update_self 0 0 tool.ans) hbucket kLatencyArray
  refine ⟨_, ?_, ⟨rfl, rfl, rfl, rfl⟩, hcollected.unset⟩
  unfold print_latency_file
  rw [hbucket]

/-- A line is printed from the cumulative counts. -/
theorem print_of_fit (hpos : 0 < tool.cumulative type_id kLatencyArray)
    (hfit : tool.cumulative type_id kLatencyArray < 2 ^ 64) :
    ∃ start printed, tool.print_latency_file type_id = some printed ∧
      Counted tool type_id start ∧ Scanned start kLatencyArray printed := by
  obtain hnone | ⟨bucket, hbucket⟩ := (tool.latency_bucket type_id).eq_none_or_eq_some
  · refine absurd hpos (Nat.not_lt.mpr (Finset.sum_nonpos fun i _ ↦ ?_))
    rw [fresh, hnone]
    exact Nat.zero_le 0
  · obtain ⟨start, hprint, hunset, hcollected⟩ := print_eq hbucket
    have hans (i : ℕ) (hi : i ≤ kLatencyArray) :
        (start.ans i).toNat = tool.cumulative type_id (min (i + 1) kLatencyArray) :=
      (hcollected.ans i hi).trans
        (Nat.mod_eq_of_lt ((cumulative_mono (min_le_right _ _)).trans_lt hfit))
    refine ⟨start, _, hprint, ⟨hcollected.config, fun i hi ↦ ?_, fun i hi ↦ ?_, ?_⟩,
      scanned hunset le_rfl⟩
    · have hback := hcollected.back i
      rw [if_pos hi] at hback
      rw [fresh, hcollected.latency_bucket, hback]
      dsimp only
      rw [hbucket]
      exact sub_self _
    · rw [hans i hi.le, min_eq_left hi]
    · rw [hans kLatencyArray le_rfl, min_eq_right (Nat.le_succ _)]

/-- After a line is printed nothing is left to count: the next epoch begins. -/
theorem Scanned.fresh {printed : PerfTool} (h : Scanned start kLatencyArray printed)
    (hcounted : Counted tool type_id start) (hi : i < kLatencyArray) :
    printed.fresh type_id i = 0 := by
  have hzero := hcounted.fresh i hi
  rw [PerfTool.fresh] at hzero ⊢
  rw [h.latency_bucket, h.latency_bucket_back]
  exact hzero

/-- The shares, as counts. -/
theorem Counted.share_lt_iff (h : Counted tool type_id start) (hi : i < kLatencyArray)
    (hpos : 0 < tool.cumulative type_id kLatencyArray) : start.share i < 999 / 1000 ↔
      1000 * tool.cumulative type_id (i + 1) < 999 * tool.cumulative type_id kLatencyArray := by
  rw [share, h.ans i hi, h.total, div_lt_div_iff₀ (Nat.cast_pos.mpr hpos) (by norm_num)]
  constructor
  · intro hless
    exact_mod_cast (by linarith : (1000 * tool.cumulative type_id (i + 1) : ℚ) <
      999 * tool.cumulative type_id kLatencyArray)
  · intro hless
    have hcast : (1000 * tool.cumulative type_id (i + 1) : ℚ) <
      999 * tool.cumulative type_id kLatencyArray := by exact_mod_cast hless
    linarith

theorem Counted.live_iff (h : Counted tool type_id start) (hi : i < kLatencyArray) :
    start.ans i ≠ 0 ↔ 0 < tool.cumulative type_id (i + 1) := by
  rw [← h.ans i hi, Nat.pos_iff_ne_zero, ne_eq, ne_eq, ← UInt64.toNat_inj, UInt64.toNat_zero]

/-- A bucket with samples up to it, no later than one that does not have all of them before it. -/
theorem Counted.bracketed {a b : ℕ} {x : UInt64} (h : Counted tool type_id start) (hab : a ≤ b)
    (hb : b < kLatencyArray) (hlive : start.ans a ≠ 0) (hbelow : start.share b < 999 / 1000)
    (hpos : 0 < tool.cumulative type_id kLatencyArray) (hx : x = start.config.latency a) :
    tool.Bracketed type_id x := by
  have hcount := (h.live_iff (hab.trans_lt hb)).mp hlive
  have hrest := (h.share_lt_iff hb hpos).mp hbelow
  obtain ⟨first, hfirst, hfresh⟩ := exists_first hcount.ne'
  obtain ⟨last, hlast, hrange, hfresh'⟩ := @exists_last tool type_id kLatencyArray (b + 1) hb
    (by omega)
  exact ⟨first, a, last, hfirst, by omega, hrange, hfresh, hfresh', h.config ▸ hx⟩

/-- The thresholds in order. -/
theorem below_trans {i : ℕ} {r r' : ℚ} (hle : r ≤ r') (h : start.share i < r) :
    start.share i < r' :=
  h.trans_le hle

/-- A bucket with a positive latency and a cumulative share between zero and `0.999` puts the
percentiles in order. -/
theorem Scanned.correct {printed : PerfTool} (h : Scanned start kLatencyArray printed)
    (hcounted : Counted tool type_id start)
    (hpos : 0 < tool.cumulative type_id kLatencyArray) (hi : i < kLatencyArray)
    (hlive : start.ans i ≠ 0) (hbelow : start.share i < 999 / 1000)
    (hne : start.config.latency i ≠ 0) : tool.Correct type_id printed := by
  have hmono : ∀ i j, i ≤ j → j < kLatencyArray →
      start.config.latency i ≤ start.config.latency j := fun i j hij hj ↦
    PerfConfig.latency_mono hij hj.le
  obtain ⟨b, hb, hblive, hbbelow, hvalue, hlast⟩ := h.p999.exists_last hi hlive hbelow hne
  -- the bucket of each other percentile is no later than that of `l_p999`
  obtain ⟨h50, a50, ha50, hlive50, hvalue50⟩ := h.p50.exists_le
    (fun i ↦ below_trans (by norm_num)) hlast hi hlive hbelow hne
  obtain ⟨h90, a90, ha90, hlive90, hvalue90⟩ := h.p90.exists_le
    (fun i ↦ below_trans (by norm_num)) hlast hi hlive hbelow hne
  obtain ⟨h99, a99, ha99, hlive99, hvalue99⟩ := h.p99.exists_le
    (fun i ↦ below_trans (by norm_num)) hlast hi hlive hbelow hne
  exact {
    p50_le := h.p50.le h.p90 (fun i ↦ below_trans (by norm_num)) hmono h90
    p90_le := h.p90.le h.p99 (fun i ↦ below_trans (by norm_num)) hmono h99
    p99_le := by
      rw [hvalue99, hvalue]
      exact hmono a99 b ha99 hb
    p50 := hcounted.bracketed ha50 hb hlive50 hbbelow hpos hvalue50
    p90 := hcounted.bracketed ha90 hb hlive90 hbbelow hpos hvalue90
    p99 := hcounted.bracketed ha99 hb hlive99 hbbelow hpos hvalue99
    p999 := hcounted.bracketed le_rfl hb hblive hbbelow hpos hvalue }

/-- Where no such bucket is there, `l_p999` stays zero and `l_p99` does not. -/
theorem Scanned.not_le {printed : PerfTool} (h : Scanned start kLatencyArray printed)
    (hcounted : Counted tool type_id start)
    (hpos : 0 < tool.cumulative type_id kLatencyArray)
    (hall : ∀ i < kLatencyArray, start.ans i ≠ 0 → start.share i < 999 / 1000 →
      start.config.latency i = 0) : ¬printed.l_p99 ≤ printed.l_p999 := by
  have hlast : kLatencyArray - 1 < kLatencyArray := by decide
  have hlive : start.ans (kLatencyArray - 1) ≠ 0 := (hcounted.live_iff hlast).mpr hpos
  have hset : printed.l_p99 ≠ 0 := fun hzero ↦
    PerfConfig.latency_last_ne (h.p99.unset hzero _ hlast hlive)
  rw [h.p999.eq_zero hall, UInt64.le_iff_toNat_le, UInt64.toNat_zero, Nat.le_zero]
  exact fun hzero ↦ hset (UInt64.toNat_inj.mp hzero)

/-- The printed percentiles are in order and among the samples exactly where some bucket with a
positive latency has a cumulative count above zero and below `0.999` of the samples. -/
theorem percentiles_iff (hpos : 0 < tool.cumulative type_id kLatencyArray)
    (hfit : tool.cumulative type_id kLatencyArray < 2 ^ 64) :
    (∃ printed, tool.print_latency_file type_id = some printed ∧ tool.Correct type_id printed) ↔
      ∃ i < kLatencyArray, tool.config.latency i ≠ 0 ∧ 0 < tool.cumulative type_id (i + 1) ∧
        1000 * tool.cumulative type_id (i + 1) < 999 * tool.cumulative type_id kLatencyArray := by
  obtain ⟨start, printed, hprint, hcounted, hscanned⟩ := print_of_fit hpos hfit
  constructor
  · rintro ⟨printed', hprint', hcorrect⟩
    obtain rfl := Option.some.inj (hprint.symm.trans hprint')
    by_contra hnone
    refine hscanned.not_le hcounted hpos (fun i hi hlive hbelow ↦ ?_) hcorrect.p99_le
    by_contra hne
    exact hnone ⟨i, hi, hcounted.config ▸ hne, (hcounted.live_iff hi).mp hlive,
      (hcounted.share_lt_iff hi hpos).mp hbelow⟩
  · rintro ⟨i, hi, hne, hlive, hbelow⟩
    exact ⟨printed, hprint, hscanned.correct hcounted hpos hi ((hcounted.live_iff hi).mpr hlive)
      ((hcounted.share_lt_iff hi hpos).mpr hbelow) (hcounted.config ▸ hne)⟩

/-- A tool for latencies of up to 200 microseconds that has counted nothing. -/
def idle : PerfTool where
  config := ⟨200, 0, by decide, by decide⟩
  latency_bucket := fun _ ↦ some fun _ ↦ 0
  latency_bucket_back := fun _ _ ↦ 0
  ans := fun _ ↦ 0
  fast := fun _ ↦ 0
  last := fun _ ↦ 0
  average := 0
  l_p50 := 0
  l_p90 := 0
  l_p99 := 0
  l_p999 := 0

/-- An epoch of the idle tool. -/
def epoch (samples : List UInt64) : PerfTool :=
  samples.foldl (fun tool res ↦ tool.end_copy 0 res) idle

theorem fresh_idle (i : ℕ) (_ : i < kLatencyArray) : idle.fresh 0 i = 0 :=
  sub_self 0

theorem cumulative_idle {samples : List UInt64} (hfit : samples.length < 2 ^ 64)
    (hn : n ≤ kLatencyArray) : (epoch samples).cumulative 0 n =
      samples.countP fun res ↦ (idle.config.position res).toNat < n :=
  cumulative_epoch rfl fresh_idle hfit hn

theorem percentiles_two : 0 < (epoch [500, 700]).cumulative 0 kLatencyArray ∧
    ∃ printed, (epoch [500, 700]).print_latency_file 0 = some printed ∧
      (epoch [500, 700]).Correct 0 printed := by
  have htotal : (epoch [500, 700]).cumulative 0 kLatencyArray = 2 :=
    cumulative_epoch_all rfl fresh_idle (by decide)
  have hfirst : (epoch [500, 700]).cumulative 0 (25 + 1) = 1 := by
    rw [cumulative_idle (by decide) (by decide)]
    decide
  have hpos : 0 < (epoch [500, 700]).cumulative 0 kLatencyArray := by
    rw [htotal]
    exact Nat.succ_pos 1
  refine ⟨hpos, (percentiles_iff hpos (by rw [htotal]; norm_num)).mpr ⟨25, by decide, ?_, ?_, ?_⟩⟩
  · decide
  · rw [hfirst]
    exact Nat.one_pos
  · rw [hfirst, htotal]
    norm_num

/-- With one sample, of 500 nanoseconds, `l_p999` is printed as zero and `l_p99` is not. -/
theorem percentile_unset : (epoch [500]).cumulative 0 kLatencyArray = 1 ∧
    ∃ printed, (epoch [500]).print_latency_file 0 = some printed ∧ printed.l_p999 = 0 ∧
      printed.l_p999 < printed.l_p99 ∧ ¬(epoch [500]).Correct 0 printed := by
  have htotal : (epoch [500]).cumulative 0 kLatencyArray = 1 :=
    cumulative_epoch_all rfl fresh_idle (by decide)
  have hpos : 0 < (epoch [500]).cumulative 0 kLatencyArray := by
    rw [htotal]
    exact Nat.one_pos
  obtain ⟨start, printed, hprint, hcounted, hscanned⟩ :=
    print_of_fit hpos (by rw [htotal]; norm_num)
  have hall : ∀ i < kLatencyArray, start.ans i ≠ 0 → start.share i < 999 / 1000 →
      start.config.latency i = 0 := by
    intro i hi hlive hbelow
    have hcount := (hcounted.live_iff hi).mp hlive
    have hshare := (hcounted.share_lt_iff hi hpos).mp hbelow
    omega
  have hnot := hscanned.not_le hcounted hpos hall
  exact ⟨htotal, printed, hprint, hscanned.p999.eq_zero hall, UInt64.not_le.mp hnot,
    fun hcorrect ↦ hnot hcorrect.p99_le⟩

end PerfTool

end SwitchDelta.Perf
