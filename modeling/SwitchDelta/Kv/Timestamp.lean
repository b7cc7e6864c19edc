import SwitchDelta.Kv.Wire

/-!
# The timestamps of the data node

`Timestamp32` keeps one 64-bit counter for each switch key and hands out its low 31 bits in big-endian
order. `server_process_msg` repeats the call until the result is nonzero. Several data threads draw
from the same counter, in any order, so the timestamps of a key are described for a schedule of
calls: `issued_timestamps` gives the timestamp of every append in closed form, whatever threads made
the calls.

The closed form wraps after `2 ^ 31 - 1` appends. Both the switch and `batchEntry::operator<` compare
timestamps as plain numbers, so two timestamps compare in the order they were issued exactly when
they were issued in the same round of the counter (`issued_order_iff`).
-/

set_option autoImplicit false
set_option relaxedAutoImplicit false

namespace SwitchDelta.Kv

/-! ### The counter -/

/-- `Timestamp32::get_next_ts`: the new counter and the timestamp as it is stored in a message. -/
def get_next_ts (tss : UInt64) : UInt64 × UInt32 :=
  (tss + 1, bswap32 ((tss + 1) &&& 0x7fffffff).toUInt32)

/-- The loop of `server_process_msg` around `get_next_ts`, without interruption. A second call is
never needed twice, see `next_timestamp_ne_zero`. -/
def next_timestamp (tss : UInt64) : UInt64 × UInt32 :=
  let first := get_next_ts tss
  if first.2 = 0 then get_next_ts first.1 else first

/-- The number of timestamps in one round of the counter. -/
def timestampRound : ℕ := 2 ^ 31 - 1

/-- The number that a stored timestamp stands for: what the parser of the switch reads and what
`batchEntry` keeps. -/
def timestampValue (timestamp : UInt32) : ℕ :=
  (bswap32 timestamp).toNat

theorem timestampValue_inj {timestamp timestamp' : UInt32} :
    timestampValue timestamp = timestampValue timestamp' ↔ timestamp = timestamp' := by
  rw [timestampValue, timestampValue, UInt32.toNat_inj, bswap32_inj]

theorem timestampValue_eq_zero {timestamp : UInt32} :
    timestampValue timestamp = 0 ↔ timestamp = 0 := by
  rw [← bswap32_eq_zero_iff, ← UInt32.toNat_inj]
  rfl

theorem get_next_ts_value (tss : UInt64) :
    timestampValue (get_next_ts tss).2 = (tss.toNat + 1) % 2 ^ 31 := by
  have hmask : (((tss + 1) &&& 0x7fffffff).toUInt32).toNat = (tss + 1).toNat % 2 ^ 31 := by
    rw [UInt64.toNat_toUInt32, UInt64.toNat_and]
    have hliteral : (0x7fffffff : UInt64).toNat = 2 ^ 31 - 1 := rfl
    rw [hliteral, Nat.and_two_pow_sub_one_eq_mod]
    omega
  rw [timestampValue, get_next_ts, bswap32_bswap32, hmask, UInt64.toNat_add]
  simp only [UInt64.reduceToNat, Nat.reducePow]
  omega

theorem get_next_ts_eq_zero_iff (tss : UInt64) :
    (get_next_ts tss).2 = 0 ↔ (tss.toNat + 1) % 2 ^ 31 = 0 := by
  rw [← get_next_ts_value, timestampValue_eq_zero]

/-- The loop ends at the second call at the latest. -/
theorem next_timestamp_ne_zero (tss : UInt64) : (next_timestamp tss).2 ≠ 0 := by
  unfold next_timestamp
  dsimp only
  split_ifs with hzero
  · rw [get_next_ts_eq_zero_iff] at hzero
    rw [Ne, get_next_ts_eq_zero_iff]
    have hlt := tss.toNat_lt
    have hnext : (get_next_ts tss).1.toNat = (tss.toNat + 1) % 2 ^ 64 := by
      simp [get_next_ts, UInt64.toNat_add]
    rw [hnext]
    omega
  · exact hzero

/-- While the counter stays below `2 ^ 31 - 1`, the next timestamp is the next number. -/
theorem next_timestamp_of_lt {tss : UInt64} (hlt : tss.toNat + 1 < 2 ^ 31) :
    (next_timestamp tss).1.toNat = tss.toNat + 1 ∧
      timestampValue (next_timestamp tss).2 = tss.toNat + 1 := by
  have hne : ¬ (get_next_ts tss).2 = 0 := by
    rw [get_next_ts_eq_zero_iff, Nat.mod_eq_of_lt hlt]
    omega
  have hresult : next_timestamp tss = get_next_ts tss := by
    unfold next_timestamp
    exact if_neg hne
  rw [hresult, get_next_ts_value, Nat.mod_eq_of_lt hlt]
  refine ⟨?_, rfl⟩
  simp only [get_next_ts, UInt64.toNat_add, UInt64.reduceToNat]
  omega

/-! ### Schedules -/

/-- The counter of one switch key and the appends that have drawn a timestamp from it, in order,
each with the data thread that made it. -/
structure Issuer where
  tss : UInt64
  issued : List (UInt8 × UInt32)

/-- `Timestamp32::init`. -/
def Issuer.init : Issuer := ⟨1, []⟩

/-- One call of `get_next_ts` by a data thread. A nonzero result is the timestamp of the append the
thread works on; after a zero the thread stays in its loop. -/
def Issuer.call (issuer : Issuer) (thread : UInt8) : Issuer :=
  let next := get_next_ts issuer.tss
  { tss := next.1
    issued := if next.2 = 0 then issuer.issued else issuer.issued ++ [(thread, next.2)] }

/-- The calls of a schedule of data threads. -/
def Issuer.run (schedule : List UInt8) : Issuer :=
  schedule.foldl Issuer.call Issuer.init

/-- The counter is at the last timestamp it issued, or has just passed a multiple of `2 ^ 31`. -/
def Issuer.InStep (issuer : Issuer) : Prop :=
  issuer.tss.toNat % 2 ^ 31 = issuer.issued.length % timestampRound + 1 ∨
    (issuer.tss.toNat % 2 ^ 31 = 0 ∧ issuer.issued.length % timestampRound + 1 = timestampRound)

/-- Every append has the timestamp that its number in the order of issue determines. -/
def Issuer.Numbered (issuer : Issuer) : Prop :=
  ∀ (n : ℕ) (thread : UInt8) (timestamp : UInt32), issuer.issued[n]? = some (thread, timestamp) →
    timestampValue timestamp = (n + 1) % timestampRound + 1

theorem Issuer.InStep.call {issuer : Issuer} (hstep : issuer.InStep) (thread : UInt8) :
    (issuer.call thread).InStep ∧ ((get_next_ts issuer.tss).2 ≠ 0 →
      timestampValue (get_next_ts issuer.tss).2 =
        (issuer.issued.length + 1) % timestampRound + 1) := by
  have hvalue := get_next_ts_value issuer.tss
  have hzero := get_next_ts_eq_zero_iff issuer.tss
  have htss : (get_next_ts issuer.tss).1.toNat % 2 ^ 31 = (issuer.tss.toNat + 1) % 2 ^ 31 := by
    simp only [get_next_ts, UInt64.toNat_add, UInt64.reduceToNat]
    omega
  unfold Issuer.InStep timestampRound at *
  simp only [Issuer.call]
  by_cases hskip : (get_next_ts issuer.tss).2 = 0
  · have hmod := hzero.mp hskip
    rw [if_pos hskip, htss, hmod]
    refine ⟨Or.inr ⟨rfl, ?_⟩, fun h' ↦ absurd hskip h'⟩
    omega
  · have hmod : (issuer.tss.toNat + 1) % 2 ^ 31 ≠ 0 := mt hzero.mpr hskip
    rw [if_neg hskip, htss, hvalue, List.length_append, List.length_singleton]
    have hnext : (issuer.tss.toNat + 1) % 2 ^ 31 =
        (issuer.issued.length + 1) % (2 ^ 31 - 1) + 1 := by
      omega
    exact ⟨Or.inl hnext, fun _ ↦ hnext⟩

theorem Issuer.inStep_numbered_run (schedule : List UInt8) :
    (Issuer.run schedule).InStep ∧ (Issuer.run schedule).Numbered := by
  induction schedule using List.reverseRecOn with
  | nil =>
    refine ⟨Or.inl rfl, fun n thread timestamp h ↦ ?_⟩
    simp [Issuer.run, Issuer.init] at h
  | append_singleton schedule thread ih =>
    obtain ⟨hstep, hnumbered⟩ := ih
    have hrun : Issuer.run (schedule ++ [thread]) = (Issuer.run schedule).call thread := by
      simp [Issuer.run]
    obtain ⟨hstep', hissued⟩ := hstep.call thread
    rw [hrun]
    refine ⟨hstep', fun n t timestamp hget ↦ ?_⟩
    simp only [Issuer.call] at hget
    split_ifs at hget with hskip
    · exact hnumbered n t timestamp hget
    · rcases Nat.lt_or_ge n (Issuer.run schedule).issued.length with hn | hn
      · rw [List.getElem?_append_left hn] at hget
        exact hnumbered n t timestamp hget
      · rw [List.getElem?_append_right hn] at hget
        obtain ⟨hn', hlast⟩ := List.getElem?_eq_some_iff.mp hget
        have hn'' : n = (Issuer.run schedule).issued.length := by
          simp only [List.length_singleton] at hn'
          omega
        have htimestamp : (get_next_ts (Issuer.run schedule).tss).2 = timestamp := by
          simp [hn''] at hlast
          exact hlast.2
        rw [← htimestamp, hn'']
        exact hissued hskip

/-- The timestamp of the append with number `n` on a switch key, in every schedule. -/
theorem issued_timestamps {schedule : List UInt8} {n : ℕ} {thread : UInt8} {timestamp : UInt32}
    (hget : (Issuer.run schedule).issued[n]? = some (thread, timestamp)) :
    timestampValue timestamp = (n + 1) % timestampRound + 1 :=
  (Issuer.inStep_numbered_run schedule).2 n thread timestamp hget

/-- Within half a round, numbers compare in the order of issue exactly when they belong to the same
round. -/
theorem mod_round_lt_iff {i j : ℕ} (hij : i < j) (hnear : j - i ≤ 2 ^ 30) :
    (i + 1) % timestampRound + 1 < (j + 1) % timestampRound + 1 ↔
      (i + 1) / timestampRound = (j + 1) / timestampRound := by
  have hi := Nat.mod_add_div (i + 1) timestampRound
  have hj := Nat.mod_add_div (j + 1) timestampRound
  have hi' : (i + 1) % timestampRound < timestampRound := Nat.mod_lt _ (by decide)
  have hj' : (j + 1) % timestampRound < timestampRound := Nat.mod_lt _ (by decide)
  unfold timestampRound at *
  omega

/-- Two timestamps of a switch key that were issued within half a round compare in the order of
issue exactly when they belong to the same round, in every schedule. -/
theorem issued_order_iff {schedule : List UInt8} {i j : ℕ} {t t' : UInt8} {ts ts' : UInt32}
    (hi : (Issuer.run schedule).issued[i]? = some (t, ts))
    (hj : (Issuer.run schedule).issued[j]? = some (t', ts')) (hij : i < j)
    (hnear : j - i ≤ 2 ^ 30) :
    timestampValue ts < timestampValue ts' ↔
      (i + 1) / timestampRound = (j + 1) / timestampRound := by
  rw [issued_timestamps hi, issued_timestamps hj]
  exact mod_round_lt_iff hij hnear

/-- Every number of timestamps is issued at some time. -/
theorem exists_issued (n : ℕ) : ∃ schedule, n ≤ (Issuer.run schedule).issued.length := by
  induction n with
  | zero => exact ⟨[], Nat.zero_le _⟩
  | succ n ih =>
    obtain ⟨schedule, hlength⟩ := ih
    have hcall (calls : List UInt8) (t : UInt8) :
        Issuer.run (calls ++ [t]) = (Issuer.run calls).call t := by
      simp [Issuer.run]
    by_cases hzero : (get_next_ts (Issuer.run schedule).tss).2 = 0
    · -- the call is repeated, and the second one is not zero
      have hne := next_timestamp_ne_zero (Issuer.run schedule).tss
      simp only [next_timestamp, hzero, if_true] at hne
      refine ⟨schedule ++ [0] ++ [0], ?_⟩
      rw [hcall, hcall]
      simp only [Issuer.call, hzero, if_true, hne, if_false, List.length_append,
        List.length_singleton]
      omega
    · refine ⟨schedule ++ [0], ?_⟩
      rw [hcall]
      simp only [Issuer.call, hzero, if_false, List.length_append, List.length_singleton]
      omega

end SwitchDelta.Kv
