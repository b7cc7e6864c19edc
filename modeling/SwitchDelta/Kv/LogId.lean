import SwitchDelta.Kv.Server

/-!
# Log ids

A data thread names a record by `compute_log_id` of its position and the number of the thread, and
`get_value` finds the thread and the position again with `logid_2_threadid` and
`logid_2_locallogid`. The thread number is multiplied by `FLAGS_keyspace`, while `SampleLog::append`
counts positions modulo `FLAGS_logspace`, and a log id has 32 bits.

`log_id_round_trip` says for which positions and threads, and for which flags, the way back leads to
the record.
-/

set_option autoImplicit false
set_option relaxedAutoImplicit false

namespace SwitchDelta.Kv

/-! ### Positions -/

/-- The log of a thread after some appends. -/
def SampleLog.appendAll (f : Flags) (records : List (KvKeyType × List UInt8)) : SampleLog :=
  records.foldl (fun kv record ↦ (kv.append f record).1) SampleLog.init

/-- A position that `append` returns in some run. -/
def Flags.Returned (f : Flags) (pos : UInt64) : Prop :=
  ∃ records record, ((SampleLog.appendAll f records).append f record).2 = pos

theorem SampleLog.appendAll_concat (f : Flags) (records : List (KvKeyType × List UInt8))
    (record : KvKeyType × List UInt8) :
    SampleLog.appendAll f (records ++ [record]) =
      ((SampleLog.appendAll f records).append f record).1 := by
  rw [appendAll, List.foldl_append]
  rfl

/-- The position after some appends is their number modulo `FLAGS_logspace`. -/
theorem SampleLog.appendAll_pos {f : Flags} (hlogspace : 0 < f.logspace)
    (records : List (KvKeyType × List UInt8)) :
    (SampleLog.appendAll f records).pos.toNat = records.length % f.logspace.toNat := by
  have hpos : 0 < f.logspace.toNat := UInt64.lt_iff_toNat_lt.mp hlogspace
  have hlt := f.logspace.toNat_lt
  induction records using List.reverseRecOn with
  | nil => exact (Nat.zero_mod _).symm
  | append_singleton records record ih =>
    have hmod := Nat.mod_lt records.length hpos
    rw [appendAll_concat, List.length_append, List.length_singleton, SampleLog.append]
    dsimp only
    rw [UInt64.toNat_mod, UInt64.toNat_add, ih, UInt64.toNat_one,
      Nat.mod_eq_of_lt (show records.length % f.logspace.toNat + 1 < 2 ^ 64 by omega),
      Nat.mod_add_mod]

/-- `append` returns exactly the positions below `FLAGS_logspace`. -/
theorem Flags.returned_iff {f : Flags} (hlogspace : 0 < f.logspace) (pos : UInt64) :
    f.Returned pos ↔ pos < f.logspace := by
  have hpos : 0 < f.logspace.toNat := UInt64.lt_iff_toNat_lt.mp hlogspace
  constructor
  · rintro ⟨records, record, rfl⟩
    rw [SampleLog.append, UInt64.lt_iff_toNat_lt, SampleLog.appendAll_pos hlogspace]
    exact Nat.mod_lt _ hpos
  · intro hlt
    refine ⟨List.replicate pos.toNat (0, []), (0, []), UInt64.toNat_inj.mp ?_⟩
    rw [SampleLog.append, SampleLog.appendAll_pos hlogspace, List.length_replicate,
      Nat.mod_eq_of_lt (UInt64.lt_iff_toNat_lt.mp hlt)]

/-! ### The way back -/

/-- `get_value` gets from the log id of a record to the thread and the position that store it, and
the log id is not the mark of an absent key. -/
def RoundTrip (f : Flags) (pos : UInt64) (t : UInt8) : Prop :=
  let log_id := compute_log_id f pos.toUInt32 t.toUInt32
  logid_2_threadid f log_id = t.toUInt32 ∧ (logid_2_locallogid f log_id).toUInt64 = pos ∧
    log_id ≠ 0xFFFFFFFF

instance (f : Flags) (pos : UInt64) (t : UInt8) : Decidable (RoundTrip f pos t) :=
  inferInstanceAs (Decidable (_ ∧ _ ∧ _))

/-- A log id that fits in 32 bits is the sum that it stands for. -/
theorem compute_log_id_toNat {f : Flags} {pos : UInt64} {t : UInt8}
    (hfit : t.toNat * f.keyspace.toNat + pos.toNat < 2 ^ 32) :
    (compute_log_id f pos.toUInt32 t.toUInt32).toNat =
      t.toNat * f.keyspace.toNat + pos.toNat := by
  simp only [compute_log_id, UInt64.toNat_toUInt32, UInt64.toNat_add, UInt64.toNat_mul,
    UInt32.toNat_toUInt64, UInt8.toNat_toUInt32]
  rw [Nat.mod_eq_of_lt (show pos.toNat < 2 ^ 32 by omega),
    Nat.mod_eq_of_lt (show t.toNat * f.keyspace.toNat < 2 ^ 64 by omega),
    Nat.mod_eq_of_lt (show t.toNat * f.keyspace.toNat + pos.toNat < 2 ^ 64 by omega),
    Nat.mod_eq_of_lt hfit]

theorem logid_2_threadid_toNat (f : Flags) (log_id : UInt32) :
    (logid_2_threadid f log_id).toNat = log_id.toNat / f.keyspace.toNat := by
  rw [logid_2_threadid, UInt64.toNat_toUInt32, UInt64.toNat_div, UInt32.toNat_toUInt64]
  exact Nat.mod_eq_of_lt ((Nat.div_le_self _ _).trans_lt log_id.toNat_lt)

theorem logid_2_locallogid_toNat (f : Flags) (log_id : UInt32) :
    (logid_2_locallogid f log_id).toNat = log_id.toNat % f.keyspace.toNat := by
  rw [logid_2_locallogid, UInt64.toNat_toUInt32, UInt64.toNat_mod, UInt32.toNat_toUInt64]
  exact Nat.mod_eq_of_lt ((Nat.mod_le _ _).trans_lt log_id.toNat_lt)

/-- The thread of a log id that fits, if the position is within the key space. -/
theorem logid_2_threadid_compute {f : Flags} {pos : UInt64} {t : UInt8}
    (hpos : pos.toNat < f.keyspace.toNat)
    (hfit : t.toNat * f.keyspace.toNat + pos.toNat < 2 ^ 32) :
    (logid_2_threadid f (compute_log_id f pos.toUInt32 t.toUInt32)).toNat = t.toNat := by
  rw [logid_2_threadid_toNat, compute_log_id_toNat hfit, Nat.mul_comm,
    Nat.mul_add_div (by omega), Nat.div_eq_of_lt hpos, Nat.add_zero]

/-- The way back succeeds exactly if the position is within the key space and the log id fits in 32
bits and is not all ones. -/
theorem roundTrip_iff {f : Flags} (hkeyspace : 0 < f.keyspace) (pos : UInt64) (t : UInt8) :
    RoundTrip f pos t ↔
      pos < f.keyspace ∧ t.toNat * f.keyspace.toNat + pos.toNat < 2 ^ 32 - 1 := by
  have hkey : 0 < f.keyspace.toNat := UInt64.lt_iff_toNat_lt.mp hkeyspace
  unfold RoundTrip
  dsimp only
  set log_id := compute_log_id f pos.toUInt32 t.toUInt32 with hlog_id
  rw [← UInt32.toNat_inj, ← UInt64.toNat_inj, UInt32.toNat_toUInt64, logid_2_threadid_toNat,
    logid_2_locallogid_toNat, UInt8.toNat_toUInt32, ne_eq, ← UInt32.toNat_inj,
    UInt64.lt_iff_toNat_lt]
  have hones : (0xFFFFFFFF : UInt32).toNat = 2 ^ 32 - 1 := rfl
  rw [hones]
  constructor
  · rintro ⟨hthread, hlocal, hne⟩
    have hsplit := Nat.div_add_mod' log_id.toNat f.keyspace.toNat
    rw [hthread, hlocal] at hsplit
    have hlt := log_id.toNat_lt
    exact ⟨hlocal ▸ Nat.mod_lt _ hkey, by omega⟩
  · rintro ⟨hpos, hfit⟩
    have hvalue : (compute_log_id f pos.toUInt32 t.toUInt32).toNat =
        t.toNat * f.keyspace.toNat + pos.toNat := compute_log_id_toNat (by omega)
    rw [← hlog_id] at hvalue
    rw [hvalue, Nat.mul_comm, Nat.mul_add_div hkey, Nat.div_eq_of_lt hpos, Nat.mul_add_mod,
      Nat.mod_eq_of_lt hpos, Nat.mul_comm]
    exact ⟨Nat.add_zero _, rfl, by omega⟩

/-- For which records the way back succeeds, and for which flags it does so for every record of every
data thread. -/
theorem log_id_round_trip (f : Flags) (hkeyspace : 0 < f.keyspace)
    (hlogspace : 0 < f.logspace) :
    (∀ (t : UInt8) (pos : UInt64), t.toUInt32 < f.dn_thread → f.Returned pos →
      (RoundTrip f pos t ↔
        pos < f.keyspace ∧ t.toNat * f.keyspace.toNat + pos.toNat < 2 ^ 32 - 1)) ∧
    ((∀ (t : UInt8) (pos : UInt64), t.toUInt32 < f.dn_thread → f.Returned pos →
        RoundTrip f pos t) ↔
      ∀ t : UInt8, t.toUInt32 < f.dn_thread → f.logspace ≤ f.keyspace ∧
        t.toNat * f.keyspace.toNat + f.logspace.toNat < 2 ^ 32) := by
  refine ⟨fun t pos _ _ ↦ roundTrip_iff hkeyspace pos t, ?_⟩
  have hpos : 0 < f.logspace.toNat := UInt64.lt_iff_toNat_lt.mp hlogspace
  refine forall_congr' fun t ↦ ?_
  constructor
  · intro h ht
    -- the last position of the log
    have hone : (1 : UInt64) ≤ f.logspace := by
      rw [UInt64.le_iff_toNat_le, UInt64.toNat_one]
      exact hpos
    have hlast : (f.logspace - 1).toNat = f.logspace.toNat - 1 := by
      rw [UInt64.toNat_sub_of_le _ _ hone, UInt64.toNat_one]
    have hreturned : f.Returned (f.logspace - 1) := by
      rw [Flags.returned_iff hlogspace, UInt64.lt_iff_toNat_lt, hlast]
      omega
    obtain ⟨hlt, hfit⟩ := (roundTrip_iff hkeyspace _ t).mp (h _ ht hreturned)
    rw [UInt64.lt_iff_toNat_lt, hlast] at hlt
    rw [hlast] at hfit
    exact ⟨UInt64.le_iff_toNat_le.mpr (by omega), by omega⟩
  · intro h pos ht hreturned
    obtain ⟨hle, hfit⟩ := h ht
    have hlt := UInt64.lt_iff_toNat_lt.mp ((Flags.returned_iff hlogspace pos).mp hreturned)
    rw [UInt64.le_iff_toNat_le] at hle
    exact (roundTrip_iff hkeyspace pos t).mpr ⟨UInt64.lt_iff_toNat_lt.mpr (by omega), by omega⟩

/-- The default key and log spaces with all 48 data threads. -/
def defaultSpaces : Flags :=
  ⟨48, 1, 1, 1, 104857600, 10485760, true, false, 16⟩

theorem log_id_round_trip_defaultSpaces :
    (∀ (t : UInt8) (pos : UInt64), t.toUInt32 < defaultSpaces.dn_thread →
      defaultSpaces.Returned pos → (RoundTrip defaultSpaces pos t ↔
        pos < 104857600 ∧ t.toNat * 104857600 + pos.toNat < 2 ^ 32 - 1)) ∧
    ((∀ (t : UInt8) (pos : UInt64), t.toUInt32 < defaultSpaces.dn_thread →
        defaultSpaces.Returned pos → RoundTrip defaultSpaces pos t) ↔
      ∀ t : UInt8, t.toUInt32 < defaultSpaces.dn_thread →
        defaultSpaces.logspace ≤ defaultSpaces.keyspace ∧
        t.toNat * 104857600 + 10485760 < 2 ^ 32) :=
  log_id_round_trip defaultSpaces (by decide) (by decide)

/-- The first record of thread 41 gets the log id 4194304, which belongs to thread 0. -/
theorem log_id_overflow :
    ¬ ∀ f : Flags, 0 < f.keyspace → 0 < f.logspace → f.dn_thread ≤ 48 →
      ∀ (t : UInt8) (pos : UInt64), t.toUInt32 < f.dn_thread → f.Returned pos →
        RoundTrip f pos t := by
  intro h
  have hfirst : defaultSpaces.Returned 0 := ⟨[], (0, []), rfl⟩
  exact absurd (h defaultSpaces (by decide) (by decide) (by decide) 41 0 (by decide) hfirst)
    (by decide)

end SwitchDelta.Kv
