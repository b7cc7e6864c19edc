import SwitchDelta.Kv.Client

/-!
# Which index thread serves a key

`put_value` derives the index thread from the low 32 bits of the key, every other function from the
low 16 bits (`get_switch_key`). The two agree for every key exactly when the number of index threads
divides 65536, or is a multiple of 256, where only the low byte of the residue survives in a thread
number. With three index threads and the key 65536 they do not: the multicast copy of a write goes
to one thread and its `kEnumUpdateIndexReq` and reads go to another.
-/

set_option autoImplicit false
set_option relaxedAutoImplicit false

namespace SwitchDelta.Kv

/-! ### Ports and threads -/

/-- Different threads listen on different ports. -/
theorem get_thread_port_inj {t t' : UInt8} :
    get_thread_port t 0 = get_thread_port t' 0 ↔ t = t' := by
  refine ⟨fun h ↦ ?_, fun h ↦ h ▸ rfl⟩
  have ht := t.toNat_lt
  have ht' := t'.toNat_lt
  have hnat := congrArg UInt16.toNat h
  apply UInt8.toNat_inj.mp
  simp only [get_thread_port, UInt16.toNat_shiftLeft, UInt16.toNat_add, UInt8.toNat_toUInt16,
    Nat.shiftLeft_eq, UInt16.reduceToNat, UInt8.reduceToNat, Nat.reduceMod, Nat.reducePow] at hnat
  omega

/-- All messages of a key that end at an index thread name the same one: the port that `put_value`
stores for the multicast copy is the one that the other functions store, and the one that
`put_index` and `get_index` send to. -/
def IndexThreadsAgree (f : Flags) (key : KvKeyType) : Prop :=
  ∀ (c : CoroId) (ctx : KvCtx) (buf : RawKvMsg) (userbuf : List UInt8), ctx.long_key = key →
    let index_port := (put_value_request f c ctx buf userbuf).msg.index_port
    (put_index_request f c ctx buf).msg.index_port = index_port ∧
      (get_index_request f c ctx buf).msg.index_port = index_port ∧
      (get_value_request f c ctx buf).msg.index_port = index_port ∧
      (check_req_cnt_request f c ctx buf).msg.index_port = index_port ∧
      toBigEndian16 index_port = (put_index_request f c ctx buf).dst_port ∧
      toBigEndian16 index_port = (get_index_request f c ctx buf).dst_port

theorem indexThreadsAgree_iff_tid {f : Flags} {key : KvKeyType} :
    IndexThreadsAgree f key ↔ put_value_index_tid f key = index_tid f key := by
  constructor
  · intro hagree
    have hport := (hagree ⟨2, 0, 0⟩ ⟨0, 0, key, 0, false, true, 0⟩
      ⟨⟨0, 0, 0, 0, .kEnumReadReq⟩, 0, 0, 0, 0, 0, 0, 0, 0, 0, 0, 0, 0, 0, 0, 0, 0, 0, 0, []⟩
      [] rfl).1
    simp only [put_index_request, put_value_request, toBigEndian16_inj,
      get_thread_port_inj] at hport
    exact hport.symm
  · rintro htid c ctx buf userbuf rfl
    simp [put_index_request, put_value_request, get_index_request, get_value_request,
      check_req_cnt_request, htid]

/-! ### Arithmetic of the two thread numbers -/

section Arithmetic

variable {n a : ℕ}

/-- Two residues have the same low byte exactly when the multiples of `n` taken off them differ by
a multiple of 256, for numbers that agree modulo 65536. -/
theorem low_byte_mod_eq_iff :
    a % n % 256 = a % 65536 % n % 256 ↔ n * (a / n) ≡ n * (a % 65536 / n) [MOD 256] := by
  have ha := Nat.mod_add_div a n
  have hb := Nat.mod_add_div (a % 65536) n
  have hlow : a % 65536 % 256 = a % 256 := by omega
  unfold Nat.ModEq
  generalize n * (a / n) = p at *
  generalize n * (a % 65536 / n) = q at *
  omega

/-- With at most 256 threads the two numbers agree exactly when `n` divides the part of the key
that `get_switch_key` drops. -/
theorem low_byte_mod_eq_iff_dvd (hn : 0 < n) (hle : n ≤ 256) :
    a % n % 256 = a % 65536 % n % 256 ↔ n ∣ 65536 * (a / 65536) := by
  have hlt : a % n % 256 = a % n := Nat.mod_eq_of_lt ((Nat.mod_lt _ hn).trans_le hle)
  have hlt' : a % 65536 % n % 256 = a % 65536 % n :=
    Nat.mod_eq_of_lt ((Nat.mod_lt _ hn).trans_le hle)
  have hsplit : a - a % 65536 = 65536 * (a / 65536) := by omega
  rw [hlt, hlt', ← hsplit]
  exact ⟨fun heq ↦ (Nat.modEq_iff_dvd' (Nat.mod_le _ _)).mp heq.symm,
    fun hdvd ↦ ((Nat.modEq_iff_dvd' (Nat.mod_le _ _)).mpr hdvd).symm⟩

/-- A thread count that divides 65536 or is a multiple of 256 gives agreement on every number. -/
theorem low_byte_mod_eq_of_dvd (hdvd : n ∣ 65536 ∨ 256 ∣ n) :
    a % n % 256 = a % 65536 % n % 256 := by
  rcases hdvd with hdvd | hdvd
  · rw [Nat.mod_mod_of_dvd a hdvd]
  · rw [Nat.mod_mod_of_dvd a hdvd, Nat.mod_mod_of_dvd _ hdvd]
    omega

/-- Any other thread count fails on some number: at the first multiple of `n` above 65536 the first
residue drops from `n - 1` to zero while the second grows by one. -/
theorem exists_low_byte_mod_ne (hn : 0 < n) (hdvd : ¬ n ∣ 65536) (hbyte : ¬ 256 ∣ n)
    (hlt : n < 2 ^ 31) : ∃ a < 2 ^ 32, a % n % 256 ≠ a % 65536 % n % 256 := by
  by_cases hbig : 65536 < n
  · -- the key `n` itself: residue zero against `n % 65536`
    refine ⟨n, by omega, ?_⟩
    have hsmall : n % 65536 % n = n % 65536 := Nat.mod_eq_of_lt (by omega)
    rw [Nat.mod_self, hsmall]
    omega
  · -- the first multiple `m` of `n` above 65536, and its predecessor
    obtain ⟨quotient, hquotient⟩ : ∃ quotient, 65536 / n = quotient := ⟨_, rfl⟩
    have hdiv := Nat.mod_add_div 65536 n
    have hmod := Nat.mod_lt 65536 hn
    have hpos : 65536 % n ≠ 0 := fun hzero ↦ hdvd (Nat.dvd_of_mod_eq_zero hzero)
    rw [hquotient] at hdiv
    set m := n * quotient + n with hm
    have hmul : m = n * (quotient + 1) := by rw [hm]; ring
    have hresidue : m % 65536 = m - 65536 := by omega
    have hresidue' : (m - 1) % 65536 = m - 1 - 65536 := by omega
    have hlast : m - 1 = n * quotient + (n - 1) := by omega
    have hmod_m : m % n = 0 := by rw [hmul]; exact Nat.mul_mod_right _ _
    have hmod_last : (m - 1) % n = n - 1 := by
      rw [hlast, Nat.mul_add_mod, Nat.mod_eq_of_lt (by omega)]
    have hsmall : (m - 65536) % n = m - 65536 := Nat.mod_eq_of_lt (by omega)
    have hsmall' : (m - 1 - 65536) % n = m - 1 - 65536 := Nat.mod_eq_of_lt (by omega)
    by_cases hagree : m % n % 256 = m % 65536 % n % 256
    · refine ⟨m - 1, by omega, ?_⟩
      rw [hmod_last, hresidue', hsmall']
      rw [hmod_m, hresidue, hsmall] at hagree
      omega
    · exact ⟨m, by omega, hagree⟩

end Arithmetic

/-! ### Agreement -/

theorem index_tid_toNat (f : Flags) (key : KvKeyType) :
    (index_tid f key).toNat = key.toNat % 4294967296 % 65536 % f.mn_thread.toNat % 256 := by
  have hswitch : (get_switch_key key).toNat = key.toNat % 65536 := by
    simp only [get_switch_key, UInt64.toNat_toUInt16, UInt64.toNat_and, UInt64.reduceToNat]
    rw [show (65535 : ℕ) = 2 ^ 16 - 1 from rfl, Nat.and_two_pow_sub_one_eq_mod]
    omega
  simp only [index_tid, get_index_thread_id, UInt32.toNat_toUInt8, UInt32.toNat_mod,
    UInt16.toNat_toUInt32, hswitch, Nat.reducePow]
  congr 2
  omega

theorem put_value_index_tid_toNat (f : Flags) (key : KvKeyType) :
    (put_value_index_tid f key).toNat = key.toNat % 4294967296 % f.mn_thread.toNat % 256 := by
  simp only [put_value_index_tid, get_index_thread_id, UInt32.toNat_toUInt8, UInt32.toNat_mod,
    UInt64.toNat_toUInt32, Nat.reducePow]

/-- The index threads of a key agree exactly when the multiples of the thread count below the low
32 and the low 16 bits of the key differ by a multiple of 256. -/
theorem indexThreadsAgree_iff_low_byte {f : Flags} {key : KvKeyType} :
    IndexThreadsAgree f key ↔
      key.toNat % 4294967296 % f.mn_thread.toNat % 256 =
        key.toNat % 4294967296 % 65536 % f.mn_thread.toNat % 256 := by
  rw [indexThreadsAgree_iff_tid, ← UInt8.toNat_inj, index_tid_toNat, put_value_index_tid_toNat]

/-- When the index threads agree. For one key, with thread numbers that fit in a byte, exactly when
the thread count divides the bits 16 to 31 of the key, taken at their place value. For all keys,
exactly when the thread count divides 65536 or is a multiple of 256. -/
theorem indexThreadsAgree_iff (f : Flags) (hpos : 1 ≤ f.mn_thread.toNat)
    (hint : f.mn_thread.toNat < 2 ^ 31) :
    (∀ key, IndexThreadsAgree f key ↔
      f.mn_thread.toNat * (key.toNat % 2 ^ 32 / f.mn_thread.toNat) ≡
        f.mn_thread.toNat * (key.toNat % 2 ^ 16 / f.mn_thread.toNat) [MOD 256]) ∧
    (f.mn_thread.toNat ≤ 256 → ∀ key, IndexThreadsAgree f key ↔
      f.mn_thread.toNat ∣ 65536 * (key.toNat % 2 ^ 32 / 65536)) ∧
    ((∀ key, IndexThreadsAgree f key) ↔
      f.mn_thread.toNat ∣ 65536 ∨ 256 ∣ f.mn_thread.toNat) := by
  have hlow (key : KvKeyType) : key.toNat % 4294967296 % 65536 = key.toNat % 65536 := by omega
  refine ⟨fun key ↦ ?_, fun hle key ↦ ?_, ⟨fun hall ↦ ?_, fun hdvd key ↦ ?_⟩⟩
  · rw [indexThreadsAgree_iff_low_byte, low_byte_mod_eq_iff, hlow]
    rfl
  · rw [indexThreadsAgree_iff_low_byte, low_byte_mod_eq_iff_dvd hpos hle]
    rfl
  · by_contra hnot
    rw [not_or] at hnot
    obtain ⟨a, halt, hne⟩ := exists_low_byte_mod_ne hpos hnot.1 hnot.2 hint
    have hkey : (UInt64.ofNat a).toNat % 4294967296 = a := by
      rw [UInt64.toNat_ofNat_of_lt' (halt.trans (by decide))]
      exact Nat.mod_eq_of_lt halt
    have hagree := indexThreadsAgree_iff_low_byte.mp (hall (UInt64.ofNat a))
    rw [hkey] at hagree
    exact hne hagree
  · exact indexThreadsAgree_iff_low_byte.mpr (low_byte_mod_eq_of_dvd hdvd)

/-- Three index threads. -/
def threeIndexThreads : Flags := ⟨1, 3, 1, 1, 100, 100, true, false, 16⟩

/-- With three threads the agreement fails for some key. -/
theorem indexThreadsAgree_iff_three : ¬ ∀ key, IndexThreadsAgree threeIndexThreads key := by
  rw [(indexThreadsAgree_iff threeIndexThreads (by decide) (by decide)).2.2]
  decide

/-- The key 65536 with three index threads: `put_value` names thread 1 for the multicast copy, and
`put_index`, `get_index`, `get_value` and `check_req_cnt` name thread 0. -/
theorem not_indexThreadsAgree_three_65536 :
    put_value_index_tid threeIndexThreads 65536 = 1 ∧ index_tid threeIndexThreads 65536 = 0 ∧
      ¬ IndexThreadsAgree threeIndexThreads 65536 := by
  refine ⟨by decide, by decide, ?_⟩
  rw [indexThreadsAgree_iff_tid]
  decide

end SwitchDelta.Kv
