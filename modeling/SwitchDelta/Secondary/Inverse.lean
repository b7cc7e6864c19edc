import SwitchDelta.Secondary.Freshness

/-!
# Insertion and deletion of an entry

The two handlers of a write insert an entry under `sizeof(kKeySize) * 3` bytes of its three words,
`process_sindex_del` removes `3 * sizeof(uint64_t)` bytes, and a read scans from the secondary key
followed by zeros. `kKeySize` is an `int`, so an entry is inserted under twelve bytes, and the
removal of twenty-four finds nothing.

`not_inverse` says so for every set of entries, and `inverse_of_whole_keys` that the three parts of
the code fit together when an entry is inserted under all its bytes.
-/

set_option autoImplicit false
set_option relaxedAutoImplicit false

namespace SwitchDelta.Secondary

open Foundation Kv

/-! ### The handlers -/

/-- The message of a write: header, skey, version, pkey. -/
def Entry.message (e : Entry) : Msg where
  rpc_header := ⟨get_index_server_id, 2, 0, 0, .kEnumUpdateIndexReq⟩
  flag := 0
  switch_key := get_switch_key e.pkey
  key := get_fingerprint e.pkey
  client_port := 0
  index_port := 0
  route_map := 0
  words := [e.skey, e.version, e.pkey]

/-- The handler of a write, for the size of the keys that are inserted. -/
def insertEntry (key_size : ℕ) (local_max : UInt64) (sindex : Sindex) (e : Entry) : Sindex :=
  match inserted key_size local_max e.message (fun _ ↦ 0) with
  | some (key, value) => sindex.put key value
  | none => sindex

/-- The secondary index after the writes of some entries. -/
def insertEntries (key_size : ℕ) (local_max : UInt64) (T : List Entry) : Sindex :=
  T.foldl (insertEntry key_size local_max) OrderedMap.empty

/-- The key of an entry, and what is stored under it. -/
def Entry.stored (key_size : ℕ) (e : Entry) : List ℕ × UInt64 :=
  (keyBytes key_size e.skey e.version e.pkey, e.pkey)

/-- Where the handler of a read starts its scan. -/
def scanStart (skey : UInt64) : List ℕ :=
  keyBytes 24 skey 0 0

/-- Insertion and deletion of an entry of a set are inverse, and the scan of its secondary key can
reach it in between. -/
structure Inverse (key_size : ℕ) (local_max : UInt64) (T : List Entry) (e : Entry) : Prop where
  distinct : ∀ e' ∈ T, e' ≠ e → (e'.stored key_size).1 ≠ (e.stored key_size).1
  present : e.stored key_size ∈ (insertEntries key_size local_max T).entries
  removes : ∀ x, x ∈ (process_sindex_del local_max (insertEntries key_size local_max T)
      [e]).2.entries ↔
    x ∈ (insertEntries key_size local_max T).entries ∧ x ≠ e.stored key_size
  reachable : scanStart e.skey ≤ (e.stored key_size).1

theorem insertEntry_eq (key_size : ℕ) (local_max : UInt64) (sindex : Sindex) (e : Entry) :
    insertEntry key_size local_max sindex e =
      if local_max < e.version then sindex.put (e.stored key_size).1 (e.stored key_size).2
      else sindex := by
  have hinserted : inserted key_size local_max e.message (fun _ ↦ 0) =
      if local_max < e.version then some (e.stored key_size) else none := rfl
  rw [insertEntry, hinserted]
  split_ifs <;> rfl

/-- What is in the index was inserted. -/
theorem mem_of_mem_insertEntries {key_size : ℕ} {local_max : UInt64} {T : List Entry}
    {x : List ℕ × UInt64} (hx : x ∈ (insertEntries key_size local_max T).entries) :
    ∃ e ∈ T, x = e.stored key_size := by
  induction T using List.reverseRecOn with
  | nil => exact absurd hx List.not_mem_nil
  | append_singleton T e ih =>
    rw [insertEntries, List.foldl_append, List.foldl_cons, List.foldl_nil, insertEntry_eq] at hx
    split_ifs at hx
    · rcases OrderedMap.mem_put.mp hx with rfl | ⟨hx, -⟩
      · exact ⟨e, by simp, rfl⟩
      · obtain ⟨e', he', heq⟩ := ih hx
        exact ⟨e', List.mem_append_left _ he', heq⟩
    · obtain ⟨e', he', heq⟩ := ih hx
      exact ⟨e', List.mem_append_left _ he', heq⟩

/-- An entry whose key is its own is in the index. -/
theorem mem_insertEntries {key_size : ℕ} {local_max : UInt64} {T : List Entry} {e : Entry}
    (he : e ∈ T) (hversion : local_max < e.version)
    (hdistinct : ∀ e' ∈ T, e' ≠ e → (e'.stored key_size).1 ≠ (e.stored key_size).1) :
    e.stored key_size ∈ (insertEntries key_size local_max T).entries := by
  induction T using List.reverseRecOn with
  | nil => exact absurd he List.not_mem_nil
  | append_singleton T e' ih =>
    rw [insertEntries, List.foldl_append, List.foldl_cons, List.foldl_nil, insertEntry_eq]
    by_cases heq : e' = e
    · subst heq
      rw [if_pos hversion]
      exact OrderedMap.mem_put.mpr (Or.inl rfl)
    · have hbefore := ih ((List.mem_append.mp he).resolve_right fun h ↦
          heq (List.mem_singleton.mp h).symm)
        fun e'' he'' ↦ hdistinct e'' (List.mem_append_left _ he'')
      split_ifs
      · exact OrderedMap.mem_put.mpr (Or.inr ⟨hbefore, Ne.symm (hdistinct e' (by simp) heq)⟩)
      · exact hbefore

/-! ### Twelve bytes -/

/-- The scan starts at or before an entry exactly if the low half of its version is not zero. -/
theorem scanStart_le_iff (e : Entry) :
    scanStart e.skey ≤ (e.stored insertKeySize).1 ↔ e.version.toUInt32 ≠ 0 := by
  rw [scanStart, keyBytes_scan, Entry.stored, keyBytes_twelve]
  constructor
  · intro hle hzero
    have hfour : (bytesLE e.version).take 4 = List.replicate 4 0 :=
      (take_bytesLE_eq_iff (w := 0)).mpr hzero
    rw [hfour] at hle
    have hle' : bytesLE e.skey ++ List.replicate 4 0 ≤ bytesLE e.skey ++ List.replicate 16 0 :=
      append_le_append (by decide)
    have hlength := congrArg List.length (le_antisymm hle hle')
    simp at hlength
  · intro hlow
    refine append_le_append (replicate_zero_le ?_)
    by_contra hzero
    push Not at hzero
    refine hlow ((take_bytesLE_eq_iff (w := 0)).mp ?_)
    rw [List.eq_replicate_of_mem hzero]
    rfl

/-- A deletion does not touch entries under twelve bytes. -/
theorem mem_del_of_twelve {local_max : UInt64} {sindex : Sindex} {batch : List Entry} {e : Entry}
    (hmem : e.stored insertKeySize ∈ sindex.entries) :
    e.stored insertKeySize ∈ (process_sindex_del local_max sindex batch).2.entries := by
  refine mem_process_sindex_del.mpr ⟨hmem, fun e' _ heq ↦ ?_⟩
  have hlength := congrArg List.length heq
  simp [Entry.stored, keyBytes_twelve, keyBytes_entrySize] at hlength

/-- In the code no entry of any set is removed by its deletion. Two entries share a place exactly if
they agree in the secondary key and the low half of the version, and a scan passes over an entry
exactly if that half is zero. -/
theorem not_inverse (local_max : UInt64) (T : List Entry) (e : Entry) :
    ¬ Inverse insertKeySize local_max T e ∧
      ((∀ e' ∈ T, e' ≠ e → (e'.stored insertKeySize).1 ≠ (e.stored insertKeySize).1) ↔
        ∀ e' ∈ T, e' ≠ e → e'.skey = e.skey → e'.version.toUInt32 ≠ e.version.toUInt32) ∧
      (scanStart e.skey ≤ (e.stored insertKeySize).1 ↔ e.version.toUInt32 ≠ 0) := by
  refine ⟨fun h ↦ ?_, ?_, scanStart_le_iff e⟩
  · have hkept : e.stored insertKeySize ∈
        (process_sindex_del local_max (insertEntries insertKeySize local_max T) [e]).2.entries :=
      mem_del_of_twelve h.present
    exact ((h.removes _).mp hkept).2 rfl
  · refine forall_congr' fun e' ↦ imp_congr_right fun _ ↦ imp_congr_right fun _ ↦ ?_
    rw [Entry.stored, Entry.stored, ne_eq, keyBytes_twelve_eq_iff, not_and]

/-- The entry of skey 9, version 16 and pkey 7 stays in the index when it is deleted. -/
theorem not_inverse_one_entry :
    ¬ ∀ (local_max : UInt64) (T : List Entry), ∀ e ∈ T, Inverse insertKeySize local_max T e := by
  intro h
  have hremoves := (h 0 [⟨9, 16, 7⟩] ⟨9, 16, 7⟩ (by decide)).removes
    (Entry.stored insertKeySize ⟨9, 16, 7⟩)
  exact absurd hremoves (by decide)

/-! ### Whole keys -/

/-- Under whole keys, insertion and deletion are inverse for every set of entries that are not
refused. -/
theorem inverse_of_whole_keys {local_max : UInt64} {T : List Entry} {e : Entry} (he : e ∈ T)
    (hversion : local_max < e.version) : Inverse entrySize local_max T e := by
  have hdistinct : ∀ e' ∈ T, e' ≠ e → (e'.stored entrySize).1 ≠ (e.stored entrySize).1 :=
    fun e' _ hne heq ↦ hne (keyBytes_entrySize_inj heq)
  refine ⟨hdistinct, mem_insertEntries he hversion hdistinct, fun x ↦ ?_, ?_⟩
  · rw [mem_process_sindex_del]
    refine and_congr_right fun hx ↦ ?_
    obtain ⟨e', he', rfl⟩ := mem_of_mem_insertEntries hx
    simp only [List.mem_singleton, forall_eq]
    constructor
    · rintro hne heq
      exact hne (congrArg Prod.fst heq)
    · rintro hne heq
      exact hne (congrArg (Entry.stored entrySize) (keyBytes_entrySize_inj heq))
  · rw [scanStart, keyBytes_scan, Entry.stored, keyBytes_entrySize, List.append_assoc]
    refine append_le_append ?_
    by_cases hzero : ∃ b ∈ bytesLE e.version ++ bytesLE e.pkey, b ≠ 0
    · exact replicate_zero_le hzero
    · push Not at hzero
      rw [List.eq_replicate_of_mem hzero]
      simp

end SwitchDelta.Secondary
