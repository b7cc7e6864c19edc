import SwitchDelta.Fs.HashTable

/-!
# The hash table as a finite map

What the hash table of the file system is for: a finite map from unique hashes to entries, of a
bounded size. A table represents a map through the chains of its buckets; each operation on the
table is the operation of the same name on the map, whatever calls came before.
-/

set_option autoImplicit false
set_option relaxedAutoImplicit false

namespace SwitchDelta.Fs

open Foundation HashTable

/-! ### The abstract map -/

/-- The contents of a table: for each unique hash in use, the metadata index and whether it is that
of a directory. -/
abbrev Contents := Finmap fun _ : UniqueHash ↦ UInt64 × Bool

namespace Contents

variable (sha256 : Path → UniqueHash) (capacity : ℕ)

/-- Put an entry, in the place of one under the same hash or where there is room for another. -/
def put (m : Contents) (hashUnique : UniqueHash) (entry : UInt64 × Bool) : Contents × Bool :=
  if hashUnique ∈ m ∨ m.keys.card < capacity then (m.insert hashUnique entry, true) else (m, false)

/-- Remove a hash. The result says whether the bucket of the hash was in use. -/
def del (m : Contents) (hashUnique : UniqueHash) : Contents × Bool :=
  (m.erase hashUnique,
    decide (∃ other ∈ m.keys, getAddressHash other = getAddressHash hashUnique))

/-- One call on the map. A path stands for its hash, and a null pointer changes nothing. -/
def call (m : Contents) : HashTable.Call → Contents × Reply
  | .getHash hashUnique => (m, .got (hashUnique.bind fun k ↦ m.lookup k))
  | .getPath path => (m, .got (path.bind fun p ↦ m.lookup (sha256 p)))
  | .putHash hashUnique indexMeta isDirectory =>
    match hashUnique with
    | none => (m, .done false)
    | some k => ((m.put capacity k (indexMeta, isDirectory)).1,
        .done (m.put capacity k (indexMeta, isDirectory)).2)
  | .putPath path indexMeta isDirectory =>
    match path with
    | none => (m, .done false)
    | some p => ((m.put capacity (sha256 p) (indexMeta, isDirectory)).1,
        .done (m.put capacity (sha256 p) (indexMeta, isDirectory)).2)
  | .delHash hashUnique =>
    match hashUnique with
    | none => (m, .done false)
    | some k => ((m.del k).1, .done (m.del k).2)
  | .delPath path =>
    match path with
    | none => (m, .done false)
    | some p => ((m.del (sha256 p)).1, .done (m.del (sha256 p)).2)

/-- The calls of a list on the map. -/
def calls : Contents → List HashTable.Call → Contents × List Reply
  | m, [] => (m, [])
  | m, c :: cs =>
    ((calls (m.call sha256 capacity c).1 cs).1,
      (m.call sha256 capacity c).2 :: (calls (m.call sha256 capacity c).1 cs).2)

theorem keys_insert (m : Contents) (hashUnique : UniqueHash) (entry : UInt64 × Bool) :
    (m.insert hashUnique entry).keys = insert hashUnique m.keys := by
  ext other
  rw [Finmap.mem_keys, Finmap.mem_insert, Finset.mem_insert, Finmap.mem_keys]

end Contents

/-! ### Tables that represent a map -/

/-- What an item says about the map. -/
def ChainedItem.content (item : ChainedItem) : UniqueHash × UInt64 × Bool :=
  (item.hashUnique, item.indexMeta, item.isDirectory)

namespace HashTable

/-- The links of the chained items. -/
def links (t : HashTable) : ℕ → ℕ := ChainedItem.indexNext ∘ t.itemsChained

/-- The map as a relation: an item of the bucket of the hash has the hash and the entry. -/
def Holds (t : HashTable) (chains : AddressHash → List ℕ) (content : UniqueHash × UInt64 × Bool) :
    Prop :=
  ∃ i ∈ chains (getAddressHash content.1), (t.itemsChained i).content = content

/-- The table after its first free item was occupied. -/
def occupied (t : HashTable) (i : ℕ) (rest : List ℕ) : HashTable :=
  { t with bitmapChainedItems := (t.bitmapChainedItems.set i).1, headFreeBit := rest }

/-- The table after an item in use was released. -/
def released (t : HashTable) (i : ℕ) : HashTable :=
  { t with
    bitmapChainedItems := (t.bitmapChainedItems.clear i).1
    headFreeBit := i :: t.headFreeBit }

/-- The bitmap, its counter and the free list agree on which items are in use. -/
structure Allocated (t : HashTable) (used : ℕ → Prop) : Prop where
  bounded : ∀ i, used i → i < t.bitmapChainedItems.varCountTotal
  occupied : ∀ i < t.bitmapChainedItems.varCountTotal,
    t.bitmapChainedItems.bit i = true ↔ i = 0 ∨ used i
  free_nodup : t.headFreeBit.Nodup
  mem_free : ∀ i, i ∈ t.headFreeBit ↔
    i < t.bitmapChainedItems.varCountTotal ∧ t.bitmapChainedItems.bit i = false
  countFree : t.bitmapChainedItems.varCountFree = t.headFreeBit.length

/-- A table of `count` items represents a map, with the items of each bucket given. -/
structure Represents (count : ℕ) (t : HashTable) (m : Contents) (chains : AddressHash → List ℕ) :
    Prop where
  walk : ∀ a, Chain t.links 0 (t.itemsHash a) (chains a)
  bucket : ∀ a, ∀ i ∈ chains a, getAddressHash (t.itemsChained i).content.1 = a
  distinct : ∀ a, ((chains a).map fun i ↦ (t.itemsChained i).content.1).Nodup
  allocated : t.Allocated fun i ↦ ∃ a, i ∈ chains a
  lookup : ∀ k e, m.lookup k = some e ↔ t.Holds chains (k, e)
  total : t.bitmapChainedItems.varCountTotal = count
  size : m.keys.card + t.headFreeBit.length + 1 = count

namespace Allocated

variable {t t' : HashTable} {used used' : ℕ → Prop} {i : ℕ}

/-- No item in use is free. -/
theorem notMem_free (h : t.Allocated used) (hi : used i) : i ∉ t.headFreeBit := by
  intro hfree
  obtain ⟨hbound, hclear⟩ := (h.mem_free i).mp hfree
  have hset := (h.occupied i hbound).mpr (Or.inr hi)
  exact absurd (hclear.symm.trans hset) (by decide)

/-- The first free item is occupied. -/
theorem occupy (h : t.Allocated used) {rest : List ℕ} (hfree : t.headFreeBit = i :: rest)
    (hbitmap : t'.bitmapChainedItems = (t.bitmapChainedItems.set i).1)
    (hrest : t'.headFreeBit = rest) (hused : ∀ j, used' j ↔ used j ∨ j = i) :
    t'.Allocated used' ∧
      t'.bitmapChainedItems.varCountTotal = t.bitmapChainedItems.varCountTotal := by
  obtain ⟨hbound, hclear⟩ := (h.mem_free i).mp (hfree ▸ List.mem_cons_self)
  obtain ⟨-, hbits, hcount, htotal⟩ := Bitmap.set_of_clear hbound hclear
  rw [← hbitmap] at hbits hcount htotal
  have hnodup := h.free_nodup
  rw [hfree, List.nodup_cons] at hnodup
  refine ⟨⟨fun j hj ↦ ?_, fun j hj ↦ ?_, ?_, fun j ↦ ?_, ?_⟩, htotal⟩
  · rw [htotal]
    rcases (hused j).mp hj with hj | rfl
    · exact h.bounded j hj
    · exact hbound
  · rw [htotal] at hj
    rw [hbits, h.occupied j hj, hused, or_left_comm, or_comm (a := j = i)]
  · rw [hrest]
    exact hnodup.2
  · have hfree' := h.mem_free j
    rw [hfree, List.mem_cons] at hfree'
    rw [hrest, htotal, ← Bool.not_eq_true, hbits, not_or, Bool.not_eq_true]
    constructor
    · intro hj
      have hne : j ≠ i := fun heq ↦ hnodup.1 (heq ▸ hj)
      obtain ⟨hlt, hbit⟩ := hfree'.mp (Or.inr hj)
      exact ⟨hlt, hne, hbit⟩
    · rintro ⟨hlt, hne, hbit⟩
      exact (hfree'.mpr ⟨hlt, hbit⟩).resolve_left hne
  · rw [hcount, h.countFree, hfree, hrest]
    exact Nat.add_sub_cancel _ 1

/-- An item in use is released. -/
theorem release (h : t.Allocated used) (hi : used i) (hne : i ≠ 0)
    (hbitmap : t'.bitmapChainedItems = (t.bitmapChainedItems.clear i).1)
    (hrest : t'.headFreeBit = i :: t.headFreeBit) (hused : ∀ j, used' j ↔ used j ∧ j ≠ i) :
    t'.Allocated used' ∧
      t'.bitmapChainedItems.varCountTotal = t.bitmapChainedItems.varCountTotal := by
  have hbound := h.bounded i hi
  have hset := (h.occupied i hbound).mpr (Or.inr hi)
  obtain ⟨-, hbits, hcount, htotal⟩ := Bitmap.clear_of_set hbound hset
  rw [← hbitmap] at hbits hcount htotal
  refine ⟨⟨fun j hj ↦ ?_, fun j hj ↦ ?_, ?_, fun j ↦ ?_, ?_⟩, htotal⟩
  · rw [htotal]
    exact h.bounded j ((hused j).mp hj).1
  · rw [htotal] at hj
    rw [hbits, h.occupied j hj, hused]
    constructor
    · rintro ⟨hji, hj | hj⟩
      · exact Or.inl hj
      · exact Or.inr ⟨hj, hji⟩
    · rintro (rfl | ⟨hj, hji⟩)
      · exact ⟨hne.symm, Or.inl rfl⟩
      · exact ⟨hji, Or.inr hj⟩
  · rw [hrest]
    exact List.nodup_cons.mpr ⟨h.notMem_free hi, h.free_nodup⟩
  · rw [hrest, List.mem_cons, h.mem_free, htotal, ← Bool.not_eq_true, ← Bool.not_eq_true, hbits]
    by_cases hji : j = i
    · subst hji
      exact iff_of_true (Or.inl rfl) ⟨hbound, fun hj ↦ hj.1 rfl⟩
    · simp [hji]
  · rw [hcount, h.countFree, hrest, List.length_cons]

theorem occupy_eq (h : t.Allocated used) {rest : List ℕ} (hfree : t.headFreeBit = i :: rest) :
    t.occupy = (t.occupied i rest, some i) := by
  obtain ⟨hbound, hclear⟩ := (h.mem_free i).mp (hfree ▸ List.mem_cons_self)
  rw [HashTable.occupy, hfree]
  simp only [(Bitmap.set_of_clear hbound hclear).1, if_true, HashTable.occupied]

theorem release_eq (h : t.Allocated used) (hi : used i) :
    t.release i = (t.released i, true) := by
  have hbound := h.bounded i hi
  have hset := (h.occupied i hbound).mpr (Or.inr hi)
  rw [HashTable.release]
  simp only [(Bitmap.clear_of_set hbound hset).1, if_true, HashTable.released]

end Allocated

namespace Represents

variable {count : ℕ} {t t' : HashTable} {m : Contents} {chains : AddressHash → List ℕ} {k : UniqueHash}
  {e : UInt64 × Bool} {a b : AddressHash} {i : ℕ}

theorem nodup (h : Represents count t m chains) (a : AddressHash) : (chains a).Nodup :=
  (h.distinct a).of_map _

/-- An item is in the chain of one bucket only. -/
theorem unique_bucket (h : Represents count t m chains) (ha : i ∈ chains a) (hb : i ∈ chains b) :
    a = b :=
  (h.bucket a i ha).symm.trans (h.bucket b i hb)

theorem ne_zero (h : Represents count t m chains) (hi : i ∈ chains a) : i ≠ 0 :=
  (h.walk a).ne_nil_of_mem hi

/-- A chain has fewer items than there are. -/
theorem length_le (h : Represents count t m chains) (a : AddressHash) :
    (chains a).length ≤ t.bitmapChainedItems.varCountTotal := by
  have hsub : chains a ⊆ List.range t.bitmapChainedItems.varCountTotal := fun i hi ↦
    List.mem_range.mpr (h.allocated.bounded i ⟨a, hi⟩)
  have hlength := ((h.nodup a).subperm hsub).length_le
  rwa [List.length_range] at hlength

theorem mem_iff (h : Represents count t m chains) :
    k ∈ m ↔ ∃ i ∈ chains (getAddressHash k), (t.itemsChained i).content.1 = k := by
  rw [Finmap.mem_iff]
  constructor
  · rintro ⟨e, he⟩
    obtain ⟨i, hi, hcontent⟩ := (h.lookup k e).mp he
    exact ⟨i, hi, congrArg Prod.fst hcontent⟩
  · rintro ⟨i, hi, hkey⟩
    refine ⟨(t.itemsChained i).content.2, (h.lookup k _).mpr ⟨i, hi, ?_⟩⟩
    exact Prod.ext hkey rfl

/-- A bucket is in use when the map has a key of its address. -/
theorem chain_ne_nil_iff (h : Represents count t m chains) (a : AddressHash) :
    chains a ≠ [] ↔ ∃ other ∈ m.keys, getAddressHash other = a := by
  constructor
  · intro hne
    obtain ⟨i, hi⟩ := List.exists_mem_of_ne_nil _ hne
    refine ⟨(t.itemsChained i).content.1, ?_, h.bucket a i hi⟩
    rw [Finmap.mem_keys, h.mem_iff, h.bucket a i hi]
    exact ⟨i, hi, rfl⟩
  · rintro ⟨other, hmem, rfl⟩
    obtain ⟨i, hi, -⟩ := h.mem_iff.mp (Finmap.mem_keys.mp hmem)
    exact List.ne_nil_of_mem hi

/-- The chain of a hash that is in use, cut at the item that has it. -/
theorem exists_split (h : Represents count t m chains) (hk : k ∈ m) :
    ∃ pre i post, chains (getAddressHash k) = pre ++ i :: post ∧
      (t.itemsChained i).hashUnique = k ∧ ∀ j ∈ pre ++ post, (t.itemsChained j).hashUnique ≠ k := by
  obtain ⟨i, hi, hkey⟩ := h.mem_iff.mp hk
  obtain ⟨pre, post, hsplit⟩ := List.append_of_mem hi
  refine ⟨pre, i, post, hsplit, hkey, fun j hj hsame ↦ ?_⟩
  have hdistinct := h.distinct (getAddressHash k)
  rw [hsplit, List.map_append, List.map_cons, List.nodup_middle] at hdistinct
  obtain ⟨hnot, -⟩ := List.nodup_cons.mp hdistinct
  refine hnot ?_
  rw [← List.map_append]
  exact List.mem_map.mpr ⟨j, hj, hsame.trans hkey.symm⟩

theorem key_ne_of_notMem (h : Represents count t m chains) (hk : k ∉ m) :
    ∀ i ∈ chains (getAddressHash k), (t.itemsChained i).hashUnique ≠ k := fun i hi hkey ↦
  hk (h.mem_iff.mpr ⟨i, hi, hkey⟩)

/-- A walk from the head of a bucket, for a hash that is in use. -/
theorem search_found (h : Represents count t m chains) {pre post : List ℕ}
    (hsplit : chains (getAddressHash k) = pre ++ i :: post) (hkey : (t.itemsChained i).hashUnique = k)
    (hpre : ∀ j ∈ pre ++ post, (t.itemsChained j).hashUnique ≠ k) (before : ℕ) :
    t.search k before (t.itemsHash (getAddressHash k)) = some (.found (pre.getLastD before) i) := by
  have hlength := h.length_le (getAddressHash k)
  rw [hsplit] at hlength
  refine traverse_found (hsplit ▸ h.walk _) hlength (fun j hj ↦ ?_) hkey
  exact hpre j (List.mem_append_left _ hj)

/-- A walk from the head of a bucket, for a hash that is not in use. -/
theorem search_missing (h : Represents count t m chains) (hk : k ∉ m) (before : ℕ) :
    t.search k before (t.itemsHash (getAddressHash k)) =
      some (.missing ((chains (getAddressHash k)).getLastD before)) :=
  traverse_missing (h.walk _) (h.length_le _) (h.key_ne_of_notMem hk)

/-! ### The operations keep the representation -/

/-- `get` returns what the map holds. -/
theorem getAt_eq (h : Represents count t m chains) (k : UniqueHash) :
    t.getAt (getAddressHash k) k = some (m.lookup k) := by
  have hwalk := h.walk (getAddressHash k)
  by_cases hk : k ∈ m
  · obtain ⟨pre, i, post, hsplit, hkey, hpre⟩ := h.exists_split hk
    have hhead : t.itemsHash (getAddressHash k) ≠ 0 := by
      intro hzero
      rw [hwalk.eq_nil_iff.mpr hzero] at hsplit
      exact absurd hsplit.symm (by simp)
    have hlookup : m.lookup k = some (t.itemsChained i).content.2 := by
      refine (h.lookup k _).mpr ⟨i, ?_, Prod.ext hkey rfl⟩
      simp [hsplit]
    rw [getAt, if_neg hhead, h.search_found hsplit hkey hpre, hlookup]
    rfl
  · rw [Finmap.lookup_eq_none.mpr hk, getAt]
    split_ifs with hhead
    · rfl
    · rw [h.search_missing hk]
      rfl

/-- An entry is replaced in place. -/
theorem setEntry (h : Represents count t m chains) {pre post : List ℕ}
    (hsplit : chains (getAddressHash k) = pre ++ i :: post) (hkey : (t.itemsChained i).hashUnique = k)
    (hother : ∀ j ∈ pre ++ post, (t.itemsChained j).hashUnique ≠ k) (e : UInt64 × Bool) :
    Represents count (t.setEntry i e.1 e.2) (m.insert k e) chains := by
  have hi : i ∈ chains (getAddressHash k) := by simp [hsplit]
  have hlinks : (t.setEntry i e.1 e.2).links = t.links := by
    rw [links, HashTable.setEntry, Function.comp_update]
    exact Function.update_eq_self i t.links
  have hcontent : ∀ j, ((t.setEntry i e.1 e.2).itemsChained j).content =
      if j = i then (k, e) else (t.itemsChained j).content := by
    intro j
    simp only [HashTable.setEntry, Function.update_apply]
    split_ifs with hj
    · exact Prod.ext hkey rfl
    · rfl
  have hkeys : ∀ j, ((t.setEntry i e.1 e.2).itemsChained j).content.1 =
      (t.itemsChained j).content.1 := by
    intro j
    rw [hcontent]
    split_ifs with hj
    · exact hj ▸ hkey.symm
    · rfl
  have hmem : k ∈ m := h.mem_iff.mpr ⟨i, hi, hkey⟩
  refine ⟨fun a ↦ hlinks ▸ h.walk a, fun a j hj ↦ (hkeys j).symm ▸ h.bucket a j hj, fun a ↦ ?_,
    ⟨h.allocated.bounded, h.allocated.occupied, h.allocated.free_nodup, h.allocated.mem_free,
      h.allocated.countFree⟩, fun k' e' ↦ ?_, h.total, ?_⟩
  · simp only [hkeys]
    exact h.distinct a
  · by_cases hk : k' = k
    · subst hk
      rw [Finmap.lookup_insert, Option.some_inj]
      constructor
      · rintro rfl
        exact ⟨i, hi, (hcontent i).trans (if_pos rfl)⟩
      · rintro ⟨j, hj, hj'⟩
        rw [hcontent] at hj'
        split_ifs at hj' with hji
        · exact congrArg Prod.snd hj'
        · -- only the item that was found has the hash
          rw [hsplit, List.mem_append, List.mem_cons] at hj
          have hrest : j ∈ pre ++ post := by
            rcases hj with hj | rfl | hj
            · exact List.mem_append_left _ hj
            · exact absurd rfl hji
            · exact List.mem_append_right _ hj
          exact absurd (congrArg Prod.fst hj') (hother j hrest)
    · rw [Finmap.lookup_insert_of_ne _ hk, h.lookup]
      refine exists_congr fun j ↦ and_congr_right fun _ ↦ ?_
      rw [hcontent]
      split_ifs with hji
      · subst hji
        refine iff_of_false (fun hc ↦ hk ?_) (fun hc ↦ hk (congrArg Prod.fst hc).symm)
        exact (congrArg Prod.fst hc).symm.trans hkey
      · exact Iff.rfl
  · rw [Contents.keys_insert, Finset.insert_eq_of_mem (Finmap.mem_keys.mpr hmem)]
    exact h.size

/-- A free item becomes the last one of the chain of a hash that is not in use. -/
theorem extend (h : Represents count t m chains) {rest : List ℕ} (hfree : t.headFreeBit = i :: rest)
    (hk : k ∉ m) (hbitmap : t'.bitmapChainedItems = (t.bitmapChainedItems.set i).1)
    (hrest : t'.headFreeBit = rest)
    (hold : ∀ j, j ≠ i → (t'.itemsChained j).content = (t.itemsChained j).content)
    (hnew : (t'.itemsChained i).content = (k, e))
    (hheads : ∀ a, a ≠ getAddressHash k → t'.itemsHash a = t.itemsHash a)
    (hlinks : ∀ j, j ≠ i → j ∉ chains (getAddressHash k) → t'.links j = t.links j)
    (hwalk : Chain t'.links 0 (t'.itemsHash (getAddressHash k))
      (chains (getAddressHash k) ++ [i])) :
    Represents count t' (m.insert k e)
      (Function.update chains (getAddressHash k) (chains (getAddressHash k) ++ [i])) := by
  have hin : i ∈ t.headFreeBit := hfree ▸ List.mem_cons_self
  have hfresh : ∀ {a j}, j ∈ chains a → j ≠ i := by
    rintro a j hj rfl
    exact h.allocated.notMem_free ⟨a, hj⟩ hin
  have hmem : ∀ a j, j ∈ Function.update chains (getAddressHash k)
      (chains (getAddressHash k) ++ [i]) a ↔ j ∈ chains a ∨ a = getAddressHash k ∧ j = i := by
    intro a j
    rw [Function.update_apply]
    split_ifs with ha
    · subst ha
      simp
    · simp [ha]
  have hused : ∀ j, (∃ a, j ∈ Function.update chains (getAddressHash k)
      (chains (getAddressHash k) ++ [i]) a) ↔ (∃ a, j ∈ chains a) ∨ j = i := by
    intro j
    simp only [hmem, exists_or, exists_and_right, exists_eq, true_and]
  obtain ⟨hallocated, htotal⟩ := h.allocated.occupy hfree hbitmap hrest hused
  refine ⟨fun a ↦ ?_, fun a j hj ↦ ?_, fun a ↦ ?_, hallocated, fun k' e' ↦ ?_,
    htotal.trans h.total, ?_⟩
  · by_cases ha : a = getAddressHash k
    · subst ha
      rw [Function.update_self]
      exact hwalk
    · rw [Function.update_of_ne ha, hheads a ha]
      refine (h.walk a).frame fun j hj ↦ hlinks j (hfresh hj) fun hj' ↦ ha ?_
      exact h.unique_bucket hj hj'
  · rcases (hmem a j).mp hj with hj | ⟨rfl, rfl⟩
    · rw [hold j (hfresh hj)]
      exact h.bucket a j hj
    · rw [hnew]
  · have hsame : ∀ a, (chains a).map (fun j ↦ (t'.itemsChained j).content.1) =
        (chains a).map fun j ↦ (t.itemsChained j).content.1 := by
      intro a
      exact List.map_congr_left fun j hj ↦ congrArg Prod.fst (hold j (hfresh hj))
    by_cases ha : a = getAddressHash k
    · subst ha
      rw [Function.update_self, List.map_append, hsame, List.map_singleton, hnew,
        List.nodup_append_comm]
      refine List.nodup_cons.mpr ⟨fun hin ↦ ?_, h.distinct _⟩
      obtain ⟨j, hj, hkey⟩ := List.mem_map.mp hin
      exact h.key_ne_of_notMem hk j hj hkey
    · rw [Function.update_of_ne ha, hsame]
      exact h.distinct a
  · have hold' : ∀ c : UniqueHash × UInt64 × Bool,
        (∃ j ∈ chains (getAddressHash c.1), (t'.itemsChained j).content = c) ↔
          t.Holds chains c := by
      intro c
      refine exists_congr fun j ↦ and_congr_right fun hj ↦ ?_
      rw [hold j (hfresh hj)]
    have hsplit : t'.Holds (Function.update chains (getAddressHash k)
        (chains (getAddressHash k) ++ [i])) (k', e') ↔
          t.Holds chains (k', e') ∨ (k', e') = (k, e) := by
      rw [← hold' (k', e'), Holds]
      simp only [hmem, or_and_right, exists_or]
      refine or_congr_right ⟨?_, ?_⟩
      · rintro ⟨j, ⟨-, rfl⟩, hj⟩
        exact hj.symm.trans hnew
      · intro heq
        refine ⟨i, ⟨?_, rfl⟩, hnew.trans heq.symm⟩
        exact congrArg getAddressHash (congrArg Prod.fst heq)
    rw [hsplit, ← h.lookup]
    by_cases hk' : k' = k
    · subst hk'
      rw [Finmap.lookup_insert, Finmap.lookup_eq_none.mpr hk]
      simp [eq_comm]
    · rw [Finmap.lookup_insert_of_ne _ hk']
      simp [hk']
  · have hsize := h.size
    rw [hfree, List.length_cons] at hsize
    rw [Contents.keys_insert, Finset.card_insert_of_notMem (mt Finmap.mem_keys.mp hk), hrest]
    omega

/-- The item of a hash that is in use leaves its chain and becomes free. -/
theorem shrink (h : Represents count t m chains) {pre post : List ℕ}
    (hsplit : chains (getAddressHash k) = pre ++ i :: post) (hkey : (t.itemsChained i).hashUnique = k)
    (hother : ∀ j ∈ pre ++ post, (t.itemsChained j).hashUnique ≠ k)
    (hbitmap : t'.bitmapChainedItems = (t.bitmapChainedItems.clear i).1)
    (hfree : t'.headFreeBit = i :: t.headFreeBit)
    (hcontent : ∀ j, (t'.itemsChained j).content = (t.itemsChained j).content)
    (hheads : ∀ a, a ≠ getAddressHash k → t'.itemsHash a = t.itemsHash a)
    (hlinks : ∀ j, j ∉ chains (getAddressHash k) → t'.links j = t.links j)
    (hwalk : Chain t'.links 0 (t'.itemsHash (getAddressHash k)) (pre ++ post)) :
    Represents count t' (m.erase k) (Function.update chains (getAddressHash k) (pre ++ post)) := by
  have hi : i ∈ chains (getAddressHash k) := by simp [hsplit]
  have hmem : ∀ a j, j ∈ Function.update chains (getAddressHash k) (pre ++ post) a ↔
      j ∈ chains a ∧ j ≠ i := by
    intro a j
    have hnodup := h.nodup (getAddressHash k)
    rw [hsplit, List.nodup_middle, List.nodup_cons] at hnodup
    rw [Function.update_apply]
    split_ifs with ha
    · subst ha
      rw [hsplit, List.perm_middle.mem_iff, List.mem_cons]
      constructor
      · exact fun hj ↦ ⟨Or.inr hj, fun heq ↦ hnodup.1 (heq ▸ hj)⟩
      · exact fun hj ↦ hj.1.resolve_left hj.2
    · refine ⟨fun hj ↦ ⟨hj, fun heq ↦ ha ?_⟩, fun hj ↦ hj.1⟩
      exact h.unique_bucket hj (heq ▸ hi)
  have hused : ∀ j, (∃ a, j ∈ Function.update chains (getAddressHash k) (pre ++ post) a) ↔
      (∃ a, j ∈ chains a) ∧ j ≠ i := by
    intro j
    simp only [hmem, exists_and_right]
  obtain ⟨hallocated, htotal⟩ :=
    h.allocated.release ⟨_, hi⟩ (h.ne_zero hi) hbitmap hfree hused
  refine ⟨fun a ↦ ?_, fun a j hj ↦ ?_, fun a ↦ ?_, hallocated, fun k' e' ↦ ?_,
    htotal.trans h.total, ?_⟩
  · by_cases ha : a = getAddressHash k
    · subst ha
      rw [Function.update_self]
      exact hwalk
    · rw [Function.update_of_ne ha, hheads a ha]
      exact (h.walk a).frame fun j hj ↦ hlinks j fun hj' ↦ ha (h.unique_bucket hj hj')
  · rw [hcontent]
    exact h.bucket a j ((hmem a j).mp hj).1
  · simp only [hcontent]
    by_cases ha : a = getAddressHash k
    · subst ha
      have hdistinct := h.distinct (getAddressHash k)
      rw [hsplit, List.map_append, List.map_cons, List.nodup_middle, List.nodup_cons,
        ← List.map_append] at hdistinct
      rw [Function.update_self]
      exact hdistinct.2
    · rw [Function.update_of_ne ha]
      exact h.distinct a
  · have hholds : t'.Holds (Function.update chains (getAddressHash k) (pre ++ post)) (k', e') ↔
        t.Holds chains (k', e') ∧ k' ≠ k := by
      simp only [Holds, hmem, hcontent]
      constructor
      · rintro ⟨j, ⟨hj, hne⟩, hj'⟩
        refine ⟨⟨j, hj, hj'⟩, ?_⟩
        rintro rfl
        have hrest : j ∈ pre ++ post := by
          rw [hsplit, List.perm_middle.mem_iff, List.mem_cons] at hj
          exact hj.resolve_left hne
        exact hother j hrest (congrArg Prod.fst hj')
      · rintro ⟨⟨j, hj, hj'⟩, hne⟩
        refine ⟨j, ⟨hj, ?_⟩, hj'⟩
        rintro rfl
        exact hne ((congrArg Prod.fst hj').symm.trans hkey)
    rw [hholds, ← h.lookup]
    by_cases hk' : k' = k
    · subst hk'
      rw [Finmap.lookup_erase]
      simp
    · rw [Finmap.lookup_erase_ne hk']
      simp [hk']
  · have hmem' : k ∈ m.keys := Finmap.mem_keys.mpr (h.mem_iff.mpr ⟨i, hi, hkey⟩)
    have hpos := Finset.card_pos.mpr ⟨k, hmem'⟩
    have hsize := h.size
    rw [Finmap.keys_erase, Finset.card_erase_of_mem hmem', hfree, List.length_cons]
    omega

/-- A chain in use does not start at zero. -/
theorem head_ne_zero (h : Represents count t m chains) (hi : i ∈ chains a) : t.itemsHash a ≠ 0 := by
  intro hzero
  rw [(h.walk a).eq_nil_iff.mpr hzero] at hi
  exact List.not_mem_nil hi

/-- The map has room while an item is free. -/
theorem room_iff (h : Represents count t m chains) :
    m.keys.card < count - 1 ↔ t.headFreeBit ≠ [] := by
  have hsize := h.size
  rw [← List.length_pos_iff]
  omega

theorem ne_free (h : Represents count t m chains) {rest : List ℕ} (hfree : t.headFreeBit = i :: rest)
    {j : ℕ} (hj : j ∈ chains a) : j ≠ i := by
  rintro rfl
  exact h.allocated.notMem_free ⟨a, hj⟩ (hfree ▸ List.mem_cons_self)

theorem free_ne_zero (h : Represents count t m chains) (hi : i ∈ t.headFreeBit) : i ≠ 0 := by
  rintro rfl
  obtain ⟨hbound, hclear⟩ := (h.allocated.mem_free 0).mp hi
  have hset := (h.allocated.occupied 0 hbound).mpr (Or.inl rfl)
  exact absurd (hclear.symm.trans hset) (by decide)

/-- A free item becomes the head of an empty bucket. -/
theorem extend_head (h : Represents count t m chains) {rest : List ℕ}
    (hfree : t.headFreeBit = i :: rest) (hk : k ∉ m) (hnil : chains (getAddressHash k) = [])
    (e : UInt64 × Bool) :
    Represents count
      (((t.occupied i rest).fill i k e.1 e.2).setHead (getAddressHash k) i) (m.insert k e)
      (Function.update chains (getAddressHash k) (chains (getAddressHash k) ++ [i])) := by
  refine h.extend hfree hk rfl rfl (fun j hj ↦ ?_) ?_ (fun a ha ↦ ?_) (fun j hj _ ↦ ?_) ?_
  · simp [fill, setHead, occupied, hj]
  · simp [fill, setHead, ChainedItem.content]
  · simp [fill, setHead, occupied, ha]
  · simp [links, fill, setHead, occupied, hj]
  · rw [hnil]
    simp [links, fill, setHead, h.free_ne_zero (hfree ▸ List.mem_cons_self)]

/-- A free item is linked behind the last item of a bucket. -/
theorem extend_last (h : Represents count t m chains) {rest l : List ℕ} {last : ℕ}
    (hfree : t.headFreeBit = i :: rest) (hk : k ∉ m)
    (hlast : chains (getAddressHash k) = l ++ [last]) (e : UInt64 × Bool) :
    Represents count
      (((t.occupied i rest).fill i k e.1 e.2).setNext last i) (m.insert k e)
      (Function.update chains (getAddressHash k) (chains (getAddressHash k) ++ [i])) := by
  have hmem : last ∈ chains (getAddressHash k) := by simp [hlast]
  have hne : last ≠ i := h.ne_free hfree hmem
  refine h.extend hfree hk rfl rfl (fun j hj ↦ ?_) ?_ (fun a ha ↦ rfl) (fun j hj hj' ↦ ?_) ?_
  · by_cases hjl : j = last
    · subst hjl
      simp [fill, setNext, occupied, hj, ChainedItem.content]
    · simp [fill, setNext, occupied, hj, hjl]
  · simp [fill, setNext, hne.symm, ChainedItem.content]
  · have hjl : j ≠ last := fun heq ↦ hj' (heq ▸ hmem)
    simp [links, fill, setNext, occupied, hj, hjl]
  · have hlinks : (((t.occupied i rest).fill i k e.1 e.2).setNext last i).links =
        Function.update (Function.update t.links i 0) last i := by
      rw [links, setNext, Function.comp_update, fill, Function.comp_update]
      rfl
    have hwalk := h.walk (getAddressHash k)
    have hnodup := h.nodup (getAddressHash k)
    rw [hlast] at hwalk hnodup
    rw [hlinks, hlast]
    refine hwalk.append hnodup (h.free_ne_zero (hfree ▸ List.mem_cons_self)) fun hmem' ↦ ?_
    exact h.ne_free hfree (hlast ▸ hmem') rfl

/-- `put` on the table is `put` on the map. -/
theorem putAt_eq (h : Represents count t m chains) (k : UniqueHash) (e : UInt64 × Bool) :
    ∃ t' chains', t.putAt (getAddressHash k) k e.1 e.2 = some (t', (m.put (count - 1) k e).2) ∧
      Represents count t' (m.put (count - 1) k e).1 chains' := by
  rw [Contents.put]
  by_cases hk : k ∈ m
  · -- the entry of the hash is replaced
    obtain ⟨pre, i, post, hsplit, hkey, hother⟩ := h.exists_split hk
    have hi : i ∈ chains (getAddressHash k) := by simp [hsplit]
    rw [if_pos (Or.inl hk)]
    refine ⟨t.setEntry i e.1 e.2, chains, ?_, h.setEntry hsplit hkey hother e⟩
    rw [putAt, if_neg (h.head_ne_zero hi), h.search_found hsplit hkey hother]
    rfl
  · cases hfree : t.headFreeBit with
    | nil =>
      -- no item is left, and the table stays as it is
      have hroom : ¬(k ∈ m ∨ m.keys.card < count - 1) := by
        rw [h.room_iff, hfree]
        exact not_or.mpr ⟨hk, not_not_intro rfl⟩
      have hoccupy : t.occupy = (t, none) := by rw [occupy, hfree]
      rw [if_neg hroom]
      refine ⟨t, chains, ?_, h⟩
      rw [putAt, hoccupy, h.search_missing hk]
      split_ifs <;> rfl
    | cons i rest =>
      have hroom : k ∈ m ∨ m.keys.card < count - 1 :=
        Or.inr (h.room_iff.mpr (hfree ▸ List.cons_ne_nil _ _))
      have hoccupy := h.allocated.occupy_eq hfree
      rw [if_pos hroom]
      rcases List.eq_nil_or_concat' (chains (getAddressHash k)) with hnil | ⟨l, last, hlast⟩
      · refine ⟨_, _, ?_, h.extend_head hfree hk hnil e⟩
        rw [putAt, if_pos ((h.walk _).eq_nil_iff.mp hnil), hoccupy]
      · have hmem : last ∈ chains (getAddressHash k) := by simp [hlast]
        have hsearch := h.search_missing hk 0
        rw [hlast, List.getLastD_concat] at hsearch
        refine ⟨_, _, ?_, h.extend_last hfree hk hlast e⟩
        rw [putAt, if_neg (h.head_ne_zero hmem), hsearch, hoccupy]
        rfl

/-- The first item of a bucket leaves it. -/
theorem shrink_head (h : Represents count t m chains) {post : List ℕ}
    (hsplit : chains (getAddressHash k) = i :: post) (hkey : (t.itemsChained i).hashUnique = k)
    (hother : ∀ j ∈ post, (t.itemsChained j).hashUnique ≠ k) :
    Represents count
      ((t.released i).setHead (getAddressHash k) (t.itemsChained i).indexNext) (m.erase k)
      (Function.update chains (getAddressHash k) post) := by
  have hwalk := h.walk (getAddressHash k)
  rw [hsplit] at hwalk
  have hsplit' : chains (getAddressHash k) = [] ++ i :: post := hsplit
  refine h.shrink hsplit' hkey hother rfl rfl (fun _ ↦ rfl) (fun a ha ↦ ?_) (fun _ _ ↦ rfl) ?_
  · simp [setHead, released, ha]
  · simp only [setHead, released, Function.update_self]
    exact hwalk.2.2

/-- An item that follows another one leaves its bucket. -/
theorem shrink_next (h : Represents count t m chains) {pre post : List ℕ} {before : ℕ}
    (hsplit : chains (getAddressHash k) = (pre ++ [before]) ++ i :: post)
    (hkey : (t.itemsChained i).hashUnique = k)
    (hother : ∀ j ∈ (pre ++ [before]) ++ post, (t.itemsChained j).hashUnique ≠ k) :
    Represents count
      ((t.released i).setNext before (t.itemsChained i).indexNext) (m.erase k)
      (Function.update chains (getAddressHash k) ((pre ++ [before]) ++ post)) := by
  have hmem : before ∈ chains (getAddressHash k) := by simp [hsplit]
  refine h.shrink hsplit hkey hother rfl rfl (fun j ↦ ?_) (fun _ _ ↦ rfl) (fun j hj ↦ ?_) ?_
  · by_cases hj : j = before
    · subst hj
      simp [setNext, released, ChainedItem.content]
    · simp [setNext, released, hj]
  · have hne : j ≠ before := fun heq ↦ hj (heq ▸ hmem)
    simp [links, setNext, released, hne]
  · have hlinks : ((t.released i).setNext before (t.itemsChained i).indexNext).links =
        Function.update t.links before (t.links i) := by
      rw [links, setNext, Function.comp_update]
      rfl
    have hwalk := h.walk (getAddressHash k)
    have hnodup := h.nodup (getAddressHash k)
    rw [hsplit, List.append_assoc, List.singleton_append] at hwalk hnodup
    rw [hlinks, List.append_assoc, List.singleton_append]
    exact hwalk.unlink hnodup

theorem del_snd (h : Represents count t m chains) (k : UniqueHash) :
    (m.del k).2 = decide (chains (getAddressHash k) ≠ []) := by
  rw [Contents.del]
  exact decide_eq_decide.mpr (h.chain_ne_nil_iff _).symm

/-- `del` on the table is `del` on the map. -/
theorem delAt_eq (h : Represents count t m chains) (k : UniqueHash) :
    ∃ t' chains', t.delAt (getAddressHash k) k = some (t', (m.del k).2) ∧
      Represents count t' (m.del k).1 chains' := by
  have herase : k ∉ m → m.erase k = m := by
    intro hk
    refine Finmap.ext_lookup fun other ↦ ?_
    by_cases hother : other = k
    · rw [hother, Finmap.lookup_erase, Finmap.lookup_eq_none.mpr hk]
    · exact Finmap.lookup_erase_ne hother
  have hwalk := h.walk (getAddressHash k)
  have hlength := h.length_le (getAddressHash k)
  rw [h.del_snd]
  by_cases hk : k ∈ m
  · obtain ⟨pre, i, post, hsplit, hkey, hother⟩ := h.exists_split hk
    have hi : i ∈ chains (getAddressHash k) := by simp [hsplit]
    have hresult : decide (chains (getAddressHash k) ≠ []) = true :=
      decide_eq_true (List.ne_nil_of_mem hi)
    have hrelease := h.allocated.release_eq ⟨_, hi⟩
    rw [hresult]
    rcases List.eq_nil_or_concat' pre with rfl | ⟨l, before, hbefore⟩
    · -- the head of the bucket has the hash
      have hhead : t.itemsHash (getAddressHash k) = i := by
        rw [hsplit] at hwalk
        exact hwalk.1
      refine ⟨_, _, ?_, h.shrink_head hsplit hkey hother⟩
      rw [delAt, hhead, if_neg (h.ne_zero hi), if_pos hkey, hrelease]
      rfl
    · -- the walk starts behind the head
      subst hbefore
      refine ⟨_, _, ?_, h.shrink_next hsplit hkey hother⟩
      cases hpre : l ++ [before] with
      | nil => exact absurd hpre (by simp)
      | cons head pre =>
        rw [hsplit, hpre] at hwalk hlength
        rw [hpre] at hother
        obtain ⟨hhead, hne, hrest⟩ := hwalk
        have hlast : pre.getLastD head = before := by
          have hD : (l ++ [before]).getLastD 0 = before := List.getLastD_concat
          rwa [hpre, List.getLastD_cons] at hD
        have hsearch : t.search k head (t.itemsChained head).indexNext =
            some (.found before i) := by
          rw [← hlast]
          refine traverse_found hrest (Nat.le_of_succ_le hlength) (fun j hj ↦ hother j ?_) hkey
          exact List.mem_cons_of_mem _ (List.mem_append_left _ hj)
        rw [delAt, hhead, if_neg hne, if_neg (hother head List.mem_cons_self), hsearch]
        simp only [Option.bind_eq_bind, Option.bind_some, hrelease]
        rfl
  · have hdel : (m.del k).1 = m := herase hk
    rw [hdel]
    refine ⟨t, chains, ?_, h⟩
    cases hchain : chains (getAddressHash k) with
    | nil =>
      rw [delAt, if_pos (hwalk.eq_nil_iff.mp hchain)]
      rfl
    | cons head l =>
      have hother := h.key_ne_of_notMem hk
      rw [hchain] at hwalk hlength hother
      obtain ⟨hhead, hne, hrest⟩ := hwalk
      obtain ⟨hfirst, htail⟩ := List.forall_mem_cons.mp hother
      have hsearch : t.search k head (t.itemsChained head).indexNext =
          some (.missing (l.getLastD head)) :=
        traverse_missing hrest (Nat.le_of_succ_le hlength) htail
      rw [delAt, hhead, if_neg hne, if_neg hfirst, hsearch]
      rfl

end Represents

/-! ### Runs -/

section Runs

variable {count : ℕ} {t : HashTable} {m : Contents} {chains : AddressHash → List ℕ}
  (sha256 : Path → UniqueHash)

/-- One call keeps the representation and replies as the map does. -/
theorem Represents.call_eq (h : Represents count t m chains) (c : Call) :
    ∃ t' chains', t.call sha256 c = some (t', (m.call sha256 (count - 1) c).2) ∧
      Represents count t' (m.call sha256 (count - 1) c).1 chains' := by
  have hget : ∀ k, t.getHash (some k) = some (m.lookup k) := h.getAt_eq
  have hput : ∀ k e, ∃ t' chains', t.putHash e.1 e.2 (some k) =
      some (t', (m.put (count - 1) k e).2) ∧
        Represents count t' (m.put (count - 1) k e).1 chains' := h.putAt_eq
  have hdel : ∀ k, ∃ t' chains', t.delHash (some k) = some (t', (m.del k).2) ∧
      Represents count t' (m.del k).1 chains' := h.delAt_eq
  cases c with
  | getHash hashUnique =>
    refine ⟨t, chains, ?_, h⟩
    cases hashUnique with
    | none => rfl
    | some k => rw [call, hget]; rfl
  | getPath path =>
    refine ⟨t, chains, ?_, h⟩
    cases path with
    | none => rfl
    | some p => exact congrArg (Option.map _) (hget (sha256 p))
  | putHash hashUnique indexMeta isDirectory =>
    cases hashUnique with
    | none => exact ⟨t, chains, rfl, h⟩
    | some k =>
      obtain ⟨t', chains', heq, h'⟩ := hput k (indexMeta, isDirectory)
      exact ⟨t', chains', congrArg (Option.map _) heq, h'⟩
  | putPath path indexMeta isDirectory =>
    cases path with
    | none => exact ⟨t, chains, rfl, h⟩
    | some p =>
      obtain ⟨t', chains', heq, h'⟩ := hput (sha256 p) (indexMeta, isDirectory)
      exact ⟨t', chains', congrArg (Option.map _) heq, h'⟩
  | delHash hashUnique =>
    cases hashUnique with
    | none => exact ⟨t, chains, rfl, h⟩
    | some k =>
      obtain ⟨t', chains', heq, h'⟩ := hdel k
      exact ⟨t', chains', congrArg (Option.map _) heq, h'⟩
  | delPath path =>
    cases path with
    | none => exact ⟨t, chains, rfl, h⟩
    | some p =>
      obtain ⟨t', chains', heq, h'⟩ := hdel (sha256 p)
      exact ⟨t', chains', congrArg (Option.map _) heq, h'⟩

/-- So does every sequence of calls. -/
theorem Represents.calls_eq (h : Represents count t m chains) (cs : List Call) :
    ∃ t' chains', t.calls sha256 cs = some (t', (m.calls sha256 (count - 1) cs).2) ∧
      Represents count t' (m.calls sha256 (count - 1) cs).1 chains' := by
  induction cs generalizing t m chains with
  | nil => exact ⟨t, chains, rfl, h⟩
  | cons c cs ih =>
    obtain ⟨t₁, chains₁, hcall, h₁⟩ := h.call_eq sha256 c
    obtain ⟨t₂, chains₂, hcalls, h₂⟩ := ih h₁
    refine ⟨t₂, chains₂, ?_, h₂⟩
    rw [calls, hcall]
    change (calls sha256 t₁ cs).bind _ = _
    rw [hcalls]
    rfl

/-- What the constructor returns on a zeroed buffer. -/
theorem construct_zeroed_iff : construct Buffer.zeroed count = some t ↔
    ∃ bitmap, Bitmap.construct count (fun _ ↦ 0) = some bitmap ∧ (bitmap.set 0).2 = true ∧
      t = { bitmapChainedItems := (bitmap.set 0).1
            itemsHash := Buffer.zeroed.itemsHash
            itemsChained := Buffer.zeroed.itemsChained
            headFreeBit := (List.range' 1 ((bitmap.set 0).1.countTotal - 1)).reverse } := by
  rw [construct, Option.bind_eq_bind, Option.bind_eq_some_iff]
  refine exists_congr fun bitmap ↦ and_congr_right fun _ ↦ ?_
  rcases hset : bitmap.set 0 with ⟨bitmap', _ | _⟩
  · simp
  · simp [eq_comm]

/-- The constructor returns for every positive multiple of eight whose bytes an `unsigned int` can
count. -/
theorem construct_isSome_iff : (construct Buffer.zeroed count).isSome = true ↔
    0 < count ∧ count % 8 = 0 ∧ count / 8 < 2 ^ 32 := by
  rw [Option.isSome_iff_exists]
  simp only [construct_zeroed_iff]
  rw [exists_comm]
  simp only [exists_and_left, exists_eq, and_true]
  constructor
  · rintro ⟨bitmap, hbitmap, hset⟩
    obtain ⟨htotal, -, -⟩ := Bitmap.construct_zeroed hbitmap
    have hpos : 0 < count := by
      by_contra hzero
      rw [Bitmap.set, if_neg (htotal ▸ hzero)] at hset
      exact Bool.false_ne_true hset
    rw [Bitmap.construct] at hbitmap
    split_ifs at hbitmap with hcount
    exact ⟨hpos, hcount⟩
  · rintro ⟨hpos, hcount⟩
    have hbitmap := Bitmap.construct_isSome hcount (fun _ ↦ 0)
    obtain ⟨bitmap, hbitmap⟩ := Option.isSome_iff_exists.mp hbitmap
    obtain ⟨htotal, -, hclear⟩ := Bitmap.construct_zeroed hbitmap
    exact ⟨bitmap, hbitmap, (Bitmap.set_of_clear (htotal ▸ hpos) (hclear 0)).1⟩

/-- The constructor lays an empty map over a zeroed buffer. -/
theorem construct_represents (h : construct Buffer.zeroed count = some t) :
    Represents count t ∅ fun _ ↦ [] := by
  obtain ⟨hpos, -, -⟩ := construct_isSome_iff.mp (Option.isSome_iff_exists.mpr ⟨t, h⟩)
  obtain ⟨bitmap, hbitmap, -, rfl⟩ := construct_zeroed_iff.mp h
  obtain ⟨htotal, hfree, hclear⟩ := Bitmap.construct_zeroed hbitmap
  obtain ⟨-, hbits, hcount, htotal'⟩ := Bitmap.set_of_clear (htotal ▸ hpos) (hclear 0)
  have hbit : ∀ i, (bitmap.set 0).1.bit i = true ↔ i = 0 := by
    intro i
    rw [hbits, hclear]
    simp
  have htotal₀ := htotal'.trans htotal
  refine ⟨fun _ ↦ rfl, fun _ _ hi ↦ absurd hi List.not_mem_nil, fun _ ↦ List.nodup_nil,
    ⟨fun _ hi ↦ ?_, fun i _ ↦ ?_, ?_, fun i ↦ ?_, ?_⟩, fun k e ↦ ?_, htotal₀, ?_⟩
  · exact absurd hi (by simp)
  · rw [hbit]
    simp
  · exact List.nodup_reverse.mpr List.nodup_range'
  · rw [← Bool.not_eq_true, hbit, List.mem_reverse, List.mem_range'_1, Bitmap.countTotal, htotal₀]
    omega
  · rw [List.length_reverse, List.length_range', Bitmap.countTotal, htotal₀, hcount, hfree]
  · refine iff_of_false (by simp) ?_
    rintro ⟨i, hi, -⟩
    exact absurd hi List.not_mem_nil
  · rw [List.length_reverse, List.length_range', Bitmap.countTotal, htotal₀, Finmap.keys_empty,
      Finset.card_empty]
    omega

/-- The hash table refines a finite map. The constructor returns a table for every positive multiple
of eight that its counter can hold, and every sequence of calls on that table returns, with the
replies of the map. Afterwards the chain of each bucket is acyclic and holds items of its own bucket
only, no item is in two chains, the free list holds each clear bit of the bitmap once and never item
zero, the counter of the items is the number of keys, a `put` fails exactly when its key is absent
and no item is free, and the overloads by path are those by unique hash. -/
theorem hash_table_refines_map (sha256 : Path → UniqueHash) (count : ℕ) :
    ((construct Buffer.zeroed count).isSome = true ↔
      0 < count ∧ count % 8 = 0 ∧ count / 8 < 2 ^ 32) ∧
    ∀ t₀, construct Buffer.zeroed count = some t₀ → ∀ (cs : List Call) (m : Contents)
      (replies : List Reply), Contents.calls sha256 (count - 1) ∅ cs = (m, replies) →
      ∃ t chains, t₀.calls sha256 cs = some (t, replies) ∧ Represents count t m chains ∧
        (∀ a, (chains a).Nodup) ∧ (∀ a b, a ≠ b → (chains a).Disjoint (chains b)) ∧
        0 ∉ t.headFreeBit ∧ t.getSavedChainedItemsCount = m.keys.card ∧
        (∀ k indexMeta isDirectory,
          (t.putHash indexMeta isDirectory (some k)).map Prod.snd = some false ↔
            k ∉ m ∧ t.headFreeBit = []) ∧
        ∀ path, t.getPath sha256 (some path) = t.getHash (some (sha256 path)) ∧
          (∀ indexMeta isDirectory, t.putPath sha256 indexMeta isDirectory (some path) =
            t.putHash indexMeta isDirectory (some (sha256 path))) ∧
          t.delPath sha256 (some path) = t.delHash (some (sha256 path)) := by
  refine ⟨construct_isSome_iff, fun t₀ h₀ cs m replies hm ↦ ?_⟩
  obtain ⟨t, chains, hcalls, h⟩ := (construct_represents h₀).calls_eq sha256 cs
  simp only [hm] at hcalls h
  refine ⟨t, chains, hcalls, h, h.nodup, fun a b hab ↦ ?_, fun hzero ↦ h.free_ne_zero hzero rfl, ?_,
    fun k indexMeta isDirectory ↦ ?_, fun path ↦ ⟨rfl, fun _ _ ↦ rfl, rfl⟩⟩
  · exact fun i ha hb ↦ hab (h.unique_bucket ha hb)
  · have hsize := h.size
    rw [getSavedChainedItemsCount, Bitmap.countTotal, Bitmap.countFree, h.total,
      h.allocated.countFree]
    omega
  · obtain ⟨t', -, hput, -⟩ := h.putAt_eq k (indexMeta, isDirectory)
    change (t.putAt (getAddressHash k) k indexMeta isDirectory).map Prod.snd = some false ↔ _
    rw [hput, Contents.put]
    have hroom := h.room_iff
    split_ifs with hk
    · refine iff_of_false (by simp) ?_
      rintro ⟨habsent, hnil⟩
      exact hroom.mp (hk.resolve_left habsent) hnil
    · obtain ⟨habsent, hfull⟩ := not_or.mp hk
      exact iff_of_true rfl ⟨habsent, not_not.mp (mt hroom.mpr hfull)⟩

/-- On a table of eight items: a path is put and found under its hash, and it is gone after it was
deleted. -/
theorem hash_table_refines_map_eight :
    ∃ t₀ t, construct Buffer.zeroed 8 = some t₀ ∧
      t₀.calls (fun path ↦ ⟨fun _ ↦ UInt64.ofNat path.length⟩)
        [.putPath (some [47]) 5 true, .getHash (some ⟨fun _ ↦ 1⟩), .delHash (some ⟨fun _ ↦ 1⟩),
          .getPath (some [47])] =
      some (t, [.done true, .got (some (5, true)), .done true, .got none]) := by
  obtain ⟨hreturns, hruns⟩ :=
    hash_table_refines_map (fun path ↦ ⟨fun _ ↦ UInt64.ofNat path.length⟩) 8
  obtain ⟨t₀, h₀⟩ := Option.isSome_iff_exists.mp (hreturns.mpr (by decide))
  obtain ⟨t, -, hcalls, -⟩ := hruns t₀ h₀ _ _ _ rfl
  exact ⟨t₀, t, h₀, hcalls⟩

end Runs

end HashTable

end SwitchDelta.Fs
