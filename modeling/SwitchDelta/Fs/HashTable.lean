import SwitchDelta.Foundation.IntrusiveList
import SwitchDelta.Fs.Bitmap

/-!
# The hash table of the file system

`HashTable` of the metadata servers, which finds the metadata of a path: an array of bucket heads,
an array of chained items that link to each other by index, a bitmap of the occupied items and a
list of the free ones. Item `0` is reserved, so that index `0` ends a chain.

Every public operation holds one mutex from its first access to the table to its last, so a run of
the table is a sequence of calls. The two overloads of each operation are one body that is given the
hashes; they differ in how the hashes are obtained.
-/

set_option autoImplicit false
set_option relaxedAutoImplicit false

namespace SwitchDelta.Fs

open Foundation

/-- `UniqueHash`. -/
structure UniqueHash where
  value : Fin 4 → UInt64
  deriving DecidableEq

/-- The words of a hash are numbered by literals. -/
scoped instance instNeZeroFour : NeZero 4 := ⟨by decide⟩

/-- `AddressHash`. -/
abbrev AddressHash := UInt64

/-- `ChainedItem`. -/
structure ChainedItem where
  indexNext : ℕ
  indexMeta : UInt64
  isDirectory : Bool
  hashUnique : UniqueHash

/-- A path, as the bytes before its terminator. -/
abbrev Path := List UInt8

/-- `HashTable`. The chain of `FreeBit`s that `headFreeBit` points to is the list of their
positions. -/
structure HashTable where
  bitmapChainedItems : Bitmap
  itemsHash : AddressHash → ℕ
  itemsChained : ℕ → ChainedItem
  headFreeBit : List ℕ

namespace HashTable

/-! ### Hashes

`sha256` stands for `SHA256::CalculateDigest`, whose 32 bytes are read as four words. -/

section Hashes

variable (sha256 : Path → UniqueHash)

/-- `HashTable::getAddressHash` of a unique hash: its low twenty bits. -/
def getAddressHash (hashUnique : UniqueHash) : AddressHash := hashUnique.value 0 &&& 0xFFFFF

/-- `HashTable::getAddressHash` of a path. -/
def getAddressHashOfPath (path : Path) : AddressHash := (sha256 path).value 0 &&& 0xFFFFF

/-- `HashTable::getUniqueHash`. -/
def getUniqueHash (path : Path) : UniqueHash := sha256 path

end Hashes

/-! ### The three operations -/

/-- How a walk along a chain ended: with `indexBeforeCurrent` and `indexCurrent` at a matching
item, or with `indexBeforeCurrent` at the last item. -/
inductive Traversal where
  | found (indexBeforeCurrent indexCurrent : ℕ)
  | missing (indexBeforeCurrent : ℕ)
  deriving DecidableEq

/-- The loop of `get`, `put` and `del` over the items of a chain. The first two enter it in the
middle, with a head that is not zero. A walk that takes more steps than there are items never ends,
which is `none`. -/
def traverse (itemsChained : ℕ → ChainedItem) (hashUnique : UniqueHash) :
    ℕ → ℕ → ℕ → Option Traversal
  | steps, indexBeforeCurrent, indexCurrent =>
    if indexCurrent = 0 then some (.missing indexBeforeCurrent)
    else
      match steps with
      | 0 => none
      | steps + 1 =>
        if (itemsChained indexCurrent).hashUnique = hashUnique then
          some (.found indexBeforeCurrent indexCurrent)
        else
          traverse itemsChained hashUnique steps indexCurrent (itemsChained indexCurrent).indexNext

/-- The walk of a table. -/
def search (t : HashTable) (hashUnique : UniqueHash) (indexBeforeCurrent indexCurrent : ℕ) :
    Option Traversal :=
  traverse t.itemsChained hashUnique t.bitmapChainedItems.countTotal indexBeforeCurrent indexCurrent

/-- The common body of `HashTable::get`: what is stored in `*indexMeta` and `*isDirectory`, or the
result `false`. -/
def getAt (t : HashTable) (hashAddress : AddressHash) (hashUnique : UniqueHash) :
    Option (Option (UInt64 × Bool)) :=
  let indexHead := t.itemsHash hashAddress
  if indexHead = 0 then some none
  else do
    match ← t.search hashUnique 0 indexHead with
    | .found _ indexCurrent =>
      some (some ((t.itemsChained indexCurrent).indexMeta, (t.itemsChained indexCurrent).isDirectory))
    | .missing _ => some none

/-- Take an item off the free list and occupy it in the bitmap. Where the bitmap refuses the
position, the item stays off the list. -/
def occupy (t : HashTable) : HashTable × Option ℕ :=
  match t.headFreeBit with
  | [] => (t, none)
  | index :: rest =>
    let (bitmap, succeeded) := t.bitmapChainedItems.set index
    ({ t with bitmapChainedItems := bitmap, headFreeBit := rest },
      if succeeded then some index else none)

/-- Fill an item, as the last one of its chain. -/
def fill (t : HashTable) (index : ℕ) (hashUnique : UniqueHash) (indexMeta : UInt64)
    (isDirectory : Bool) : HashTable :=
  { t with
    itemsChained := Function.update t.itemsChained index
      { indexNext := 0, indexMeta, isDirectory, hashUnique } }

/-- `itemsHash[hashAddress].indexHead = index`. -/
def setHead (t : HashTable) (hashAddress : AddressHash) (index : ℕ) : HashTable :=
  { t with itemsHash := Function.update t.itemsHash hashAddress index }

/-- `itemsChained[index].indexNext = indexNext`. -/
def setNext (t : HashTable) (index indexNext : ℕ) : HashTable :=
  { t with
    itemsChained := Function.update t.itemsChained index { t.itemsChained index with indexNext } }

/-- `itemsChained[index].indexMeta = indexMeta` and the same for `isDirectory`. -/
def setEntry (t : HashTable) (index : ℕ) (indexMeta : UInt64) (isDirectory : Bool) : HashTable :=
  { t with
    itemsChained := Function.update t.itemsChained index
      { t.itemsChained index with indexMeta, isDirectory } }

/-- The common body of `HashTable::put`. -/
def putAt (t : HashTable) (hashAddress : AddressHash) (hashUnique : UniqueHash)
    (indexMeta : UInt64) (isDirectory : Bool) : Option (HashTable × Bool) :=
  let indexHead := t.itemsHash hashAddress
  if indexHead = 0 then
    match t.occupy with
    | (t, none) => some (t, false)
    | (t, some index) =>
      some ((t.fill index hashUnique indexMeta isDirectory).setHead hashAddress index, true)
  else do
    match ← t.search hashUnique 0 indexHead with
    | .found _ indexCurrent => some (t.setEntry indexCurrent indexMeta isDirectory, true)
    | .missing indexBeforeCurrent =>
      match t.occupy with
      | (t, none) => some (t, false)
      | (t, some index) =>
        some ((t.fill index hashUnique indexMeta isDirectory).setNext indexBeforeCurrent index, true)

/-- Clear an item in the bitmap and put it on the free list. The item itself keeps its contents. -/
def release (t : HashTable) (index : ℕ) : HashTable × Bool :=
  let (bitmap, succeeded) := t.bitmapChainedItems.clear index
  if succeeded then
    ({ t with bitmapChainedItems := bitmap, headFreeBit := index :: t.headFreeBit }, true)
  else ({ t with bitmapChainedItems := bitmap }, false)

/-- The common body of `HashTable::del`. -/
def delAt (t : HashTable) (hashAddress : AddressHash) (hashUnique : UniqueHash) :
    Option (HashTable × Bool) :=
  let indexHead := t.itemsHash hashAddress
  if indexHead = 0 then some (t, false)
  else if (t.itemsChained indexHead).hashUnique = hashUnique then
    match t.release indexHead with
    | (t, false) => some (t, false)
    | (t, true) => some (t.setHead hashAddress (t.itemsChained indexHead).indexNext, true)
  else do
    match ← t.search hashUnique indexHead (t.itemsChained indexHead).indexNext with
    | .missing _ => some (t, true)
    | .found indexBeforeCurrent indexCurrent =>
      match t.release indexCurrent with
      | (t, false) => some (t, false)
      | (t, true) =>
        some (t.setNext indexBeforeCurrent (t.itemsChained indexCurrent).indexNext, true)

/-! ### The overloads

A call that is given a null pointer is `none`. -/

section Overloads

variable (sha256 : Path → UniqueHash)

/-- `HashTable::get` of a unique hash. -/
def getHash (t : HashTable) : Option UniqueHash → Option (Option (UInt64 × Bool))
  | none => some none
  | some hashUnique => t.getAt (getAddressHash hashUnique) hashUnique

/-- `HashTable::get` of a path. -/
def getPath (t : HashTable) : Option Path → Option (Option (UInt64 × Bool))
  | none => some none
  | some path =>
    let hashUnique := getUniqueHash sha256 path
    t.getAt (getAddressHash hashUnique) hashUnique

/-- `HashTable::put` of a unique hash. -/
def putHash (t : HashTable) (indexMeta : UInt64) (isDirectory : Bool) :
    Option UniqueHash → Option (HashTable × Bool)
  | none => some (t, false)
  | some hashUnique => t.putAt (getAddressHash hashUnique) hashUnique indexMeta isDirectory

/-- `HashTable::put` of a path. -/
def putPath (t : HashTable) (indexMeta : UInt64) (isDirectory : Bool) :
    Option Path → Option (HashTable × Bool)
  | none => some (t, false)
  | some path =>
    t.putAt (getAddressHashOfPath sha256 path) (getUniqueHash sha256 path) indexMeta isDirectory

/-- `HashTable::del` of a unique hash. -/
def delHash (t : HashTable) : Option UniqueHash → Option (HashTable × Bool)
  | none => some (t, false)
  | some hashUnique => t.delAt (getAddressHash hashUnique) hashUnique

/-- `HashTable::del` of a path. -/
def delPath (t : HashTable) : Option Path → Option (HashTable × Bool)
  | none => some (t, false)
  | some path => t.delAt (getAddressHashOfPath sha256 path) (getUniqueHash sha256 path)

end Overloads

/-- `HashTable::getSavedChainedItemsCount`. -/
def getSavedChainedItemsCount (t : HashTable) : ℕ :=
  t.bitmapChainedItems.countTotal - t.bitmapChainedItems.countFree - 1

/-! ### The constructor -/

/-- The buffer that a table is laid over: hash items, bitmap and chained items. -/
structure Buffer where
  itemsHash : AddressHash → ℕ
  bitmap : ℕ → UInt8
  itemsChained : ℕ → ChainedItem

/-- A buffer of zeros. -/
def Buffer.zeroed : Buffer where
  itemsHash := fun _ ↦ 0
  bitmap := fun _ ↦ 0
  itemsChained := fun _ ↦
    { indexNext := 0, indexMeta := 0, isDirectory := false, hashUnique := ⟨fun _ ↦ 0⟩ }

/-- The constructor, with `none` where it exits. The free bits are pushed in ascending order, each
before the last. -/
def construct (buffer : Buffer) (count : ℕ) : Option HashTable := do
  let bitmap ← Bitmap.construct count buffer.bitmap
  match bitmap.set 0 with
  | (_, false) => none
  | (bitmap, true) =>
    some {
      bitmapChainedItems := bitmap
      itemsHash := buffer.itemsHash
      itemsChained := buffer.itemsChained
      headFreeBit := (List.range' 1 (bitmap.countTotal - 1)).foldl
        (fun headFreeBit i ↦ i :: headFreeBit) [] }

/-! ### Sequences of calls -/

/-- A call of a public operation, by path or by unique hash. -/
inductive Call where
  | getHash (hashUnique : Option UniqueHash)
  | getPath (path : Option Path)
  | putHash (hashUnique : Option UniqueHash) (indexMeta : UInt64) (isDirectory : Bool)
  | putPath (path : Option Path) (indexMeta : UInt64) (isDirectory : Bool)
  | delHash (hashUnique : Option UniqueHash)
  | delPath (path : Option Path)

/-- What a call returns: the entry that a successful `get` stores, and the result otherwise. -/
inductive Reply where
  | got (entry : Option (UInt64 × Bool))
  | done (result : Bool)
  deriving DecidableEq

/-- Make one call. -/
def call (sha256 : Path → UniqueHash) (t : HashTable) : Call → Option (HashTable × Reply)
  | .getHash hashUnique => (t.getHash hashUnique).map fun entry ↦ (t, .got entry)
  | .getPath path => (t.getPath sha256 path).map fun entry ↦ (t, .got entry)
  | .putHash hashUnique indexMeta isDirectory =>
    (t.putHash indexMeta isDirectory hashUnique).map fun r ↦ (r.1, .done r.2)
  | .putPath path indexMeta isDirectory =>
    (t.putPath sha256 indexMeta isDirectory path).map fun r ↦ (r.1, .done r.2)
  | .delHash hashUnique => (t.delHash hashUnique).map fun r ↦ (r.1, .done r.2)
  | .delPath path => (t.delPath sha256 path).map fun r ↦ (r.1, .done r.2)

/-- Make the calls of a list, one after the other. -/
def calls (sha256 : Path → UniqueHash) : HashTable → List Call → Option (HashTable × List Reply)
  | t, [] => some (t, [])
  | t, c :: cs => do
    let (t, reply) ← t.call sha256 c
    let (t, replies) ← calls sha256 t cs
    some (t, reply :: replies)

/-! ### Walks -/

section Walks

variable {itemsChained : ℕ → ChainedItem} {hashUnique : UniqueHash} {head : ℕ}

/-- A walk along a chain without the hash ends at the last item. -/
theorem traverse_missing {l : List ℕ} {steps before : ℕ}
    (hchain : Chain (ChainedItem.indexNext ∘ itemsChained) 0 head l) (hsteps : l.length ≤ steps)
    (hl : ∀ i ∈ l, (itemsChained i).hashUnique ≠ hashUnique) :
    traverse itemsChained hashUnique steps before head = some (.missing (l.getLastD before)) := by
  induction l generalizing head steps before with
  | nil =>
    obtain rfl := hchain
    cases steps with
    | zero => rfl
    | succ steps => rfl
  | cons i l ih =>
    obtain ⟨rfl, hne, hrest⟩ := hchain
    obtain ⟨hhead, htail⟩ := List.forall_mem_cons.mp hl
    cases steps with
    | zero => exact absurd hsteps (Nat.not_succ_le_zero _)
    | succ steps =>
      rw [traverse, if_neg hne, List.getLastD_cons]
      change (if _ then _ else _) = _
      rw [if_neg hhead]
      exact ih hrest (Nat.le_of_succ_le_succ hsteps) htail

/-- A walk along a chain with the hash ends at the first item that has it. -/
theorem traverse_found {pre post : List ℕ} {i steps before : ℕ}
    (hchain : Chain (ChainedItem.indexNext ∘ itemsChained) 0 head (pre ++ i :: post))
    (hsteps : (pre ++ i :: post).length ≤ steps)
    (hpre : ∀ j ∈ pre, (itemsChained j).hashUnique ≠ hashUnique)
    (hi : (itemsChained i).hashUnique = hashUnique) :
    traverse itemsChained hashUnique steps before head = some (.found (pre.getLastD before) i) := by
  induction pre generalizing head steps before with
  | nil =>
    obtain ⟨rfl, hne, -⟩ := hchain
    cases steps with
    | zero => exact absurd hsteps (Nat.not_succ_le_zero _)
    | succ steps =>
      rw [traverse, if_neg hne]
      change (if _ then _ else _) = _
      rw [if_pos hi]
      rfl
  | cons j pre ih =>
    obtain ⟨rfl, hne, hrest⟩ := hchain
    obtain ⟨hhead, htail⟩ := List.forall_mem_cons.mp hpre
    cases steps with
    | zero => exact absurd hsteps (Nat.not_succ_le_zero _)
    | succ steps =>
      rw [traverse, if_neg hne, List.getLastD_cons]
      change (if _ then _ else _) = _
      rw [if_neg hhead]
      exact ih hrest (Nat.le_of_succ_le_succ hsteps) htail

end Walks

end HashTable

end SwitchDelta.Fs
