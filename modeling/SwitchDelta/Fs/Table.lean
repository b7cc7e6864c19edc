import SwitchDelta.Foundation.Transition
import SwitchDelta.Fs.Bitmap

/-!
# The tables of the file system

`Table` of the file system: an array of items, a bitmap of those in use and a chain of free bits that
`create` takes an index from and `remove` gives it back to. The nodes of the chain are allocated one by
one; an address without a node has not been allocated or has been freed.

The constructor ties the last node of the chain to the first one. `table_allocates` is the invariant of
the runs in which `create` is not called on a full table: the part of the chain that is left holds the
clear bits of the bitmap, each once. On a full table, the chain begins again with an index that is in
use.
-/

set_option autoImplicit false
set_option relaxedAutoImplicit false

namespace SwitchDelta.Fs

open Foundation

/-- `FreeBit`. A null pointer is `none`. -/
structure FreeBit where
  position : ℕ
  nextFreeBit : Option ℕ

/-- `Table`, with the nodes of its chain by their addresses, and whether `mutexBitmapItems` is locked. -/
structure Table (T : Type*) where
  bitmapItems : Bitmap
  mutexBitmapItems : Bool
  items : ℕ → T
  headFreeBit : Option ℕ
  heap : ℕ → Option FreeBit

namespace Table

variable {T : Type*}

/-! ### The operations -/

/-- The bits that the constructor finds clear, in the order in which it visits them. Its index is an
`int` that runs down from `count / 8 - 1`. -/
def freeBits (count : ℕ) (buffer : ℕ → UInt8) : List ℕ :=
  ((List.range (8 * (Int.bmod ((count / 8 : ℕ) - 1) (2 ^ 32) + 1).toNat)).reverse).filter fun bit ↦
    buffer (bit / 8) &&& Bitmap.mask (bit % 8) = 0

/-- `index * 8 + offset` as an `int`, assigned to a `uint64_t`. -/
def position (bit : ℕ) : ℕ := (Int.bmod bit (2 ^ 32) % 2 ^ 64).toNat

/-- A node for a free bit before the head of the chain. -/
def push (nodes : ℕ → ℕ) (chain : Option ℕ × (ℕ → Option FreeBit)) (bit : ℕ) :
    Option ℕ × (ℕ → Option FreeBit) :=
  (some (nodes bit), Function.update chain.2 (nodes bit) (some ⟨position bit, chain.1⟩))

/-- The last assignment of the constructor: the node of `the_last` is tied to the head. -/
def tie (nodes : ℕ → ℕ) (chain : Option ℕ × (ℕ → Option FreeBit)) :
    Option ℕ → ℕ → Option FreeBit
  | none => chain.2
  | some the_last =>
    Function.update chain.2 (nodes the_last) (some ⟨position the_last, chain.1⟩)

/-- The constructor, with `sizeof(T)`, the items that the buffer holds, and the address of the node of
each bit. It looks for the clear bits at the beginning of the buffer, where the items are. -/
def construct (count size : ℕ) (buffer : ℕ → UInt8) (items : ℕ → T) (nodes : ℕ → ℕ) :
    Option (Table T) :=
  if count % 8 = 0 then
    (Bitmap.construct count fun index ↦ buffer (count * size + index)).map fun bitmapItems ↦
      { bitmapItems
        items
        mutexBitmapItems := false
        headFreeBit := ((freeBits count buffer).foldl (push nodes) (none, fun _ ↦ none)).1
        heap := tie nodes ((freeBits count buffer).foldl (push nodes) (none, fun _ ↦ none))
          (freeBits count buffer).head? }
  else none

/-- `Table::create` without an item, for an index pointer that is not null or is. The result is the
table and the index if it succeeds, and none at all where the mutex is locked or the head of the chain
has been freed. Where the chain is empty, the mutex stays locked. -/
def create (t : Table T) (index : Bool) : Option (Table T × Option ℕ) :=
  if index then
    if t.mutexBitmapItems then none
    else
      match t.headFreeBit with
      | none => some ({ t with mutexBitmapItems := true }, none)
      | some node =>
        (t.heap node).map fun bit ↦
          ({ t with
              headFreeBit := bit.nextFreeBit
              bitmapItems := (t.bitmapItems.set bit.position).1 },
            if (t.bitmapItems.set bit.position).2 then some bit.position else none)
  else some (t, none)

/-- `Table::create` with an item, for pointers that are not null or are. It frees the node. -/
def createItem (t : Table T) (index : Bool) (item : Option T) : Option (Table T × Option ℕ) :=
  match index, item with
  | true, some item =>
    if t.mutexBitmapItems then none
    else
      match t.headFreeBit with
      | none => some ({ t with mutexBitmapItems := true }, none)
      | some node =>
        (t.heap node).map fun bit ↦
          if (t.bitmapItems.set bit.position).2 then
            ({ t with
                headFreeBit := bit.nextFreeBit
                heap := Function.update t.heap node none
                bitmapItems := (t.bitmapItems.set bit.position).1
                items := Function.update t.items bit.position item }, some bit.position)
          else
            ({ t with
                headFreeBit := bit.nextFreeBit
                heap := Function.update t.heap node none
                bitmapItems := (t.bitmapItems.set bit.position).1 }, none)
  | _, _ => some (t, none)

/-- `Table::remove`, with the address of the new node. -/
def remove (t : Table T) (index node : ℕ) : Option (Table T × Bool) :=
  if t.mutexBitmapItems then none
  else
    match t.bitmapItems.get index with
    | some true =>
      if (t.bitmapItems.clear index).2 then
        some ({ t with
          bitmapItems := (t.bitmapItems.clear index).1
          heap := Function.update t.heap node (some ⟨index, t.headFreeBit⟩)
          headFreeBit := some node }, true)
      else some ({ t with bitmapItems := (t.bitmapItems.clear index).1 }, false)
    | _ => some (t, false)

/-- `Table::get`. -/
def get (t : Table T) (index : ℕ) : Option (Option T) :=
  if t.mutexBitmapItems then none
  else
    match t.bitmapItems.get index with
    | some true => some (some (t.items index))
    | _ => some none

/-- `Table::put`. -/
def put (t : Table T) (index : ℕ) (item : T) : Option (Table T × Bool) :=
  if t.mutexBitmapItems then none
  else
    match t.bitmapItems.get index with
    | some true => some ({ t with items := Function.update t.items index item }, true)
    | _ => some (t, false)

/-- `Table::countSavedItems`. -/
def countSavedItems (t : Table T) : ℕ := t.bitmapItems.countTotal - t.bitmapItems.countFree

/-! ### Runs -/

/-- A call of one of the two `create`s. -/
inductive Creation (T : Type*)
  | plain (index : Bool)
  | item (index : Bool) (item : Option T)

/-- The pointers of a call are not null. -/
def Creation.valid : Creation T → Bool
  | .plain index => index
  | .item index value => index && value.isSome

/-- A call of `create`. -/
def creation (t : Table T) : Creation T → Option (Table T × Option ℕ)
  | .plain index => t.create index
  | .item index item => t.createItem index item

/-- A call. -/
inductive Call (T : Type*)
  | create (creation : Creation T)
  | remove (index : ℕ)

/-- A table, with the indices that were created and not removed since. -/
structure State (T : Type*) where
  table : Table T
  live : Finset ℕ

/-- The indices in use after a reply to `create`. -/
def created (live : Finset ℕ) : Option ℕ → Finset ℕ
  | none => live
  | some index => insert index live

/-- A call that returns. `malloc` gives an address that holds no node. -/
inductive Step : State T → Call T → State T → Prop
  | create {s : State T} {c : Creation T} {t : Table T} {reply : Option ℕ} :
      s.table.creation c = some (t, reply) → Step s (.create c) ⟨t, created s.live reply⟩
  | remove {s : State T} {index node : ℕ} {t : Table T} {reply : Bool} : s.table.heap node = none →
      s.table.remove index node = some (t, reply) →
      Step s (.remove index) ⟨t, if reply then s.live.erase index else s.live⟩

/-- An index of the table is free. -/
def Free (t : Table T) (index : ℕ) : Prop :=
  index < t.bitmapItems.varCountTotal ∧ t.bitmapItems.bit index = false

/-- An index of the table is in use. -/
def InUse (t : Table T) (index : ℕ) : Prop :=
  index < t.bitmapItems.varCountTotal ∧ t.bitmapItems.bit index = true

/-- No call of `create` comes while no index is free. -/
def HasRoom (s : State T) : Call T → Prop
  | .create c => c.valid = true → ∃ index, s.table.Free index
  | .remove _ => True

/-! ### The items in use -/

section

variable {t t' : Table T} {index : ℕ} {item : T}

theorem get_of_inUse (hunlocked : t.mutexBitmapItems = false) (hindex : t.InUse index) :
    t.get index = some (some (t.items index)) := by
  rw [get, hunlocked, if_neg Bool.false_ne_true, Bitmap.get, if_pos hindex.1, hindex.2]

theorem put_of_inUse (hunlocked : t.mutexBitmapItems = false) (hindex : t.InUse index) :
    t.put index item = some ({ t with items := Function.update t.items index item }, true) := by
  rw [put, hunlocked, if_neg Bool.false_ne_true, Bitmap.get, if_pos hindex.1, hindex.2]

/-- What is put into a table is found there. -/
theorem get_of_put (hunlocked : t.mutexBitmapItems = false) (hindex : t.InUse index) :
    ∃ t', t.put index item = some (t', true) ∧ t'.get index = some (some item) := by
  refine ⟨_, put_of_inUse hunlocked hindex, ?_⟩
  rw [get, if_neg (hunlocked ▸ Bool.false_ne_true), Bitmap.get]
  dsimp only
  rw [if_pos hindex.1, hindex.2, Function.update_self]

/-- What is found in a table is in use. -/
theorem inUse_of_get (h : t.get index = some (some item)) :
    t.InUse index ∧ t.items index = item := by
  rw [get] at h
  split_ifs at h with hlocked
  rw [Bitmap.get] at h
  split_ifs at h with hbound
  · split at h
    · next hbit => exact ⟨⟨hbound, Option.some.inj hbit⟩, Option.some.inj (Option.some.inj h)⟩
    · cases h
  · cases h

/-- The items after a creation: the new one and the old ones. -/
theorem items_of_createItem {reply : Option ℕ}
    (h : t.createItem true (some item) = some (t', reply)) (hindex : t'.InUse index) :
    t'.items index = item ∨ t.InUse index ∧ t'.items index = t.items index := by
  rw [createItem] at h
  split_ifs at h with hlocked
  split at h
  · obtain ⟨rfl, -⟩ := Prod.mk.inj (Option.some.inj h)
    exact Or.inr ⟨hindex, rfl⟩
  · obtain ⟨bit, -, h⟩ := Option.map_eq_some_iff.mp h
    split_ifs at h with hset
    · obtain ⟨rfl, -⟩ := Prod.mk.inj h
      obtain ⟨hless, hbit⟩ := hindex
      dsimp only at hless hbit ⊢
      rw [Bitmap.set_varCountTotal] at hless
      by_cases heq : index = bit.position
      · rw [heq, Function.update_self]
        exact Or.inl rfl
      · rw [Function.update_of_ne heq]
        exact Or.inr ⟨⟨hless, (Bitmap.set_bit_iff.mp hbit).resolve_left fun h ↦ heq h.2⟩, rfl⟩
    · obtain ⟨rfl, -⟩ := Prod.mk.inj h
      obtain ⟨hless, hbit⟩ := hindex
      dsimp only at hless hbit ⊢
      rw [Bitmap.set_varCountTotal] at hless
      exact Or.inr ⟨⟨hless, (Bitmap.set_bit_iff.mp hbit).resolve_left fun h ↦
        hset (Bitmap.set_snd h.1)⟩, rfl⟩

end

/-! ### The chain -/

/-- The nodes of the list, with their positions, are those of the chain in order from `head`. Where
the last of them leads is left open. -/
def Leads (heap : ℕ → Option FreeBit) : Option ℕ → List (ℕ × ℕ) → Prop
  | _, [] => True
  | head, (node, position) :: chain =>
    head = some node ∧
      ∃ nextFreeBit, heap node = some ⟨position, nextFreeBit⟩ ∧ Leads heap nextFreeBit chain

section

variable {heap heap' : ℕ → Option FreeBit} {head : Option ℕ} {chain : List (ℕ × ℕ)}

/-- Only the nodes of the list matter. -/
theorem Leads.frame (h : Leads heap head chain)
    (hagree : ∀ node ∈ chain.map Prod.fst, heap' node = heap node) : Leads heap' head chain := by
  induction chain generalizing head with
  | nil => trivial
  | cons first chain ih =>
    obtain ⟨hhead, nextFreeBit, hnode, hrest⟩ := h
    refine ⟨hhead, nextFreeBit, ?_, ih hrest fun node hmem ↦ hagree node ?_⟩
    · rw [hagree first.1 List.mem_cons_self, hnode]
    · exact List.mem_cons_of_mem _ hmem

/-- An update of another address. -/
theorem Leads.update (h : Leads heap head chain) {node : ℕ} (hnode : node ∉ chain.map Prod.fst)
    (bit : Option FreeBit) : Leads (Function.update heap node bit) head chain := by
  refine h.frame fun other hmem ↦ Function.update_of_ne ?_ _ _
  rintro rfl
  exact hnode hmem

/-- The last node may be led anywhere. -/
theorem Leads.tie {node position : ℕ} (h : Leads heap head (chain ++ [(node, position)]))
    (hnode : node ∉ chain.map Prod.fst) (nextFreeBit : Option ℕ) :
    Leads (Function.update heap node (some ⟨position, nextFreeBit⟩)) head
      (chain ++ [(node, position)]) := by
  induction chain generalizing head with
  | nil => exact ⟨h.1, nextFreeBit, Function.update_self _ _ _, trivial⟩
  | cons first chain ih =>
    obtain ⟨hhead, next, hfirst, hrest⟩ := h
    rw [List.map_cons, List.mem_cons, not_or] at hnode
    refine ⟨hhead, next, ?_, ih hrest hnode.2⟩
    rw [Function.update_of_ne (Ne.symm hnode.1), hfirst]

end

/-! ### The constructor -/

theorem freeBits_zeroed {count : ℕ} (hcount : count % 8 = 0) (hbound : count ≤ 2 ^ 31) :
    freeBits count (fun _ ↦ 0) = (List.range count).reverse := by
  have hindex : Int.bmod ((count / 8 : ℕ) - 1) (2 ^ 32) = (count / 8 : ℕ) - 1 :=
    Int.bmod_eq_of_le (by omega) (by omega)
  have hbytes : 8 * (((count / 8 : ℕ) : ℤ) - 1 + 1).toNat = count := by omega
  rw [freeBits, hindex, hbytes]
  refine List.filter_eq_self.mpr fun bit _ ↦ ?_
  rw [UInt8.zero_and]
  rfl

theorem position_of_lt {bit : ℕ} (hbit : bit < 2 ^ 31) : position bit = bit := by
  have hupper : (bit : ℤ) < (2 ^ 32 + 1) / 2 := by
    norm_num
    omega
  have hint : Int.bmod bit (2 ^ 32) = bit := Int.bmod_eq_of_le (by omega) hupper
  have hmod : (bit : ℤ) % 2 ^ 64 = bit := Int.emod_eq_of_lt (by omega) (by omega)
  calc position bit = (Int.bmod bit (2 ^ 32) % 2 ^ 64).toNat := rfl
    _ = bit := by rw [hint, hmod, Int.toNat_natCast]

/-- The node of a bit, with its position. -/
def nodeOf (nodes : ℕ → ℕ) (bit : ℕ) : ℕ × ℕ := (nodes bit, position bit)

theorem nodes_map (nodes : ℕ → ℕ) (bits : List ℕ) :
    (bits.map (nodeOf nodes)).map Prod.fst = bits.map nodes := by
  rw [List.map_map]
  rfl

theorem positions_map (nodes : ℕ → ℕ) {bits : List ℕ} (hbits : ∀ bit ∈ bits, bit < 2 ^ 31) :
    (bits.map (nodeOf nodes)).map Prod.snd = bits := by
  induction bits with
  | nil => rfl
  | cons bit bits ih =>
    rw [List.map_cons, List.map_cons, ih fun other hother ↦ hbits other (List.mem_cons_of_mem _ hother),
      nodeOf, position_of_lt (hbits bit List.mem_cons_self)]

/-- The loop pushes the nodes of the bits one before the other. -/
theorem leads_foldl {nodes : ℕ → ℕ} (hnodes : Function.Injective nodes) {bits : List ℕ}
    (hnodup : bits.Nodup) :
    Leads (bits.foldl (push nodes) (none, fun _ ↦ none)).2
      (bits.foldl (push nodes) (none, fun _ ↦ none)).1 (bits.reverse.map (nodeOf nodes)) := by
  induction bits using List.reverseRecOn with
  | nil => trivial
  | append_singleton bits bit ih =>
    obtain ⟨hbits, -, hnot⟩ := List.nodup_append.mp hnodup
    rw [List.foldl_append, List.foldl_cons, List.foldl_nil, List.reverse_append, List.reverse_singleton,
      List.singleton_append, List.map_cons]
    refine ⟨rfl, _, Function.update_self _ _ _, (ih hbits).update ?_ _⟩
    rw [nodes_map, List.mem_map]
    rintro ⟨other, hmem, heq⟩
    exact hnot other (List.mem_reverse.mp hmem) bit List.mem_cons_self (hnodes heq)

/-- The table of the constructor, on a zeroed buffer. -/
structure Constructed (count : ℕ) (nodes : ℕ → ℕ) (t : Table T) : Prop where
  total : t.bitmapItems.varCountTotal = count
  free : t.bitmapItems.varCountFree = count
  clear : ∀ index, t.bitmapItems.bit index = false
  unlocked : t.mutexBitmapItems = false
  chain : Leads t.heap t.headFreeBit ((List.range count).map (nodeOf nodes))

theorem construct_constructed {count size : ℕ} {items : ℕ → T} {nodes : ℕ → ℕ} {t : Table T}
    (hbound : count ≤ 2 ^ 31) (hnodes : Function.Injective nodes)
    (h : construct count size (fun _ ↦ 0) items nodes = some t) : Constructed count nodes t := by
  rw [construct] at h
  split_ifs at h with hcount
  obtain ⟨bitmap, hbitmap, rfl⟩ := Option.map_eq_some_iff.mp h
  obtain ⟨htotal, hfree, hclear⟩ := Bitmap.construct_zeroed hbitmap
  refine ⟨htotal, hfree, hclear, rfl, ?_⟩
  dsimp only
  rw [freeBits_zeroed hcount hbound]
  have hchain := leads_foldl hnodes (List.nodup_reverse.mpr (List.nodup_range (n := count)))
  rw [List.reverse_reverse] at hchain
  cases count with
  | zero => trivial
  | succ n =>
    have hlast : (List.range (n + 1)).reverse.head? = some n := by
      rw [List.range_succ, List.reverse_append]
      rfl
    rw [hlast]
    rw [List.range_succ, List.map_append, List.map_singleton] at hchain ⊢
    refine hchain.tie ?_ _
    rw [nodes_map, List.mem_map]
    rintro ⟨other, hmem, heq⟩
    exact absurd (List.mem_range.mp hmem) (hnodes heq ▸ Nat.lt_irrefl n)

/-! ### The invariant -/

/-- The chain holds the free indices, each once, in nodes of their own, and the mutex is not locked. -/
structure Chained (t : Table T) (chain : List (ℕ × ℕ)) : Prop where
  leads : Leads t.heap t.headFreeBit chain
  nodes : (chain.map Prod.fst).Nodup
  positions : (chain.map Prod.snd).Nodup
  mem_positions : ∀ index, index ∈ chain.map Prod.snd ↔ t.Free index
  countFree : t.bitmapItems.varCountFree = chain.length
  unlocked : t.mutexBitmapItems = false

/-- The indices in use are those whose bits are set. -/
structure Live (s : State T) : Prop where
  mem_live : ∀ index, index ∈ s.live ↔
    index < s.table.bitmapItems.varCountTotal ∧ s.table.bitmapItems.bit index = true
  balance : s.live.card + s.table.bitmapItems.varCountFree = s.table.bitmapItems.varCountTotal

section

variable {t t' : Table T} {chain : List (ℕ × ℕ)} {node index : ℕ}

theorem Leads.allocated {heap : ℕ → Option FreeBit} {head : Option ℕ} (h : Leads heap head chain)
    (hnode : node ∈ chain.map Prod.fst) : heap node ≠ none := by
  induction chain generalizing head with
  | nil => exact absurd hnode List.not_mem_nil
  | cons first chain ih =>
    obtain ⟨-, next, hfirst, hrest⟩ := h
    rcases List.mem_cons.mp hnode with rfl | hmem
    · rw [hfirst]
      exact Option.some_ne_none _
    · exact ih hrest hmem

theorem Constructed.chained {count : ℕ} {nodes : ℕ → ℕ} (h : Constructed count nodes t)
    (hbound : count ≤ 2 ^ 31) (hnodes : Function.Injective nodes) :
    Chained t ((List.range count).map (nodeOf nodes)) := by
  have hpositions : ((List.range count).map (nodeOf nodes)).map Prod.snd = List.range count :=
    positions_map nodes fun bit hbit ↦ (List.mem_range.mp hbit).trans_le hbound
  refine ⟨h.chain, ?_, ?_, fun index ↦ ?_, ?_, h.unlocked⟩
  · rw [nodes_map]
    exact (List.nodup_map_iff hnodes).mpr List.nodup_range
  · rw [hpositions]
    exact List.nodup_range
  · rw [hpositions, List.mem_range, Free, h.total]
    exact (and_iff_left (h.clear index)).symm
  · rw [h.free, List.length_map, List.length_range]

/-- The first node is taken from the chain. -/
theorem Chained.pop {next : Option ℕ} (h : Chained t ((node, index) :: chain))
    (hnext : t.heap node = some ⟨index, next⟩) (hbitmap : t'.bitmapItems = (t.bitmapItems.set index).1)
    (hhead : t'.headFreeBit = next) (hheap : ∀ other ≠ node, t'.heap other = t.heap other)
    (hunlocked : t'.mutexBitmapItems = t.mutexBitmapItems) : Chained t' chain := by
  obtain ⟨-, next', hnode, hrest⟩ := h.leads
  obtain rfl : next' = next := congrArg FreeBit.nextFreeBit (Option.some.inj (hnode.symm.trans hnext))
  obtain ⟨hnotNode, hnodes⟩ := List.nodup_cons.mp h.nodes
  obtain ⟨hnotIndex, hpositions⟩ := List.nodup_cons.mp h.positions
  obtain ⟨hbound, hclear⟩ := (h.mem_positions index).mp List.mem_cons_self
  obtain ⟨-, hbits, hcount, htotal⟩ := Bitmap.set_of_clear hbound hclear
  rw [← hbitmap] at hbits hcount htotal
  refine ⟨?_, hnodes, hpositions, fun other ↦ ?_, ?_, hunlocked.trans h.unlocked⟩
  · rw [hhead]
    exact hrest.frame fun other hother ↦ hheap other (ne_of_mem_of_not_mem hother hnotNode)
  · have hmem := h.mem_positions other
    rw [List.map_cons, List.mem_cons] at hmem
    rw [Free, htotal, Bool.eq_false_iff, ne_eq, hbits]
    rw [Free, Bool.eq_false_iff] at hmem
    by_cases heq : other = index
    · subst heq
      exact iff_of_false hnotIndex fun hfree ↦ hfree.2 (Or.inl rfl)
    · rw [or_iff_right heq] at hmem ⊢
      exact hmem
  · rw [hcount, h.countFree]
    rfl

/-- A call of `create` with null pointers. -/
theorem creation_of_invalid {c : Creation T} (hc : c.valid = false) :
    t.creation c = some (t, none) := by
  cases c with
  | plain index =>
    obtain rfl : index = false := hc
    rfl
  | item index value =>
    cases index
    · rfl
    · cases value
      · rfl
      · exact absurd (hc.symm.trans rfl) Bool.false_ne_true

/-- A call of `create` that finds a free index. -/
theorem Chained.creation (h : Chained t chain) {c : Creation T} (hc : c.valid = true)
    (hfree : ∃ index, t.Free index) :
    ∃ t' index chain', t.creation c = some (t', some index) ∧ t.Free index ∧ Chained t' chain' ∧
      t'.bitmapItems = (t.bitmapItems.set index).1 := by
  cases chain with
  | nil =>
    obtain ⟨index, hindex⟩ := hfree
    exact absurd ((h.mem_positions index).mpr hindex) List.not_mem_nil
  | cons first chain =>
    obtain ⟨node, index⟩ := first
    obtain ⟨hhead, next, hnode, hrest⟩ := h.leads
    have hindex : t.Free index := (h.mem_positions index).mp List.mem_cons_self
    obtain ⟨hset, -⟩ := Bitmap.set_of_clear hindex.1 hindex.2
    have hunlocked := h.unlocked
    cases c with
    | plain pointer =>
      obtain rfl : pointer = true := hc
      let t' : Table T :=
        { t with
          mutexBitmapItems := false
          headFreeBit := next
          bitmapItems := (t.bitmapItems.set index).1 }
      have hpop : Chained t' chain := h.pop hnode rfl rfl (fun _ _ ↦ rfl) hunlocked.symm
      refine ⟨t', index, chain, ?_, hindex, hpop, rfl⟩
      rw [Table.creation, create, if_pos rfl, hunlocked, if_neg Bool.false_ne_true, hhead]
      dsimp only
      rw [hnode, Option.map_some, hset, if_pos rfl]
    | item pointer value =>
      obtain ⟨rfl, hvalue⟩ := Bool.and_eq_true_iff.mp hc
      obtain ⟨value, rfl⟩ := Option.isSome_iff_exists.mp hvalue
      let t' : Table T :=
        { t with
          mutexBitmapItems := false
          headFreeBit := next
          heap := Function.update t.heap node none
          bitmapItems := (t.bitmapItems.set index).1
          items := Function.update t.items index value }
      have hpop : Chained t' chain :=
        h.pop hnode rfl rfl (fun other hother ↦ Function.update_of_ne hother _ _) hunlocked.symm
      refine ⟨t', index, chain, ?_, hindex, hpop, rfl⟩
      rw [Table.creation, createItem, hunlocked, if_neg Bool.false_ne_true, hhead]
      dsimp only
      rw [hnode, Option.map_some, hset, if_pos rfl]

/-- The item that is created is stored at its index. -/
theorem createItem_items {item : T} (h : t.createItem true (some item) = some (t', some index)) :
    t'.items = Function.update t.items index item := by
  rw [createItem] at h
  split_ifs at h with hlocked
  split at h
  · cases h
  · obtain ⟨bit, -, h⟩ := Option.map_eq_some_iff.mp h
    split_ifs at h with hset
    · obtain ⟨rfl, hindex⟩ := Prod.mk.inj h
      obtain rfl := Option.some.inj hindex
      rfl
    · cases h

/-- The node of a removed index comes before the chain. -/
theorem Chained.unpop (h : Chained t chain) (hnode : t.heap node = none)
    (hindex : index < t.bitmapItems.varCountTotal) (hset : t.bitmapItems.bit index = true) :
    Chained { t with
      bitmapItems := (t.bitmapItems.clear index).1
      heap := Function.update t.heap node (some ⟨index, t.headFreeBit⟩)
      headFreeBit := some node } ((node, index) :: chain) := by
  obtain ⟨-, hbits, hcount, htotal⟩ := Bitmap.clear_of_set hindex hset
  have hnew : node ∉ chain.map Prod.fst := fun hmem ↦ h.leads.allocated hmem hnode
  have hused : index ∉ chain.map Prod.snd := fun hmem ↦
    Bool.false_ne_true (((h.mem_positions index).mp hmem).2.symm.trans hset)
  refine ⟨⟨rfl, _, Function.update_self _ _ _, h.leads.update hnew _⟩,
    List.nodup_cons.mpr ⟨hnew, h.nodes⟩, List.nodup_cons.mpr ⟨hused, h.positions⟩,
    fun other ↦ ?_, ?_, h.unlocked⟩
  · rw [List.map_cons, List.mem_cons, h.mem_positions, Free, Free]
    dsimp only
    rw [htotal, Bool.eq_false_iff, Bool.eq_false_iff, ne_eq, ne_eq, hbits]
    by_cases heq : other = index
    · subst heq
      exact iff_of_true (Or.inl rfl) ⟨hindex, fun hboth ↦ hboth.1 rfl⟩
    · rw [or_iff_right heq, and_iff_right heq]
  · dsimp only
    rw [hcount, h.countFree]
    rfl

theorem Live.created {s : State T} (hlive : Live s) (h : Chained s.table chain)
    (hindex : s.table.Free index) (hbitmap : t'.bitmapItems = (s.table.bitmapItems.set index).1) :
    Live ⟨t', insert index s.live⟩ := by
  obtain ⟨-, hbits, hcount, htotal⟩ := Bitmap.set_of_clear hindex.1 hindex.2
  rw [← hbitmap] at hbits hcount htotal
  have hnew : index ∉ s.live := fun hmem ↦
    Bool.false_ne_true (hindex.2.symm.trans ((hlive.mem_live index).mp hmem).2)
  refine ⟨fun other ↦ ?_, ?_⟩
  · dsimp only
    rw [Finset.mem_insert, hlive.mem_live, hbits, htotal]
    refine ⟨?_, fun ⟨hother, hset⟩ ↦ hset.imp_right fun hbit ↦ ⟨hother, hbit⟩⟩
    rintro (rfl | ⟨hother, hbit⟩)
    · exact ⟨hindex.1, Or.inl rfl⟩
    · exact ⟨hother, Or.inr hbit⟩
  · have hsome : 0 < chain.length := by
      have hmem := (h.mem_positions index).mpr hindex
      rw [← List.length_map (f := Prod.snd)]
      exact List.length_pos_of_mem hmem
    have hbalance := hlive.balance
    have hfree := h.countFree
    dsimp only
    rw [Finset.card_insert_of_notMem hnew, hcount, htotal]
    omega

theorem Live.removed {s : State T} (hlive : Live s)
    (hindex : index < s.table.bitmapItems.varCountTotal)
    (hset : s.table.bitmapItems.bit index = true)
    (hbitmap : t'.bitmapItems = (s.table.bitmapItems.clear index).1) :
    Live ⟨t', s.live.erase index⟩ := by
  obtain ⟨-, hbits, hcount, htotal⟩ := Bitmap.clear_of_set hindex hset
  rw [← hbitmap] at hbits hcount htotal
  have hmem : index ∈ s.live := (hlive.mem_live index).mpr ⟨hindex, hset⟩
  refine ⟨fun other ↦ ?_, ?_⟩
  · dsimp only
    rw [Finset.mem_erase, hlive.mem_live, hbits, htotal]
    exact and_left_comm
  · have hbalance := hlive.balance
    have hcard := Finset.card_erase_add_one hmem
    dsimp only
    rw [hcount, htotal]
    omega

end

/-- The invariant of the runs. -/
structure Inv (s : State T) : Prop where
  chained : ∃ chain, Chained s.table chain
  live : Live s

theorem Inv.init {count : ℕ} {nodes : ℕ → ℕ} {t : Table T} (h : Constructed count nodes t)
    (hbound : count ≤ 2 ^ 31) (hnodes : Function.Injective nodes) : Inv ⟨t, ∅⟩ := by
  refine ⟨⟨_, h.chained hbound hnodes⟩, fun index ↦ ?_, ?_⟩
  · refine iff_of_false (Finset.notMem_empty index) fun hset ↦ ?_
    exact Bool.false_ne_true ((h.clear index).symm.trans hset.2)
  · dsimp only
    rw [Finset.card_empty, Nat.zero_add, h.free, h.total]

theorem Inv.step {s s' : State T} {call : Call T} (h : Inv s) (hroom : HasRoom s call)
    (hstep : Step s call s') : Inv s' := by
  obtain ⟨chain, hchain⟩ := h.chained
  cases hstep with
  | @create c t reply hcall =>
    cases hvalid : c.valid with
    | false =>
      rw [creation_of_invalid hvalid] at hcall
      obtain ⟨rfl, rfl⟩ := Prod.mk.inj (Option.some.inj hcall)
      exact h
    | true =>
      obtain ⟨t', index, chain', hcreate, hfree, hchain', hbitmap⟩ :=
        hchain.creation hvalid (hroom hvalid)
      rw [hcreate] at hcall
      obtain ⟨rfl, rfl⟩ := Prod.mk.inj (Option.some.inj hcall)
      exact ⟨⟨chain', hchain'⟩, h.live.created hchain hfree hbitmap⟩
  | @remove index node t reply hnode hcall =>
    rw [remove, hchain.unlocked, if_neg Bool.false_ne_true, Bitmap.get] at hcall
    by_cases hset : index < s.table.bitmapItems.varCountTotal ∧
        s.table.bitmapItems.bit index = true
    · obtain ⟨hcleared, -⟩ := Bitmap.clear_of_set hset.1 hset.2
      rw [if_pos hset.1, hset.2] at hcall
      dsimp only at hcall
      rw [if_pos hcleared] at hcall
      obtain ⟨rfl, rfl⟩ := Prod.mk.inj (Option.some.inj hcall)
      have hunlocked := hchain.unlocked
      exact ⟨⟨_, hunlocked ▸ hchain.unpop hnode hset.1 hset.2⟩, h.live.removed hset.1 hset.2 rfl⟩
    · have hget : ∀ value, (if index < s.table.bitmapItems.varCountTotal then
          some (s.table.bitmapItems.bit index) else none) = some value → value = false := by
        intro value hvalue
        split_ifs at hvalue with hindex
        rw [← Option.some.inj hvalue, Bool.eq_false_iff]
        exact fun hbit ↦ hset ⟨hindex, hbit⟩
      split at hcall
      · next hvalue => exact absurd (hget true hvalue).symm Bool.false_ne_true
      · obtain ⟨rfl, rfl⟩ := Prod.mk.inj (Option.some.inj hcall)
        exact h

/-- As long as no call of `create` comes to a full table, the indices in use are counted and have their
bits set, the mutex is free between the calls, and each call of `create` returns: with a free index if
its pointers are not null, and else with the table as it was. -/
theorem table_allocates {count size : ℕ} {items : ℕ → T} {nodes : ℕ → ℕ} {t : Table T}
    (hbound : count ≤ 2 ^ 31) (hnodes : Function.Injective nodes)
    (hconstruct : construct count size (fun _ ↦ 0) items nodes = some t) {s : State T}
    (hrun : Reachable ⟨t, ∅⟩ Step HasRoom s) :
    s.table.countSavedItems = s.live.card ∧ s.table.mutexBitmapItems = false ∧
      (∀ index, index ∈ s.live ↔
        index < s.table.bitmapItems.varCountTotal ∧ s.table.bitmapItems.bit index = true) ∧
      ∀ c : Creation T, HasRoom s (.create c) →
        ∃ t' reply, s.table.creation c = some (t', reply) ∧
          (reply.isSome ↔ c.valid = true ∧ ∃ index, s.table.Free index) ∧
          (∀ index, reply = some index → s.table.Free index ∧ index ∉ s.live) ∧
          (reply = none → t' = s.table) := by
  have hinv : Inv s := hrun.invariant Inv
    (Inv.init (construct_constructed hbound hnodes hconstruct) hbound hnodes)
    fun _ _ _ _ hinv hroom hstep ↦ hinv.step hroom hstep
  obtain ⟨chain, hchain⟩ := hinv.chained
  have hbalance := hinv.live.balance
  refine ⟨?_, hchain.unlocked, hinv.live.mem_live, fun c hroom ↦ ?_⟩
  · rw [countSavedItems, Bitmap.countTotal, Bitmap.countFree]
    omega
  · cases hvalid : c.valid with
    | false =>
      refine ⟨s.table, none, creation_of_invalid hvalid, ?_, ?_, fun _ ↦ rfl⟩
      · exact iff_of_false Bool.false_ne_true fun hboth ↦ Bool.false_ne_true hboth.1
      · exact fun index hreply ↦ absurd hreply.symm (Option.some_ne_none index)
    | true =>
      obtain ⟨t', index, -, hcreate, hfree, -, -⟩ := hchain.creation hvalid (hroom hvalid)
      refine ⟨t', some index, hcreate, iff_of_true rfl ⟨rfl, index, hfree⟩, ?_,
        fun hnone ↦ absurd hnone (Option.some_ne_none index)⟩
      intro other hother
      obtain rfl := Option.some.inj hother
      refine ⟨hfree, fun hmem ↦ ?_⟩
      exact Bool.false_ne_true (hfree.2.symm.trans ((hinv.live.mem_live _).mp hmem).2)

/-- A number of calls of `create` without an item. -/
def creates : ℕ → State T → Option (State T)
  | 0, s => some s
  | n + 1, s =>
    (creates n s).bind fun s' ↦
      (s'.table.create true).map fun result ↦ ⟨result.1, created s'.live result.2⟩

theorem reachable_creates {init s s' : State T} (hs : Reachable init Step (fun _ _ ↦ True) s) {n : ℕ}
    (h : creates n s = some s') : Reachable init Step (fun _ _ ↦ True) s' := by
  induction n generalizing s' with
  | zero => exact Option.some.inj h ▸ hs
  | succ n ih =>
    obtain ⟨s₁, hs₁, hlast⟩ := Option.bind_eq_some_iff.mp h
    obtain ⟨result, hcreate, rfl⟩ := Option.map_eq_some_iff.mp hlast
    exact (ih hs₁).step trivial (Step.create (c := .plain true) hcreate)

/-- On a table of eight items, the ninth call of `create` returns the index of the first one again. -/
theorem create_repeats :
    ∃ (t : Table ℕ) (s : State ℕ) (t' : Table ℕ),
      construct 8 8 (fun _ ↦ 0) (fun _ ↦ 0) Nat.succ = some t ∧
      Reachable ⟨t, ∅⟩ Step (fun _ _ ↦ True) s ∧ s.live = Finset.range 8 ∧
      s.table.create true = some (t', some 0) := by
  have hrun : ((construct 8 8 (fun _ ↦ 0) (fun _ ↦ 0) Nat.succ).bind fun t ↦
      (creates 8 ⟨t, ∅⟩).bind fun s ↦
        (s.table.create true).map fun result ↦ (s.live, result.2)) =
      some (Finset.range 8, some 0) := by
    decide +kernel
  obtain ⟨t, hconstruct, hrun⟩ := Option.bind_eq_some_iff.mp hrun
  obtain ⟨s, hcreates, hrun⟩ := Option.bind_eq_some_iff.mp hrun
  obtain ⟨⟨t', reply⟩, hlast, hresult⟩ := Option.map_eq_some_iff.mp hrun
  obtain ⟨hlive, rfl⟩ := Prod.mk.inj hresult
  exact ⟨t, s, t', hconstruct, reachable_creates Reachable.init hcreates, hlive, hlast⟩

/-- An index is created on a new table. -/
theorem table_allocates_first :
    ∃ (t : Table ℕ) (s : State ℕ),
      construct 8 8 (fun _ ↦ 0) (fun _ ↦ 0) Nat.succ = some t ∧
      Reachable ⟨t, ∅⟩ Step HasRoom s ∧ s.live = {0} ∧ s.table.countSavedItems = 1 := by
  have hrun : ((construct 8 8 (fun _ ↦ 0) (fun _ ↦ 0) Nat.succ).bind fun t ↦
      (t.create true).map Prod.snd) = some (some 0) := by
    decide +kernel
  obtain ⟨t, hconstruct, hrun⟩ := Option.bind_eq_some_iff.mp hrun
  obtain ⟨⟨t', reply⟩, hcreate, hreply⟩ := Option.map_eq_some_iff.mp hrun
  obtain rfl : reply = some 0 := hreply
  have hnew := construct_constructed (by decide) Nat.succ_injective hconstruct
  have hroom : HasRoom ⟨t, ∅⟩ (.create (.plain true)) := fun _ ↦
    ⟨0, hnew.total.symm ▸ Nat.zero_lt_succ 7, hnew.clear 0⟩
  have hstep : Step ⟨t, ∅⟩ (.create (.plain true)) ⟨t', created ∅ (some 0)⟩ := Step.create hcreate
  have hreach := Reachable.init.step hroom hstep
  obtain ⟨hcount, -⟩ := table_allocates (by decide) Nat.succ_injective hconstruct hreach
  exact ⟨t, _, hconstruct, hreach, rfl, hcount⟩

end Table

end SwitchDelta.Fs
