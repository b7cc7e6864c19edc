import SwitchDelta.Fs.Metadata
import SwitchDelta.Fs.Table

/-!
# The block table

The blocks of the data area are handed out by `Table::create` without an item and are never given
back. This `create` keeps the nodes of its chain, and the constructor has tied the last node to the
first one, so the chain is a ring and `create` always succeeds (`Ring.create`). It hands out blocks
that are not in use as long as there are any, and after that the blocks in use once more
(`BlockTable.createAll`).
-/

set_option autoImplicit false
set_option relaxedAutoImplicit false

namespace SwitchDelta.Fs

open Foundation

namespace Table

variable {T : Type*}

/-! ### The ring -/

/-- The chain has no end, and its nodes are for indices of the table. -/
structure Ring (t : Table T) : Prop where
  unlocked : t.mutexBitmapItems = false
  head : ∃ node, t.headFreeBit = some node ∧ t.heap node ≠ none
  next : ∀ node bit, t.heap node = some bit → bit.position < t.bitmapItems.varCountTotal ∧
    ∃ node', bit.nextFreeBit = some node' ∧ t.heap node' ≠ none

section

variable {t t' : Table T} {chain : List (ℕ × ℕ)} {index : ℕ}

/-- On a ring, `create` succeeds. -/
theorem Ring.create (h : Ring t) : ∃ t' index, t.create true = some (t', some index) ∧ Ring t' ∧
    index < t.bitmapItems.varCountTotal ∧ t'.bitmapItems = (t.bitmapItems.set index).1 := by
  obtain ⟨node, hhead, hnode⟩ := h.head
  obtain ⟨bit, hbit⟩ := Option.ne_none_iff_exists'.mp hnode
  obtain ⟨hposition, node', hnext, hnode'⟩ := h.next node bit hbit
  have hset : (t.bitmapItems.set bit.position).2 = true := Bitmap.set_snd hposition
  have hunlocked := h.unlocked
  refine ⟨{ t with
      mutexBitmapItems := false
      headFreeBit := bit.nextFreeBit
      bitmapItems := (t.bitmapItems.set bit.position).1 }, bit.position, ?_, ?_, hposition, rfl⟩
  · rw [Table.create, if_pos rfl, hunlocked, if_neg Bool.false_ne_true, hhead]
    dsimp only
    rw [hbit, Option.map_some, hset, if_pos rfl]
  · refine ⟨rfl, ⟨node', hnext, hnode'⟩, fun other bit' hbit' ↦ ?_⟩
    dsimp only
    rw [Bitmap.set_varCountTotal]
    exact h.next other bit' hbit'

/-- What the loop of the constructor keeps: only its first node leads nowhere. -/
structure Pushed (count : ℕ) (nodes : ℕ → ℕ) (first : ℕ)
    (chain : Option ℕ × (ℕ → Option FreeBit)) : Prop where
  head : ∃ node, chain.1 = some node ∧ chain.2 node ≠ none
  next : ∀ node bit, chain.2 node = some bit → bit.position < count ∧
    ((bit.nextFreeBit = none ∧ node = nodes first) ∨
      ∃ node', bit.nextFreeBit = some node' ∧ chain.2 node' ≠ none)

theorem push_snd (nodes : ℕ → ℕ) (chain : Option ℕ × (ℕ → Option FreeBit)) (bit : ℕ) :
    (push nodes chain bit).2 =
      Function.update chain.2 (nodes bit) (some ⟨position bit, chain.1⟩) := rfl

theorem Pushed.after_push {count first bit : ℕ} {nodes : ℕ → ℕ}
    {chain : Option ℕ × (ℕ → Option FreeBit)} (h : Pushed count nodes first chain)
    (hbit : position bit < count) : Pushed count nodes first (push nodes chain bit) := by
  have hkept (node : ℕ) (hnode : chain.2 node ≠ none) :
      Function.update chain.2 (nodes bit) (some ⟨position bit, chain.1⟩) node ≠ none := by
    by_cases heq : node = nodes bit
    · rw [heq, Function.update_self]
      exact Option.some_ne_none _
    · rwa [Function.update_of_ne heq]
  refine ⟨⟨nodes bit, rfl, ?_⟩, fun node other hother ↦ ?_⟩
  · rw [push_snd, Function.update_self]
    exact Option.some_ne_none _
  · rw [push_snd] at hother ⊢
    by_cases heq : node = nodes bit
    · rw [heq, Function.update_self] at hother
      obtain rfl := Option.some.inj hother
      obtain ⟨node', hhead, hnode'⟩ := h.head
      dsimp only
      exact ⟨hbit, Or.inr ⟨node', hhead, hkept node' hnode'⟩⟩
    · rw [Function.update_of_ne heq] at hother
      obtain ⟨hposition, hnext⟩ := h.next node other hother
      exact ⟨hposition, hnext.imp_right fun ⟨node', hnode', hsome⟩ ↦
        ⟨node', hnode', hkept node' hsome⟩⟩

theorem Pushed.foldl {count first : ℕ} {nodes : ℕ → ℕ} {chain : Option ℕ × (ℕ → Option FreeBit)}
    (h : Pushed count nodes first chain) {bits : List ℕ} (hbits : ∀ bit ∈ bits, position bit < count) :
    Pushed count nodes first (bits.foldl (push nodes) chain) := by
  induction bits generalizing chain with
  | nil => exact h
  | cons bit bits ih =>
    exact ih (h.after_push (hbits bit List.mem_cons_self)) fun other hother ↦
      hbits other (List.mem_cons_of_mem _ hother)

/-- The constructor makes a ring of the free bits of a zeroed buffer. -/
theorem construct_ring {count size : ℕ} {items : ℕ → T} {nodes : ℕ → ℕ} (hpos : 0 < count)
    (hbound : count ≤ 2 ^ 31) (h : construct count size (fun _ ↦ 0) items nodes = some t) :
    Ring t := by
  rw [construct] at h
  split_ifs at h with hcount
  obtain ⟨bitmap, hbitmap, rfl⟩ := Option.map_eq_some_iff.mp h
  obtain ⟨htotal, -⟩ := Bitmap.construct_zeroed hbitmap
  obtain ⟨last, rfl⟩ := Nat.exists_eq_succ_of_ne_zero hpos.ne'
  have hbits : freeBits (last + 1) (fun _ ↦ 0) = last :: (List.range last).reverse := by
    rw [freeBits_zeroed hcount hbound, List.range_succ, List.reverse_append, List.reverse_singleton,
      List.singleton_append]
  have hposition (bit : ℕ) (hbit : bit ≤ last) : position bit < last + 1 := by
    rw [position_of_lt (by omega)]
    omega
  have hfirst : Pushed (last + 1) nodes last (push nodes (none, fun _ ↦ none) last) := by
    refine ⟨⟨nodes last, rfl, ?_⟩, fun node bit hbit ↦ ?_⟩
    · rw [push_snd, Function.update_self]
      exact Option.some_ne_none _
    · rw [push_snd] at hbit
      by_cases heq : node = nodes last
      · rw [heq, Function.update_self] at hbit
        obtain rfl := Option.some.inj hbit
        dsimp only
        exact ⟨hposition last le_rfl, Or.inl ⟨rfl, heq⟩⟩
      · rw [Function.update_of_ne heq] at hbit
        exact absurd hbit.symm (Option.some_ne_none bit)
  have hrest : ∀ bit ∈ (List.range last).reverse, position bit < last + 1 := fun bit hbit ↦
    hposition bit (List.mem_range.mp (List.mem_reverse.mp hbit)).le
  have hpushed := hfirst.foldl hrest
  obtain ⟨node, hhead, hnode⟩ := hpushed.head
  rw [hbits, List.foldl_cons]
  have hkept (other : ℕ) (hother : ((List.range last).reverse.foldl (push nodes)
      (push nodes (none, fun _ ↦ none) last)).2 other ≠ none) : tie nodes
      ((List.range last).reverse.foldl (push nodes) (push nodes (none, fun _ ↦ none) last))
      (some last) other ≠ none := by
    rw [tie]
    by_cases heq : other = nodes last
    · rw [heq, Function.update_self]
      exact Option.some_ne_none _
    · rwa [Function.update_of_ne heq]
  refine ⟨rfl, ⟨node, hhead, hkept node hnode⟩, fun other bit hbit ↦ ?_⟩
  dsimp only [List.head?_cons] at hbit ⊢
  rw [htotal]
  by_cases heq : other = nodes last
  · rw [tie, heq, Function.update_self] at hbit
    obtain rfl := Option.some.inj hbit
    dsimp only
    exact ⟨hposition last le_rfl, node, hhead, hkept node hnode⟩
  · rw [tie, Function.update_of_ne heq] at hbit
    obtain ⟨hless, ⟨-, hsame⟩ | ⟨node', hnext, hsome⟩⟩ := hpushed.next other bit hbit
    · exact absurd hsame heq
    · exact ⟨hless, node', hnext, hkept node' hsome⟩

/-! ### Free blocks -/

/-- On a ring, `create` hands out a free index if there is one. -/
theorem Chained.create_ring (h : Chained t chain)
    (hindex : index < t.bitmapItems.varCountTotal) (hcreate : t.create true = some (t', some index))
    (hring : Ring t') (hbitmap : t'.bitmapItems = (t.bitmapItems.set index).1) :
    ∃ chain', Chained t' chain' ∧
      (chain = [] ∧ t'.bitmapItems = t.bitmapItems ∨
        t.Free index ∧ chain.length = chain'.length + 1 ∧
          ∀ other, t'.Free other → t.Free other ∧ other ≠ index) := by
  by_cases hfree : ∃ index, t.Free index
  · obtain ⟨t'', index', chain', hcreate', hfree', hchain', hbitmap'⟩ :=
      h.creation (c := .plain true) rfl hfree
    obtain ⟨rfl, hsame⟩ := Prod.mk.inj (Option.some.inj (hcreate.symm.trans hcreate'))
    obtain rfl := Option.some.inj hsame
    obtain ⟨-, hbits, hcount, htotal⟩ := Bitmap.set_of_clear hfree'.1 hfree'.2
    rw [← hbitmap] at hbits hcount htotal
    refine ⟨chain', hchain', Or.inr ⟨hfree', ?_, fun other hother ↦ ?_⟩⟩
    · have hmem := (h.mem_positions index).mpr hfree'
      have hsome : 0 < chain.length := by
        rw [← List.length_map (f := Prod.snd)]
        exact List.length_pos_of_mem hmem
      have hbefore := h.countFree
      have hafter := hchain'.countFree
      omega
    · obtain ⟨hless, hclear⟩ := hother
      rw [Bool.eq_false_iff, ne_eq, hbits, not_or] at hclear
      exact ⟨⟨htotal ▸ hless, Bool.eq_false_iff.mpr hclear.2⟩, hclear.1⟩
  · have hnil : chain = [] := by
      refine List.eq_nil_iff_forall_not_mem.mpr fun first hfirst ↦ hfree ⟨first.2, ?_⟩
      exact (h.mem_positions _).mp (List.mem_map_of_mem hfirst)
    subst hnil
    have hset : t.bitmapItems.bit index = true := by
      by_contra hclear
      exact hfree ⟨index, hindex, Bool.eq_false_iff.mpr hclear⟩
    have hsame : t'.bitmapItems = t.bitmapItems := hbitmap.trans (Bitmap.set_of_set hset)
    refine ⟨[], ⟨trivial, List.nodup_nil, List.nodup_nil, fun other ↦ ?_, ?_, hring.unlocked⟩,
      Or.inl ⟨rfl, hsame⟩⟩
    · rw [Free, hsame]
      exact h.mem_positions other
    · rw [hsame]
      exact h.countFree

end

/-! ### The table of a server -/

/-- `tableBlock` of a server: what the constructor makes of a zeroed buffer, after any number of
creations. -/
def BlockTable (t : Table Unit) : Prop :=
  ∃ (count : ℕ) (nodes : ℕ → ℕ) (t₀ : Table Unit) (live : Finset ℕ),
    0 < count ∧ count ≤ 2 ^ 31 ∧ Function.Injective nodes ∧
      construct count BLOCK_SIZE.toNat (fun _ ↦ 0) (fun _ ↦ ()) nodes = some t₀ ∧
      Reachable ⟨t₀, ∅⟩ Step (fun _ call ↦ call = .create (.plain true)) ⟨t, live⟩

/-- A number of creations, up to the first one that fails: the table, the indices, and whether all
of them have succeeded. -/
def createAll : ℕ → Table T → Option (Table T × List ℕ × Bool)
  | 0, t => some (t, [], true)
  | n + 1, t =>
    (t.create true).bind fun
      | (t', none) => some (t', [], false)
      | (t', some index) =>
        (createAll n t').map fun result ↦ (result.1, index :: result.2.1, result.2.2)

theorem createAll_length {t t' : Table T} {new : List ℕ} {n : ℕ}
    (h : createAll n t = some (t', new, true)) : new.length = n := by
  induction n generalizing t new with
  | zero =>
    obtain ⟨-, hnew⟩ := Prod.mk.inj (Option.some.inj h)
    rw [← (Prod.mk.inj hnew).1, List.length_nil]
  | succ n ih =>
    obtain ⟨⟨t₁, reply⟩, -, h⟩ := Option.bind_eq_some_iff.mp h
    cases reply with
    | none => cases h
    | some index =>
      obtain ⟨⟨t₂, rest, ok⟩, hrest, heq⟩ := Option.map_eq_some_iff.mp h
      obtain ⟨rfl, hnew⟩ := Prod.mk.inj heq
      obtain ⟨rfl, rfl⟩ := Prod.mk.inj hnew
      exact congrArg Nat.succ (ih hrest)

theorem blockTable_construct {count : ℕ} {nodes : ℕ → ℕ} {t : Table Unit} (hpos : 0 < count)
    (hbound : count ≤ 2 ^ 31) (hnodes : Function.Injective nodes)
    (h : construct count BLOCK_SIZE.toNat (fun _ ↦ 0) (fun _ ↦ ()) nodes = some t) : BlockTable t :=
  ⟨count, nodes, t, ∅, hpos, hbound, hnodes, h, Reachable.init⟩

theorem BlockTable.create {t t' : Table Unit} {reply : Option ℕ} (h : BlockTable t)
    (hcreate : t.create true = some (t', reply)) : BlockTable t' := by
  obtain ⟨count, nodes, t₀, live, hpos, hbound, hnodes, hconstruct, hrun⟩ := h
  exact ⟨count, nodes, t₀, _, hpos, hbound, hnodes, hconstruct,
    hrun.step rfl (.create (c := .plain true) hcreate)⟩

theorem BlockTable.of_createAll {t t' : Table Unit} {new : List ℕ} {ok : Bool} {n : ℕ}
    (h : BlockTable t) (hcreate : createAll n t = some (t', new, ok)) : BlockTable t' := by
  induction n generalizing t new ok with
  | zero =>
    obtain ⟨rfl, -⟩ := Prod.mk.inj (Option.some.inj hcreate)
    exact h
  | succ n ih =>
    obtain ⟨⟨t₁, reply⟩, hfirst, hrest⟩ := Option.bind_eq_some_iff.mp hcreate
    cases reply with
    | none =>
      obtain ⟨rfl, -⟩ := Prod.mk.inj (Option.some.inj hrest)
      exact h.create hfirst
    | some index =>
      obtain ⟨⟨t₂, rest, ok'⟩, hothers, heq⟩ := Option.map_eq_some_iff.mp hrest
      obtain ⟨rfl, -⟩ := Prod.mk.inj heq
      exact ih (h.create hfirst) hothers

/-- The invariant of the block table. -/
structure Handing (t : Table T) (chain : List (ℕ × ℕ)) : Prop where
  ring : Ring t
  chained : Chained t chain
  total : t.bitmapItems.varCountTotal ≤ 2 ^ 31

theorem BlockTable.handing {t : Table Unit} (h : BlockTable t) : ∃ chain, Handing t chain := by
  obtain ⟨count, nodes, t₀, live, hpos, hbound, hnodes, hconstruct, hrun⟩ := h
  have hnew := construct_constructed hbound hnodes hconstruct
  refine hrun.invariant (fun s ↦ ∃ chain, Handing s.table chain) ?_ ?_
  · exact ⟨_, construct_ring hpos hbound hconstruct, hnew.chained hbound hnodes,
      hnew.total.trans_le hbound⟩
  · rintro s call s' - ⟨chain, hring, hchain, htotal⟩ rfl hstep
    cases hstep with
    | create hcreate =>
      obtain ⟨t', index, hcreate', hring', hindex, hbitmap⟩ := hring.create
      obtain ⟨rfl, rfl⟩ := Prod.mk.inj (Option.some.inj (hcreate'.symm.trans hcreate))
      obtain ⟨chain', hchain', -⟩ := hchain.create_ring hindex hcreate' hring' hbitmap
      refine ⟨chain', hring', hchain', ?_⟩
      dsimp only
      rwa [hbitmap, Bitmap.set_varCountTotal]

/-- A number of creations on the block table. -/
theorem Handing.createAll {t : Table T} {chain : List (ℕ × ℕ)} (h : Handing t chain) (n : ℕ) :
    ∃ t' new, createAll n t = some (t', new, true) ∧ new.length = n ∧
      (∀ index ∈ new, index < t.bitmapItems.varCountTotal) ∧
      (n ≤ chain.length → new.Nodup ∧ ∀ index ∈ new, t.Free index) := by
  induction n generalizing t chain with
  | zero =>
    exact ⟨t, [], rfl, rfl, fun _ hmem ↦ absurd hmem List.not_mem_nil, fun _ ↦
      ⟨List.nodup_nil, fun _ hmem ↦ absurd hmem List.not_mem_nil⟩⟩
  | succ n ih =>
    obtain ⟨t', index, hcreate, hring, hindex, hbitmap⟩ := h.ring.create
    obtain ⟨chain', hchain', hcases⟩ := h.chained.create_ring hindex hcreate hring hbitmap
    have htotal : t'.bitmapItems.varCountTotal = t.bitmapItems.varCountTotal := by
      rw [hbitmap, Bitmap.set_varCountTotal]
    obtain ⟨t'', new, hnew, hlength, hless, hfresh⟩ :=
      ih ⟨hring, hchain', htotal.trans_le h.total⟩
    refine ⟨t'', index :: new, ?_, congrArg Nat.succ hlength, fun other hother ↦ ?_, fun hroom ↦ ?_⟩
    · rw [Table.createAll, hcreate, Option.bind_some]
      dsimp only
      rw [hnew, Option.map_some]
    · rcases List.mem_cons.mp hother with rfl | hmem
      · exact hindex
      · exact htotal ▸ hless other hmem
    · rcases hcases with ⟨rfl, -⟩ | ⟨hfree, hlen, hothers⟩
      · exact absurd hroom (Nat.not_succ_le_zero n)
      · obtain ⟨hnodup, hfrees⟩ := hfresh (by omega)
        refine ⟨List.nodup_cons.mpr ⟨fun hmem ↦ (hothers index (hfrees index hmem)).2 rfl, hnodup⟩,
          fun other hother ↦ ?_⟩
        rcases List.mem_cons.mp hother with rfl | hmem
        · exact hfree
        · exact (hothers other (hfrees other hmem)).1

/-- The block table hands out any number of blocks. They are new, each of them, exactly if there are
so many free ones. -/
theorem BlockTable.createAll {t : Table Unit} (h : BlockTable t) (n : ℕ) :
    ∃ t' new, createAll n t = some (t', new, true) ∧ new.length = n ∧
      (∀ index ∈ new, index < t.bitmapItems.varCountTotal) ∧
      ((new.Nodup ∧ ∀ index ∈ new, t.Free index) ↔ n ≤ t.bitmapItems.countFree) := by
  obtain ⟨chain, hhanding⟩ := h.handing
  obtain ⟨t', new, hcreate, hlength, hless, hfresh⟩ := hhanding.createAll n
  have hcount : t.bitmapItems.countFree = chain.length := hhanding.chained.countFree
  refine ⟨t', new, hcreate, hlength, hless, fun ⟨hnodup, hfree⟩ ↦ ?_, fun hroom ↦ ?_⟩
  · have hsubset : new ⊆ chain.map Prod.snd := fun index hindex ↦
      (hhanding.chained.mem_positions index).mpr (hfree index hindex)
    have hle := (hnodup.subperm hsubset).length_le
    rw [List.length_map] at hle
    omega
  · exact hfresh (hcount ▸ hroom)

end Table

end SwitchDelta.Fs
