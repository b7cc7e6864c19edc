import SwitchDelta.Foundation.Components
import SwitchDelta.Fs.Namespace

/-!
# The path functions on strings

`getParentDirectory` and `getNameFromPath` look for the last `/` with an `int` that begins at the last
character. Within the range of that `int` they do what the calls of the server use them for
(`getParentDirectory_eq`, `getNameFromPath_eq`), and they take a path in normal form apart
(`path_split`).

`correct` of the client brings a path into that form (`correct_normal`), again within the range of an
`int`.
-/

set_option autoImplicit false
set_option relaxedAutoImplicit false

namespace SwitchDelta.Fs.PathStrings

open Foundation

/-! ### The functions -/

/-- A character of a string. The end of the string is marked by zero. -/
def charAt (path : Path) (i : ℕ) : UInt8 := path.getD i 0

/-- An integer as an `int`. -/
def toInt (n : ℤ) : ℤ := n.bmod (2 ^ 32)

/-- The loop that looks for `/` before a position. -/
def scan (path : Path) : ℕ → Option ℕ
  | 0 => none
  | i + 1 => if charAt path i = slash then some i else scan path i

/-- The last `/`, as both functions look for it. The loop does not run from a negative `int`. -/
def lastSlash (path : Path) : Option ℕ := scan path (toInt (path.length - 1) + 1).toNat

/-- `getParentDirectory`: the buffer `parent`, and the result. -/
def getParentDirectory (path : Path) : Path × Bool :=
  if path = [slash] then (path, false)
  else
    match lastSlash path with
    | none => (path, false)
    | some i => if path.take i = [] then ([slash], true) else (path.take i, true)

/-- `getNameFromPath`. Where it fails it leaves the buffer `name` as it was. -/
def getNameFromPath (path : Path) : Option Path :=
  if path = [slash] then none else (lastSlash path).map fun i ↦ path.drop (i + 1)

/-- The loop of `correct`, which copies all but the first of adjacent `/`s. -/
def copy (old : Path) (len : ℕ) : Path :=
  (List.range len).foldl (fun new i ↦
    if charAt old i = slash ∧ charAt old (i + 1) = slash then new else new ++ [charAt old i]) []

/-- `correct`. Where nothing is copied it reads before the buffer, and there is no result. -/
def correct (old : Path) : Option Path :=
  let new := copy old (toInt old.length).toNat
  if new = [] then none
  else
    let cut := if new.getLast? = some slash then new.dropLast else new
    some (if cut = [] then [slash] else cut)

/-! ### The last separator -/

variable {path parent name before after : Path} {n : ℕ}

theorem toInt_of_lt (h : n < 2 ^ 31) : toInt n = n := by
  rw [toInt, Int.bmod_eq_of_le_mul_two] <;> omega

theorem charAt_append (c : UInt8) : charAt (before ++ c :: after) before.length = c := by
  rw [charAt, List.getD_append_right _ _ _ _ le_rfl, Nat.sub_self, List.getD_cons_zero]

theorem scan_eq_none (h : slash ∉ path) (hn : n ≤ path.length) : scan path n = none := by
  induction n with
  | zero => rfl
  | succ n ih =>
    have hother : charAt path n ≠ slash := fun heq ↦ h (by
      rw [charAt, List.getD_eq_getElem path 0 hn] at heq
      exact heq ▸ List.getElem_mem hn)
    rw [scan, if_neg hother, ih (by omega)]

/-- The scan of a string with a last `/`. -/
theorem scan_eq_some (h : slash ∉ after) (hn : n ≤ after.length) :
    scan (before ++ slash :: after) (before.length + 1 + n) = some before.length := by
  induction n with
  | zero => rw [Nat.add_zero, scan, if_pos (charAt_append slash)]
  | succ n ih =>
    have hother : charAt (before ++ slash :: after) (before.length + 1 + n) ≠ slash := fun heq ↦
      h (by
        rw [charAt, List.getD_append_right _ _ _ _ (by omega)] at heq
        have hindex : before.length + 1 + n - before.length = n + 1 := by omega
        rw [hindex, List.getD_cons_succ, List.getD_eq_getElem after 0 hn] at heq
        exact heq ▸ List.getElem_mem hn)
    rw [← Nat.add_assoc, scan, if_neg hother, ih (by omega)]

theorem exists_last_slash (h : slash ∈ path) :
    ∃ before after, path = before ++ slash :: after ∧ slash ∉ after := by
  induction path with
  | nil => exact absurd h List.not_mem_nil
  | cons c path ih =>
    by_cases hrest : slash ∈ path
    · obtain ⟨before, after, rfl, hafter⟩ := ih hrest
      exact ⟨c :: before, after, rfl, hafter⟩
    · obtain rfl := (List.mem_cons.mp h).resolve_right hrest
      exact ⟨[], path, rfl, hrest⟩

/-- The scan begins at the end of a string within the range of an `int`. -/
theorem lastSlash_eq_scan (h : path.length ≤ 2 ^ 31) : lastSlash path = scan path path.length := by
  have hstart : (toInt (path.length - 1) + 1).toNat = path.length := by
    rw [toInt, Int.bmod_eq_of_le_mul_two] <;> omega
  rw [lastSlash, hstart]

theorem lastSlash_of_notMem (h : path.length ≤ 2 ^ 31) (hslash : slash ∉ path) :
    lastSlash path = none :=
  (lastSlash_eq_scan h).trans (scan_eq_none hslash le_rfl)

theorem lastSlash_append (h : (before ++ slash :: after).length ≤ 2 ^ 31) (hafter : slash ∉ after) :
    lastSlash (before ++ slash :: after) = some before.length := by
  rw [lastSlash_eq_scan h, ← scan_eq_some hafter le_rfl]
  congr 1
  rw [List.length_append, List.length_cons]
  omega

/-- The parent directory is the one that the calls of the server go to. -/
theorem getParentDirectory_eq (h : path.length ≤ 2 ^ 31) : getParentDirectory path =
    (Fs.getParentDirectory path, decide (path ≠ [slash] ∧ slash ∈ path)) := by
  rw [getParentDirectory, Fs.getParentDirectory]
  split_ifs with hroot
  · rw [hroot]
    rfl
  · by_cases hslash : slash ∈ path
    · rw [decide_eq_true ⟨hroot, hslash⟩]
      obtain ⟨before, after, rfl, hafter⟩ := exists_last_slash hslash
      rw [lastSlash_append h hafter, splitLast_append hafter]
      dsimp only
      rw [List.take_left]
      split_ifs <;> rfl
    · rw [lastSlash_of_notMem h hslash, splitLast_eq_none_iff.mpr hslash,
        decide_eq_false fun hboth ↦ hslash hboth.2]

/-- The name is the one that the calls of the server write to a record. -/
theorem getNameFromPath_eq (h : path.length ≤ 2 ^ 31) :
    getNameFromPath path = Fs.getNameFromPath path := by
  rw [getNameFromPath, Fs.getNameFromPath]
  split_ifs with hroot
  · rfl
  · by_cases hslash : slash ∈ path
    · obtain ⟨before, after, rfl, hafter⟩ := exists_last_slash hslash
      have hdrop : (before ++ slash :: after).drop (before.length + 1) = after := by
        rw [List.append_cons]
        exact List.drop_left' List.length_append
      rw [lastSlash_append h hafter, splitLast_append hafter, Option.map_some, Option.map_some,
        hdrop]
    · rw [lastSlash_of_notMem h hslash, splitLast_eq_none_iff.mpr hslash]
      rfl

/-! ### Taking a path apart -/

/-- A canonical absolute path: it begins with `/`, no component is empty, and no `/` is at its end
unless it is the root. -/
structure Absolute (path : Path) : Prop where
  head : path.head? = some slash
  normal : Normal slash path

/-- The directory that is reached by taking the parent a number of times. -/
def ancestor (path : Path) : ℕ → Option Path
  | 0 => some path
  | k + 1 => (ancestor path k).bind fun path ↦
    match getParentDirectory path with
    | (parent, true) => some parent
    | (_, false) => none

theorem absolute_render {pieces : List Path} (h : Pieces slash pieces) :
    Absolute (render slash pieces) :=
  ⟨render_head?, normal_render h⟩

theorem Absolute.eq_render (h : Absolute path) : path = render slash (components slash path) :=
  h.normal.eq_render h.head

theorem render_eq_root_iff {pieces : List Path} (h : Pieces slash pieces) :
    render slash pieces = [slash] ↔ pieces = [] := by
  constructor
  · intro hroot
    rw [← components_render h, hroot]
    rfl
  · intro hnil
    rw [render, if_pos hnil]

/-- A name after the components of a directory. -/
theorem render_concat {pieces : List Path} (h : Pieces slash pieces) :
    render slash (pieces ++ [name]) = join (render slash pieces) name := by
  have hne : pieces ++ [name] ≠ [] := List.append_ne_nil_of_right_ne_nil _ (List.cons_ne_nil _ _)
  rw [join, render, if_neg hne, List.flatMap_append, List.flatMap_singleton]
  split_ifs with hroot
  · rw [(render_eq_root_iff h).mp hroot, List.flatMap_nil, List.nil_append]
  · rw [render, if_neg fun hnil ↦ hroot ((render_eq_root_iff h).mpr hnil)]

/-- The last component of a path, and the directory that the other ones make. -/
theorem Absolute.exists_join (h : Absolute path) (hroot : path ≠ [slash]) :
    ∃ parent name, path = join parent name ∧ Absolute parent ∧ name ≠ [] ∧ slash ∉ name ∧
      components slash path = components slash parent ++ [name] := by
  have hpieces := @pieces_components _ _ slash path
  have hrender := h.eq_render
  obtain hnil | ⟨pieces, name, hconcat⟩ := List.eq_nil_or_concat (components slash path)
  · rw [hnil] at hrender
    exact absurd hrender hroot
  · rw [List.concat_eq_append] at hconcat
    rw [hconcat] at hpieces hrender
    have hparent : Pieces slash pieces := fun piece hmem ↦
      hpieces piece (List.mem_append_left [name] hmem)
    obtain ⟨hne, hname⟩ := hpieces name (List.mem_append_right pieces (List.mem_singleton_self name))
    refine ⟨render slash pieces, name, ?_, absolute_render hparent, hne, hname, ?_⟩
    · rw [← render_concat hparent, ← hrender]
    · rw [components_render hparent, hconcat]

/-- Both functions succeed on a joined path. -/
theorem split_join (hparent : parent ≠ []) (hne : name ≠ []) (hname : slash ∉ name)
    (hlength : (join parent name).length ≤ 2 ^ 31) :
    getParentDirectory (join parent name) = (parent, true) ∧
      getNameFromPath (join parent name) = some name := by
  have hroot : join parent name ≠ [slash] := by
    intro hroot
    rw [join] at hroot
    split_ifs at hroot
    · exact hne (List.cons.inj hroot).2
    · obtain ⟨hnil, -⟩ | ⟨-, hcons⟩ := List.append_eq_singleton_iff.mp hroot
      · exact hparent hnil
      · exact List.cons_ne_nil slash name hcons
  have hslash : slash ∈ join parent name := by
    rw [join]
    split_ifs <;> simp
  rw [getParentDirectory_eq hlength, getNameFromPath_eq hlength,
    getParentDirectory_join hname hroot hparent, getNameFromPath_join hname hroot,
    decide_eq_true ⟨hroot, hslash⟩]
  exact ⟨rfl, rfl⟩

theorem join_length_lt (hne : name ≠ []) : parent.length < (join parent name).length := by
  have hpos := List.length_pos_iff.mpr hne
  rw [join]
  split_ifs with hroot
  · rw [hroot, List.length_cons, List.length_cons, List.length_nil]
    omega
  · rw [List.length_append, List.length_cons]
    omega

/-- The ancestors of a path lose one component each, down to the root. -/
theorem ancestor_of_absolute (h : Absolute path) (hlength : path.length ≤ 2 ^ 31) {k : ℕ}
    (hk : k ≤ (components slash path).length) : ∃ directory, ancestor path k = some directory ∧
      Absolute directory ∧ directory.length ≤ path.length ∧
      (components slash directory).length + k = (components slash path).length := by
  induction k with
  | zero => exact ⟨path, rfl, h, le_rfl, rfl⟩
  | succ k ih =>
    obtain ⟨directory, hancestor, habsolute, hshorter, hcount⟩ := ih (by omega)
    have hroot : directory ≠ [slash] := by
      rintro rfl
      have hnone : (components slash [slash]).length = 0 := rfl
      omega
    obtain ⟨parent, name, rfl, hparent, hne, hname, hcomponents⟩ := habsolute.exists_join hroot
    have hget := (split_join hparent.normal.ne_nil hne hname (hshorter.trans hlength)).1
    have hless := @join_length_lt parent name hne
    rw [hcomponents, List.length_append, List.length_singleton] at hcount
    refine ⟨parent, ?_, hparent, by omega, by omega⟩
    rw [ancestor, hancestor, Option.bind_some, hget]

theorem Absolute.eq_root_iff (h : Absolute path) :
    path = [slash] ↔ (components slash path).length = 0 := by
  rw [List.length_eq_zero_iff, ← render_eq_root_iff (pieces_components path), ← h.eq_render]

/-- A canonical absolute path other than the root, within the range of an `int`, is its name in its
parent directory, and the root is reached after as many parents as it has components. -/
theorem path_split (h : Absolute path) (hroot : path ≠ [slash]) (hlength : path.length ≤ 2 ^ 31) :
    (∃ parent name, getParentDirectory path = (parent, true) ∧ getNameFromPath path = some name ∧
      name ≠ [] ∧ slash ∉ name ∧ Absolute parent ∧ parent.length < path.length ∧
      join parent name = path) ∧
    ∀ k ≤ (components slash path).length, ∃ directory, ancestor path k = some directory ∧
      (directory = [slash] ↔ k = (components slash path).length) := by
  constructor
  · obtain ⟨parent, name, rfl, hparent, hne, hname, -⟩ := h.exists_join hroot
    obtain ⟨hget, hget'⟩ := split_join hparent.normal.ne_nil hne hname hlength
    exact ⟨parent, name, hget, hget', hne, hname, hparent, join_length_lt hne, rfl⟩
  · intro k hk
    obtain ⟨directory, hancestor, habsolute, -, hcount⟩ := ancestor_of_absolute h hlength hk
    refine ⟨directory, hancestor, habsolute.eq_root_iff.trans ?_⟩
    omega

/-- `/a/b`. -/
def nested : Path := [slash, 97, slash, 98]

theorem path_split_nested : Absolute nested ∧ nested ≠ [slash] ∧ nested.length ≤ 2 ^ 31 ∧
    (∃ parent name, getParentDirectory nested = (parent, true) ∧
      getNameFromPath nested = some name ∧ name ≠ [] ∧ slash ∉ name ∧ Absolute parent ∧
      parent.length < nested.length ∧ join parent name = nested) ∧
    ∀ k ≤ (components slash nested).length, ∃ directory, ancestor nested k = some directory ∧
      (directory = [slash] ↔ k = (components slash nested).length) := by
  have habsolute : Absolute nested :=
    @absolute_render [[97], [98]] (by simp [Pieces, slash])
  have hroot : nested ≠ [slash] := by decide
  have hlength : nested.length ≤ 2 ^ 31 := by decide
  exact ⟨habsolute, hroot, hlength, path_split habsolute hroot hlength⟩

/-- `/` and a name of some length. -/
def long (n : ℕ) : Path := slash :: List.replicate n 97

theorem long_length (n : ℕ) : (long n).length = n + 1 := by
  rw [long, List.length_cons, List.length_replicate]

theorem absolute_long (hn : n ≠ 0) : Absolute (long n) ∧ long n ≠ [slash] := by
  have hname : List.replicate n (97 : UInt8) ≠ [] := by
    rw [← List.length_pos_iff, List.length_replicate]
    omega
  have hpieces : Pieces slash [List.replicate n 97] := by
    intro piece hpiece
    rw [List.mem_singleton.mp hpiece]
    exact ⟨hname, fun hmem ↦ absurd (List.eq_of_mem_replicate hmem) (by decide)⟩
  have hrender : long n = render slash [List.replicate n 97] := by
    rw [render, if_neg (List.cons_ne_nil _ _), List.flatMap_singleton, long]
  exact ⟨hrender ▸ absolute_render hpieces, fun hroot ↦ hname (List.cons.inj hroot).2⟩

/-- Both functions fail on a path that is longer by one character. -/
theorem path_not_split : Absolute (long (2 ^ 31)) ∧ long (2 ^ 31) ≠ [slash] ∧
    getParentDirectory (long (2 ^ 31)) = (long (2 ^ 31), false) ∧
      getNameFromPath (long (2 ^ 31)) = none := by
  obtain ⟨habsolute, hroot⟩ := @absolute_long (2 ^ 31) (by norm_num)
  have hlast : lastSlash (long (2 ^ 31)) = none := by
    have hstart : (toInt (((2 ^ 31 + 1 : ℕ) : ℤ) - 1) + 1).toNat = 0 := by decide
    rw [lastSlash, long_length, hstart, scan]
  refine ⟨habsolute, hroot, ?_, ?_⟩
  · rw [getParentDirectory, if_neg hroot, hlast]
  · rw [getNameFromPath, if_neg hroot, hlast, Option.map_none]

/-! ### Making a path canonical -/

variable {old other : Path}

/-- What the loop of `correct` does from a position on. -/
theorem foldl_copy (rest : Path) (new : Path) : (List.range' before.length rest.length).foldl
    (fun new i ↦ if charAt (before ++ rest) i = slash ∧ charAt (before ++ rest) (i + 1) = slash
      then new else new ++ [charAt (before ++ rest) i]) new = new ++ squeeze slash rest := by
  induction rest generalizing before new with
  | nil => exact (List.append_nil new).symm
  | cons c rest ih =>
    have ih := @ih (before ++ [c])
    rw [List.append_assoc, List.singleton_append, List.length_append, List.length_singleton] at ih
    have hnext : charAt (before ++ c :: rest) (before.length + 1) = slash ↔
        rest.head? = some slash := by
      rw [charAt, List.getD_append_right _ _ _ _ (by omega), Nat.add_sub_cancel_left,
        List.getD_cons_succ]
      cases rest with
      | nil => exact iff_of_false (by decide) nofun
      | cons d rest => exact Option.some_inj.symm
    rw [List.length_cons, List.range'_succ, List.foldl_cons, ih, squeeze, charAt_append,
      if_congr (and_congr_right fun _ ↦ hnext) rfl rfl, if_congr Iff.rfl rfl rfl]
    split_ifs
    · rfl
    · rw [List.append_assoc, List.singleton_append]

theorem copy_eq (old : Path) : copy old old.length = squeeze slash old := by
  have hfold := @foldl_copy [] old []
  rw [List.nil_append, List.nil_append, List.length_nil, ← List.range_eq_range'] at hfold
  exact hfold

/-- `correct` within the range of an `int`. -/
theorem correct_eq (hne : old ≠ []) (hlength : old.length < 2 ^ 31) :
    correct old = some (trim slash (squeeze slash old)) := by
  rw [correct, toInt_of_lt hlength, Int.toNat_natCast, copy_eq]
  exact if_neg (squeeze_ne_nil hne)

/-- Where nothing is copied there is no result. -/
theorem correct_of_copy (h : copy old (toInt old.length).toNat = []) : correct old = none := by
  rw [correct, h]
  rfl

/-- What is left of a path. -/
theorem trim_squeeze (hne : old ≠ []) : Normal slash (trim slash (squeeze slash old)) ∧
    components slash (trim slash (squeeze slash old)) = components slash old ∧
    (trim slash (squeeze slash old)).head? = old.head? ∧
    (trim slash (squeeze slash old)).length ≤ old.length := by
  have hsqueeze := @squeeze_ne_nil _ _ slash old hne
  exact ⟨normal_trim (single_squeeze old) hsqueeze,
    (components_trim hsqueeze).trans (components_squeeze old),
    (trim_head? hsqueeze).trans (squeeze_head? old),
    (trim_length_le hsqueeze).trans (squeeze_length_le old)⟩

/-- A nonempty path within the range of an `int` is brought into normal form: no two `/`s are
adjacent, none is at the end unless it is the root, and the components are the same. Two absolute
paths with the same components become the same string. -/
theorem correct_normal (hne : old ≠ []) (hlength : old.length < 2 ^ 31) :
    ∃ path, correct old = some path ∧ Single slash path ∧
      (path.getLast? = some slash → path = [slash]) ∧
      components slash path = components slash old ∧
      (path.head? = some slash ↔ old.head? = some slash) ∧ correct path = some path ∧
      ∀ other, other ≠ [] → other.length < 2 ^ 31 → old.head? = some slash →
        other.head? = some slash → components slash other = components slash old →
        correct other = some path := by
  obtain ⟨hnormal, hcomponents, hhead, hshorter⟩ := trim_squeeze hne
  refine ⟨trim slash (squeeze slash old), correct_eq hne hlength, hnormal.single, hnormal.last,
    hcomponents, by rw [hhead], ?_, ?_⟩
  · rw [correct_eq hnormal.ne_nil (hshorter.trans_lt hlength), hnormal.trim_squeeze]
  · intro other hne' hlength' habsolute habsolute' hsame
    obtain ⟨hnormal', hcomponents', hhead', -⟩ := trim_squeeze hne'
    rw [correct_eq hne' hlength', hnormal'.eq_render (hhead'.trans habsolute'), hcomponents',
      hsame, hnormal.eq_render (hhead.trans habsolute), hcomponents]

/-- `//a//`. -/
def repeated : Path := [slash, slash, 97, slash, slash]

theorem correct_repeated : repeated ≠ [] ∧ repeated.length < 2 ^ 31 ∧
    ∃ path, correct repeated = some path ∧ Single slash path ∧
      (path.getLast? = some slash → path = [slash]) ∧
      components slash path = components slash repeated ∧
      (path.head? = some slash ↔ repeated.head? = some slash) ∧ correct path = some path ∧
      ∀ other, other ≠ [] → other.length < 2 ^ 31 → repeated.head? = some slash →
        other.head? = some slash → components slash other = components slash repeated →
        correct other = some path :=
  ⟨by decide, by decide, correct_normal (by decide) (by decide)⟩

/-- From a path of `2 ^ 31` characters nothing is copied, although it has a component. -/
theorem correct_long : long (2 ^ 31 - 1) ≠ [] ∧ (long (2 ^ 31 - 1)).length = 2 ^ 31 ∧
    components slash (long (2 ^ 31 - 1)) ≠ [] ∧ copy (long (2 ^ 31 - 1))
      (toInt (long (2 ^ 31 - 1)).length).toNat = [] ∧ correct (long (2 ^ 31 - 1)) = none := by
  obtain ⟨habsolute, hroot⟩ := @absolute_long (2 ^ 31 - 1) (by norm_num)
  have hlength : (long (2 ^ 31 - 1)).length = 2 ^ 31 := (long_length _).trans (by norm_num)
  have hcopy : copy (long (2 ^ 31 - 1)) (toInt (long (2 ^ 31 - 1)).length).toNat = [] := by
    have hzero : (toInt ((2 ^ 31 : ℕ) : ℤ)).toNat = 0 := by decide
    rw [hlength, hzero]
    rfl
  refine ⟨habsolute.normal.ne_nil, hlength, fun hnil ↦ hroot ?_, hcopy, correct_of_copy hcopy⟩
  rw [habsolute.eq_root_iff, hnil, List.length_nil]

end SwitchDelta.Fs.PathStrings
