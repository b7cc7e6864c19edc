import Mathlib

/-!
# Components between separators

A list is cut at a separator, and the pieces that are not empty are its components. Lists with the
same components may differ in how often a separator is repeated. The normal form of a list
(`Normal`) repeats none and ends with none unless it is the separator alone; one that begins with a
separator is then given by its components (`Normal.eq_render`, `components_render`).

`squeeze` leaves one separator of each run.
-/

set_option autoImplicit false
set_option relaxedAutoImplicit false

namespace SwitchDelta.Foundation

variable {α : Type*} [DecidableEq α] {sep : α} {l l' : List α} {pieces : List (List α)} {c : α}

/-- The nonempty pieces between separators. -/
def components (sep : α) (l : List α) : List (List α) := (l.splitOn sep).filter (· ≠ [])

/-- No two separators are adjacent. -/
def Single (sep : α) (l : List α) : Prop := l.IsChain fun a b ↦ ¬(a = sep ∧ b = sep)

/-- Pieces that can be components. -/
def Pieces (sep : α) (pieces : List (List α)) : Prop := ∀ piece ∈ pieces, piece ≠ [] ∧ sep ∉ piece

/-- No separator is repeated, and none is at the end unless it is the whole list. -/
structure Normal (sep : α) (l : List α) : Prop where
  ne_nil : l ≠ []
  single : Single sep l
  last : l.getLast? = some sep → l = [sep]

/-- Components, each after a separator; the separator alone if there are none. -/
def render (sep : α) (pieces : List (List α)) : List α :=
  if pieces = [] then [sep] else pieces.flatMap (sep :: ·)

/-- One separator is left of each run. -/
def squeeze (sep : α) : List α → List α
  | [] => []
  | c :: l => if c = sep ∧ l.head? = some sep then squeeze sep l else c :: squeeze sep l

/-- The separator at the end is dropped, unless it is all there is. -/
def trim (sep : α) (l : List α) : List α :=
  let cut := if l.getLast? = some sep then l.dropLast else l
  if cut = [] then [sep] else cut

/-! ### Components -/

theorem components_nil : components sep [] = [] := rfl

theorem components_cons_sep : components sep (sep :: l) = components sep l := by
  rw [components, List.splitOn_cons_eq_if_modifyHead, if_pos (beq_self_eq_true sep)]
  rfl

theorem components_append : components sep (l ++ sep :: l') =
    components sep l ++ components sep l' := by
  rw [components, List.splitOn_append_cons_self, List.filter_append]
  rfl

/-- A separator at the end adds no component. -/
theorem components_concat : components sep (l ++ [sep]) = components sep l := by
  rw [components_append, components_nil, List.append_nil]

theorem components_of_notMem (hl : l ≠ []) (hsep : sep ∉ l) : components sep l = [l] := by
  rw [components, List.splitOn_eq_singleton hsep, List.filter_singleton]
  simp [hl]

/-- A list is cut at its first separator. -/
theorem splitOn_eq_cons (l : List α) : ∃ piece rest, l.splitOn sep = piece :: rest :=
  List.exists_cons_of_ne_nil (List.splitOn_ne_nil sep l)

theorem splitOn_cons_sep : (sep :: l).splitOn sep = [] :: l.splitOn sep := by
  rw [List.splitOn_cons_eq_if_modifyHead, if_pos (beq_self_eq_true sep)]

/-- Another element is put before the first piece. -/
theorem splitOn_cons_of_ne (hc : c ≠ sep) {first : List α} {rest : List (List α)}
    (hsplit : l.splitOn sep = first :: rest) :
    (c :: l).splitOn sep = (c :: first) :: rest := by
  rw [List.splitOn_cons_eq_if_modifyHead, if_neg (by simpa using hc), hsplit,
    List.modifyHead_cons]

/-- No piece has a separator. -/
theorem notMem_of_mem_splitOn : ∀ piece ∈ l.splitOn sep, sep ∉ piece := by
  induction l with
  | nil =>
    intro piece hpiece
    rw [List.mem_singleton.mp hpiece]
    exact List.not_mem_nil
  | cons c l ih =>
    obtain ⟨first, rest, hsplit⟩ := @splitOn_eq_cons _ _ sep l
    rw [hsplit] at ih
    by_cases heq : c = sep
    · rw [heq, splitOn_cons_sep, hsplit]
      rintro piece (_ | ⟨_, hmem⟩)
      · exact List.not_mem_nil
      · exact ih piece hmem
    · rw [splitOn_cons_of_ne heq hsplit]
      rintro piece (_ | ⟨_, hmem⟩)
      · exact fun hmem ↦ (List.mem_cons.mp hmem).elim (Ne.symm heq) (ih first List.mem_cons_self)
      · exact ih piece (List.mem_cons_of_mem first hmem)

theorem pieces_components (l : List α) : Pieces sep (components sep l) := by
  intro piece hpiece
  obtain ⟨hmem, hne⟩ := List.mem_filter.mp hpiece
  exact ⟨of_decide_eq_true hne, notMem_of_mem_splitOn piece hmem⟩

/-! ### Normal forms -/

/-- Without adjacent separators and none at the end, only the first piece can be empty. -/
theorem ne_nil_of_mem_tail (hsingle : Single sep l) (hlast : l.getLast? ≠ some sep) :
    ∀ piece ∈ (l.splitOn sep).tail, piece ≠ [] := by
  induction l with
  | nil => exact fun piece hmem ↦ nomatch hmem
  | cons c l ih =>
    cases l with
    | nil =>
      have hne : c ≠ sep := fun heq ↦ hlast (congrArg some heq)
      rw [splitOn_cons_of_ne hne (List.splitOn_nil sep)]
      exact fun piece hmem ↦ nomatch hmem
    | cons d l =>
      have ih := ih hsingle.tail (by rwa [List.getLast?_cons_cons] at hlast)
      obtain ⟨first, rest, hsplit⟩ := @splitOn_eq_cons _ _ sep (d :: l)
      by_cases heq : c = sep
      · have hd : d ≠ sep := fun hd ↦ hsingle.rel ⟨heq, hd⟩
        obtain ⟨first', rest', hsplit'⟩ := @splitOn_eq_cons _ _ sep l
        rw [splitOn_cons_of_ne hd hsplit'] at ih
        rw [heq, splitOn_cons_sep, splitOn_cons_of_ne hd hsplit']
        rintro piece (_ | ⟨_, hmem⟩)
        · exact List.cons_ne_nil d first'
        · exact ih piece hmem
      · rw [hsplit] at ih
        rw [splitOn_cons_of_ne heq hsplit]
        exact ih

omit [DecidableEq α] in
theorem flatMap_eq_intercalate (hne : pieces ≠ []) :
    pieces.flatMap (sep :: ·) = sep :: [sep].intercalate pieces := by
  induction pieces with
  | nil => exact absurd rfl hne
  | cons piece pieces ih =>
    rw [List.flatMap_cons]
    by_cases hrest : pieces = []
    · rw [hrest, List.flatMap_nil, List.append_nil, List.intercalate_singleton]
    · rw [ih hrest, List.intercalate_cons_of_ne_nil hrest, List.append_assoc,
        List.singleton_append, List.cons_append]

/-- A normal list that begins with a separator is given by its components. -/
theorem Normal.eq_render (h : Normal sep l) (hhead : l.head? = some sep) :
    l = render sep (components sep l) := by
  obtain ⟨r, rfl⟩ := List.head?_eq_some_iff.mp hhead
  rw [components_cons_sep]
  cases r with
  | nil => rw [components_nil, render, if_pos rfl]
  | cons d r =>
    have hd : d ≠ sep := fun hd ↦ h.single.rel ⟨rfl, hd⟩
    have hlast : (d :: r).getLast? ≠ some sep := fun hlast ↦ by
      have hroot := h.last (by rwa [List.getLast?_cons_cons])
      exact absurd (List.cons.inj hroot).2 (List.cons_ne_nil d r)
    obtain ⟨first, rest, hsplit⟩ := @splitOn_eq_cons _ _ sep r
    have htail := ne_nil_of_mem_tail (List.isChain_cons_cons.mp h.single).2 hlast
    -- no piece is empty, so the components are all pieces
    have hall : components sep (d :: r) = (d :: r).splitOn sep := by
      refine List.filter_eq_self.mpr fun piece hmem ↦ decide_eq_true ?_
      rw [splitOn_cons_of_ne hd hsplit] at hmem htail
      rcases List.mem_cons.mp hmem with rfl | hmem
      · exact List.cons_ne_nil d first
      · exact htail piece hmem
    have hne : (d :: r).splitOn sep ≠ [] := List.splitOn_ne_nil sep _
    rw [hall, render, if_neg hne, flatMap_eq_intercalate hne, List.intercalate_splitOn]

theorem components_flatMap (h : Pieces sep pieces) :
    components sep (pieces.flatMap (sep :: ·)) = pieces := by
  induction pieces using List.reverseRecOn with
  | nil => rfl
  | append_singleton pieces piece ih =>
    have hpiece := h piece (List.mem_append_right pieces (List.mem_singleton_self piece))
    rw [List.flatMap_append, List.flatMap_singleton, components_append,
      ih fun other hmem ↦ h other (List.mem_append_left [piece] hmem),
      components_of_notMem hpiece.1 hpiece.2]

theorem components_render (h : Pieces sep pieces) : components sep (render sep pieces) = pieces := by
  rw [render]
  split_ifs with hnil
  · rw [hnil, components_cons_sep, components_nil]
  · exact components_flatMap h

omit [DecidableEq α] in
theorem render_head? : (render sep pieces).head? = some sep := by
  rw [render]
  split_ifs with hnil
  · rfl
  · obtain ⟨piece, rest, rfl⟩ := List.exists_cons_of_ne_nil hnil
    rfl

omit [DecidableEq α] in
/-- The components are put after each other without adjacent separators. -/
theorem single_flatMap (h : Pieces sep pieces) : Single sep (pieces.flatMap (sep :: ·)) ∧
    (pieces.flatMap (sep :: ·)).getLast? ≠ some sep := by
  induction pieces using List.reverseRecOn with
  | nil => exact ⟨List.isChain_nil, nofun⟩
  | append_singleton pieces piece ih =>
    obtain ⟨hne, hnotMem⟩ :=
      h piece (List.mem_append_right pieces (List.mem_singleton_self piece))
    obtain ⟨hsingle, hlast⟩ := ih fun other hmem ↦ h other (List.mem_append_left [piece] hmem)
    have hinner : piece.Pairwise fun a b ↦ ¬(a = sep ∧ b = sep) :=
      List.pairwise_of_forall_mem_list fun x hx y _ hboth ↦ hnotMem (hboth.1 ▸ hx)
    have hpiece : Single sep (sep :: piece) :=
      List.isChain_cons.mpr ⟨fun first hfirst hboth ↦
        hnotMem (hboth.2 ▸ List.mem_of_mem_head? hfirst), hinner.isChain⟩
    rw [List.flatMap_append, List.flatMap_singleton]
    refine ⟨List.isChain_append.mpr ⟨hsingle, hpiece, fun last hlast' first _ hboth ↦ ?_⟩, ?_⟩
    · exact hlast (hboth.1 ▸ hlast')
    · rw [List.getLast?_append_cons, List.getLast?_cons_of_ne_nil hne]
      exact fun hmem ↦ hnotMem (List.mem_of_getLast? hmem)

omit [DecidableEq α] in
theorem normal_render (h : Pieces sep pieces) : Normal sep (render sep pieces) := by
  rw [render]
  split_ifs with hnil
  · exact ⟨List.cons_ne_nil sep [], List.isChain_singleton sep, fun _ ↦ rfl⟩
  · obtain ⟨hsingle, hlast⟩ := single_flatMap h
    obtain ⟨piece, rest, rfl⟩ := List.exists_cons_of_ne_nil hnil
    exact ⟨List.cons_ne_nil _ _, hsingle, fun hsep ↦ absurd hsep hlast⟩

/-! ### Making a list normal -/

theorem squeeze_head? (l : List α) : (squeeze sep l).head? = l.head? := by
  induction l with
  | nil => rfl
  | cons c l ih =>
    rw [squeeze]
    split_ifs with hrun
    · rw [ih, hrun.2, hrun.1, List.head?_cons]
    · rfl

theorem squeeze_ne_nil (hne : l ≠ []) : squeeze sep l ≠ [] := by
  rw [← List.isSome_head?, squeeze_head?, List.isSome_head?]
  exact hne

theorem single_squeeze (l : List α) : Single sep (squeeze sep l) := by
  induction l with
  | nil => exact List.isChain_nil
  | cons c l ih =>
    rw [squeeze]
    split_ifs with hrun
    · exact ih
    · refine List.isChain_cons.mpr ⟨fun first hfirst hboth ↦ hrun ⟨hboth.1, ?_⟩, ih⟩
      rw [squeeze_head?] at hfirst
      exact hboth.2 ▸ hfirst

theorem squeeze_of_single (h : Single sep l) : squeeze sep l = l := by
  induction l with
  | nil => rfl
  | cons c l ih =>
    obtain ⟨hfirst, hrest⟩ := List.isChain_cons.mp h
    rw [squeeze, if_neg fun hrun ↦ hfirst sep hrun.2 ⟨hrun.1, rfl⟩, ih hrest]

theorem squeeze_length_le (l : List α) : (squeeze sep l).length ≤ l.length := by
  induction l with
  | nil => exact le_rfl
  | cons c l ih =>
    rw [squeeze]
    split_ifs with hrun
    · exact ih.trans (Nat.le_succ _)
    · exact Nat.succ_le_succ ih

/-- The first piece is the same after `squeeze`, and so are the components after it. -/
theorem splitOn_squeeze (l : List α) : ∃ first rest rest',
    l.splitOn sep = first :: rest ∧ (squeeze sep l).splitOn sep = first :: rest' ∧
      rest.filter (· ≠ []) = rest'.filter (· ≠ []) := by
  induction l with
  | nil => exact ⟨[], [], [], rfl, rfl, rfl⟩
  | cons c l ih =>
    obtain ⟨first, rest, rest', hsplit, hsplit', hsame⟩ := ih
    rw [squeeze]
    by_cases hc : c = sep
    · have hfilter : (first :: rest).filter (· ≠ []) = (first :: rest').filter (· ≠ []) := by
        rw [List.filter_cons, List.filter_cons, hsame]
      rw [hc, splitOn_cons_sep, hsplit]
      by_cases hrun : l.head? = some sep
      · obtain ⟨l, rfl⟩ := List.head?_eq_some_iff.mp hrun
        rw [splitOn_cons_sep] at hsplit
        obtain ⟨rfl, -⟩ := List.cons.inj hsplit
        rw [if_pos ⟨rfl, hrun⟩]
        exact ⟨[], _, _, rfl, hsplit', (List.filter_cons_of_neg (by simp)).trans hsame⟩
      · rw [if_neg fun hboth ↦ hrun hboth.2, splitOn_cons_sep, hsplit']
        exact ⟨[], _, _, rfl, rfl, hfilter⟩
    · rw [if_neg fun hboth ↦ hc hboth.1, splitOn_cons_of_ne hc hsplit,
        splitOn_cons_of_ne hc hsplit']
      exact ⟨_, _, _, rfl, rfl, hsame⟩

theorem components_squeeze (l : List α) : components sep (squeeze sep l) = components sep l := by
  obtain ⟨first, rest, rest', hsplit, hsplit', hsame⟩ := @splitOn_squeeze _ _ sep l
  rw [components, components, hsplit, hsplit', List.filter_cons, List.filter_cons, hsame]

/-- The cases of `trim`: nothing is dropped, or a separator is. -/
theorem trim_cases (hne : l ≠ []) : l.getLast? ≠ some sep ∧ trim sep l = l ∨
    l = [sep] ∧ trim sep l = [sep] ∨
      ∃ rest, rest ≠ [] ∧ l = rest ++ [sep] ∧ trim sep l = rest := by
  rw [trim]
  by_cases hlast : l.getLast? = some sep
  · obtain ⟨rest, rfl⟩ := List.getLast?_eq_some_iff.mp hlast
    rw [if_pos hlast, List.dropLast_concat]
    by_cases hrest : rest = []
    · exact Or.inr (Or.inl ⟨by rw [hrest, List.nil_append], if_pos hrest⟩)
    · exact Or.inr (Or.inr ⟨rest, hrest, rfl, if_neg hrest⟩)
  · rw [if_neg hlast, if_neg hne]
    exact Or.inl ⟨hlast, rfl⟩

theorem normal_trim (hsingle : Single sep l) (hne : l ≠ []) : Normal sep (trim sep l) := by
  rcases @trim_cases _ _ sep l hne with ⟨hlast, htrim⟩ | ⟨-, htrim⟩ | ⟨rest, hrest, rfl, htrim⟩
  · rw [htrim]
    exact ⟨hne, hsingle, fun hsep ↦ absurd hsep hlast⟩
  · rw [htrim]
    exact ⟨List.cons_ne_nil sep [], List.isChain_singleton sep, fun _ ↦ rfl⟩
  · obtain ⟨hbefore, -, hjoint⟩ := List.isChain_append.mp hsingle
    rw [htrim]
    exact ⟨hrest, hbefore, fun hsep ↦ absurd ⟨rfl, rfl⟩ (hjoint sep hsep sep rfl)⟩

theorem components_trim (hne : l ≠ []) : components sep (trim sep l) = components sep l := by
  rcases @trim_cases _ _ sep l hne with ⟨-, htrim⟩ | ⟨rfl, htrim⟩ | ⟨rest, -, rfl, htrim⟩
  · rw [htrim]
  · rw [htrim]
  · rw [htrim, components_concat]

theorem trim_head? (hne : l ≠ []) : (trim sep l).head? = l.head? := by
  rcases @trim_cases _ _ sep l hne with ⟨-, htrim⟩ | ⟨rfl, htrim⟩ | ⟨rest, hrest, rfl, htrim⟩
  · rw [htrim]
  · rw [htrim]
  · rw [htrim, List.head?_append_of_ne_nil rest hrest]

theorem trim_length_le (hne : l ≠ []) : (trim sep l).length ≤ l.length := by
  rcases @trim_cases _ _ sep l hne with ⟨-, htrim⟩ | ⟨rfl, htrim⟩ | ⟨rest, -, rfl, htrim⟩
  · rw [htrim]
  · rw [htrim]
  · rw [htrim, List.length_append]
    exact Nat.le_add_right _ _

theorem Normal.trim_squeeze (h : Normal sep l) : trim sep (squeeze sep l) = l := by
  rw [squeeze_of_single h.single]
  rcases @trim_cases _ _ sep l h.ne_nil with ⟨-, htrim⟩ | ⟨rfl, htrim⟩ | ⟨rest, hrest, rfl, -⟩
  · exact htrim
  · exact htrim
  · have hroot := h.last List.getLast?_concat
    exact absurd (List.append_eq_singleton_iff.mp hroot) (by simp [hrest])

end SwitchDelta.Foundation
