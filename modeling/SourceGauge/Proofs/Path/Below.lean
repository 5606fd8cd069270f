import Mathlib
import SourceGauge.Path.Relative
import SourceGauge.Proofs.Path.Spelling

/-! What is left of a path below another one: the components after those of the base, spelled as
they stand in the path. -/
namespace SourceGauge.Path

/-- `rest` is what is left of `p` after `base`. -/
structure IsRest (base p rest : Path) : Prop where
  components : p.components = base.components ++ rest.components
  spelled : rest.chars <:+: p.chars

section Pieces
variable {pieces : List (List Char)}

theorem filterMap_dropSteps (n : Nat) (pieces : List (List Char)) :
    (dropSteps n pieces).filterMap Component.ofSegment? =
      (pieces.filterMap Component.ofSegment?).drop n := by
  fun_induction dropSteps n pieces with
  | case1 pieces => rfl
  | case2 n => rfl
  | case3 n piece more hidle ih =>
    rw [ih, List.filterMap_cons_none (Option.isNone_iff_eq_none.1 hidle)]
  | case4 n piece more hidle ih =>
    obtain ⟨c, hc⟩ := Option.ne_none_iff_exists'.1 (mt Option.isNone_iff_eq_none.2 hidle)
    rw [ih, List.filterMap_cons_some hc, List.drop_succ_cons]

theorem isSuffix_dropSteps (n : Nat) (pieces : List (List Char)) :
    dropSteps n pieces <:+ pieces := by
  fun_induction dropSteps n pieces with
  | case1 pieces => exact List.suffix_rfl
  | case2 n => exact List.suffix_rfl
  | case3 n piece more hidle ih => exact ih.trans (List.suffix_cons piece more)
  | case4 n piece more hidle ih => exact ih.trans (List.suffix_cons piece more)

theorem filterMap_dropWhile_isIdle (pieces : List (List Char)) :
    (pieces.dropWhile isIdle).filterMap Component.ofSegment? =
      pieces.filterMap Component.ofSegment? := by
  induction pieces with
  | nil => rfl
  | cons piece pieces ih =>
    rw [List.dropWhile_cons]
    split
    case isTrue hidle =>
      rw [ih, List.filterMap_cons_none (Option.isNone_iff_eq_none.1 hidle)]
    case isFalse => rfl

theorem filterMap_dropIdleEnd (pieces : List (List Char)) :
    (dropIdleEnd pieces).filterMap Component.ofSegment? =
      pieces.filterMap Component.ofSegment? := by
  rw [dropIdleEnd, List.filterMap_reverse, filterMap_dropWhile_isIdle, List.filterMap_reverse,
    List.reverse_reverse]

theorem isPrefix_dropIdleEnd (pieces : List (List Char)) : dropIdleEnd pieces <+: pieces := by
  rw [dropIdleEnd, ← List.reverse_suffix, List.reverse_reverse]
  exact List.dropWhile_suffix isIdle

theorem joinSegments_append {front back : List (List Char)} (hfront : front ≠ [])
    (hback : back ≠ []) :
    joinSegments (front ++ back) = joinSegments front ++ '/' :: joinSegments back := by
  induction front with
  | nil => exact absurd rfl hfront
  | cons piece front ih =>
    cases front with
    | nil =>
      obtain ⟨next, more, rfl⟩ := List.exists_cons_of_ne_nil hback
      rw [List.singleton_append, joinSegments_cons_cons]
      simp [joinSegments]
    | cons next more =>
      rw [List.cons_append, List.cons_append, joinSegments_cons_cons, ← List.cons_append,
        ih (List.cons_ne_nil next more), joinSegments_cons_cons, List.append_assoc,
        List.cons_append]

theorem isPrefix_joinSegments {part : List (List Char)} (h : part <+: pieces) :
    joinSegments part <+: joinSegments pieces := by
  obtain ⟨back, rfl⟩ := h
  by_cases hpart : part = []
  · rw [hpart]
    exact List.nil_prefix
  by_cases hback : back = []
  · rw [hback, List.append_nil]
  · rw [joinSegments_append hpart hback]
    exact List.prefix_append _ _

theorem isSuffix_joinSegments {part : List (List Char)} (h : part <:+ pieces) :
    joinSegments part <:+ joinSegments pieces := by
  obtain ⟨front, rfl⟩ := h
  by_cases hpart : part = []
  · rw [hpart]
    exact List.nil_suffix
  by_cases hfront : front = []
  · rw [hfront]
    exact List.suffix_rfl
  · rw [joinSegments_append hfront hpart, List.append_cons]
    exact List.suffix_append _ _

/-- Some of the pieces one after the other are written as a part of the text. -/
theorem isInfix_joinSegments {part : List (List Char)} (h : part <:+: pieces) :
    joinSegments part <:+: joinSegments pieces := by
  obtain ⟨front, back, rfl⟩ := h
  rw [List.append_assoc]
  exact (isPrefix_joinSegments (List.prefix_append part back)).isInfix.trans
    (isSuffix_joinSegments (List.suffix_append front _)).isInfix

theorem steps_joinSegments (hpieces : ∀ piece ∈ pieces, '/' ∉ piece) :
    steps (joinSegments pieces) = pieces.filterMap Component.ofSegment? := by
  by_cases hne : pieces = []
  · rw [hne]
    rfl
  · rw [steps, segments_joinSegments hne hpieces]

theorem components_joinSegments_point (hpieces : ∀ piece ∈ pieces, '/' ∉ piece) :
    (Path.mk (joinSegments (['.'] :: pieces))).components =
      .current :: pieces.filterMap Component.ofSegment? := by
  have hall : ∀ piece ∈ ['.'] :: pieces, '/' ∉ piece :=
    List.forall_mem_cons.2 ⟨by decide, hpieces⟩
  obtain ⟨rest, hrest⟩ := exists_joinSegments_cons ['.'] pieces
  have hstart : (joinSegments (['.'] :: pieces)).head? ≠ some '/' := by
    rw [hrest]
    simp
  rw [components_of_segments hstart (segments_joinSegments (List.cons_ne_nil _ _) hall), if_pos rfl]

/-- A relative path is read back from its pieces, if the first one stands for something. -/
theorem components_joinSegments (hpieces : ∀ piece ∈ pieces, '/' ∉ piece)
    (hhead : ∀ piece ∈ pieces.head?, isIdle piece = false) :
    (Path.mk (joinSegments pieces)).components = pieces.filterMap Component.ofSegment? := by
  cases pieces with
  | nil => rfl
  | cons piece more =>
    have hidle := hhead piece rfl
    have hne : piece ≠ [] := by
      rintro rfl
      cases hidle
    have hpoint : piece ≠ ['.'] := by
      rintro rfl
      cases hidle
    have hstart : (joinSegments (piece :: more)).head? ≠ some '/' := by
      obtain ⟨rest, hrest⟩ := exists_joinSegments_cons piece more
      obtain ⟨c, cs, rfl⟩ := List.exists_cons_of_ne_nil hne
      rw [hrest]
      rintro hslash
      obtain rfl : c = '/' := Option.some.inj hslash
      exact (List.forall_mem_cons.1 hpieces).1 List.mem_cons_self
    rw [components_of_segments hstart (segments_joinSegments (List.cons_ne_nil piece more) hpieces),
      if_neg hpoint]

end Pieces

section Split

theorem isIdle_iff {piece : List Char} : isIdle piece = true ↔ piece = [] ∨ piece = ['.'] := by
  rw [isIdle, Option.isNone_iff_eq_none]
  unfold Component.ofSegment?
  split <;> simp_all

/-- The three kinds of paths by their beginning. A relative path without a point in front begins
with a piece that stands for something, or is empty. -/
theorem split_cases (p : Path) :
    (p.split.1 = some .root ∧ p.chars = '/' :: joinSegments p.split.2) ∨
      (p.split.1 = some .current ∧ p.chars = joinSegments (['.'] :: p.split.2)) ∨
      p.split.1 = none ∧ p.chars = joinSegments p.split.2 ∧
        ∀ piece ∈ p.split.2.head?, isIdle piece = true → p.split.2 = [[]] := by
  unfold split
  split
  case h_1 rest hcs => exact .inl ⟨rfl, by rw [joinSegments_segments, hcs]⟩
  case h_2 hroot =>
    have hcs := joinSegments_segments p.chars
    split
    case h_1 more hmore =>
      rw [hmore] at hcs
      exact .inr (.inl ⟨rfl, hcs.symm⟩)
    case h_2 hpoint =>
      refine .inr (.inr ⟨rfl, hcs.symm, fun piece hpiece hidle => ?_⟩)
      obtain ⟨more, hmore⟩ : ∃ more, segments p.chars = piece :: more :=
        List.head?_eq_some_iff.1 hpiece
      change segments p.chars = [[]]
      rw [hmore] at hcs ⊢
      rcases isIdle_iff.1 hidle with rfl | rfl
      · cases more with
        | nil => rfl
        | cons next more =>
          rw [joinSegments_cons_cons] at hcs
          exact (hroot _ hcs.symm).elim
      · exact (hpoint _ hmore).elim

/-- The body of a path without what is idle at its end begins as the body does. -/
theorem isIdle_head?_dropIdleEnd {pieces : List (List Char)}
    (h : ∀ piece ∈ pieces.head?, isIdle piece = true → pieces = [[]]) :
    ∀ piece ∈ (dropIdleEnd pieces).head?, isIdle piece = false := by
  intro piece hpiece
  by_contra hidle
  rw [Bool.not_eq_false] at hidle
  obtain ⟨back, hback⟩ := isPrefix_dropIdleEnd pieces
  have hhead : piece ∈ pieces.head? := by
    rw [← hback, List.head?_append, Option.mem_def.1 hpiece]
    rfl
  rw [h piece hhead hidle] at hpiece
  cases hpiece

theorem isInfix_joinSegments_body (p : Path) : joinSegments p.split.2 <:+: p.chars := by
  rcases p.split_cases with ⟨-, hcs⟩ | ⟨-, hcs⟩ | ⟨-, hcs, -⟩
  · rw [hcs]
    exact (List.suffix_cons _ _).isInfix
  · rw [hcs]
    exact (isSuffix_joinSegments (List.suffix_cons _ _)).isInfix
  · rw [hcs]

/-- What is left of the body after some steps. -/
def bodyAfter (n : Nat) (pieces : List (List Char)) : List (List Char) :=
  dropIdleEnd ((dropSteps n pieces).dropWhile isIdle)

theorem isInfix_bodyAfter (n : Nat) (pieces : List (List Char)) :
    bodyAfter n pieces <:+: pieces :=
  (isPrefix_dropIdleEnd _).isInfix.trans
    ((List.dropWhile_suffix isIdle).trans (isSuffix_dropSteps n pieces)).isInfix

theorem filterMap_bodyAfter (n : Nat) (pieces : List (List Char)) :
    (bodyAfter n pieces).filterMap Component.ofSegment? =
      (pieces.filterMap Component.ofSegment?).drop n := by
  rw [bodyAfter, filterMap_dropIdleEnd, filterMap_dropWhile_isIdle, filterMap_dropSteps]

theorem isIdle_head?_bodyAfter (n : Nat) (pieces : List (List Char)) :
    ∀ piece ∈ (bodyAfter n pieces).head?, isIdle piece = false := by
  refine isIdle_head?_dropIdleEnd fun piece hpiece hidle => ?_
  have hkept := List.head?_dropWhile_not isIdle (dropSteps n pieces)
  rw [Option.mem_def.1 hpiece] at hkept
  exact absurd (hidle.symm.trans hkept) Bool.noConfusion

theorem dropComponents_of_pos (p : Path) {n : Nat} (hn : 0 < n) :
    p.dropComponents n =
      ⟨joinSegments (bodyAfter (n - p.split.1.toList.length) p.split.2)⟩ := by
  unfold dropComponents
  split
  case h_4 hsplit =>
    rw [hsplit]
    rfl
  all_goals exact absurd hn (Nat.lt_irrefl 0)

/-- Nothing is dropped but what is idle at the end. -/
theorem dropComponents_zero (p : Path) : p.dropComponents 0 =
    match p.split.1 with
    | some .root => ⟨'/' :: joinSegments (dropIdleEnd p.split.2)⟩
    | some _ => ⟨joinSegments (['.'] :: dropIdleEnd p.split.2)⟩
    | none => ⟨joinSegments (dropIdleEnd p.split.2)⟩ := by
  unfold dropComponents
  rcases p.split with ⟨_ | c, pieces⟩
  · rfl
  · cases c <;> rfl

theorem components_dropComponents (p : Path) (n : Nat) :
    (p.dropComponents n).components = p.components.drop n := by
  have hbody := not_mem_of_mem_split p
  have hcomponents : p.components =
      p.split.1.toList ++ p.split.2.filterMap Component.ofSegment? := rfl
  rcases Nat.eq_zero_or_pos n with rfl | hn
  · have hkept : ∀ piece ∈ dropIdleEnd p.split.2, '/' ∉ piece :=
      fun piece hpiece => hbody piece ((isPrefix_dropIdleEnd _).subset hpiece)
    rw [List.drop_zero, dropComponents_zero, hcomponents]
    rcases p.split_cases with ⟨hfront, -⟩ | ⟨hfront, -⟩ | ⟨hfront, -, hhead⟩
    · rw [hfront]
      dsimp only
      rw [← filterMap_dropIdleEnd, ← steps_joinSegments hkept]
      rfl
    · rw [hfront]
      dsimp only
      rw [components_joinSegments_point hkept, filterMap_dropIdleEnd]
      rfl
    · rw [hfront]
      dsimp only
      rw [components_joinSegments hkept (isIdle_head?_dropIdleEnd hhead), filterMap_dropIdleEnd]
      rfl
  · have hfront : p.split.1.toList.length ≤ n := by
      cases p.split.1
      · exact Nat.zero_le n
      · exact hn
    have hleft : ∀ piece ∈ bodyAfter (n - p.split.1.toList.length) p.split.2, '/' ∉ piece :=
      fun piece hpiece => hbody piece ((isInfix_bodyAfter _ _).subset hpiece)
    rw [dropComponents_of_pos p hn, components_joinSegments hleft (isIdle_head?_bodyAfter _ _),
      filterMap_bodyAfter, hcomponents, List.drop_append, List.drop_eq_nil_of_le hfront,
      List.nil_append]

theorem isInfix_dropComponents (p : Path) (n : Nat) : (p.dropComponents n).chars <:+: p.chars := by
  rcases Nat.eq_zero_or_pos n with rfl | hn
  · have hkept := isPrefix_dropIdleEnd p.split.2
    rw [dropComponents_zero]
    rcases p.split_cases with ⟨hfront, hcs⟩ | ⟨hfront, hcs⟩ | ⟨hfront, hcs, -⟩
    · rw [hfront, hcs]
      exact (List.prefix_cons_inj '/').2 (isPrefix_joinSegments hkept) |>.isInfix
    · rw [hfront, hcs]
      exact (isPrefix_joinSegments ((List.prefix_cons_inj ['.']).2 hkept)).isInfix
    · rw [hfront, hcs]
      exact (isPrefix_joinSegments hkept).isInfix
  · rw [dropComponents_of_pos p hn]
    exact (isInfix_joinSegments (isInfix_bodyAfter _ _)).trans (isInfix_joinSegments_body p)

end Split

section Below
variable {base p rest : Path}

theorem below?_eq_none_iff : p.below? base = none ↔ ¬ base.components <+: p.components := by
  rw [below?, ← List.isPrefixOf_iff_prefix]
  split <;> simp_all

theorem isRest_of_below? (h : p.below? base = some rest) : IsRest base p rest := by
  unfold below? at h
  split at h
  case isTrue hbase =>
    obtain rfl := Option.some.inj h
    obtain ⟨more, hmore⟩ := List.isPrefixOf_iff_prefix.1 hbase
    refine ⟨?_, isInfix_dropComponents p _⟩
    rw [components_dropComponents, ← hmore, List.drop_left]
  case isFalse => cases h

end Below
end SourceGauge.Path
