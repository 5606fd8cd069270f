import SourceGauge.Path.Basic

/-! Which spellings of a path have the same components. What stands after a separator counts only
through the steps that its pieces stand for, so separators may be repeated and points put between
them. -/
namespace SourceGauge.Path

theorem segments_append_slash (a b : List Char) :
    segments (a ++ '/' :: b) = segments a ++ segments b := by
  induction a with
  | nil => simp [segments]
  | cons c a ih =>
    rw [List.cons_append, segments, ih]
    split
    case isTrue hc => simp [segments, hc]
    case isFalse hc =>
      obtain ⟨piece, more, hpieces⟩ := List.exists_cons_of_ne_nil (segments_ne_nil a)
      simp [segments, hc, hpieces]

/-- The steps that the pieces of a text stand for. -/
def steps (cs : List Char) : List Component := (segments cs).filterMap Component.ofSegment?

/-- The components of a relative path from its pieces. A point counts at the front only. -/
theorem components_of_segments {cs piece : List Char} {more : List (List Char)}
    (hcs : cs.head? ≠ some '/') (h : segments cs = piece :: more) :
    (Path.mk cs).components =
      if piece = ['.'] then .current :: more.filterMap Component.ofSegment?
      else (piece :: more).filterMap Component.ofSegment? := by
  rw [components, split]
  split
  case h_1 => simp_all
  case h_2 => split <;> simp_all

/-- What follows a separator adds its steps to the components before it. -/
theorem components_append_slash {a : List Char} (ha : a ≠ []) (b : List Char) :
    (Path.mk (a ++ '/' :: b)).components = (Path.mk a).components ++ steps b := by
  obtain ⟨c, a, rfl⟩ := List.exists_cons_of_ne_nil ha
  by_cases hc : c = '/'
  · subst hc
    simp [components, split, segments_append_slash, steps]
  · obtain ⟨piece, more, hpieces⟩ := List.exists_cons_of_ne_nil (segments_ne_nil (c :: a))
    have hsegments : segments (c :: a ++ '/' :: b) = piece :: (more ++ segments b) := by
      rw [segments_append_slash, hpieces, List.cons_append]
    rw [components_of_segments (by simpa using hc) hsegments,
      components_of_segments (by simpa using hc) hpieces]
    split
    · rw [List.filterMap_append]
      rfl
    · rw [← List.cons_append, List.filterMap_append]
      rfl

/-- The components before a separator do not depend on what follows it. -/
theorem exists_components_append_slash (a : List Char) :
    ∃ front : List Component, ∀ b, (Path.mk (a ++ '/' :: b)).components = front ++ steps b := by
  by_cases ha : a = []
  · subst ha
    exact ⟨[.root], fun b => rfl⟩
  · exact ⟨_, components_append_slash ha⟩

/-- Two texts whose pieces stand for the same steps are the same below any path. -/
theorem same_append_slash {b b' : List Char} (h : steps b = steps b') (a : List Char) :
    (Path.mk (a ++ '/' :: b)).same ⟨a ++ '/' :: b'⟩ = true := by
  obtain ⟨front, hfront⟩ := exists_components_append_slash a
  simp [same, hfront, h]

theorem same_repeated_slash (a b : List Char) :
    (Path.mk (a ++ '/' :: '/' :: b)).same ⟨a ++ '/' :: b⟩ = true := by
  have hidle : steps ('/' :: b) = steps b := rfl
  exact same_append_slash hidle a

theorem same_inner_point (a b : List Char) :
    (Path.mk (a ++ '/' :: '.' :: '/' :: b)).same ⟨a ++ '/' :: b⟩ = true := by
  have hidle : steps ('.' :: '/' :: b) = steps b := rfl
  exact same_append_slash hidle a

end SourceGauge.Path
