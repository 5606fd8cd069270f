import Mathlib
import SourceGauge.Text.Blank

/-! What is left of a text when the characters of a class are removed at both ends. -/
namespace SourceGauge.Text

/-- Around the body the text has characters of the class only, and the body neither begins nor ends
with one. -/
structure Encloses (p : Char → Bool) (before body after : List Char) : Prop where
  before : ∀ c ∈ before, p c = true
  after : ∀ c ∈ after, p c = true
  first : ∀ c, body.head? = some c → p c = false
  last : ∀ c, body.getLast? = some c → p c = false

section Strip
variable {p : Char → Bool} {before body after cs : List Char}

theorem dropWhile_of_first (h : ∀ c, cs.head? = some c → p c = false) : cs.dropWhile p = cs := by
  cases cs with
  | nil => rfl
  | cons c cs => exact List.dropWhile_cons_of_neg (by simp [h c rfl])

theorem Encloses.stripEnds_eq (h : Encloses p before body after) :
    stripEnds p (before ++ (body ++ after)) = body := by
  have hlast : body.reverse.dropWhile p = body.reverse :=
    dropWhile_of_first fun c hc => h.last c (by rwa [List.head?_reverse] at hc)
  have hafter : ∀ c ∈ after.reverse, p c = true := fun c hc => h.after c (List.mem_reverse.1 hc)
  rw [stripEnds, List.dropWhile_append_of_pos h.before]
  cases body with
  | nil =>
    rw [List.nil_append, List.dropWhile_eq_nil_iff.2 h.after]
    rfl
  | cons c body =>
    rw [List.cons_append, List.dropWhile_cons_of_neg (by simp [h.first c rfl]), ← List.cons_append,
      List.reverse_append, List.dropWhile_append_of_pos hafter, hlast, List.reverse_reverse]

theorem exists_encloses (p : Char → Bool) (cs : List Char) : ∃ before after,
    cs = before ++ (stripEnds p cs ++ after) ∧ Encloses p before (stripEnds p cs) after := by
  set rest := cs.dropWhile p with hrest
  have hback : rest = stripEnds p cs ++ (rest.reverse.takeWhile p).reverse := by
    rw [stripEnds, ← hrest, ← List.reverse_append, List.takeWhile_append_dropWhile,
      List.reverse_reverse]
  refine ⟨cs.takeWhile p, (rest.reverse.takeWhile p).reverse, ?_, ?_, ?_, fun c hc => ?_,
    fun c hc => ?_⟩
  · rw [← hback, hrest, List.takeWhile_append_dropWhile]
  · exact fun c hc => List.mem_takeWhile_imp hc
  · exact fun c hc => List.mem_takeWhile_imp (List.mem_reverse.1 hc)
  · have hfirst : rest.head? = some c := by
      rw [hback, List.head?_append, hc]
      rfl
    have hnot := List.head?_dropWhile_not p cs
    rw [← hrest, hfirst] at hnot
    simpa using hnot
  · have hnot := List.head?_dropWhile_not p rest.reverse
    rw [stripEnds, List.getLast?_reverse, ← hrest] at hc
    rw [hc] at hnot
    simpa using hnot

/-- Removing characters at the ends leaves the one part of the text that they enclose. -/
theorem stripEnds_eq_iff : stripEnds p cs = body ↔
    ∃ before after, cs = before ++ (body ++ after) ∧ Encloses p before body after := by
  constructor
  · rintro rfl
    exact exists_encloses p cs
  · rintro ⟨before, after, rfl, h⟩
    exact h.stripEnds_eq

end Strip
end SourceGauge.Text
