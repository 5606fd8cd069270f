import Mathlib
import SourceGauge.Proofs.Text.Line

/-! Texts written with line breaks of another style. The lines of a text do not depend on how its
breaks are written. -/
namespace SourceGauge.Text

/-- How line breaks are written. -/
inductive BreakStyle
  | lf
  | crlf
  | cr
  deriving DecidableEq, Repr

theorem take_one_add (c : Char) (n : Nat) (cs : List Char) :
    (c :: cs).take (1 + n) = c :: cs.take n := by
  rw [Nat.add_comm, List.take_succ_cons]

namespace BreakStyle

def mark : BreakStyle → List Char
  | .lf => ['\n']
  | .crlf => ['\r', '\n']
  | .cr => ['\r']

/-- A text with every LF in it written as a break of this style. -/
def write (style : BreakStyle) (cs : List Char) : List Char :=
  cs.flatMap fun c => if c = '\n' then style.mark else [c]

section Write
variable (style : BreakStyle) {c d : Char} {cs rest : List Char}

@[simp] theorem write_nil : style.write [] = [] := rfl

theorem write_lf (cs : List Char) : style.write ('\n' :: cs) = style.mark ++ style.write cs := rfl

theorem write_cons (hc : c ≠ '\n') (cs : List Char) :
    style.write (c :: cs) = c :: style.write cs := by
  simp [write, hc]

theorem write_append (cs rest : List Char) :
    style.write (cs ++ rest) = style.write cs ++ style.write rest := by
  simp [write]

theorem eq_lf_or_cr (h : isBreak c = true) : c = '\n' ∨ c = '\r' := by
  simpa [isBreak] using h

theorem isBreak_of_mem_mark : ∀ c ∈ style.mark, isBreak c = true := by
  cases style <;> simp [mark, isBreak]

theorem exists_mark_eq_cons : ∃ b bs, style.mark = b :: bs ∧ isBreak b = true := by
  cases style <;> exact ⟨_, _, rfl, rfl⟩

theorem write_of_not_mem (h : '\n' ∉ cs) : style.write cs = cs := by
  induction cs with
  | nil => rfl
  | cons c cs ih =>
    rw [List.mem_cons, not_or] at h
    rw [write_cons style (Ne.symm h.1), ih h.2]

theorem write_take_append_drop (n : Nat) (cs : List Char) :
    style.write (cs.take n) ++ style.write (cs.drop n) = style.write cs := by
  rw [← write_append, List.take_append_drop]

/-- What stands in front of a place stands in front of it in every style. -/
theorem take_write (n : Nat) (cs : List Char) :
    (style.write cs).take (style.write (cs.take n)).length = style.write (cs.take n) := by
  rw [← write_take_append_drop style n cs, List.take_left]

theorem drop_write (n : Nat) (cs : List Char) :
    (style.write cs).drop (style.write (cs.take n)).length = style.write (cs.drop n) := by
  rw [← write_take_append_drop style n cs, List.drop_left]

theorem length_write_take_lf (n : Nat) (cs : List Char) :
    (style.write (('\n' :: cs).take (1 + n))).length =
      style.mark.length + (style.write (cs.take n)).length := by
  rw [take_one_add, write_lf, List.length_append]

theorem length_write_take_cons (hc : c ≠ '\n') (n : Nat) (cs : List Char) :
    (style.write ((c :: cs).take (1 + n))).length = 1 + (style.write (cs.take n)).length := by
  rw [take_one_add, write_cons style hc, List.length_cons, Nat.add_comm]

theorem length_write_take_pair (hc : c ≠ '\n') (hd : d ≠ '\n') (n : Nat) (cs : List Char) :
    (style.write ((c :: d :: cs).take (2 + n))).length = 2 + (style.write (cs.take n)).length := by
  rw [show 2 + n = 1 + (1 + n) by omega, length_write_take_cons style hc,
    length_write_take_cons style hd]
  omega

/-- Before a character of a line, the style does not show. -/
theorem head?_write_eq_some_iff (hd : isBreak d = false) :
    (style.write cs).head? = some d ↔ cs.head? = some d := by
  cases cs with
  | nil => rfl
  | cons c cs =>
    by_cases hc : c = '\n'
    · subst hc
      obtain ⟨b, bs, hmark, hb⟩ := style.exists_mark_eq_cons
      have hne : b ≠ d ∧ '\n' ≠ d := by
        constructor <;> rintro rfl <;> simp_all [isBreak]
      simp [write_lf, hmark, hne]
    · simp [write_cons style hc]

theorem exists_of_write_eq_cons (hd : isBreak d = false) (h : style.write cs = d :: rest) :
    ∃ ds, cs = d :: ds ∧ rest = style.write ds := by
  have hhead : cs.head? = some d := (style.head?_write_eq_some_iff hd).1 (by rw [h]; rfl)
  obtain ⟨ds, rfl⟩ := List.head?_eq_some_iff.1 hhead
  have hne : d ≠ '\n' := by
    rintro rfl
    cases hd
  rw [write_cons style hne] at h
  exact ⟨ds, rfl, (List.cons.inj h).2.symm⟩

theorem write_ne_cons (hd : isBreak d = false) (h : ∀ ds, cs ≠ d :: ds) (ds : List Char) :
    style.write cs ≠ d :: ds := by
  intro hwrite
  obtain ⟨ds, hcs, -⟩ := style.exists_of_write_eq_cons hd hwrite
  exact h ds hcs

theorem any_head?_write {p : Char → Bool} (hp : ∀ c, isBreak c = true → p c = false) :
    (style.write cs).head?.any p = cs.head?.any p := by
  cases cs with
  | nil => rfl
  | cons c cs =>
    by_cases hc : c = '\n'
    · subst hc
      obtain ⟨b, bs, hmark, hb⟩ := style.exists_mark_eq_cons
      simp [write_lf, hmark, hp b hb, hp '\n' rfl]
    · simp [write_cons style hc]

/-- What is written goes on with no LF after a CR that ends a line. -/
theorem breaks_mark (cs : List Char) : Breaks style.mark (style.write cs) := by
  cases style with
  | lf => exact .lf
  | crlf => exact .crlf
  | cr =>
    refine .cr ?_
    cases cs with
    | nil => simp
    | cons c cs =>
      by_cases hc : c = '\n'
      · subst hc
        simp [write_lf, mark]
      · simpa [write_cons .cr hc] using hc

/-- The lines of a text are the same in every style. -/
theorem splitLines_write (h : '\r' ∉ cs) : splitLines (style.write cs) = splitLines cs := by
  induction cs with
  | nil => rfl
  | cons c cs ih =>
    rw [List.mem_cons, not_or] at h
    by_cases hc : c = '\n'
    · subst hc
      rw [write_lf, splitLines_mark (style.breaks_mark cs), ih h.2]
      rfl
    · have hbreak : isBreak c = false := by simp [isBreak, hc, Ne.symm h.1]
      rw [write_cons style hc, splitLines_cons hbreak, splitLines_cons hbreak, ih h.2]

end Write

end BreakStyle
end SourceGauge.Text
