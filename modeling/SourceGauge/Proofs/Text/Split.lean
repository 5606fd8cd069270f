import Mathlib
import SourceGauge.Proofs.Text.Line

/-! How a text falls into lines. There is one way only to write it as lines without breaks in them,
each with its own break behind it, and the lines of the text are those. Behind a break a text is
split as if it stood alone. -/
namespace SourceGauge.Text

/-- The text is made of these lines, each with the break that ends it. At the very end the break may
be missing, if there is a line without it. -/
inductive MadeOf : List (List Char) → List Char → Prop
  | nil : MadeOf [] []
  | last {line : List Char} (hline : Unbroken line) (hne : line ≠ []) : MadeOf [line] line
  | cons {line mark rest : List Char} {lines : List (List Char)} (hline : Unbroken line)
      (hmark : Breaks mark rest) (hrest : MadeOf lines rest) :
      MadeOf (line :: lines) (line ++ (mark ++ rest))

section Split
variable {a b cs mark rest : List Char} {lines : List (List Char)} {c : Char}

theorem MadeOf.splitLines_eq (h : MadeOf lines cs) : splitLines cs = lines := by
  induction h with
  | nil => rfl
  | last hline hne => exact splitLines_unbroken hline hne
  | cons hline hmark _ ih => rw [splitLines_line hline hmark, ih]

theorem madeOf_splitLines (cs : List Char) : MadeOf (splitLines cs) cs := by
  induction cs using line_induction with
  | unbroken line hline =>
    by_cases hne : line = []
    · subst hne
      exact .nil
    · rw [splitLines_unbroken hline hne]
      exact .last hline hne
  | line line mark rest hline hmark ih =>
    rw [splitLines_line hline hmark]
    exact .cons hline hmark ih

theorem madeOf_iff : MadeOf lines cs ↔ splitLines cs = lines := by
  constructor
  · exact MadeOf.splitLines_eq
  · rintro rfl
    exact madeOf_splitLines cs

theorem WholeLines.length_splitLines {k : Nat} {whole : List Char} (h : WholeLines k whole rest) :
    (splitLines (whole ++ rest)).length = k + (splitLines rest).length := by
  induction h with
  | zero => rw [List.nil_append, Nat.zero_add]
  | succ hline hmark _ ih =>
    rw [List.append_assoc, List.append_assoc, splitLines_line hline hmark, List.length_cons, ih]
    omega

/-- A break behind a line with something in it only ends that line. -/
theorem splitLines_append_break (hc : isBreak c = false) (hmark : Breaks mark []) :
    splitLines (cs ++ c :: mark) = splitLines (cs ++ [c]) := by
  induction cs using line_induction with
  | unbroken cs hcs =>
    have hline : Unbroken (cs ++ [c]) := unbroken_append.2 ⟨hcs, unbroken_cons.2 ⟨hc, unbroken_nil⟩⟩
    have hsplit : splitLines ((cs ++ [c]) ++ (mark ++ [])) = (cs ++ [c]) :: splitLines [] :=
      splitLines_line hline hmark
    rw [splitLines_unbroken hline (by simp)]
    simpa [splitLines] using hsplit
  | line line first rest hline hfirst ih =>
    have hlf (more : List Char) : (c :: more).head? ≠ some '\n' := by
      rw [List.head?_cons, ne_eq, Option.some.injEq]
      rintro rfl
      cases hc
    rw [List.append_assoc, List.append_assoc, List.append_assoc, List.append_assoc,
      splitLines_line hline (hfirst.append fun _ => hlf mark),
      splitLines_line hline (hfirst.append fun _ => hlf []), ih]

/-- Where a line has ended, the lines before and after are independent, unless a CR and an LF come
together there. -/
theorem splitLines_append_of_break (hend : a.getLast? = some c) (hc : isBreak c = true)
    (hseam : c = '\r' → b.head? ≠ some '\n') :
    splitLines (a ++ b) = splitLines a ++ splitLines b := by
  induction a using line_induction with
  | unbroken a ha =>
    have hbreak := ha c (List.mem_of_getLast? hend)
    rw [hc] at hbreak
    cases hbreak
  | line line mark rest hline hmark ih =>
    rw [List.append_assoc, List.append_assoc, splitLines_line hline hmark, List.cons_append]
    by_cases hrest : rest = []
    · subst hrest
      have hmark' : Breaks mark b := by
        cases hmark with
        | lf => exact .lf
        | crlf => exact .crlf
        | cr =>
          obtain rfl : '\r' = c := by simpa using hend
          exact .cr (hseam rfl)
      rw [List.nil_append, splitLines_line hline hmark']
      rfl
    · have hlast : rest.getLast? = some c := by
        rwa [List.getLast?_append_of_ne_nil _ (by simp [hrest]),
          List.getLast?_append_of_ne_nil _ hrest] at hend
      have hmark' : Breaks mark (rest ++ b) := hmark.append fun hnil => absurd hnil hrest
      rw [splitLines_line hline hmark', ih hlast]

end Split

/-- The lines of a text are the only lines without breaks in them that the text is made of, each
with LF, CRLF or a CR before no LF behind it, where only the last break may be missing, behind a
line that is not empty. The empty text has no lines, text with a break behind each of its lines has
as many lines as breaks, and a break at the end of a line with something in it adds none. Behind an
LF the lines are those of what follows alone. -/
theorem splitLines_unique :
    (∀ cs, ∃! lines, MadeOf lines cs) ∧
    (∀ cs lines, MadeOf lines cs ↔ splitLines cs = lines) ∧
    splitLines [] = [] ∧
    (∀ k whole, WholeLines k whole [] → (splitLines whole).length = k) ∧
    (∀ cs c mark, isBreak c = false → Breaks mark [] →
      splitLines (cs ++ c :: mark) = splitLines (cs ++ [c])) ∧
    ∀ a b, a.getLast? = some '\n' → splitLines (a ++ b) = splitLines a ++ splitLines b := by
  refine ⟨fun cs => ?_, fun cs lines => madeOf_iff, rfl, fun k whole hwhole => ?_,
    fun cs c mark => splitLines_append_break, fun a b hend => ?_⟩
  · refine ⟨splitLines cs, madeOf_splitLines cs, fun lines hlines => ?_⟩
    exact hlines.splitLines_eq.symm
  · simpa [splitLines] using hwhole.length_splitLines
  · exact splitLines_append_of_break hend (by decide) (by simp)

/-- All three breaks, with a CR at the seam that belongs to the LF behind it. -/
theorem splitLines_unique_mixed :
    let front := "a\r\n\rb\r\n".toList
    let back := "\n\rc".toList
    front.getLast? = some '\n' ∧
      splitLines (front ++ back) = splitLines front ++ splitLines back ∧
      MadeOf [['a'], [], ['b'], [], [], ['c']] (front ++ back) := by
  intro front back
  have hend : front.getLast? = some '\n' := by decide
  obtain ⟨-, hiff, -, -, -, happend⟩ := splitLines_unique
  refine ⟨hend, happend front back hend, ?_⟩
  exact (hiff _ _).2 (by decide)

end SourceGauge.Text
