import Mathlib
import SourceGauge.Proofs.Text.Utf8
import SourceGauge.Text.Line

/-! Where the lines of a text stand. Before a place in a text there are some whole lines, each with
its break, and then the part of the line that stands before the place. -/
namespace SourceGauge.Text
open Utf8 (encode encode_append length_encode_cons length_encode_append)

/-- No line ends within the characters. -/
def Unbroken (line : List Char) : Prop := ∀ c ∈ line, isBreak c = false

/-- The mark ends a line when `rest` follows it: LF, CRLF, or a CR before anything but LF. -/
inductive Breaks : List Char → List Char → Prop
  | lf {rest : List Char} : Breaks ['\n'] rest
  | crlf {rest : List Char} : Breaks ['\r', '\n'] rest
  | cr {rest : List Char} (hrest : rest.head? ≠ some '\n') : Breaks ['\r'] rest

/-- The text is made of `k` lines with the breaks that end them, when `rest` follows it. -/
inductive WholeLines : Nat → List Char → List Char → Prop
  | zero {rest : List Char} : WholeLines 0 [] rest
  | succ {k : Nat} {line mark whole rest : List Char} (hline : Unbroken line)
      (hmark : Breaks mark (whole ++ rest)) (hwhole : WholeLines k whole rest) :
      WholeLines (k + 1) (line ++ (mark ++ whole)) rest

/-- The offset at which the first byte of a line stands. Lines are counted from zero. -/
def lineStart : List Char → Nat → Nat
  | _, 0 => 0
  | [], _ + 1 => 0
  | '\r' :: '\n' :: rest, k + 1 => 2 + lineStart rest k
  | c :: rest, k + 1 =>
    if isBreak c then 1 + lineStart rest k else c.utf8Size + lineStart rest (k + 1)

section Unbroken
variable {line part rest : List Char} {c : Char}

theorem unbroken_nil : Unbroken [] := List.forall_mem_nil _

theorem unbroken_cons : Unbroken (c :: line) ↔ isBreak c = false ∧ Unbroken line :=
  List.forall_mem_cons

theorem unbroken_append : Unbroken (part ++ rest) ↔ Unbroken part ∧ Unbroken rest :=
  List.forall_mem_append

theorem splitLines_ne_nil {cs : List Char} (h : cs ≠ []) : splitLines cs ≠ [] := by
  fun_cases splitLines cs <;> simp_all

theorem splitLines_cons (hc : isBreak c = false) (rest : List Char) :
    splitLines (c :: rest) =
      (c :: (splitLines rest).headD []) :: (splitLines rest).tail := by
  simp only [isBreak, Bool.or_eq_false_iff, decide_eq_false_iff_not] at hc
  rw [splitLines.eq_5 c rest hc.1 (fun _ h => absurd h hc.2) hc.2]
  cases splitLines rest <;> rfl

/-- A line goes on with the characters up to the next break. -/
theorem splitLines_append (hpart : Unbroken part) (h : part ++ rest ≠ []) :
    splitLines (part ++ rest) =
      (part ++ (splitLines rest).headD []) :: (splitLines rest).tail := by
  induction part with
  | nil =>
    have hlines := splitLines_ne_nil h
    rw [List.nil_append] at hlines ⊢
    cases hsplit : splitLines rest with
    | nil => exact absurd hsplit hlines
    | cons line lines => rfl
  | cons c part ih =>
    obtain ⟨hc, hpart⟩ := unbroken_cons.1 hpart
    rw [List.cons_append, splitLines_cons hc]
    by_cases hnil : part ++ rest = []
    · obtain ⟨rfl, rfl⟩ := List.append_eq_nil_iff.1 hnil
      rfl
    · rw [ih hpart hnil]
      rfl

theorem splitLines_unbroken (hline : Unbroken line) (h : line ≠ []) : splitLines line = [line] := by
  have hnil : line ++ [] ≠ [] := by rwa [List.append_nil]
  simpa [splitLines] using splitLines_append hline hnil

theorem splitLines_mark {mark : List Char} (hmark : Breaks mark rest) :
    splitLines (mark ++ rest) = [] :: splitLines rest := by
  cases hmark with
  | lf => rfl
  | crlf => rfl
  | cr hrest => cases rest <;> simp_all [splitLines]

theorem splitLines_line {mark : List Char} (hline : Unbroken line) (hmark : Breaks mark rest) :
    splitLines (line ++ (mark ++ rest)) = line :: splitLines rest := by
  have hne : line ++ (mark ++ rest) ≠ [] := by cases hmark <;> simp
  rw [splitLines_append hline hne, splitLines_mark hmark]
  simp

@[simp] theorem lineStart_zero (cs : List Char) : lineStart cs 0 = 0 := by
  cases cs <;> rfl

theorem lineStart_cons (hc : isBreak c = false) (rest : List Char) (k : Nat) :
    lineStart (c :: rest) (k + 1) = c.utf8Size + lineStart rest (k + 1) := by
  have hcr : c ≠ '\r' := by
    rintro rfl
    cases hc
  rw [lineStart.eq_4 c rest k (fun _ h => absurd h hcr), if_neg (by simp [hc])]

theorem lineStart_mark {mark : List Char} (hmark : Breaks mark rest) (k : Nat) :
    lineStart (mark ++ rest) (k + 1) = (encode mark).length + lineStart rest k := by
  cases hmark with
  | lf => rfl
  | crlf => rfl
  | cr hrest =>
    have hnext : ∀ tail, rest ≠ '\n' :: tail := by
      rintro tail rfl
      exact hrest rfl
    rw [List.singleton_append, lineStart.eq_4 '\r' rest k (fun tail _ => hnext tail)]
    rfl

theorem lineStart_line {mark : List Char} (hline : Unbroken line) (hmark : Breaks mark rest)
    (k : Nat) :
    lineStart (line ++ (mark ++ rest)) (k + 1) =
      (encode (line ++ mark)).length + lineStart rest k := by
  induction line with
  | nil => exact lineStart_mark hmark k
  | cons c line ih =>
    obtain ⟨hc, hline⟩ := unbroken_cons.1 hline
    rw [List.cons_append, List.cons_append, lineStart_cons hc, ih hline, length_encode_cons,
      Nat.add_assoc]

end Unbroken

/-- A text has no break in it, or it has a first line and the break that ends it. -/
theorem unbroken_or_line (cs : List Char) :
    Unbroken cs ∨
      ∃ line mark rest, cs = line ++ (mark ++ rest) ∧ Unbroken line ∧ Breaks mark rest := by
  induction cs with
  | nil => exact .inl unbroken_nil
  | cons c cs ih =>
    by_cases hc : isBreak c = true
    · refine .inr ⟨[], ?_⟩
      have hbreak : c = '\n' ∨ c = '\r' := by simpa [isBreak] using hc
      rcases hbreak with rfl | rfl
      · exact ⟨['\n'], cs, rfl, unbroken_nil, .lf⟩
      · by_cases hlf : cs.head? = some '\n'
        · obtain ⟨rest, rfl⟩ := List.head?_eq_some_iff.1 hlf
          exact ⟨['\r', '\n'], rest, rfl, unbroken_nil, .crlf⟩
        · exact ⟨['\r'], cs, rfl, unbroken_nil, .cr hlf⟩
    · have hc := Bool.eq_false_iff.2 hc
      rcases ih with hunbroken | ⟨line, mark, rest, rfl, hline, hmark⟩
      · exact .inl (unbroken_cons.2 ⟨hc, hunbroken⟩)
      · exact .inr ⟨c :: line, mark, rest, rfl, unbroken_cons.2 ⟨hc, hline⟩, hmark⟩

theorem Breaks.ne_nil {mark rest : List Char} (h : Breaks mark rest) : mark ≠ [] := by
  cases h <;> simp

/-- Whether a mark ends a line depends on the next character only. -/
theorem Breaks.append {mark rest : List Char} (h : Breaks mark rest) {more : List Char}
    (hmore : rest = [] → more.head? ≠ some '\n') : Breaks mark (rest ++ more) := by
  cases h with
  | lf => exact .lf
  | crlf => exact .crlf
  | cr hrest =>
    refine .cr ?_
    cases rest with
    | nil => exact hmore rfl
    | cons c rest => exact hrest

/-- Induction on the lines of a text. -/
@[elab_as_elim]
theorem line_induction {motive : List Char → Prop} (cs : List Char)
    (unbroken : ∀ line, Unbroken line → motive line)
    (line : ∀ line mark rest, Unbroken line → Breaks mark rest → motive rest →
      motive (line ++ (mark ++ rest))) : motive cs := by
  induction hlength : cs.length using Nat.strong_induction_on generalizing cs with
  | _ n ih =>
    rcases unbroken_or_line cs with hunbroken | ⟨first, mark, rest, rfl, hline, hmark⟩
    · exact unbroken cs hunbroken
    · refine line first mark rest hline hmark (ih rest.length ?_ rest rfl)
      have := List.length_pos_iff.2 hmark.ne_nil
      simp only [List.length_append] at hlength
      omega

namespace WholeLines
variable {k n : Nat} {whole part line rest : List Char}

theorem eq_nil (h : WholeLines 0 whole rest) : whole = [] := by
  cases h
  rfl

/-- The lines of the whole text are those of the front part and then those of the rest. -/
theorem drop_splitLines (h : WholeLines k whole rest) :
    (splitLines (whole ++ rest)).drop k = splitLines rest := by
  induction h with
  | zero => rfl
  | succ hline hmark _ ih =>
    rw [List.append_assoc, List.append_assoc, splitLines_line hline hmark, List.drop_succ_cons]
    exact ih

/-- After the whole lines begins the next line, which goes on to the next break. -/
theorem getElem?_splitLines (h : WholeLines k whole (part ++ rest)) (hpart : Unbroken part)
    (hne : part ++ rest ≠ []) :
    (splitLines (whole ++ (part ++ rest)))[k]? =
      some (part ++ (splitLines rest).headD []) := by
  rw [← Nat.add_zero k, ← List.getElem?_drop, h.drop_splitLines, splitLines_append hpart hne]
  rfl

theorem append_rest (h : WholeLines k whole rest) (hne : rest ≠ []) (more : List Char) :
    WholeLines k whole (rest ++ more) := by
  induction h with
  | zero => exact .zero
  | succ hline hmark _ ih =>
    refine .succ hline ?_ (ih hne)
    rw [← List.append_assoc]
    exact hmark.append fun hnil => absurd (List.append_eq_nil_iff.1 hnil).2 hne

theorem part_append (hpart : Unbroken part) (h : WholeLines (k + 1) whole rest) :
    WholeLines (k + 1) (part ++ whole) rest := by
  cases h with
  | succ hline hmark hwhole =>
    rw [← List.append_assoc]
    exact .succ (unbroken_append.2 ⟨hpart, hline⟩) hmark hwhole

theorem append {next : List Char} (h : WholeLines k whole (next ++ rest))
    (hnext : WholeLines n next rest) : WholeLines (k + n) (whole ++ next) rest := by
  generalize hrest : next ++ rest = ahead at h
  induction h with
  | zero =>
    rw [Nat.zero_add]
    exact hnext
  | @succ k line mark whole ahead hline hmark _ ih =>
    subst hrest
    rw [Nat.add_right_comm, List.append_assoc, List.append_assoc]
    refine .succ hline ?_ (ih rfl)
    rwa [List.append_assoc]

theorem lineStart_eq (h : WholeLines k whole rest) :
    lineStart (whole ++ rest) k = (encode whole).length := by
  induction h with
  | zero => rw [lineStart_zero]; rfl
  | succ hline hmark _ ih =>
    rw [List.append_assoc, List.append_assoc, lineStart_line hline hmark, ih,
      ← length_encode_append, List.append_assoc]

end WholeLines

/-- Before a character that ends no line stand whole lines and the part of a line. -/
theorem exists_wholeLines (front rest : List Char) {c : Char} (hc : isBreak c = false) :
    ∃ k whole part, front = whole ++ part ∧ WholeLines k whole (part ++ c :: rest) ∧
      Unbroken part := by
  induction front using line_induction with
  | unbroken part hpart => exact ⟨0, [], part, rfl, .zero, hpart⟩
  | line line mark front hline hmark ih =>
    obtain ⟨k, whole, part, rfl, hwhole, hpart⟩ := ih
    have hlf : (c :: rest).head? ≠ some '\n' := by
      rw [List.head?_cons, ne_eq, Option.some.injEq]
      rintro rfl
      cases hc
    have hmark' : Breaks mark (whole ++ (part ++ c :: rest)) := by
      rw [← List.append_assoc]
      exact hmark.append fun _ => hlf
    refine ⟨k + 1, line ++ (mark ++ whole), part, ?_, .succ hline hmark' hwhole, hpart⟩
    simp only [List.append_assoc]

/-- Each line stands behind as many whole lines as its index says. -/
theorem exists_of_getElem?_splitLines {cs line : List Char} {k : Nat}
    (h : (splitLines cs)[k]? = some line) :
    ∃ whole rest, cs = whole ++ (line ++ rest) ∧ WholeLines k whole (line ++ rest) ∧
      Unbroken line ∧ line ++ rest ≠ [] := by
  induction cs using line_induction generalizing k with
  | unbroken cs hcs =>
    by_cases hnil : cs = []
    · subst hnil
      simp [splitLines] at h
    · rw [splitLines_unbroken hcs hnil] at h
      obtain ⟨rfl, rfl⟩ : k = 0 ∧ cs = line := by
        cases k <;> simp_all
      exact ⟨[], [], by simp, .zero, hcs, by simpa using hnil⟩
  | line first mark rest hfirst hmark ih =>
    rw [splitLines_line hfirst hmark] at h
    cases k with
    | zero =>
      obtain rfl : first = line := by simpa using h
      exact ⟨[], mark ++ rest, rfl, .zero, hfirst, by simp [hmark.ne_nil]⟩
    | succ k =>
      obtain ⟨whole, rest, rfl, hwhole, hline, hne⟩ := ih (by simpa using h)
      refine ⟨first ++ (mark ++ whole), rest, ?_, .succ hfirst hmark hwhole, hline, hne⟩
      simp only [List.append_assoc]

end SourceGauge.Text
