import Mathlib
import SourceGauge.Proofs.Text.Line
import SourceGauge.Scala.Position

/-! Positions and the lines of a text. Counting line breaks on the way to a place gives the number
of the line in which the place stands, and the bytes that stand before it there. -/
namespace SourceGauge.Scala.Position
open Text
open Text.Utf8 (encode length_encode_cons length_encode_append length_encode_concat
  exists_append_of_length_encode_le exists_char_of_lt_length_encode)

variable {k : Nat} {part line rest whole : List Char}

theorem advanceAll_unbroken (hpart : Unbroken part) (p : Position) (rest : List Char) :
    p.advanceAll part rest = ⟨p.line, p.column + (encode part).length⟩ := by
  induction part generalizing p with
  | nil => rfl
  | cons c part ih =>
    obtain ⟨hc, hpart⟩ := unbroken_cons.1 hpart
    have hstep (next : Option Char) : p.advance c next = ⟨p.line, p.column + c.utf8Size⟩ := by
      have hne : c ≠ '\n' ∧ c ≠ '\r' := by simpa [isBreak] using hc
      simp [advance, hne.1, hne.2]
    rw [advanceAll, hstep, ih hpart, length_encode_cons, Nat.add_assoc]

theorem advanceAll_mark {mark : List Char} (hmark : Breaks mark rest) (p : Position) :
    p.advanceAll mark rest = ⟨p.line + 1, 0⟩ := by
  cases hmark with
  | lf => rfl
  | crlf => rfl
  | cr hrest => simp [advanceAll, advance, hrest]

theorem advanceAll_wholeLines (h : WholeLines k whole rest) (p : Position) :
    p.advanceAll whole rest = if k = 0 then p else ⟨p.line + k, 0⟩ := by
  induction h generalizing p with
  | zero => rfl
  | @succ k line mark whole rest hline hmark _ ih =>
    rw [advanceAll_append, advanceAll_append, advanceAll_unbroken hline, advanceAll_mark hmark, ih,
      if_neg k.succ_ne_zero]
    by_cases hk : k = 0
    · rw [if_pos hk, hk]
    · rw [if_neg hk, mk.injEq]
      exact ⟨Nat.add_right_comm _ _ _, rfl⟩

/-- The place behind some whole lines and a part of the next one. Only in the line in which the
count began do the columns before its beginning count. -/
theorem advanceAll_eq (hwhole : WholeLines k whole (part ++ rest)) (hpart : Unbroken part)
    (p : Position) :
    p.advanceAll (whole ++ part) rest =
      ⟨p.line + k, (if k = 0 then p.column else 0) + (encode part).length⟩ := by
  rw [advanceAll_append, advanceAll_wholeLines hwhole, advanceAll_unbroken hpart]
  split
  case isTrue hk => rw [hk, Nat.add_zero]
  case isFalse => rfl

theorem advanceAll_start (hwhole : WholeLines k whole (part ++ rest)) (hpart : Unbroken part) :
    start.advanceAll (whole ++ part) rest = ⟨k + 1, (encode part).length⟩ := by
  rw [advanceAll_eq hwhole hpart, mk.injEq]
  refine ⟨Nat.add_comm _ _, ?_⟩
  split <;> exact Nat.zero_add _

/-- How many lines lie between two places does not depend on the number of the first one. -/
theorem line_advanceAll (p q : Position) (cs rest : List Char) :
    (p.advanceAll cs rest).line + q.line = (q.advanceAll cs rest).line + p.line := by
  induction cs generalizing p q with
  | nil => exact Nat.add_comm _ _
  | cons c cs ih =>
    have hnext := ih (p.advance c (cs.head?.or rest.head?)) (q.advance c (cs.head?.or rest.head?))
    simp only [advanceAll]
    unfold advance at hnext ⊢
    split at hnext
    case isTrue h =>
      simp only [if_pos h] at hnext ⊢
      omega
    case isFalse h => simpa only [if_neg h] using hnext

/-- Behind the character that follows, the rest of a text does not matter to a place. -/
theorem advanceAll_head (p : Position) (cs : List Char) {rest other : List Char}
    (h : rest.head? = other.head?) : p.advanceAll cs rest = p.advanceAll cs other := by
  induction cs generalizing p with
  | nil => rfl
  | cons c cs ih => rw [advanceAll, advanceAll, ih, h]

/-- The lines of a piece of a text are counted on from the line in which the piece begins. -/
theorem line_advanceAll_append (before front rest after : List Char) (c : Char) :
    (start.advanceAll (before ++ front) (c :: (rest ++ after))).line + 1 =
      (start.advanceAll before (front ++ c :: rest ++ after)).line +
        (start.advanceAll front (c :: rest)).line := by
  have hshift := line_advanceAll (start.advanceAll before (front ++ c :: rest ++ after)) start front
    (c :: (rest ++ after))
  rw [advanceAll_append, advanceAll_head start front (List.head?_cons.trans List.head?_cons.symm)]
  simp only [List.append_assoc, List.cons_append] at hshift ⊢
  exact hshift.trans (Nat.add_comm _ _)

theorem before_iff {p q : Position} :
    p.before q = true ↔ p.line < q.line ∨ (p.line = q.line ∧ p.column < q.column) := by
  simp [before]

theorem not_advanceAll_before_self (p : Position) (cs rest : List Char) :
    ¬ (p.advanceAll cs rest).before p = true := by
  induction cs generalizing p with
  | nil => simp [advanceAll, before_iff]
  | cons c cs ih =>
    have hnext := ih (p.advance c (cs.head?.or rest.head?))
    have hstep : ¬ (p.advance c (cs.head?.or rest.head?)).before p = true := by
      unfold advance
      split <;> simp [before_iff]
    rw [advanceAll]
    rw [before_iff] at hnext hstep ⊢
    omega

/-- Of two places in a text, the one behind more bytes does not come before the other. -/
theorem not_advanceAll_before {front ahead other more : List Char}
    (h : front ++ ahead = other ++ more) (hle : (encode front).length ≤ (encode other).length)
    (p : Position) : ¬ (p.advanceAll other more).before (p.advanceAll front ahead) = true := by
  obtain ⟨cs, rfl, rfl⟩ := exists_append_of_length_encode_le h hle
  rw [advanceAll_append]
  exact not_advanceAll_before_self _ _ _

/-- A character that ends no line stands in the line that the count of breaks before it gives. -/
theorem exists_line_of_front (front rest : List Char) {c : Char} (hc : isBreak c = false) :
    ∃ k part tail, (splitLines (front ++ c :: rest))[k]? = some (part ++ c :: tail) ∧
      (encode front).length = lineStart (front ++ c :: rest) k + (encode part).length ∧
      start.advanceAll front (c :: rest) = ⟨k + 1, (encode part).length⟩ := by
  obtain ⟨k, whole, part, rfl, hwhole, hpart⟩ := exists_wholeLines front rest hc
  have hline := hwhole.getElem?_splitLines hpart (by simp)
  rw [splitLines_cons hc, List.headD_cons] at hline
  refine ⟨k, part, _, by rwa [List.append_assoc], ?_, advanceAll_start hwhole hpart⟩
  rw [List.append_assoc, hwhole.lineStart_eq, length_encode_append]

/-- The place of a character in a text, given its place in a line. -/
theorem exists_front_of_line {cs tail : List Char} {c : Char}
    (h : (splitLines cs)[k]? = some (part ++ c :: tail)) :
    ∃ front rest, cs = front ++ c :: rest ∧
      (encode front).length = lineStart cs k + (encode part).length ∧
      start.advanceAll front (c :: rest) = ⟨k + 1, (encode part).length⟩ ∧
      start.advanceAll (front ++ [c]) rest = ⟨k + 1, (encode part).length + c.utf8Size⟩ := by
  obtain ⟨whole, rest, hsplit, hwhole, hline, -⟩ := exists_of_getElem?_splitLines h
  have hpart := unbroken_append.1 hline
  have hc : Unbroken (part ++ [c]) :=
    unbroken_append.2 ⟨hpart.1, unbroken_cons.2 ⟨(unbroken_cons.1 hpart.2).1, unbroken_nil⟩⟩
  refine ⟨whole ++ part, tail ++ rest, by simp [hsplit], ?_, ?_, ?_⟩
  · rw [hsplit, hwhole.lineStart_eq, length_encode_append]
  · exact advanceAll_start (by simpa using hwhole) hpart.1
  · rw [List.append_assoc, advanceAll_start (by simpa using hwhole) hc, length_encode_concat]

/-- A byte of a line comes before a place by line and column just when it stands before the place
in the text. -/
theorem before_advanceAll_iff {front ahead : List Char} {j : Nat}
    (h : (splitLines (front ++ ahead))[k]? = some line) (hj : j < (encode line).length) :
    (⟨k + 1, j⟩ : Position).before (start.advanceAll front ahead) = true ↔
      lineStart (front ++ ahead) k + j < (encode front).length := by
  obtain ⟨part, c, tail, rfl, hle, hlt⟩ := exists_char_of_lt_length_encode hj
  obtain ⟨other, rest, hsplit, hlength, hbefore, hbehind⟩ := exists_front_of_line h
  by_cases hshort : (encode front).length ≤ (encode other).length
  · -- the place is not behind the character that the byte belongs to
    have hnot := not_advanceAll_before hsplit hshort start
    rw [hbefore] at hnot
    simp only [before_iff] at hnot ⊢
    omega
  · obtain ⟨more, hfront, hmore⟩ :=
      exists_append_of_length_encode_le hsplit.symm (Nat.le_of_not_le hshort)
    have hlong : (encode (other ++ [c])).length ≤ (encode front).length := by
      cases more with
      | nil => simp [hfront] at hshort
      | cons d more =>
        obtain ⟨rfl, -⟩ := List.cons.inj hmore
        rw [hfront, length_encode_concat, length_encode_append, length_encode_cons]
        omega
    have hsplit' : (other ++ [c]) ++ rest = front ++ ahead := by
      rw [hsplit, List.append_assoc, List.singleton_append]
    have hnot := not_advanceAll_before hsplit' hlong start
    rw [hbehind] at hnot
    rw [length_encode_concat] at hlong
    simp only [before_iff] at hnot ⊢
    omega

end SourceGauge.Scala.Position
