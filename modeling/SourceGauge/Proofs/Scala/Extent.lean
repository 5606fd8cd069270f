import Mathlib
import SourceGauge.Proofs.Scala.Scanner

/-! The forms of a token. Its first characters tell which form it has, and with it the reader that
finds its end. -/
namespace SourceGauge.Scala.Lexeme
open Text (isBreak)

section Forms
variable {c : Char} {cs : List Char}

theorem extent_lineComment (cs : List Char) :
    extent '/' ('/' :: cs) = ⟨.comment .line, 1 + runLength (!isBreak ·) cs⟩ := by
  have hreach : runLength (!isBreak ·) ('/' :: cs) = 1 + runLength (!isBreak ·) cs := by
    rw [runLength_cons, if_pos (by decide)]
  rw [← hreach]
  rfl

theorem extent_blockComment (cs : List Char) : extent '/' ('*' :: cs) =
    ⟨.comment (if cs[0]? = some '*' ∧ cs[1]? ≠ some '/' then .doc else .block),
      1 + blockLength 0 cs⟩ := by
  simp [extent]

/-- A slash that opens no comment begins an operator. -/
theorem extent_slash (hline : ¬ ['/'] <+: cs) (hblock : ¬ ['*'] <+: cs) :
    extent '/' cs = ⟨.operator, operatorLength cs⟩ := by
  cases cs with
  | nil => rfl
  | cons d ds =>
    have hd : d ≠ '/' ∧ d ≠ '*' := by
      constructor <;> rintro rfl
      · exact hline (List.prefix_append ['/'] ds)
      · exact hblock (List.prefix_append ['*'] ds)
    simp only [extent, List.head?_cons, Option.some.injEq, hd]
    rfl

theorem extent_rawString (cs : List Char) :
    extent '"' ('"' :: '"' :: cs) = ⟨.string, 2 + rawStringLength cs⟩ := by
  simp [extent]

theorem extent_string (hquotes : ¬ ['"', '"'] <+: cs) :
    extent '"' cs = ⟨.string, stringLength cs⟩ := by
  have htake : cs.take 2 ≠ ['"', '"'] := fun htake =>
    hquotes (List.prefix_iff_eq_take.2 htake.symm)
  simp [extent, htake]

/-- A character that no comment, string or quoted name begins with is enough to tell the kind. -/
theorem extent_of_not_mem (h : c ∉ ['/', '"', '\'', '\x60']) (cs : List Char) :
    extent c cs =
      if c.isDigit then ⟨.number, numberLength cs⟩
      else if isIdentStart c then
        ⟨if keywords.contains (String.ofList (c :: cs.take (runLength isIdentPart cs))) then
          .keyword else .ident, runLength isIdentPart cs⟩
      else if isOperatorChar c then ⟨.operator, operatorLength cs⟩
      else ⟨.punct, 0⟩ := by
  simp only [List.mem_cons, List.not_mem_nil, or_false, not_or] at h
  obtain ⟨hslash, hstring, hquote, hback⟩ := h
  simp [extent, hslash, hstring, hquote, hback]

/-- An apostrophe that begins no character literal stands alone. -/
theorem kind_quoted (cs : List Char) : (quoted cs).kind = .char ∨ quoted cs = ⟨.punct, 0⟩ := by
  unfold quoted
  split
  · exact .inl rfl
  · exact .inl rfl
  · split
    · exact .inr rfl
    · exact .inl rfl
  · exact .inr rfl

end Forms

/-- A property of a character and the text behind it, by the form of the token there. From `number`
on the character tells the form alone, whatever stands behind it. -/
@[elab_as_elim]
theorem extent_cases {motive : Char → List Char → Prop}
    (lineComment : ∀ more, motive '/' ('/' :: more))
    (blockComment : ∀ more, motive '/' ('*' :: more))
    (slash : ∀ rest, ¬ ['/'] <+: rest → ¬ ['*'] <+: rest → motive '/' rest)
    (rawString : ∀ more, motive '"' ('"' :: '"' :: more))
    (string : ∀ rest, ¬ ['"', '"'] <+: rest → motive '"' rest)
    (apostrophe : ∀ rest, motive '\'' rest)
    (backquote : ∀ rest, motive '\x60' rest)
    (number : ∀ c rest, (∀ cs, extent c cs = ⟨.number, numberLength cs⟩) → motive c rest)
    (word : ∀ c rest, (∀ cs, extent c cs =
      ⟨if keywords.contains (String.ofList (c :: cs.take (runLength isIdentPart cs))) then
        .keyword else .ident, runLength isIdentPart cs⟩) → motive c rest)
    (operator : ∀ c rest, (∀ cs, extent c cs = ⟨.operator, operatorLength cs⟩) → motive c rest)
    (punct : ∀ c rest, (∀ cs, extent c cs = ⟨.punct, 0⟩) → motive c rest)
    (c : Char) (rest : List Char) : motive c rest := by
  by_cases h : c ∈ ['/', '"', '\'', '\x60']
  · simp only [List.mem_cons, List.not_mem_nil, or_false] at h
    obtain rfl | rfl | rfl | rfl := h
    · by_cases hline : ['/'] <+: rest
      · obtain ⟨more, rfl⟩ := hline
        exact lineComment more
      by_cases hblock : ['*'] <+: rest
      · obtain ⟨more, rfl⟩ := hblock
        exact blockComment more
      · exact slash rest hline hblock
    · by_cases hquotes : ['"', '"'] <+: rest
      · obtain ⟨more, rfl⟩ := hquotes
        exact rawString more
      · exact string rest hquotes
    · exact apostrophe rest
    · exact backquote rest
  by_cases hdigit : c.isDigit = true
  · exact number c rest fun cs => by rw [extent_of_not_mem h, if_pos hdigit]
  by_cases hstart : isIdentStart c = true
  · exact word c rest fun cs => by rw [extent_of_not_mem h, if_neg hdigit, if_pos hstart]
  by_cases hop : isOperatorChar c = true
  · exact operator c rest fun cs => by
      rw [extent_of_not_mem h, if_neg hdigit, if_neg hstart, if_pos hop]
  · exact punct c rest fun cs => by
      rw [extent_of_not_mem h, if_neg hdigit, if_neg hstart, if_neg hop]

end SourceGauge.Scala.Lexeme
