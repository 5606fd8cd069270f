import Mathlib
import SourceGauge.Proofs.Scala.BreakStyle
import SourceGauge.Proofs.Scala.Comment
import SourceGauge.Scala.FileMetrics

/-! The metrics of a file with line breaks of another style. Written with a lone CR, every break is
read as before. Written with CRLF, so is every break but one kind: after a backslash in a literal on
one line the CR belongs to the literal, and the LF ends it. -/
namespace SourceGauge.Scala
open Text (BreakStyle splitLines)
open Text.BreakStyle

/-- Two lists of comments cover the same bytes of each line, and carry text on as many lines. -/
structure SameCover (xs ys : List Comment) : Prop where
  commentOnly : ∀ number line, isCommentOnly xs number line = isCommentOnly ys number line
  commentLines : countCommentLines xs = countCommentLines ys

/-- The policy asks of the comments only what they cover, and on how many lines they carry text. -/
def LinePolicy.RespectsCover (policy : LinePolicy) : Prop :=
  ∀ xs ys, SameCover xs ys → policy xs = policy ys

theorem LinePolicy.code_respectsCover : LinePolicy.code.RespectsCover := by
  intro xs ys h
  funext number line
  rw [code, code, h.commentOnly]

namespace Comment
variable (style : BreakStyle)

/-- The comment with the line breaks in its text written in a style. -/
def write (c : Comment) : Comment := { c with text := String.ofList (style.write c.text.toList) }

theorem ofTokensFrom_write (afterCode : Bool) (ts : List Token) :
    ofTokensFrom afterCode (ts.map (Token.write style)) =
      (ofTokensFrom afterCode ts).map (write style) := by
  induction ts generalizing afterCode with
  | nil => rfl
  | cons t ts ih =>
    simp only [List.map_cons, ofTokensFrom, Token.write, ih]
    split <;> rfl

theorem textLines_write {c : Comment} (h : '\r' ∉ c.text.toList) :
    (c.write style).textLines = c.textLines := by
  rw [textLines, write, String.toList_ofList, splitLines_write style h]
  rfl

theorem sameCover_write {comments : List Comment} (h : ∀ c ∈ comments, '\r' ∉ c.text.toList) :
    SameCover (comments.map (write style)) comments where
  commentOnly number line := by
    have hranges : (comments.map (write style)).filterMap (·.columnsOn? number) =
        comments.filterMap (·.columnsOn? number) := by
      rw [List.filterMap_map]
      rfl
    rw [isCommentOnly, isCommentOnly, hranges]
  commentLines := by
    have hlines : ((comments.map (write style)).filter (!·.header)).flatMap textLines =
        (comments.filter (!·.header)).flatMap textLines := by
      rw [List.filter_map, List.flatMap_map]
      refine List.flatMap_congr fun c hc => textLines_write style (h c ?_)
      exact List.mem_of_mem_filter hc
    rw [countCommentLines, countCommentLines, hlines]

theorem not_mem_text {source : List Char} (hcr : '\r' ∉ source) :
    ∀ c ∈ ofTokens (tokenize source), '\r' ∉ c.text.toList := by
  intro c hc hmem
  obtain ⟨earlier, t, later, htokens, kind, -, rfl⟩ := mem_ofTokens.1 hc
  obtain ⟨before, text, after, rfl, hreads⟩ := Token.exists_reads_of_tokenize htokens
  rw [hreads.text_eq] at hmem
  exact hcr (List.mem_append_right _ (List.mem_append_left _ hmem))

end Comment

/-- The metrics of a file whose tokens stay the same up to the breaks in their texts. -/
theorem analyze_write_of_tokenize (style : BreakStyle) {policy : LinePolicy}
    (hpolicy : policy.RespectsCover) (limits : List Nat) {source : List Char}
    (hcr : '\r' ∉ source)
    (htokens : tokenize (style.write source) = (tokenize source).map (Token.write style)) :
    analyze policy limits (style.write source) = analyze policy limits source := by
  have hcomments : Comment.ofTokens (tokenize (style.write source)) =
      (Comment.ofTokens (tokenize source)).map (Comment.write style) := by
    rw [htokens]
    exact Comment.ofTokensFrom_write style false _
  have hcover := Comment.sameCover_write style (Comment.not_mem_text hcr)
  have hcode : CodeMetrics.ofTokens (tokenize (style.write source)) =
      CodeMetrics.ofTokens (tokenize source) := by
    have hbare : ((tokenize source).map (Token.write style)).map Token.bare =
        (tokenize source).map Token.bare := by
      rw [List.map_map]
      refine List.map_congr_left fun t ht => ?_
      rw [tokenize_eq] at ht
      exact bare_write style ht
    rw [htokens, ← codeMetrics_bare, hbare, codeMetrics_bare]
  have hpolicy := hpolicy _ _ hcover
  simp only [analyze, splitLines_write style hcr, hcode, hcomments, hcover.commentLines, countCode,
    markCode, hpolicy]

/-- The metrics of a file do not depend on whether its lines end at LF or at CR. Nor do they change
with CRLF, unless a backslash has taken a line break along into a literal on one line. -/
theorem analyze_write {policy : LinePolicy} (hpolicy : policy.RespectsCover) (limits : List Nat)
    {source : List Char} (hcr : '\r' ∉ source) :
    analyze policy limits (BreakStyle.cr.write source) = analyze policy limits source ∧
      ((∀ t ∈ tokenize source, t.escapesBreak = false) →
        analyze policy limits (BreakStyle.crlf.write source) = analyze policy limits source) := by
  have htokens {style : BreakStyle}
      (h : style.mark.length = 1 ∨ ∀ t ∈ tokenize source, t.escapesBreak = false) :
      tokenize (style.write source) = (tokenize source).map (Token.write style) := by
    rw [tokenize_eq, tokenize_eq] at *
    exact tokensFrom_write style hcr .start h
  constructor
  · exact analyze_write_of_tokenize _ hpolicy limits hcr (htokens (.inl rfl))
  · intro h
    exact analyze_write_of_tokenize _ hpolicy limits hcr (htokens (.inr h))

/-- Breaks in a block comment, in a raw string, after a string without its closing quote, and
between statements. -/
theorem analyze_write_default :
    let source := "/* a\n b */ val x = \"\"\"c\\\nd\"\"\"\n'e\ndef f = \"g\nif (x) 1".toList
    '\r' ∉ source ∧ (∀ t ∈ tokenize source, t.escapesBreak = false) ∧
      (analyze .code defaultLimits source).lines = 6 ∧
      analyze .code defaultLimits (BreakStyle.cr.write source) =
        analyze .code defaultLimits source ∧
      analyze .code defaultLimits (BreakStyle.crlf.write source) =
        analyze .code defaultLimits source := by
  intro source
  have hcr : '\r' ∉ source := by decide
  have hescape : ∀ t ∈ tokenize source, t.escapesBreak = false := by decide +kernel
  obtain ⟨hlone, hpair⟩ := analyze_write LinePolicy.code_respectsCover defaultLimits hcr
  exact ⟨hcr, hescape, by decide +kernel, hlone, hpair hescape⟩

/-- The LF of a CRLF after a backslash ends the string, and what was its second line is read as
code. -/
theorem analyze_write_crlf_ne :
    let source := "\"a\\\nb\"".toList
    '\r' ∉ source ∧
      analyze .code defaultLimits (BreakStyle.crlf.write source) ≠
        analyze .code defaultLimits source ∧
      (analyze .code defaultLimits source).statements = 1 ∧
      (analyze .code defaultLimits (BreakStyle.crlf.write source)).statements = 2 := by
  decide +kernel

end SourceGauge.Scala
