import Mathlib
import SourceGauge.Proofs.Scala.Additive
import SourceGauge.Proofs.Scala.Ledger

/-! A line break in front of code. Behind a token that does not lead on, it makes a difference only
to the next code token: if that can start a statement, one begins there. Nothing else of the scan
sees that the tokens stand on a later line. -/
namespace SourceGauge.Scala.Scan
variable {s : Scan} {f : Token → Token} {n : Nat}

/-- The last code token stands on line `n`. On the same line no statement begins behind it, and a
line break ends its statement. -/
structure EndsLine (n : Nat) (s : Scan) : Prop where
  not_inParen : s.inParen = false
  not_arrow : s.afterCaseArrow = false
  last : ∃ p, s.previous = some p ∧ p.stop.line = n ∧ p.isPunct ";" = false ∧
    p.isPunct "\x7b" = false ∧ isContinuation p = false

theorem EndsLine.startsStatement_same (h : s.EndsLine n) {t : Token} (ht : t.start.line = n) :
    s.startsStatement t = false := by
  obtain ⟨p, hprevious, hline, hsemicolon, hbrace, -⟩ := h.last
  simp [startsStatement, atBoundary, hprevious, hsemicolon, hbrace, h.not_arrow, hline, ht]

theorem EndsLine.startsStatement_later (h : s.EndsLine n) {t : Token} (ht : n < t.start.line) :
    s.startsStatement t = canStartStatement t := by
  obtain ⟨p, hprevious, hline, -, -, hleads⟩ := h.last
  simp [startsStatement, atBoundary, hprevious, h.not_inParen, hline, ht, hleads]

theorem EndsLine.beginStatement (h : s.EndsLine n) : s.beginStatement.EndsLine n :=
  ⟨h.not_inParen, h.not_arrow, h.last⟩

theorem EndsLine.skip (h : s.EndsLine n) {item : Item} (hitem : codeTokens [item] = []) :
    (s.step item).EndsLine n := by
  obtain ⟨hidden, documented, hstep⟩ := s.exists_step_eq hitem
  rw [hstep]
  exact ⟨h.not_inParen, h.not_arrow, h.last⟩

theorem step_beginStatement {item : Item} (hitem : codeTokens [item] = []) :
    s.beginStatement.step item = (s.step item).beginStatement := by
  cases item with
  | code t => cases hitem
  | comment t => rw [step, step]; split <;> rfl
  | modifier word qualifier => rw [step, step]; split <;> rfl
  | _ => rfl

theorem metrics_above_empty : (s.above {} f).metrics = s.metrics := by
  rw [metrics_above rfl]
  simp [CodeMetrics.append, metrics, closeFrom, endFunctionsFrom]

variable (hf : Token.Keeps f)
include hf

theorem consume_map (s : Scan) (t : Token) : s.consume (f t) = (s.consume t).above {} f := by
  have hends : s.endsPattern (f t) = s.endsPattern t := by
    by_cases h : t.kind = .operator
    · simp only [endsPattern, hf.kind, hf.text (.inr (.inl h))]
    · simp [endsPattern, hf.kind, h]
  unfold consume
  rw [hf.kind, hends]
  cases h : t.kind <;> simp [above, hf.text, h]

theorem step_map_of_not_code {item : Item} (hitem : codeTokens [item] = [])
    (hword : ∀ word qualifier, item = .modifier word qualifier → word.kind = .keyword) :
    s.step (item.map f) = s.step item := by
  cases item with
  | code t => cases hitem
  | comment t => simp only [Item.map, step, hf.kind]
  | modifier word qualifier =>
    simp only [Item.map, step, Item.isHiding_map (hf.kept word) (hword word qualifier rfl)]
  | _ => rfl

theorem EndsLine.code_later (h : s.EndsLine n) {t : Token} (ht : t.start.line = n)
    (hlater : n < (f t).start.line) :
    s.code (f t) =
      ((if canStartStatement t then s.beginStatement else s).code t).above {} f := by
  have hsame : (if canStartStatement t then s.beginStatement else s).startsStatement t = false := by
    split
    · exact h.beginStatement.startsStatement_same ht
    · exact h.startsStatement_same ht
  rw [code_eq, enter, h.startsStatement_later hlater, canStartStatement_map (hf.kept t), code_eq,
    enter, hsame, consume_map hf]
  rfl

/-- Tokens on a later line are read as on the same line, after the beginning of a statement if the
first of them can start one. -/
theorem EndsLine.metrics_later (h : s.EndsLine n) {items : List Item}
    (hline : ∀ t ∈ (codeTokens items).head?, t.start.line = n)
    (hlater : ∀ t : Token, t.start.line < (f t).start.line)
    (hword : ∀ word qualifier, .modifier word qualifier ∈ items → word.kind = .keyword) :
    ((items.map (Item.map f)).foldl step s).metrics =
      (items.foldl step
        (if (codeTokens items).head?.any canStartStatement then s.beginStatement
          else s)).metrics := by
  induction items generalizing s with
  | nil => rfl
  | cons item items ih =>
    obtain ⟨hitem, hitems⟩ : (∀ word qualifier, item = .modifier word qualifier →
        word.kind = .keyword) ∧
        ∀ word qualifier, .modifier word qualifier ∈ items → word.kind = .keyword :=
      ⟨fun word qualifier heq => hword word qualifier (heq ▸ List.mem_cons_self),
        fun word qualifier hmem => hword word qualifier (List.mem_cons_of_mem item hmem)⟩
    rw [List.map_cons, List.foldl_cons, List.foldl_cons]
    rcases item.eq_code_or_codeTokens_eq_nil with ⟨t, rfl⟩ | hcode
    · have ht : t.start.line = n := hline t rfl
      have hcode : step s ((Item.code t).map f) = _ := h.code_later hf ht (ht ▸ hlater t)
      rw [hcode, foldl_step_above _ _ hf hitems, metrics_above_empty]
      rfl
    · rw [step_map_of_not_code hf hcode hitem]
      rw [← List.singleton_append, codeTokens_append, hcode, List.nil_append] at hline ⊢
      rw [ih (h.skip hcode) hline hitems, apply_ite (step · item), step_beginStatement hcode]

end SourceGauge.Scala.Scan
