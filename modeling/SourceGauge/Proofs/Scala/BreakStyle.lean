import Mathlib
import SourceGauge.Proofs.Scala.BareToken
import SourceGauge.Proofs.Scala.Extent
import SourceGauge.Proofs.Scala.TokenPlace
import SourceGauge.Proofs.Text.BreakStyle

/-! Tokens of a text with line breaks of another style. They stand at the same places, and only the
breaks inside them are written in that style. In CRLF this holds unless a backslash takes a line
break along, since it takes one character only. -/
namespace SourceGauge.Scala
open Text (BreakStyle isBreak take_one_add)
open Text.BreakStyle

namespace Lexeme

section Stop
variable (b : Char)

theorem isIdentPart_break (hb : isBreak b = true) : isIdentPart b = false := by
  rcases eq_lf_or_cr hb with rfl | rfl <;> decide

theorem ne_quote_break (hb : isBreak b = true) : decide (b = '"') = false := by
  rcases eq_lf_or_cr hb with rfl | rfl <;> decide

variable (cs : List Char)

theorem numberLength_break (hb : isBreak b = true) : numberLength (b :: cs) = 0 := by
  rcases eq_lf_or_cr hb with rfl | rfl <;> rfl

theorem operatorLength_break (hb : isBreak b = true) : operatorLength (b :: cs) = 0 := by
  rcases eq_lf_or_cr hb with rfl | rfl <;> rfl

theorem stringLength_break (hb : isBreak b = true) : stringLength (b :: cs) = 0 := by
  rcases eq_lf_or_cr hb with rfl | rfl <;> rfl

end Stop

section Readers
variable (style : BreakStyle)

/-- A reader that stops at line breaks does so in every style. -/
theorem write_lf_of_stop {reach : List Char → Nat}
    (hstop : ∀ b cs, isBreak b = true → reach (b :: cs) = 0) (cs : List Char) :
    reach (style.write ('\n' :: cs)) =
      (style.write (('\n' :: cs).take (reach ('\n' :: cs)))).length := by
  obtain ⟨b, bs, hmark, hb⟩ := style.exists_mark_eq_cons
  rw [write_lf, hmark, List.cons_append, hstop b _ hb, hstop '\n' cs rfl]
  rfl

theorem runLength_write {p : Char → Bool} (hp : ∀ c, isBreak c = true → p c = false)
    (cs : List Char) :
    runLength p (style.write cs) = (style.write (cs.take (runLength p cs))).length := by
  induction cs with
  | nil => rfl
  | cons c cs ih =>
    by_cases hc : c = '\n'
    · subst hc
      refine write_lf_of_stop style (fun b cs hb => ?_) cs
      rw [runLength_cons, hp b hb]
      rfl
    · rw [write_cons style hc, runLength_cons, runLength_cons, ih]
      split
      · rw [length_write_take_cons style hc]
      · rfl

theorem not_mem_take_runLength {p : Char → Bool} (hp : ∀ c, isBreak c = true → p c = false)
    {cs : List Char} : '\n' ∉ cs.take (runLength p cs) := by
  intro hmem
  have htake : cs.take (runLength p cs) = cs.takeWhile p := by
    have hsplit := List.take_append_drop (runLength p cs) cs
    rw [drop_runLength] at hsplit
    exact List.append_cancel_right (hsplit.trans List.takeWhile_append_dropWhile.symm)
  rw [htake] at hmem
  have hlf := List.mem_takeWhile_imp hmem
  rw [hp '\n' rfl] at hlf
  cases hlf

theorem oneIf_write {c : Char} (hc : isBreak c = false) (cs : List Char) :
    oneIf c (style.write cs) = oneIf c cs := by
  simp only [oneIf, head?_write_eq_some_iff style hc]

theorem delimitedLength_write {close : Char} (hclose : isBreak close = false) (cs : List Char) :
    delimitedLength close (style.write cs) =
      (style.write (cs.take (delimitedLength close cs))).length := by
  have hrun := runLength_write style (p := fun c => c ≠ close && !isBreak c)
    (fun c hc => by simp [hc]) cs
  simp only [delimitedLength, hrun, drop_write, oneIf_write style hclose]
  generalize runLength _ cs = n
  rw [List.take_add, write_append, List.length_append]
  congr 1
  unfold oneIf
  split
  case isTrue h =>
    obtain ⟨rest, hrest⟩ := List.head?_eq_some_iff.1 h
    have hne : close ≠ '\n' := by
      rintro rfl
      cases hclose
    rw [hrest, List.take_succ_cons, write_cons style hne]
    rfl
  case isFalse => rfl

theorem numberLength_write (cs : List Char) :
    numberLength (style.write cs) = (style.write (cs.take (numberLength cs))).length := by
  induction cs with
  | nil => rfl
  | cons c cs ih =>
    by_cases hc : c = '\n'
    · subst hc
      exact write_lf_of_stop style numberLength_break cs
    · have hdigit : (style.write cs).head?.any Char.isDigit = cs.head?.any Char.isDigit := by
        refine any_head?_write style fun b hb => ?_
        rcases eq_lf_or_cr hb with rfl | rfl <;> rfl
      rw [write_cons style hc, numberLength, numberLength, hdigit, ih]
      split
      · rw [length_write_take_cons style hc]
      · rfl

theorem operatorLength_write (cs : List Char) :
    operatorLength (style.write cs) = (style.write (cs.take (operatorLength cs))).length := by
  have hstep {c : Char} {rest : List Char} (hc : c ≠ '\n')
      (hline : ∀ more, c = '/' → rest = '/' :: more → False)
      (hblock : ∀ more, c = '/' → rest = '*' :: more → False) :
      operatorLength (style.write (c :: rest)) =
        if isOperatorChar c then 1 + operatorLength (style.write rest) else 0 := by
    rw [write_cons style hc, operatorLength.eq_3]
    · exact fun more hslash => write_ne_cons style rfl (fun ds => hline ds hslash) more
    · exact fun more hslash => write_ne_cons style rfl (fun ds => hblock ds hslash) more
  induction cs using operatorLength.induct with
  | case1 rest =>
    rw [write_cons style (by decide), write_cons style (by decide)]
    rfl
  | case2 rest =>
    rw [write_cons style (by decide), write_cons style (by decide)]
    rfl
  | case3 c rest hline hblock hop ih =>
    have hc : c ≠ '\n' := by
      rintro rfl
      simp [isOperatorChar] at hop
    rw [hstep hc hline hblock, operatorLength.eq_3 _ _ hline hblock, if_pos hop, if_pos hop, ih,
      length_write_take_cons style hc]
  | case4 c rest hline hblock hop =>
    by_cases hc : c = '\n'
    · subst hc
      exact write_lf_of_stop style operatorLength_break rest
    · rw [hstep hc hline hblock, operatorLength.eq_3 _ _ hline hblock, if_neg hop, if_neg hop]
      rfl
  | case5 => rfl

theorem blockLength_breaks {marks : List Char} (h : ∀ b ∈ marks, isBreak b = true) (outer : Nat)
    (cs : List Char) : blockLength outer (marks ++ cs) = marks.length + blockLength outer cs := by
  induction marks with
  | nil => simp
  | cons b marks ih =>
    obtain ⟨hb, hmarks⟩ := List.forall_mem_cons.1 h
    have hstep : blockLength outer (b :: (marks ++ cs)) = 1 + blockLength outer (marks ++ cs) := by
      rcases eq_lf_or_cr hb with rfl | rfl <;> rw [blockLength.eq_4] <;> simp
    rw [List.cons_append, hstep, ih hmarks, List.length_cons]
    omega

theorem blockLength_write (outer : Nat) (cs : List Char) :
    blockLength outer (style.write cs) =
      (style.write (cs.take (blockLength outer cs))).length := by
  induction outer, cs using blockLength.induct with
  | case1 outer rest ih =>
    rw [write_cons style (by decide), write_cons style (by decide), blockLength, blockLength, ih,
      length_write_take_pair style (by decide) (by decide)]
  | case2 rest =>
    rw [write_cons style (by decide), write_cons style (by decide), blockLength, blockLength]
    exact (length_write_take_pair style (by decide) (by decide) 0 rest).symm
  | case3 outer rest ih =>
    rw [write_cons style (by decide), write_cons style (by decide), blockLength, blockLength, ih,
      length_write_take_pair style (by decide) (by decide)]
  | case4 outer c rest hopen hclose ih =>
    rw [blockLength.eq_4 _ _ _ hopen hclose]
    by_cases hc : c = '\n'
    · subst hc
      rw [write_lf, blockLength_breaks style.isBreak_of_mem_mark, ih, length_write_take_lf]
    · rw [write_cons style hc, blockLength.eq_4, ih, length_write_take_cons style hc]
      · exact fun more hslash => write_ne_cons style rfl (fun ds => hopen ds hslash) more
      · exact fun more hstar => write_ne_cons style rfl (fun ds => hclose ds hstar) more
  | case5 outer => rfl

theorem rawStringLength_breaks {marks : List Char} (h : ∀ b ∈ marks, isBreak b = true)
    (cs : List Char) : rawStringLength (marks ++ cs) = marks.length + rawStringLength cs := by
  induction marks with
  | nil => simp
  | cons b marks ih =>
    obtain ⟨hb, hmarks⟩ := List.forall_mem_cons.1 h
    have hstep : rawStringLength (b :: (marks ++ cs)) = 1 + rawStringLength (marks ++ cs) := by
      rcases eq_lf_or_cr hb with rfl | rfl <;> rw [rawStringLength.eq_2] <;> simp
    rw [List.cons_append, hstep, ih hmarks, List.length_cons]
    omega

theorem rawStringLength_write (cs : List Char) :
    rawStringLength (style.write cs) = (style.write (cs.take (rawStringLength cs))).length := by
  have hquote : '"' ≠ '\n' := by decide
  induction cs using rawStringLength.induct with
  | case1 rest =>
    rw [write_cons style hquote, write_cons style hquote, write_cons style hquote,
      rawStringLength, rawStringLength, runLength_write style ne_quote_break,
      show 3 + runLength (· = '"') rest = 1 + (1 + (1 + runLength (· = '"') rest)) by omega,
      length_write_take_cons style hquote, length_write_take_cons style hquote,
      length_write_take_cons style hquote]
    omega
  | case2 c rest hquotes ih =>
    rw [rawStringLength.eq_2 _ _ hquotes]
    by_cases hc : c = '\n'
    · subst hc
      rw [write_lf, rawStringLength_breaks style.isBreak_of_mem_mark, ih, length_write_take_lf]
    · rw [write_cons style hc, rawStringLength.eq_2, ih, length_write_take_cons style hc]
      intro more hfirst hrest
      obtain ⟨_, rfl, hsecond⟩ := style.exists_of_write_eq_cons rfl hrest
      obtain ⟨ds, rfl, -⟩ := style.exists_of_write_eq_cons rfl hsecond.symm
      exact hquotes ds hfirst rfl
  | case3 => rfl

/-- A backslash before a break takes one character of it along, which in CRLF is not all of it. -/
theorem stringLength_write {cs : List Char}
    (h : style.mark.length = 1 ∨ '\n' ∉ cs.take (stringLength cs)) :
    stringLength (style.write cs) = (style.write (cs.take (stringLength cs))).length := by
  induction cs using stringLength.induct with
  | case1 c rest ih =>
    rw [stringLength, show 2 + stringLength rest = 1 + (1 + stringLength rest) by omega] at h ⊢
    rw [length_write_take_cons style (by decide), write_cons style (by decide)]
    by_cases hc : c = '\n'
    · subst hc
      have hmark : style.mark.length = 1 := by
        refine h.resolve_right fun hnot => hnot ?_
        simp [take_one_add]
      obtain ⟨b, hb⟩ := List.length_eq_one_iff.1 hmark
      rw [write_lf, length_write_take_lf, hmark, hb, List.singleton_append, stringLength,
        ih (.inl hmark)]
      omega
    · rw [write_cons style hc, stringLength, length_write_take_cons style hc, ih]
      · omega
      · refine h.imp_right fun hnot hmem => hnot ?_
        rw [take_one_add, take_one_add]
        exact .tail _ (.tail _ hmem)
  | case2 rest =>
    rw [write_cons style (by decide)]
    rfl
  | case3 c rest hescape hquote hbreak =>
    by_cases hc : c = '\n'
    · subst hc
      exact write_lf_of_stop style stringLength_break rest
    · rw [write_cons style hc, stringLength_break c _ hbreak, stringLength_break c _ hbreak]
      rfl
  | case4 c rest hescape hquote hbreak ih =>
    have hc : c ≠ '\n' := by
      rintro rfl
      exact hbreak rfl
    rw [stringLength.eq_3 _ _ hescape hquote, if_neg hbreak] at h ⊢
    rw [write_cons style hc, stringLength.eq_3 _ _ _ hquote, if_neg hbreak,
      length_write_take_cons style hc, ih]
    · refine h.imp_right fun hnot hmem => hnot ?_
      rw [take_one_add]
      exact .tail _ hmem
    · intro d more hslash hwrite
      cases rest with
      | nil => cases hwrite
      | cons x rest => exact hescape x rest hslash rfl
  | case5 => rfl

theorem quoted_write {cs : List Char}
    (h : style.mark.length = 1 ∨ '\n' ∉ cs.take (quoted cs).length) :
    quoted (style.write cs) =
      ⟨(quoted cs).kind, (style.write (cs.take (quoted cs).length)).length⟩ := by
  cases cs with
  | nil => rfl
  | cons c rest =>
    by_cases hslash : c = '\\'
    · subst hslash
      rw [write_cons style (by decide)]
      cases rest with
      | nil => rfl
      | cons d rest =>
        have hclose : isBreak '\'' = false := rfl
        have hdelimited := delimitedLength_write style hclose rest
        rw [quoted] at h ⊢
        have hlength : 2 + delimitedLength '\'' rest = 1 + (1 + delimitedLength '\'' rest) := by
          omega
        simp only [hlength] at h ⊢
        rw [length_write_take_cons style (by decide)]
        by_cases hd : d = '\n'
        · subst hd
          have hmark : style.mark.length = 1 := by
            refine h.resolve_right fun hnot => hnot ?_
            simp [take_one_add]
          obtain ⟨b, hb⟩ := List.length_eq_one_iff.1 hmark
          rw [write_lf, length_write_take_lf, hmark, hb, List.singleton_append, quoted, hdelimited,
            ← Nat.add_assoc]
        · rw [write_cons style hd, quoted, length_write_take_cons style hd, hdelimited,
            ← Nat.add_assoc]
    · rw [Scanner.quoted_of_ne hslash] at h ⊢
      by_cases hc : c = '\n'
      · subst hc
        obtain ⟨b, bs, hmark, hb⟩ := style.exists_mark_eq_cons
        have hne : b ≠ '\\' := by
          rintro rfl
          cases hb
        rw [write_lf, hmark, List.cons_append, Scanner.quoted_of_ne hne, hb]
        rfl
      · rw [write_cons style hc, Scanner.quoted_of_ne hslash]
        simp only [head?_write_eq_some_iff style (d := '\'') rfl]
        split
        case isTrue hchar =>
          obtain ⟨rest, rfl⟩ : ∃ more, rest = '\'' :: more := by
            simp only [Bool.and_eq_true, decide_eq_true_eq] at hchar
            exact List.head?_eq_some_iff.1 hchar.2
          simp [write_cons style hc, write_cons style (show '\'' ≠ '\n' by decide)]
        case isFalse => rfl

theorem docMark_write (cs : List Char) :
    ((style.write cs)[0]? = some '*' ∧ (style.write cs)[1]? ≠ some '/') ↔
      (cs[0]? = some '*' ∧ cs[1]? ≠ some '/') := by
  simp only [← List.head?_eq_getElem?, head?_write_eq_some_iff style (d := '*') rfl]
  refine and_congr_right fun hstar => ?_
  obtain ⟨ds, rfl⟩ := List.head?_eq_some_iff.1 hstar
  rw [write_cons style (by decide), List.getElem?_cons_succ, List.getElem?_cons_succ,
    ← List.head?_eq_getElem?, ← List.head?_eq_getElem?, ne_eq,
    head?_write_eq_some_iff style (d := '/') rfl]

/-- Marks with no line break in them begin the same texts in every style. -/
theorem isPrefix_write_iff {u : List Char} (hu : ∀ d ∈ u, isBreak d = false) (cs : List Char) :
    u <+: style.write cs ↔ u <+: cs := by
  induction u generalizing cs with
  | nil => simp only [List.nil_prefix]
  | cons d u ih =>
    obtain ⟨hd, hu⟩ := List.forall_mem_cons.1 hu
    constructor
    · rintro ⟨rest, hrest⟩
      obtain ⟨ds, rfl, hds⟩ := style.exists_of_write_eq_cons hd hrest.symm
      exact List.cons_prefix_cons.2 ⟨rfl, (ih hu ds).1 ⟨rest, hds⟩⟩
    · rintro ⟨rest, rfl⟩
      have hne : d ≠ '\n' := by
        rintro rfl
        cases hd
      rw [List.cons_append, write_cons style hne]
      exact List.cons_prefix_cons.2 ⟨rfl, (ih hu _).2 (List.prefix_append u rest)⟩

end Readers

/-- Such a text is a literal that would end before a line break, but it holds one: a backslash has
taken the break along. -/
def escapesBreak (kind : Token.Kind) (text : List Char) : Bool :=
  (kind = .string || kind = .char) && text.take 3 ≠ ['"', '"', '"'] && text.contains '\n'

theorem not_mem_of_string {cs : List Char} (hquotes : ¬ ['"', '"'] <+: cs) {n : Nat}
    (h : escapesBreak .string ('"' :: cs.take n) = false) : '\n' ∉ cs.take n := by
  have hshort : (cs.take n).take 2 ≠ ['"', '"'] := by
    intro htake
    have hfront : ['"', '"'] <+: cs.take n := htake ▸ List.take_prefix 2 (cs.take n)
    exact hquotes (hfront.trans (List.take_prefix n cs))
  simpa [escapesBreak, hshort] using h

theorem not_mem_of_quoted {cs : List Char}
    (h : escapesBreak (quoted cs).kind ('\'' :: cs.take (quoted cs).length) = false) :
    '\n' ∉ cs.take (quoted cs).length := by
  rcases kind_quoted cs with hkind | hquoted
  · simpa [escapesBreak, hkind] using h
  · simp [hquoted]

theorem extent_write (style : BreakStyle) {c : Char} {rest : List Char}
    (h : style.mark.length = 1 ∨
      escapesBreak (extent c rest).kind (c :: rest.take (extent c rest).length) = false) :
    extent c (style.write rest) =
      ⟨(extent c rest).kind, (style.write (rest.take (extent c rest).length)).length⟩ := by
  induction c, rest using extent_cases with
  | lineComment more =>
    have hslash : '/' ≠ '\n' := by decide
    rw [write_cons style hslash, extent_lineComment, extent_lineComment,
      runLength_write style (fun b hb => by rw [hb]; rfl), length_write_take_cons style hslash]
  | blockComment more =>
    have hstar : '*' ≠ '\n' := by decide
    rw [write_cons style hstar, extent_blockComment, extent_blockComment, blockLength_write,
      length_write_take_cons style hstar]
    simp only [docMark_write]
  | slash rest hline hblock =>
    have hmark {d : Char} (hd : isBreak d = false) : [d] <+: style.write rest ↔ [d] <+: rest :=
      isPrefix_write_iff style (by simp [hd]) rest
    rw [extent_slash hline hblock,
      extent_slash (mt (hmark rfl).1 hline) (mt (hmark rfl).1 hblock), operatorLength_write]
  | rawString more =>
    have hquote : '"' ≠ '\n' := by decide
    rw [write_cons style hquote, write_cons style hquote, extent_rawString, extent_rawString,
      rawStringLength_write, length_write_take_pair style hquote hquote]
  | string rest hquotes =>
    have hmarks : ¬ ['"', '"'] <+: style.write rest :=
      mt (isPrefix_write_iff style (by simp [isBreak]) rest).1 hquotes
    rw [extent_string hquotes] at h ⊢
    rw [extent_string hmarks, stringLength_write style (h.imp_right (not_mem_of_string hquotes))]
  | apostrophe rest => exact quoted_write style (h.imp_right not_mem_of_quoted)
  | backquote rest => exact congrArg (Extent.mk .ident) (delimitedLength_write style rfl rest)
  | number c rest hextent => rw [hextent, hextent, numberLength_write]
  | word c rest hextent =>
    rw [hextent, hextent, runLength_write style isIdentPart_break, take_write,
      write_of_not_mem style (not_mem_take_runLength isIdentPart_break)]
  | operator c rest hextent => rw [hextent, hextent, operatorLength_write]
  | punct c rest hextent =>
    rw [hextent, hextent]
    rfl

theorem not_mem_take_operatorLength (cs : List Char) : '\n' ∉ cs.take (operatorLength cs) := by
  induction cs using operatorLength.induct with
  | case1 rest => exact List.not_mem_nil
  | case2 rest => exact List.not_mem_nil
  | case3 c rest hline hblock hop ih =>
    have hc : '\n' ≠ c := by
      rintro rfl
      simp [isOperatorChar] at hop
    rw [operatorLength.eq_3 _ _ hline hblock, if_pos hop, take_one_add]
    exact List.not_mem_cons_of_ne_of_not_mem hc ih
  | case4 c rest hline hblock hop =>
    rw [operatorLength.eq_3 _ _ hline hblock, if_neg hop]
    exact List.not_mem_nil
  | case5 => exact List.not_mem_nil

/-- No line break stands in a reserved word, an operator or punctuation. -/
theorem not_mem_take_extent {c : Char} {rest : List Char}
    (h : (extent c rest).kind = .keyword ∨ (extent c rest).kind = .operator ∨
      (extent c rest).kind = .punct) : '\n' ∉ rest.take (extent c rest).length := by
  induction c, rest using extent_cases with
  | lineComment more => simp [extent_lineComment] at h
  | blockComment more => simp [extent_blockComment] at h
  | slash rest hline hblock =>
    rw [extent_slash hline hblock]
    exact not_mem_take_operatorLength rest
  | rawString more => simp [extent_rawString] at h
  | string rest hquotes => simp [extent_string hquotes] at h
  | apostrophe rest =>
    have hextent : extent '\'' rest = quoted rest := rfl
    rcases kind_quoted rest with hkind | hquoted
    · simp [hextent, hkind] at h
    · simp [hextent, hquoted]
  | backquote rest =>
    have hextent : (extent '\x60' rest).kind = .ident := rfl
    simp [hextent] at h
  | number c rest hextent => simp [hextent] at h
  | word c rest hextent =>
    rw [hextent]
    exact not_mem_take_runLength isIdentPart_break
  | operator c rest hextent =>
    rw [hextent]
    exact not_mem_take_operatorLength rest
  | punct c rest hextent => simp [hextent]

end Lexeme

namespace Position

theorem advance_of_not_break {c : Char} (hc : isBreak c = false) (p : Position)
    (next other : Option Char) : p.advance c next = p.advance c other := by
  simp only [isBreak, Bool.or_eq_false_iff, decide_eq_false_iff_not] at hc
  simp [advance, hc]

/-- A place behind a text does not depend on the style of the breaks before it. -/
theorem advanceAll_write (style : BreakStyle) {cs : List Char} (h : '\r' ∉ cs) (rest : List Char)
    (p : Position) : p.advanceAll (style.write cs) (style.write rest) = p.advanceAll cs rest := by
  induction cs generalizing p with
  | nil => rfl
  | cons c cs ih =>
    rw [List.mem_cons, not_or] at h
    by_cases hc : c = '\n'
    · subst hc
      have hmark := style.breaks_mark (cs ++ rest)
      rw [write_append] at hmark
      rw [write_lf, advanceAll_append, advanceAll_mark hmark, ih h.2]
      rfl
    · have hbreak : isBreak c = false := by simp [isBreak, hc, Ne.symm h.1]
      rw [write_cons style hc, advanceAll, advanceAll, ih h.2, advance_of_not_break hbreak]

end Position

namespace Token

/-- The token with the line breaks in its text written in a style. -/
def write (style : BreakStyle) (t : Token) : Token :=
  { t with text := String.ofList (style.write t.text.toList) }

/-- A backslash has taken a line break along into a literal that a line break would end. -/
def escapesBreak (t : Token) : Bool := Lexeme.escapesBreak t.kind t.text.toList

end Token

theorem tokensFrom_append_gap {gap : List Char} (h : ∀ c ∈ gap, Lexeme.isGap c = true)
    (p : Position) (cs : List Char) :
    tokensFrom p (gap ++ cs) = tokensFrom (p.advanceAll gap cs) cs := by
  induction gap generalizing p with
  | nil => rfl
  | cons c gap ih =>
    obtain ⟨hc, hgap⟩ := List.forall_mem_cons.1 h
    rw [List.cons_append, tokensFrom, if_pos hc, ih hgap, advanceAll_cons]

theorem tokensFrom_token {c : Char} {rest : List Char} {e : Lexeme.Extent}
    (hgap : ¬ Lexeme.isGap c = true) (he : Lexeme.extent c rest = e) (p : Position) :
    tokensFrom p (c :: rest) =
      ⟨e.kind, String.ofList (c :: rest.take e.length), p,
        p.advanceAll (c :: rest.take e.length) (rest.drop e.length)⟩ ::
      tokensFrom (p.advanceAll (c :: rest.take e.length) (rest.drop e.length))
        (rest.drop e.length) := by
  subst he
  rw [tokensFrom, if_neg hgap]

/-- The tokens of a text in another style stand where they stood. -/
theorem tokensFrom_write (style : BreakStyle) {cs : List Char} (hcr : '\r' ∉ cs) (p : Position)
    (h : style.mark.length = 1 ∨ ∀ t ∈ tokensFrom p cs, t.escapesBreak = false) :
    tokensFrom p (style.write cs) = (tokensFrom p cs).map (Token.write style) := by
  induction p, cs using tokensFrom.induct with
  | case1 p => simp [tokensFrom]
  | case2 p c rest hgap ih =>
    rw [tokensFrom, if_pos hgap] at h
    rw [List.mem_cons, not_or] at hcr
    by_cases hc : c = '\n'
    · subst hc
      have hmark : ∀ b ∈ style.mark, Lexeme.isGap b = true :=
        fun b hb => isGap_of_isBreak (style.isBreak_of_mem_mark b hb)
      rw [write_lf, tokensFrom_append_gap hmark,
        Position.advanceAll_mark (style.breaks_mark rest), tokensFrom, if_pos hgap]
      exact ih hcr.2 h
    · have hbreak : isBreak c = false := by simp [isBreak, hc, Ne.symm hcr.1]
      rw [write_cons style hc, tokensFrom, if_pos hgap,
        Position.advance_of_not_break hbreak p _ rest.head?, tokensFrom, if_pos hgap]
      exact ih hcr.2 h
  | case3 p c rest hgap e text stop ih =>
    have hc : c ≠ '\n' := by
      rintro rfl
      exact hgap rfl
    have htokens : tokensFrom p (c :: rest) =
        ⟨e.kind, String.ofList text, p, stop⟩ :: tokensFrom stop (rest.drop e.length) :=
      tokensFrom_token hgap rfl p
    have hsplit : c :: rest = text ++ rest.drop e.length := by
      rw [List.cons_append, List.take_append_drop]
    -- What the lexeme takes grows with the breaks in it, and the rest begins at the same place.
    rw [htokens, List.forall_mem_cons] at h
    rw [hsplit, List.mem_append, not_or] at hcr
    have hextent : Lexeme.extent c (style.write rest) =
        ⟨e.kind, (style.write (rest.take e.length)).length⟩ := by
      refine Lexeme.extent_write style (h.imp_right fun hall => ?_)
      simpa [Token.escapesBreak] using hall.1
    have hstop : p.advanceAll (c :: style.write (rest.take e.length))
        (style.write (rest.drop e.length)) = stop := by
      rw [← write_cons style hc, Position.advanceAll_write style hcr.1]
    rw [write_cons style hc, tokensFrom_token hgap hextent]
    simp only [take_write, drop_write, hstop, ih hcr.2 (h.imp_right (·.2)), htokens, List.map_cons]
    simp [Token.write, text, write_cons style hc]

/-- What the code metrics see of the tokens is the same in every style. -/
theorem bare_write (style : BreakStyle) {p : Position} {cs : List Char} {t : Token}
    (ht : t ∈ tokensFrom p cs) : (t.write style).bare = t.bare := by
  induction p, cs using tokensFrom.induct with
  | case1 p => simp [tokensFrom] at ht
  | case2 p c rest hgap ih =>
    rw [tokensFrom, if_pos hgap] at ht
    exact ih ht
  | case3 p c rest hgap e text stop ih =>
    have htokens : tokensFrom p (c :: rest) =
        ⟨e.kind, String.ofList text, p, stop⟩ :: tokensFrom stop (rest.drop e.length) :=
      tokensFrom_token hgap rfl p
    rw [htokens, List.mem_cons] at ht
    rcases ht with rfl | ht
    · by_cases hkind : e.kind = .keyword ∨ e.kind = .operator ∨ e.kind = .punct
      · have hc : '\n' ≠ c := by
          rintro rfl
          exact hgap rfl
        have hnot : '\n' ∉ text :=
          List.not_mem_cons_of_ne_of_not_mem hc (Lexeme.not_mem_take_extent hkind)
        simp [Token.write, write_of_not_mem style hnot]
      · cases h : e.kind <;> simp_all [Token.bare, Token.write]
    · exact ih ht

end SourceGauge.Scala
