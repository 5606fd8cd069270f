import Mathlib
import SourceGauge.Proofs.Scala.SameBreaks
import SourceGauge.Proofs.Scala.TokenPlace

/-! Source texts with other spacing behind a line break. Up to a break that no token holds a text is
read in the same way, whatever stands behind the break, and from there on each token keeps its
distance in lines from the one before it. -/
namespace SourceGauge.Scala
open Text (isBreak)
open Text.BreakStyle (eq_lf_or_cr)
open Text.Utf8 (encode length_encode_cons length_encode_append exists_append_of_length_encode_le)

theorem Position.line_le_advanceAll (p : Position) (cs rest : List Char) :
    p.line ≤ (p.advanceAll cs rest).line := by
  have hnot := p.not_advanceAll_before_self cs rest
  rw [before_iff] at hnot
  omega

section Order
variable {p : Position} {cs : List Char} {t : Token}

theorem line_le_start (ht : t ∈ tokensFrom p cs) : p.line ≤ t.start.line := by
  obtain ⟨earlier, later, htokens⟩ := List.append_of_mem ht
  obtain ⟨before, text, after, -, hreads⟩ := exists_reads htokens
  rw [hreads.start_eq]
  exact p.line_le_advanceAll before _

theorem inOrder_tokensFrom (p : Position) (cs : List Char) : InOrder (tokensFrom p cs) := by
  induction p, cs using tokensFrom.induct with
  | case1 p =>
    rw [tokensFrom_nil]
    exact .nil
  | case2 p c rest hgap ih => rwa [tokensFrom, if_pos hgap]
  | case3 p c rest hgap e text stop ih =>
    rw [tokensFrom_token hgap rfl]
    exact .cons (fun t ht => line_le_start ht) ih

/-- Behind a line break a token stands on a later line. In CRLF the line ends with the LF. -/
theorem line_lt_start {b : Char} (hb : isBreak b = true) (ht : t ∈ tokensFrom p (b :: cs)) :
    p.line < t.start.line := by
  rcases eq_lf_or_cr hb with rfl | rfl
  · rw [tokensFrom_line] at ht
    exact line_le_start ht
  · rw [tokensFrom, if_pos (by decide)] at ht
    by_cases hnext : cs.head? = some '\n'
    · obtain ⟨cs, rfl⟩ := List.head?_eq_some_iff.1 hnext
      rw [tokensFrom_line] at ht
      exact line_le_start ht
    · have hline := line_le_start ht
      simp only [Position.advance, hnext, ne_eq, not_false_eq_true, decide_true, Bool.and_self,
        Bool.or_true, if_true] at hline
      exact hline

end Order

/-- The tokens are spelled alike, and stand as many lines behind the one place as behind the
other. -/
structure SameFrom (p q : Position) (t u : Token) : Prop where
  spelling : t.spelling = u.spelling
  start : t.start.line + q.line = u.start.line + p.line
  stop : t.stop.line + q.line = u.stop.line + p.line

theorem SameFrom.of_advanceAll {p q : Position} {t u : Token} {cs rest : List Char}
    (h : SameFrom (p.advanceAll cs rest) (q.advanceAll cs rest) t u) : SameFrom p q t u := by
  have hline := Position.line_advanceAll p q cs rest
  obtain ⟨hspelling, hstart, hstop⟩ := h
  exact ⟨hspelling, by omega, by omega⟩

/-- Where a text begins makes no difference to the lines between its tokens. -/
theorem forall₂_tokensFrom (p q : Position) (cs : List Char) :
    List.Forall₂ (SameFrom p q) (tokensFrom p cs) (tokensFrom q cs) := by
  induction p, cs using tokensFrom.induct generalizing q with
  | case1 p =>
    rw [tokensFrom_nil, tokensFrom_nil]
    exact .nil
  | case2 p c rest hgap ih =>
    rw [tokensFrom, if_pos hgap, tokensFrom, if_pos hgap]
    refine (ih _).imp fun t u h => ?_
    have hstep : SameFrom (p.advanceAll [c] rest) (q.advanceAll [c] rest) t u := h
    exact hstep.of_advanceAll
  | case3 p c rest hgap e text stop ih =>
    rw [tokensFrom_token hgap rfl, tokensFrom_token hgap rfl]
    refine .cons ⟨rfl, Nat.add_comm _ _, Position.line_advanceAll p q _ _⟩ ?_
    exact (ih _).imp fun t u h => h.of_advanceAll

theorem sameBreaks_append {p q : Position} {first ts us : List Token}
    (h : List.Forall₂ (SameFrom p q) ts us)
    (hts : ∀ t ∈ first, ∀ u ∈ ts, t.stop.line < u.start.line)
    (hus : ∀ t ∈ first, ∀ u ∈ us, t.stop.line < u.start.line) :
    SameBreaks (first ++ ts) (first ++ us) := by
  have hspelling : ts.map Token.spelling = us.map Token.spelling := by
    induction h with
    | nil => rfl
    | cons hx _ ih =>
      simp only [List.forall_mem_cons] at hts hus
      rw [List.map_cons, List.map_cons, hx.spelling,
        ih (fun t ht => (hts t ht).2) fun t ht => (hus t ht).2]
  have hsame {x : Token × Token} (hx : x ∈ ts.zip us) : SameFrom p q x.1 x.2 :=
    List.forall₂_zip h hx
  refine ⟨by rw [List.map_append, List.map_append, hspelling], ?_⟩
  rw [List.zip_append rfl, List.pairwise_append]
  refine ⟨(SameBreaks.refl first).breaks, List.pairwise_of_forall_mem_list fun x hx y hy => ?_,
    fun x hx y hy => ?_⟩
  · have hstop := (hsame hx).stop
    have hstart := (hsame hy).start
    omega
  · obtain ⟨hfirst, hsecond⟩ := List.of_mem_zip hx
    obtain ⟨hthis, hother⟩ := List.of_mem_zip hy
    exact iff_of_true (hts _ hfirst _ hthis) (hus _ hsecond _ hother)

/-- No token that is read from the text begins in `front` and goes on behind it. -/
def Uncut (p : Position) (front rest : List Char) : Prop :=
  ∀ earlier t later before text after, tokensFrom p (front ++ rest) = earlier ++ t :: later →
    front ++ rest = before ++ (text ++ after) → t.Reads p earlier before text after →
    (encode before).length ≤ (encode front).length →
    (encode (before ++ text)).length ≤ (encode front).length

namespace Uncut
variable {p : Position} {c : Char} {front rest : List Char}

theorem gap (h : Uncut p (c :: front) rest) (hc : Lexeme.isGap c = true) :
    Uncut (p.advance c (front ++ rest).head?) front rest := by
  intro earlier t later before text after htokens hsplit hreads hle
  rw [hsplit] at hreads
  have htokens' : tokensFrom p (c :: front ++ rest) = earlier ++ t :: later := by
    rw [List.cons_append, tokensFrom, if_pos hc, htokens]
  have hshort := h earlier t later (c :: before) text after htokens' (by simp [hsplit])
    (hreads.gap hc) (by simpa only [length_encode_cons, Nat.add_le_add_iff_left] using hle)
  simpa only [List.cons_append, length_encode_cons, Nat.add_le_add_iff_left] using hshort

/-- A token at the beginning ends in `front`, and no other token is cut behind it. -/
theorem token {e : Lexeme.Extent} (h : Uncut p (c :: front) rest) (hgap : ¬ Lexeme.isGap c = true)
    (he : Lexeme.extent c (front ++ rest) = e) :
    ∃ text more, front = text ++ more ∧ (front ++ rest).take e.length = text ∧
      (front ++ rest).drop e.length = more ++ rest ∧
      Uncut (p.advanceAll (c :: text) (more ++ rest)) more rest := by
  have hc : Lexeme.isGap c = false := by simpa using hgap
  have hread := tokensFrom_token hgap he p
  have hsplit : c :: (front ++ rest).take e.length ++ (front ++ rest).drop e.length =
      c :: front ++ rest := by
    rw [List.cons_append, List.take_append_drop, List.cons_append]
  have hshort : (encode (c :: (front ++ rest).take e.length)).length ≤
      (encode (c :: front)).length :=
    h [] _ _ [] _ _ hread hsplit.symm (.here hc _ _ _ _) (Nat.zero_le _)
  obtain ⟨more, hfront, hdrop⟩ := exists_append_of_length_encode_le hsplit hshort
  rw [hdrop] at hread
  generalize (front ++ rest).take e.length = text at hfront hread
  obtain rfl : front = text ++ more := (List.cons.inj hfront).2
  refine ⟨text, more, rfl, rfl, hdrop, fun earlier t later before part after htokens hpart hreads
    hle => ?_⟩
  rw [hpart] at hreads
  have hmore := h (_ :: earlier) t later (c :: text ++ before) part after
    (by rw [List.cons_append, hread, htokens, List.cons_append])
    (by rw [List.cons_append, List.append_assoc, hpart, List.cons_append, List.cons_append,
      List.append_assoc])
    (hreads.token hc)
    (by simpa only [← List.cons_append, length_encode_append, Nat.add_le_add_iff_left] using hle)
  simpa only [← List.cons_append, List.append_assoc, length_encode_append,
    Nat.add_le_add_iff_left] using hmore

end Uncut

/-- Up to a line break that no token holds, the text is read without what stands behind it. -/
theorem exists_tokensFrom_break {p : Position} {front x : List Char} {b : Char}
    (hb : isBreak b = true) (h : Uncut p front (b :: x)) :
    ∃ first, (∀ t ∈ first, t.stop.line ≤ (p.advanceAll front [b]).line) ∧
      ∀ y, tokensFrom p (front ++ b :: y) =
        first ++ tokensFrom (p.advanceAll front [b]) (b :: y) := by
  have hhead (front y : List Char) : (front ++ b :: y).head? = (front ++ [b]).head? := by
    cases front <;> rfl
  -- by the characters before the break: a gap takes one of them, and a token at least one
  induction hlength : front.length using Nat.strong_induction_on generalizing p front with
  | _ length ih =>
    cases front with
    | nil => exact ⟨[], List.forall_mem_nil _, fun y => rfl⟩
    | cons c front =>
      by_cases hgap : Lexeme.isGap c = true
      · obtain ⟨first, hstop, htokens⟩ := ih front.length (by simp [← hlength]) (h.gap hgap) rfl
        rw [hhead] at hstop htokens
        rw [advanceAll_cons]
        refine ⟨first, hstop, fun y => ?_⟩
        rw [List.cons_append, tokensFrom, if_pos hgap, hhead, htokens]
      · obtain ⟨text, more, rfl, htake, hdrop, hcut⟩ := h.token hgap rfl
        have hshort : more.length < length := by
          rw [← hlength, List.length_cons, List.length_append]
          omega
        obtain ⟨first, hstop, htokens⟩ := ih more.length hshort hcut rfl
        have hadvance (y : List Char) : p.advanceAll (c :: text) (more ++ b :: y) =
            p.advanceAll (c :: text) (more ++ [b]) :=
          Position.advanceAll_head p (c :: text) (hhead more y)
        rw [hadvance] at hstop htokens
        rw [← List.cons_append, Position.advanceAll_append]
        obtain ⟨t, ht⟩ : ∃ t : Token, t = ⟨(Lexeme.extent c (text ++ more ++ b :: x)).kind,
            String.ofList (c :: text), p, p.advanceAll (c :: text) (more ++ [b])⟩ := ⟨_, rfl⟩
        have hfirst : t.stop.line ≤
            ((p.advanceAll (c :: text) (more ++ [b])).advanceAll more [b]).line := by
          rw [ht]
          exact Position.line_le_advanceAll _ more [b]
        refine ⟨t :: first, List.forall_mem_cons.2 ⟨hfirst, hstop⟩, fun y => ?_⟩
        -- The token is read in the same way with other text behind the break.
        have hfollows := Lexeme.Follows.behind more hb x y
        rw [← hdrop] at hfollows
        have hread := tokensFrom_follows hgap rfl hfollows p
        rw [htake, hadvance, ← ht] at hread
        rw [List.append_assoc, hread, htokens, List.cons_append]

/-- No token holds the byte at the offset. -/
def OutsideTokens (source : List Char) (offset : Nat) : Prop :=
  ∀ (earlier : List Token) (t : Token), ¬ t.Holds source earlier offset 1

section Source
variable {front rest : List Char} {b : Char}

theorem OutsideTokens.uncut (h : OutsideTokens (front ++ b :: rest) (encode front).length) :
    Uncut .start front (b :: rest) := by
  intro earlier t later before text after htokens hsplit hreads hle
  rw [← tokenize_eq, hsplit] at htokens
  have hfree := h earlier t
  rw [hsplit, hreads.holds_iff htokens] at hfree
  omega

/-- A break is not part of a token if no token has a break in its text. -/
theorem outsideTokens_of_unbroken (hb : isBreak b = true)
    (h : ∀ t ∈ tokenize (front ++ b :: rest), t.text.toList.any isBreak = false) :
    OutsideTokens (front ++ b :: rest) (encode front).length := by
  intro earlier t hholds
  obtain ⟨offset, hstands, -⟩ := id hholds
  obtain ⟨later, htokens⟩ := hstands.tokens
  obtain ⟨before, text, after, hsplit, hreads⟩ := Token.exists_reads_of_tokenize htokens
  have htext := h t (by simp [htokens])
  rw [hsplit] at hholds htokens
  obtain ⟨hbegin, hend⟩ := (hreads.holds_iff htokens).1 hholds
  obtain ⟨part, rfl, hpart⟩ := exists_append_of_length_encode_le hsplit.symm hbegin
  rw [length_encode_append, length_encode_append] at hend
  obtain ⟨more, htext', hmore⟩ := exists_append_of_length_encode_le hpart.symm (by omega)
  cases more with
  | nil =>
    rw [htext', List.append_nil] at hend
    omega
  | cons c more =>
    obtain ⟨rfl, -⟩ := List.cons.inj hmore
    rw [hreads.text_eq, htext'] at htext
    simp [hb] at htext

end Source

/-- The second text is the first one with another indentation at the beginning or behind a line
break that no token holds. Line breaks in the indentation make blank lines. -/
inductive Reindents : List Char → List Char → Prop
  | beginning {indent other : List Char} (hindent : ∀ c ∈ indent, Lexeme.isGap c = true)
      (hother : ∀ c ∈ other, Lexeme.isGap c = true) (text : List Char) :
      Reindents (indent ++ text) (other ++ text)
  | behind {front indent other text : List Char} {b : Char} (hb : isBreak b = true)
      (hindent : ∀ c ∈ indent, Lexeme.isGap c = true) (hother : ∀ c ∈ other, Lexeme.isGap c = true)
      (houtside : OutsideTokens (front ++ b :: (indent ++ text)) (encode front).length) :
      Reindents (front ++ b :: (indent ++ text)) (front ++ b :: (other ++ text))

theorem Reindents.sameBreaks {source other : List Char} (h : Reindents source other) :
    SameBreaks (tokenize source) (tokenize other) := by
  rw [tokenize_eq, tokenize_eq]
  cases h with
  | beginning hindent hother text =>
    rw [tokensFrom_append_gap hindent, tokensFrom_append_gap hother]
    show SameBreaks ([] ++ _) ([] ++ _)
    exact sameBreaks_append (forall₂_tokensFrom _ _ text) (List.forall_mem_nil _)
      (List.forall_mem_nil _)
  | @behind front indent other text b hb hindent hother houtside =>
    obtain ⟨first, hstop, htokens⟩ := exists_tokensFrom_break hb houtside.uncut
    have hbehind {gap : List Char} (h : ∀ c ∈ gap, Lexeme.isGap c = true) (q : Position) :
        tokensFrom q (b :: (gap ++ text)) = tokensFrom (q.advanceAll (b :: gap) text) text :=
      tokensFrom_append_gap (List.forall_mem_cons.2 ⟨isGap_of_isBreak hb, h⟩) q text
    have hlater (gap : List Char) : ∀ t ∈ first,
        ∀ u ∈ tokensFrom (Position.start.advanceAll front [b]) (b :: (gap ++ text)),
          t.stop.line < u.start.line :=
      fun t ht u hu => Nat.lt_of_le_of_lt (hstop t ht) (line_lt_start hb hu)
    have hindented := hlater indent
    have hothers := hlater other
    rw [htokens, htokens]
    rw [hbehind hindent] at hindented ⊢
    rw [hbehind hother] at hothers ⊢
    exact sameBreaks_append (forall₂_tokensFrom _ _ text) hindented hothers

/-- The code metrics see layout only through line breaks. They are the same for tokens of the same
kinds and texts in an order in which lines end between the same of them. So no change of
indentation and no blank line beside a line break makes a difference. -/
theorem codeMetrics_of_sameBreaks :
    (∀ ts us, InOrder ts → InOrder us → SameBreaks ts us →
      CodeMetrics.ofTokens ts = CodeMetrics.ofTokens us) ∧
    ∀ source other, Relation.ReflTransGen Reindents source other →
      CodeMetrics.ofTokens (tokenize source) = CodeMetrics.ofTokens (tokenize other) := by
  refine ⟨fun ts us hts hus h => h.codeMetrics_eq hts hus, fun source other h => ?_⟩
  induction h with
  | refl => rfl
  | @tail middle other _ hstep ih =>
    have hinOrder (source : List Char) : InOrder (tokenize source) := by
      rw [tokenize_eq]
      exact inOrder_tokensFrom _ _
    rw [ih, hstep.sameBreaks.codeMetrics_eq (hinOrder middle) (hinOrder other)]

/-- The same tokens further apart, and a text whose second line is indented and followed by a blank
line. -/
theorem codeMetrics_of_sameBreaks_blank_line :
    let token (kind : Token.Kind) (text : String) (line first last : Nat) : Token :=
      ⟨kind, text, ⟨line, first⟩, ⟨line, last⟩⟩
    let near := [token .keyword "def" 1 0 3, token .ident "f" 1 4 5, token .operator "=" 1 6 7,
      token .number "1" 2 2 3]
    let far := [token .keyword "def" 4 8 11, token .ident "f" 4 12 13, token .operator "=" 4 14 15,
      token .number "1" 9 0 1]
    let source := "def f = \x7b\n  if (a) b\n\x7d".toList
    let spaced := "def f = \x7b\n    if (a) b\n\n\x7d".toList
    SameBreaks near far ∧ Relation.ReflTransGen Reindents source spaced ∧
      CodeMetrics.ofTokens near = CodeMetrics.ofTokens far ∧
      CodeMetrics.ofTokens (tokenize source) = CodeMetrics.ofTokens (tokenize spaced) := by
  intro token near far source spaced
  have hbreaks : SameBreaks near far := ⟨by decide, by decide⟩
  let header := "def f = \x7b".toList
  let body := "if (a) b".toList
  let indent := List.replicate 4 ' '
  let close := ['\x7d']
  have hgap : ∀ c ∈ indent, Lexeme.isGap c = true := by simp [indent, Lexeme.isGap]
  have hindent : Reindents (header ++ '\n' :: (indent.drop 2 ++ (body ++ '\n' :: close)))
      (header ++ '\n' :: (indent ++ (body ++ '\n' :: close))) :=
    .behind rfl (fun c hc => hgap c (List.mem_of_mem_drop hc)) hgap
      (outsideTokens_of_unbroken rfl (by decide +kernel))
  have hblank : Reindents (header ++ '\n' :: (indent ++ body) ++ '\n' :: ([] ++ close))
      (header ++ '\n' :: (indent ++ body) ++ '\n' :: (['\n'] ++ close)) :=
    .behind rfl (List.forall_mem_nil _) (by simp [Lexeme.isGap])
      (outsideTokens_of_unbroken rfl (by decide +kernel))
  have hchanges : Relation.ReflTransGen Reindents source spaced := .tail (.single hindent) hblank
  obtain ⟨hlists, htexts⟩ := codeMetrics_of_sameBreaks
  exact ⟨hbreaks, hchanges, hlists near far (by decide) (by decide) hbreaks,
    htexts source spaced hchanges⟩

end SourceGauge.Scala
