import Mathlib
import SourceGauge.Proofs.Scala.TokenPlace
import SourceGauge.Scala.Comment

/-! What comments cover. A line is made of comments only when comments hold every byte of it that
can be seen, and the comment lines of a file are those with a telling character inside a comment
that is no header. Both are counted from positions, and hold of the bytes of the source text. -/
namespace SourceGauge.Scala
open Text (splitLines lineStart)
open Text.Utf8 (encode length_encode_append length_encode_cons length_encode_concat
  exists_append_of_length_encode_le)

/-- A plain block comment that has no code before it. -/
def Token.IsHeader (t : Token) (earlier : List Token) : Prop :=
  t.kind = .comment .block ∧ ∀ u ∈ earlier, u.isComment = true

/-- A comment, headers apart, holds a character of the line that is neither decoration nor blank. -/
def CarriesCommentary (source : List Char) (k : Nat) : Prop :=
  ∃ (part : List Char) (c : Char) (tail : List Char) (earlier : List Token) (t : Token),
    (splitLines source)[k]? = some (part ++ c :: tail) ∧
    c ≠ '*' ∧ c ≠ '/' ∧ Text.isBlank c = false ∧
    t.Holds source earlier (lineStart source k + (encode part).length) c.utf8Size ∧
    t.isComment = true ∧ ¬ t.IsHeader earlier

/-- A member of a list is its head, or a member of its tail. -/
theorem exists_split_cons {α : Type} {P : List α → α → Prop} {x : α} {xs : List α} :
    (∃ earlier y later, x :: xs = earlier ++ y :: later ∧ P earlier y) ↔
      P [] x ∨ ∃ earlier y later, xs = earlier ++ y :: later ∧ P (x :: earlier) y := by
  constructor
  · rintro ⟨earlier, y, later, h, hy⟩
    cases earlier with
    | nil =>
      obtain ⟨rfl, -⟩ := List.cons.inj h
      exact .inl hy
    | cons z earlier =>
      obtain ⟨rfl, rfl⟩ := List.cons.inj h
      exact .inr ⟨earlier, y, later, rfl, hy⟩
  · rintro (hx | ⟨earlier, y, later, rfl, hy⟩)
    · exact ⟨[], x, xs, rfl, hx⟩
    · exact ⟨x :: earlier, y, later, rfl, hy⟩

namespace Comment

/-- The comment that a token is, if it is one, when code stands before it or not. -/
def OfToken (t : Token) (afterCode : Bool) (c : Comment) : Prop :=
  ∃ kind, t.kind = .comment kind ∧
    c = ⟨kind, t.text, t.start, t.stop, !afterCode && kind = .block⟩

theorem mem_ofTokensFrom {afterCode : Bool} {tokens : List Token} {c : Comment} :
    c ∈ ofTokensFrom afterCode tokens ↔
      ∃ earlier t later, tokens = earlier ++ t :: later ∧
        OfToken t (afterCode || earlier.any (!·.isComment)) c := by
  induction tokens generalizing afterCode with
  | nil => simp [ofTokensFrom]
  | cons t tokens ih =>
    rw [exists_split_cons (P := fun earlier t =>
      OfToken t (afterCode || earlier.any (!·.isComment)) c)]
    simp only [List.any_nil, Bool.or_false, List.any_cons, ← Bool.or_assoc, ← ih]
    rw [ofTokensFrom]
    split
    case h_1 kind hkind =>
      have hcomment : t.isComment = true := by simp [Token.isComment, hkind]
      simp [OfToken, hkind, hcomment]
    case h_2 hkind =>
      have hcode : t.isComment = false := by
        unfold Token.isComment
        split <;> simp_all
      have hnone : ¬ OfToken t afterCode c := by
        rintro ⟨kind, h, -⟩
        exact hkind kind h
      simp [hnone, hcode]

theorem mem_ofTokens {tokens : List Token} {c : Comment} :
    c ∈ ofTokens tokens ↔
      ∃ earlier t later, tokens = earlier ++ t :: later ∧
        OfToken t (earlier.any (!·.isComment)) c := by
  simp [ofTokens, mem_ofTokensFrom]

theorem exists_ofToken {t : Token} (h : t.isComment = true) (afterCode : Bool) :
    ∃ c, OfToken t afterCode c := by
  unfold Token.isComment at h
  split at h
  case h_1 kind hkind => exact ⟨_, kind, hkind, rfl⟩
  case h_2 => cases h

theorem OfToken.isComment {t : Token} {afterCode : Bool} {c : Comment} (h : OfToken t afterCode c) :
    t.isComment = true := by
  obtain ⟨kind, hkind, -⟩ := h
  simp [Token.isComment, hkind]

theorem OfToken.header_eq_false_iff {earlier : List Token} {t : Token} {c : Comment}
    (h : OfToken t (earlier.any (!·.isComment)) c) : c.header = false ↔ ¬ t.IsHeader earlier := by
  obtain ⟨kind, hkind, rfl⟩ := h
  rw [← Bool.not_eq_true]
  refine not_congr ?_
  simp [Token.IsHeader, hkind, and_comm]

/-- Line by line, the columns of a comment are the places from its start to its stop. -/
theorem exists_columnsOn?_iff {c : Comment} {number column : Nat} :
    (∃ r, c.columnsOn? number = some r ∧ r.holds column = true) ↔
      ¬ (⟨number, column⟩ : Position).before c.start = true ∧
        (⟨number, column⟩ : Position).before c.stop = true := by
  simp only [Position.before_iff, columnsOn?]
  by_cases hreach : c.start.line ≤ number ∧ number ≤ c.stop.line
  · rw [if_pos (by simpa using hreach)]
    simp only [Option.some.injEq, exists_eq_left', Columns.holds, Bool.and_eq_true,
      decide_eq_true_eq]
    -- the line is the first one of the comment or not, and the last one or not
    split <;> split <;>
      simp only [Option.all_some, Option.all_none, decide_eq_true_eq, and_true] <;> omega
  · rw [if_neg (by simpa using hreach)]
    simp only [reduceCtorEq, false_and, exists_false, false_iff]
    omega

end Comment

section Source
variable {source : List Char} {earlier later : List Token} {t : Token} {c : Comment}

/-- A comment covers the bytes of a line that its token holds. -/
theorem exists_columnsOn?_iff_holds (htokens : tokenize source = earlier ++ t :: later)
    {afterCode : Bool} (hc : Comment.OfToken t afterCode c) {k j : Nat} {line : List Char}
    (hline : (splitLines source)[k]? = some line) (hj : j < (encode line).length) :
    (∃ r, c.columnsOn? (k + 1) = some r ∧ r.holds j = true) ↔
      t.Holds source earlier (lineStart source k + j) 1 := by
  obtain ⟨kind, -, rfl⟩ := hc
  obtain ⟨before, text, after, rfl, hreads⟩ := Token.exists_reads_of_tokenize htokens
  have hsplit : before ++ text ++ after = before ++ (text ++ after) := List.append_assoc _ _ _
  rw [Comment.exists_columnsOn?_iff, hreads.holds_iff htokens, hreads.start_eq, hreads.stop_eq,
    Position.before_advanceAll_iff hline hj, Position.before_advanceAll_iff (hsplit ▸ hline) hj,
    hsplit, Nat.not_lt]
  rfl

/-- A comment token that holds some of a source text is a comment of it. -/
theorem Token.Holds.exists_comment {first count : Nat} (h : t.Holds source earlier first count)
    (hcomment : t.isComment = true) :
    ∃ later c, tokenize source = earlier ++ t :: later ∧
      c ∈ Comment.ofTokens (tokenize source) ∧
      Comment.OfToken t (earlier.any (!·.isComment)) c := by
  obtain ⟨offset, hstands, -⟩ := h
  obtain ⟨later, htokens⟩ := hstands.tokens
  obtain ⟨c, hc⟩ := Comment.exists_ofToken hcomment (earlier.any (!·.isComment))
  exact ⟨later, c, htokens, Comment.mem_ofTokens.2 ⟨earlier, t, later, htokens, hc⟩, hc⟩

/-- The comments of a source text cover the bytes of a line that lie inside comment tokens. -/
theorem exists_comment_iff_holds {k j : Nat} {line : List Char}
    (hline : (splitLines source)[k]? = some line) (hj : j < (encode line).length) :
    (∃ c ∈ Comment.ofTokens (tokenize source), ∃ r,
        c.columnsOn? (k + 1) = some r ∧ r.holds j = true) ↔
      ∃ earlier t, Token.Holds t source earlier (lineStart source k + j) 1 ∧
        t.isComment = true := by
  constructor
  · rintro ⟨c, hmem, hr⟩
    obtain ⟨earlier, t, later, htokens, hc⟩ := Comment.mem_ofTokens.1 hmem
    exact ⟨earlier, t, (exists_columnsOn?_iff_holds htokens hc hline hj).1 hr, hc.isComment⟩
  · rintro ⟨earlier, t, hholds, hcomment⟩
    obtain ⟨later, c, htokens, hmem, hc⟩ := hholds.exists_comment hcomment
    exact ⟨c, hmem, (exists_columnsOn?_iff_holds htokens hc hline hj).2 hholds⟩

/-- Every byte but the blanks must lie in the columns of some comment, and there must be one. -/
theorem isCommentOnly_eq_true_iff {comments : List Comment} {number : Nat} {line : List Char} :
    isCommentOnly comments number line = true ↔
      (∃ b ∈ encode line, isAsciiBlank b = false) ∧
        ∀ j b, (encode line)[j]? = some b → isAsciiBlank b = false →
          ∃ c ∈ comments, ∃ r, c.columnsOn? number = some r ∧ r.holds j = true := by
  have hvisible (b : UInt8) (j : Nat) :
      (b, j) ∈ (encode line).zipIdx.filter (fun b => !isAsciiBlank b.1) ↔
        (encode line)[j]? = some b ∧ isAsciiBlank b = false := by
    simp [List.mem_filter, List.mem_zipIdx_iff_getElem?]
  have hranges (j : Nat) : (comments.filterMap (·.columnsOn? number)).any (·.holds j) = true ↔
      ∃ c ∈ comments, ∃ r, c.columnsOn? number = some r ∧ r.holds j = true := by
    simp only [List.any_eq_true, List.mem_filterMap]
    grind
  have hany : (encode line).zipIdx.filter (fun b => !isAsciiBlank b.1) ≠ [] ↔
      ∃ b ∈ encode line, isAsciiBlank b = false := by
    constructor
    · intro hne
      obtain ⟨⟨b, j⟩, hmem⟩ := List.exists_mem_of_ne_nil _ hne
      obtain ⟨hb, hblank⟩ := (hvisible b j).1 hmem
      exact ⟨b, List.mem_of_getElem? hb, hblank⟩
    · rintro ⟨b, hb, hblank⟩
      obtain ⟨j, hj⟩ := List.getElem?_of_mem hb
      exact List.ne_nil_of_mem ((hvisible b j).2 ⟨hj, hblank⟩)
  simp only [isCommentOnly, Bool.and_eq_true, Bool.not_eq_true', List.isEmpty_eq_false_iff,
    List.all_eq_true, Prod.forall, hvisible, and_imp, hany, hranges]
  exact and_congr_right fun _ => forall_comm

/-- A line of a source text is made of comments only when there is something else than ASCII blanks
in it, and every byte of it that is no ASCII blank lies inside a comment token. -/
theorem isCommentOnly_iff {k : Nat} {line : List Char} (h : (splitLines source)[k]? = some line) :
    isCommentOnly (Comment.ofTokens (tokenize source)) (k + 1) line = true ↔
      (∃ b ∈ encode line, isAsciiBlank b = false) ∧
        ∀ j b, (encode line)[j]? = some b → isAsciiBlank b = false →
          ∃ earlier t, Token.Holds t source earlier (lineStart source k + j) 1 ∧
            t.isComment = true := by
  rw [isCommentOnly_eq_true_iff]
  refine and_congr_right fun _ => forall_congr' fun j => forall_congr' fun b =>
    forall_congr' fun hb => imp_congr_right fun _ => ?_
  exact exists_comment_iff_holds h (List.getElem?_eq_some_iff.1 hb).1

/-- A comment that began before the line and another one fill the line but for blanks. -/
theorem isCommentOnly_iff_two_comments :
    let source := "x /* a\r\n  é */ // b\n".toList
    let line := "  é */ // b".toList
    (splitLines source)[1]? = some line ∧
      isCommentOnly (Comment.ofTokens (tokenize source)) 2 line = true ∧
      ∀ j b, (encode line)[j]? = some b → isAsciiBlank b = false →
        ∃ earlier t, Token.Holds t source earlier (lineStart source 1 + j) 1 ∧
          t.isComment = true := by
  intro source line
  have hline : (splitLines source)[1]? = some line := by decide +kernel
  have honly : isCommentOnly (Comment.ofTokens (tokenize source)) 2 line = true := by
    decide +kernel
  exact ⟨hline, honly, ((isCommentOnly_iff hline).1 honly).2⟩

theorem stripEnds_eq_nil_iff {p : Char → Bool} {cs : List Char} :
    Text.stripEnds p cs = [] ↔ ∀ c ∈ cs, p c = true := by
  simp only [Text.stripEnds, List.reverse_eq_nil_iff, List.dropWhile_eq_nil_iff, List.mem_reverse]
  constructor
  · intro h c hc
    rw [← List.takeWhile_append_dropWhile (p := p) (l := cs)] at hc
    rcases List.mem_append.1 hc with hfront | hback
    · exact List.mem_takeWhile_imp hfront
    · exact h c hback
  · intro h c hc
    exact h c ((List.dropWhile_sublist p).subset hc)

theorem carriesText_iff {line : List Char} :
    Comment.carriesText line = true ↔
      ∃ part d tail, line = part ++ d :: tail ∧ Comment.isDecoration d = false := by
  rw [Comment.carriesText, Bool.not_eq_true', List.isEmpty_eq_false_iff, ne_eq,
    stripEnds_eq_nil_iff]
  constructor
  · intro h
    obtain ⟨d, hmem, hd⟩ : ∃ d ∈ line, Comment.isDecoration d = false := by simpa using h
    obtain ⟨part, tail, rfl⟩ := List.append_of_mem hmem
    exact ⟨part, d, tail, rfl, hd⟩
  · rintro ⟨part, d, tail, rfl, hd⟩ hall
    rw [hall d List.mem_append_cons_self] at hd
    cases hd

theorem Comment.mem_textLines_iff {n : Nat} :
    n ∈ c.textLines ↔
      ∃ i part d tail, (splitLines c.text.toList)[i]? = some (part ++ d :: tail) ∧
        isDecoration d = false ∧ n = c.start.line + i := by
  have hmem : n ∈ c.textLines ↔ ∃ i piece, (splitLines c.text.toList)[i]? = some piece ∧
      carriesText piece = true ∧ n = c.start.line + i := by
    simp only [textLines, List.mem_filterMap, Prod.exists, List.mem_zipIdx_iff_getElem?,
      Option.ite_none_right_eq_some, Option.some.injEq]
    grind
  rw [hmem]
  constructor
  · rintro ⟨i, piece, hpiece, htext, hn⟩
    obtain ⟨part, d, tail, rfl, hd⟩ := carriesText_iff.1 htext
    exact ⟨i, part, d, tail, hpiece, hd, hn⟩
  · rintro ⟨i, part, d, tail, hpiece, hd, hn⟩
    exact ⟨i, _, hpiece, carriesText_iff.2 ⟨part, d, tail, rfl, hd⟩, hn⟩

theorem isDecoration_eq_false_iff {d : Char} :
    Comment.isDecoration d = false ↔ d ≠ '*' ∧ d ≠ '/' ∧ Text.isBlank d = false := by
  simp [Comment.isDecoration, and_assoc]

theorem isBreak_of_not_isDecoration {d : Char} (h : Comment.isDecoration d = false) :
    Text.isBreak d = false := by
  obtain ⟨-, -, hblank⟩ := isDecoration_eq_false_iff.1 h
  rw [Text.isBreak, Bool.or_eq_false_iff, decide_eq_false_iff_not, decide_eq_false_iff_not]
  constructor <;> rintro rfl <;> cases hblank

/-- A character of a token stands as many lines below the token's start in the source text as it
does below the first line in the text of the token. -/
theorem Token.Reads.line_eq {before front rest after : List Char} {d : Char} {i k m n : Nat}
    (h : t.Reads .start earlier before (front ++ d :: rest) after)
    (hinner : Position.start.advanceAll front (d :: rest) = ⟨i + 1, m⟩)
    (houter : Position.start.advanceAll (before ++ front) (d :: (rest ++ after)) = ⟨k + 1, n⟩) :
    k + 1 = t.start.line + i := by
  have hshift := Position.line_advanceAll_append before front rest after d
  rw [hinner, houter, ← h.start_eq] at hshift
  exact Nat.succ.inj hshift

/-- The lines of its text on which a comment carries text are the lines of the source text that have
such a character in it. -/
theorem mem_textLines_iff_holds (htokens : tokenize source = earlier ++ t :: later)
    {afterCode : Bool} (hc : Comment.OfToken t afterCode c) {n : Nat} :
    n ∈ c.textLines ↔
      ∃ k part d tail, n = k + 1 ∧ (splitLines source)[k]? = some (part ++ d :: tail) ∧
        Comment.isDecoration d = false ∧
        t.Holds source earlier (lineStart source k + (encode part).length) d.utf8Size := by
  obtain ⟨kind, -, rfl⟩ := hc
  obtain ⟨before, text, after, rfl, hreads⟩ := Token.exists_reads_of_tokenize htokens
  rw [Comment.mem_textLines_iff]
  simp only [hreads.text_eq, hreads.holds_iff htokens]
  constructor
  · rintro ⟨i, part, d, tail, hpiece, hd, rfl⟩
    obtain ⟨front, rest, rfl, -, hinner, -⟩ := Position.exists_front_of_line hpiece
    have hsplit : before ++ (front ++ d :: rest ++ after) =
        (before ++ front) ++ d :: (rest ++ after) := by simp
    obtain ⟨k, part, tail, hline, hlength, houter⟩ := Position.exists_line_of_front
      (before ++ front) (rest ++ after) (isBreak_of_not_isDecoration hd)
    rw [hsplit]
    refine ⟨k, part, d, tail, (hreads.line_eq hinner houter).symm, hline, hd, ?_⟩
    simp only [← hlength, length_encode_append, length_encode_cons]
    omega
  · rintro ⟨k, part, d, tail, rfl, hline, hd, hfirst, hlast⟩
    obtain ⟨front, rest, hsplit, hlength, houter, -⟩ := Position.exists_front_of_line hline
    rw [← hlength] at hfirst hlast
    -- what stands before the character is what stands before the token and a part of the token
    obtain ⟨front, rfl, htext⟩ := exists_append_of_length_encode_le hsplit hfirst
    have hsplit' : (front ++ [d]) ++ rest = text ++ after := by simp [htext]
    have hshort : (encode (front ++ [d])).length ≤ (encode text).length := by
      rw [length_encode_append, length_encode_append] at hlast
      rw [length_encode_concat]
      omega
    obtain ⟨more, rfl, rfl⟩ := exists_append_of_length_encode_le hsplit' hshort
    rw [List.append_assoc, List.singleton_append] at hreads ⊢
    obtain ⟨i, part, tail, hpiece, -, hinner⟩ :=
      Position.exists_line_of_front front more (isBreak_of_not_isDecoration hd)
    exact ⟨i, part, d, tail, hpiece, hd, hreads.line_eq hinner houter⟩

theorem mem_flatMap_textLines_iff {n : Nat} :
    n ∈ ((Comment.ofTokens (tokenize source)).filter (!·.header)).flatMap Comment.textLines ↔
      ∃ k, n = k + 1 ∧ CarriesCommentary source k := by
  simp only [List.mem_flatMap, List.mem_filter]
  constructor
  · rintro ⟨c, ⟨hmem, hheader⟩, hn⟩
    obtain ⟨earlier, t, later, htokens, hc⟩ := Comment.mem_ofTokens.1 hmem
    obtain ⟨k, part, d, tail, rfl, hline, hd, hholds⟩ := (mem_textLines_iff_holds htokens hc).1 hn
    obtain ⟨hstar, hslash, hblank⟩ := isDecoration_eq_false_iff.1 hd
    exact ⟨k, rfl, part, d, tail, earlier, t, hline, hstar, hslash, hblank, hholds, hc.isComment,
      hc.header_eq_false_iff.1 (by simpa using hheader)⟩
  · rintro ⟨k, rfl, part, d, tail, earlier, t, hline, hstar, hslash, hblank, hholds, hcomment,
      hheader⟩
    obtain ⟨later, c, htokens, hmem, hc⟩ := hholds.exists_comment hcomment
    refine ⟨c, ⟨hmem, ?_⟩, ?_⟩
    · simpa using hc.header_eq_false_iff.2 hheader
    · exact (mem_textLines_iff_holds htokens hc).2 ⟨k, part, d, tail, rfl, hline,
        isDecoration_eq_false_iff.2 ⟨hstar, hslash, hblank⟩, hholds⟩

theorem nodup_eraseDups (xs : List Nat) : xs.eraseDups.Nodup := by
  induction h : xs.length using Nat.strong_induction_on generalizing xs with
  | _ n ih =>
    cases xs with
    | nil => simp
    | cons x xs =>
      rw [List.eraseDups_cons, List.nodup_cons]
      refine ⟨by simp, ih _ ?_ _ rfl⟩
      rw [← h, List.length_cons]
      exact Nat.lt_succ_of_le (List.length_filter_le _ _)

theorem lt_length_of_carriesCommentary {k : Nat} (h : CarriesCommentary source k) :
    k < (splitLines source).length := by
  obtain ⟨part, d, tail, earlier, t, hline, -⟩ := h
  exact (List.getElem?_eq_some_iff.1 hline).1

open Classical in
/-- The comment lines of a source text are its lines on which a comment, headers apart, holds
a character that is neither decoration nor blank. Each of them counts once. -/
theorem countCommentLines_eq (source : List Char) :
    countCommentLines (Comment.ofTokens (tokenize source)) =
        ((Finset.range (splitLines source).length).filter (CarriesCommentary source)).card ∧
      countCommentLines (Comment.ofTokens (tokenize source)) ≤ (splitLines source).length := by
  have hlines : (((Comment.ofTokens (tokenize source)).filter (!·.header)).flatMap
        Comment.textLines).eraseDups.toFinset =
      ((Finset.range (splitLines source).length).filter (CarriesCommentary source)).image
        (· + 1) := by
    ext n
    simp only [List.mem_toFinset, List.mem_eraseDups, mem_flatMap_textLines_iff, Finset.mem_image,
      Finset.mem_filter, Finset.mem_range]
    constructor
    · rintro ⟨k, rfl, hk⟩
      exact ⟨k, ⟨lt_length_of_carriesCommentary hk, hk⟩, rfl⟩
    · rintro ⟨k, ⟨-, hk⟩, rfl⟩
      exact ⟨k, rfl, hk⟩
  have hcount : countCommentLines (Comment.ofTokens (tokenize source)) =
      ((Finset.range (splitLines source).length).filter (CarriesCommentary source)).card := by
    rw [countCommentLines, ← List.toFinset_card_of_nodup (nodup_eraseDups _), hlines,
      Finset.card_image_of_injective _ (Nat.succ_injective)]
  refine ⟨hcount, ?_⟩
  rw [hcount]
  exact (Finset.card_filter_le _ _).trans (Finset.card_range _).le

end Source

end SourceGauge.Scala
