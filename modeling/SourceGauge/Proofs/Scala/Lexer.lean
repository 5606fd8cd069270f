import Mathlib
import SourceGauge.Proofs.Scala.Lexeme

/-! Reading bytes and reading characters give the same tokens. -/
namespace SourceGauge.Scala
open Lexeme

namespace Scanner

theorem blockComment_eq (rest : List Char) (k : Nat) (p : Position) :
    (Place.scanner ⟨'/' :: '*' :: rest, k, p⟩).blockComment =
      (Place.skip (1 + (1 + blockLength 0 rest)) ⟨'/' :: '*' :: rest, k, p⟩).scanner := by
  rw [blockComment, bump_bump (by decide) (by decide), ← Nat.add_assoc, Place.skip_add]
  exact closeComments_eq 0 rest _ _

/-- A comment is seen to be a doc comment by the two bytes after its opening mark. -/
theorem isDoc_eq (rest : List Char) (k : Nat) (p : Position) :
    (decide ((Place.scanner ⟨'/' :: '*' :: rest, k, p⟩).peek 2 = some '*') &&
      decide ((Place.scanner ⟨'/' :: '*' :: rest, k, p⟩).peek 3 ≠ some '/')) =
    (decide (rest[0]? = some '*') && decide (rest[1]? ≠ some '/')) := by
  have hshift (n : Nat) : (Place.scanner ⟨'/' :: '*' :: rest, k, p⟩).peek (n + 2) =
      (Place.skip 2 ⟨'/' :: '*' :: rest, k, p⟩).scanner.peek n := by
    rw [peek_succ (by decide)]
    exact peek_succ (by decide) n
  simp only [hshift 0, hshift 1, peek_eq_some_iff _ (show '*'.toNat < 0x80 by decide)]
  cases rest with
  | nil => rfl
  | cons c rest =>
    by_cases hc : c = '*'
    · subst hc
      have hnext : (Place.skip 2 ⟨'/' :: '*' :: '*' :: rest, k, p⟩).scanner.peek 1 = some '/' ↔
          rest.head? = some '/' := peek_one_eq_some_iff (c := '*') (by decide) (by decide)
      simp [hnext, Place.chars_skip, List.head?_eq_getElem?]
    · simp [Place.chars_skip, hc]

theorem lineComment_eq (cs : List Char) (k : Nat) (p : Position) :
    (Place.scanner ⟨'/' :: cs, k, p⟩).bumpWhile (!Text.isBreak ·) =
      (Place.skip (1 + runLength (!Text.isBreak ·) cs) ⟨'/' :: cs, k, p⟩).scanner := by
  have huniform : Uniform (!Text.isBreak ·) := ⟨true, fun d hd => by simp [isBreak_of_wide hd]⟩
  rw [bumpWhile_eq huniform, runLength_cons, if_pos (by decide)]

theorem not_isOperatorChar_of_mark {c : Char}
    (h : ['{', '}', '(', ')', '[', ']', ';', ',', '.', '@'].contains c = true) :
    ¬ isOperatorChar c = true := by
  have hmarks : ∀ d ∈ ['{', '}', '(', ')', '[', ']', ';', ',', '.', '@'],
      isOperatorChar d = false := by simp [isOperatorChar]
  simp [hmarks c (List.contains_iff_mem.1 h)]

theorem lexeme_ascii {c : Char} (hc : c.toNat < 0x80) (cs : List Char) (k : Nat) (p : Position) :
    (Place.scanner ⟨c :: cs, k, p⟩).lexeme c =
      .ok ((extent c cs).kind,
        (Place.skip (1 + (extent c cs).length) ⟨c :: cs, k, p⟩).scanner) := by
  have hone (d : Char) (hd : d.toNat < 0x80) :
      (Place.scanner ⟨c :: cs, k, p⟩).peek 1 = some d ↔ cs.head? = some d :=
    peek_one_eq_some_iff hc hd
  have hbump : (Place.scanner ⟨c :: cs, k, p⟩).bump =
      (Place.skip (1 + 0) ⟨c :: cs, k, p⟩).scanner := bump_ascii hc
  unfold lexeme extent
  simp only [hone '/' (by decide), hone '*' (by decide)]
  by_cases hline : (c = '/' && cs.head? = some '/') = true
  · obtain rfl : c = '/' := by simp_all
    rw [if_pos hline, if_pos hline, lineComment_eq]
  rw [if_neg hline, if_neg hline]
  by_cases hblock : (c = '/' && cs.head? = some '*') = true
  · obtain ⟨rest, rfl⟩ : ∃ rest, cs = '*' :: rest := by
      cases cs <;> simp_all
    obtain rfl : c = '/' := by simp_all
    rw [if_pos hblock, if_pos hblock, isDoc_eq, blockComment_eq]
    rfl
  rw [if_neg hblock, if_neg hblock]
  by_cases hstring : c = '"'
  · subst hstring
    rw [if_pos rfl, if_pos rfl, stringLiteral_eq]
    split <;> rfl
  rw [if_neg hstring, if_neg hstring]
  by_cases hquote : c = '\''
  · subst hquote
    rw [if_pos rfl, if_pos rfl, quote_eq]
  rw [if_neg hquote, if_neg hquote]
  by_cases hback : c = '\x60'
  · subst hback
    rw [if_pos rfl, if_pos rfl, bump_ascii (by decide), Place.skip_add]
    exact congrArg _ (congrArg _ (closeDelimited_eq (by decide) cs _ _))
  rw [if_neg hback, if_neg hback]
  by_cases hdigit : c.isDigit = true
  · rw [if_pos hdigit, if_pos hdigit, number_of_peek (peek_ascii hc),
      if_pos (by simp [Char.isAlphanum, hdigit]), bump_ascii hc, Place.skip_add]
    exact congrArg _ (congrArg _ (number_eq cs _ _))
  rw [if_neg hdigit, if_neg hdigit]
  by_cases hstart : isIdentStart c = true
  · rw [if_pos hstart, if_pos hstart, word_eq hstart]
  rw [if_neg hstart, if_neg hstart]
  by_cases hmark : ['{', '}', '(', ')', '[', ']', ';', ',', '.', '@'].contains c = true
  · rw [if_pos hmark, if_neg (not_isOperatorChar_of_mark hmark), hbump]
  rw [if_neg hmark]
  by_cases hop : isOperatorChar c = true
  · rw [if_pos hop, if_pos hop, bump_ascii hc, Place.skip_add]
    exact congrArg _ (congrArg _ (operator_eq cs _ _))
  · rw [if_neg hop, if_neg hop, hbump]

/-- Where a byte reader sees a token begin, it reads the same token as a character reader. -/
theorem lexeme_eq {d : Char} (c : Char) (cs : List Char) (k : Nat) (p : Position)
    (hd : (Place.scanner ⟨c :: cs, k, p⟩).peek 0 = some d) :
    (Place.scanner ⟨c :: cs, k, p⟩).lexeme d =
      .ok ((extent c cs).kind,
        (Place.skip (1 + (extent c cs).length) ⟨c :: cs, k, p⟩).scanner) := by
  by_cases hc : c.toNat < 0x80
  · obtain rfl : c = d := Option.some.inj ((peek_ascii hc).symm.trans hd)
    exact lexeme_ascii hc cs k p
  · have hwide := Nat.le_of_not_lt hc
    obtain ⟨e, he, hdwide⟩ := peek_wide cs k p hwide
    obtain rfl : d = e := Option.some.inj (hd.symm.trans he)
    have hstart (e : Char) (he : 0x80 ≤ e.toNat) : isIdentStart e = true := by
      simp [isIdentStart, he]
    simp [lexeme, extent, ne_of_wide hwide, ne_of_wide hdwide, isDigit_of_wide hwide,
      isDigit_of_wide hdwide, hstart d hdwide, hstart c hwide, word_eq (hstart c hwide)]

theorem readToken_eq {d : Char} (c : Char) (cs : List Char) (k : Nat) (p : Position)
    (hd : (Place.scanner ⟨c :: cs, k, p⟩).peek 0 = some d) :
    (Place.scanner ⟨c :: cs, k, p⟩).readToken d =
      .ok (⟨(extent c cs).kind, String.ofList (c :: cs.take (extent c cs).length), p,
          (Place.skip (1 + (extent c cs).length) ⟨c :: cs, k, p⟩).position⟩,
        (Place.skip (1 + (extent c cs).length) ⟨c :: cs, k, p⟩).scanner) := by
  simp only [readToken, lexeme_eq c cs k p hd, slice_eq, bind, Except.bind, pure, Except.pure]
  rw [Nat.add_comm, List.take_succ_cons]
  rfl

theorem tokensFrom_gap (cs : List Char) (k : Nat) (p : Position) :
    tokensFrom p cs =
      tokensFrom (Place.skip (runLength isGap cs) ⟨cs, k, p⟩).position
        (cs.drop (runLength isGap cs)) := by
  induction cs generalizing k p with
  | nil => rfl
  | cons c rest ih =>
    by_cases hc : isGap c
    · rw [tokensFrom, if_pos hc, runLength_cons, if_pos hc, Nat.add_comm, List.drop_succ_cons]
      exact ih _ _
    · rw [runLength_cons, if_neg hc]
      rfl

theorem tokens_of_end {s : Scanner} (h : s.nextToken = .ok none) : s.tokens = .ok [] := by
  rw [tokens]
  split <;> simp_all

theorem tokens_of_token {s t : Scanner} {token : Token} (h : s.nextToken = .ok (some (token, t))) :
    s.tokens = t.tokens.map (token :: ·) := by
  rw [tokens]
  split <;> simp_all

/-- The next token stands after the gap characters. -/
theorem nextToken_eq {a b : Place} (hb : b = a.skip (runLength isGap a.chars)) :
    a.scanner.nextToken =
      match b.chars with
      | [] => .ok none
      | c :: rest =>
        .ok (some (⟨(extent c rest).kind, String.ofList (c :: rest.take (extent c rest).length),
            b.position, (b.skip (1 + (extent c rest).length)).position⟩,
          (b.skip (1 + (extent c rest).length)).scanner)) := by
  have hgap : a.scanner.bumpWhile isGap = b.scanner :=
    hb ▸ bumpWhile_eq ⟨false, fun c hc => isGap_of_wide hc⟩ a
  obtain ⟨ds, k, p⟩ := b
  simp only [nextToken, hgap]
  cases ds with
  | nil => simp only [peek_nil]
  | cons c rest =>
    obtain ⟨d, hd⟩ : ∃ d, (Place.scanner ⟨c :: rest, k, p⟩).peek 0 = some d := by
      by_cases hc : c.toNat < 0x80
      · exact ⟨c, peek_ascii hc⟩
      · obtain ⟨d, hd, _⟩ := peek_wide rest k p (Nat.le_of_not_lt hc)
        exact ⟨d, hd⟩
    simp only [hd, readToken_eq c rest k p hd, Except.map]

theorem tokens_eq (a : Place) : a.scanner.tokens = .ok (tokensFrom a.position a.chars) := by
  -- by the characters ahead: the gap may be empty, but the token takes at least one of them
  induction hlength : a.chars.length using Nat.strong_induction_on generalizing a with
  | _ length ih =>
    obtain ⟨b, hb⟩ : ∃ b, b = a.skip (runLength isGap a.chars) := ⟨_, rfl⟩
    have hnext := nextToken_eq hb
    have hchars : b.chars = a.chars.dropWhile isGap := by
      rw [hb, Place.chars_skip, drop_runLength]
    have hstart : tokensFrom a.position a.chars = tokensFrom b.position b.chars := by
      rw [hb, Place.chars_skip, ← tokensFrom_gap]
    rw [hstart]
    cases hds : b.chars with
    | nil =>
      rw [hds] at hnext
      rw [tokens_of_end hnext, tokensFrom]
    | cons c rest =>
      rw [hds] at hnext
      have hc : isGap c = false := by
        have := List.head?_dropWhile_not isGap a.chars
        rw [← hchars, hds] at this
        simpa using this
      have htake (n : Nat) : (c :: rest).take (1 + n) = c :: rest.take n := by
        rw [Nat.add_comm, List.take_succ_cons]
      have hdrop (n : Nat) : (c :: rest).drop (1 + n) = rest.drop n := by
        rw [Nat.add_comm, List.drop_succ_cons]
      have hposition := Place.position_skip (1 + (extent c rest).length) b
      have hahead := Place.chars_skip (1 + (extent c rest).length) b
      rw [hds, htake, hdrop] at hposition
      rw [hds, hdrop] at hahead
      have hshorter : (b.skip (1 + (extent c rest).length)).chars.length < length := by
        have hle : (a.chars.dropWhile isGap).length ≤ a.chars.length :=
          (List.dropWhile_sublist isGap).length_le
        rw [← hchars, hds, List.length_cons] at hle
        rw [hahead, List.length_drop]
        omega
      rw [tokens_of_token hnext, ih _ hshorter _ rfl, hahead, hposition, tokensFrom,
        if_neg (by simp [hc])]
      rfl

end Scanner

/-- The bytes of a source text can be cut into tokens without cutting through a character, and the
tokens are those that its characters give. -/
theorem tokens_encode (source : List Char) :
    (Scanner.ofBytes (Text.Utf8.encode source)).tokens = .ok (tokensFrom .start source) :=
  Scanner.tokens_eq ⟨source, 0, .start⟩

theorem tokenize_eq (source : List Char) : tokenize source = tokensFrom .start source := by
  rw [tokenize, tokens_encode]
  rfl

end SourceGauge.Scala
