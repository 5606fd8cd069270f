import Mathlib
import SourceGauge.Proofs.Scala.Scanner
import SourceGauge.Scala.Lexer

/-! How far the byte loops of the lexer reach. Each passes just the characters that the length of
the lexeme counts. -/
namespace SourceGauge.Scala
open Lexeme

section Wide
variable {c : Char}

theorem isAlphanum_of_wide (h : 0x80 ≤ c.toNat) : c.isAlphanum = false := by
  change 0x80 ≤ c.val.toNat at h
  simp [Char.isAlphanum, Char.isAlpha, Char.isUpper, Char.isLower, Char.isDigit,
    UInt32.le_iff_toNat_le, -Char.toNat_val]
  omega

theorem isDigit_of_wide (h : 0x80 ≤ c.toNat) : c.isDigit = false := by
  have := isAlphanum_of_wide h
  simp only [Char.isAlphanum, Bool.or_eq_false_iff] at this
  exact this.2

theorem isBreak_of_wide (h : 0x80 ≤ c.toNat) : Text.isBreak c = false := by
  simp [Text.isBreak, ne_of_wide h (d := '\n') (by decide), ne_of_wide h (d := '\r') (by decide)]

theorem isGap_of_wide (h : 0x80 ≤ c.toNat) : isGap c = false := by
  have hne (d : Char) (hd : d.toNat < 0x80) : c ≠ d := ne_of_wide h hd
  simp [isGap, hne]

theorem isOperatorChar_of_wide (h : 0x80 ≤ c.toNat) : isOperatorChar c = false := by
  have hne (d : Char) (hd : d.toNat < 0x80) : c ≠ d := ne_of_wide h hd
  simp [isOperatorChar, hne]

end Wide

namespace Scanner

section Steps
variable {c d : Char} {cs : List Char} {k : Nat} {p : Position}

theorem peek_one_eq_some_iff (hc : c.toNat < 0x80) (hd : d.toNat < 0x80) :
    (Place.scanner ⟨c :: cs, k, p⟩).peek 1 = some d ↔ cs.head? = some d := by
  rw [peek_succ hc]
  exact peek_eq_some_iff _ hd

theorem peek_one_two_iff {e : Char} (hc : c.toNat < 0x80) (hd : d.toNat < 0x80)
    (he : e.toNat < 0x80) :
    (Place.scanner ⟨c :: cs, k, p⟩).peek 1 = some d ∧
      (Place.scanner ⟨c :: cs, k, p⟩).peek 2 = some e ↔ cs.take 2 = [d, e] := by
  rw [peek_one_eq_some_iff hc hd, peek_succ hc]
  cases cs with
  | nil => simp
  | cons x xs =>
    simp only [List.head?_cons, Option.some.injEq, List.take_succ_cons, List.cons.injEq]
    refine and_congr_right fun hx => ?_
    subst hx
    refine (peek_one_eq_some_iff hd he).trans ?_
    cases xs <;> simp

theorem bump_of_head? {a : Place} (ha : a.chars.head? = some c) (hc : c.toNat < 0x80) :
    a.scanner.bump = a.next.scanner := by
  obtain ⟨cs, k, p⟩ := a
  cases cs with
  | nil => simp at ha
  | cons d cs =>
    obtain rfl : d = c := by simpa using ha
    exact bump_ascii hc

theorem bump_bump (hc : c.toNat < 0x80) (hd : d.toNat < 0x80) :
    (Place.scanner ⟨c :: d :: cs, k, p⟩).bump.bump =
      (Place.skip 2 ⟨c :: d :: cs, k, p⟩).scanner := by
  rw [bump_ascii hc]
  exact bump_ascii hd

end Steps

theorem closeComments_of_peek {s : Scanner} {c : Char} (h : s.peek 0 = some c) (depth : Nat) :
    closeComments depth s =
      if c = '/' && s.peek 1 = some '*' then closeComments (depth + 1) s.bump.bump
      else if c = '*' && s.peek 1 = some '/' then
        if depth = 1 then s.bump.bump else closeComments (depth - 1) s.bump.bump
      else closeComments depth s.bump := by
  rw [closeComments]
  exact match_peek h _ _

theorem closeComments_eq (outer : Nat) (cs : List Char) (k : Nat) (p : Position) :
    closeComments (outer + 1) (Place.scanner ⟨cs, k, p⟩) =
      (Place.skip (blockLength outer cs) ⟨cs, k, p⟩).scanner := by
  induction outer, cs using blockLength.induct generalizing k p with
  | case1 outer rest ih =>
    rw [closeComments_of_peek (peek_ascii (by decide)), bump_bump (by decide) (by decide),
      if_pos (by simp [peek_one_eq_some_iff]), blockLength, Place.skip_add]
    exact ih _ _
  | case2 rest =>
    rw [closeComments_of_peek (peek_ascii (by decide)), bump_bump (by decide) (by decide),
      if_neg (by simp), if_pos (by simp [peek_one_eq_some_iff]), blockLength]
    rfl
  | case3 rest outer ih =>
    rw [closeComments_of_peek (peek_ascii (by decide)), bump_bump (by decide) (by decide),
      if_neg (by simp), if_pos (by simp [peek_one_eq_some_iff]), if_neg (by omega), blockLength,
      Place.skip_add]
    exact ih _ _
  | case4 outer c rest hopen hclose ih =>
    -- no mark begins here: the loop passes one byte, or all bytes of a wide character in turn
    rw [blockLength.eq_4 _ _ _ hopen hclose, Place.skip_add]
    refine Eq.trans ?_ (ih _ _)
    by_cases hc : c.toNat < 0x80
    · have hone (d : Char) (hd : d.toNat < 0x80) :
          (Place.scanner ⟨c :: rest, k, p⟩).peek 1 = some d ↔ rest.head? = some d :=
        peek_one_eq_some_iff hc hd
      rw [closeComments_of_peek (peek_ascii hc), if_neg, if_neg, bump_ascii hc]
      · rfl
      · cases rest <;> simp_all
      · cases rest <;> simp_all
    · have hwide := Nat.le_of_not_lt hc
      refine eq_of_wide (fun s d hd hdwide => ?_) hwide
      rw [closeComments_of_peek hd, if_neg, if_neg]
      · simp [ne_of_wide hdwide]
      · simp [ne_of_wide hdwide]
  | case5 outer =>
    rw [closeComments]
    rfl

theorem closeRawString_of_peek {s : Scanner} {c : Char} (h : s.peek 0 = some c) :
    s.closeRawString =
      if c = '"' && s.peek 1 = some '"' && s.peek 2 = some '"' then s.bumpWhile (· = '"')
      else s.bump.closeRawString := by
  rw [closeRawString]
  exact match_peek h _ _

theorem closeRawString_eq (cs : List Char) (k : Nat) (p : Position) :
    (Place.scanner ⟨cs, k, p⟩).closeRawString =
      (Place.skip (rawStringLength cs) ⟨cs, k, p⟩).scanner := by
  induction cs using rawStringLength.induct generalizing k p with
  | case1 rest =>
    have hquotes : runLength (· = '"') ('"' :: '"' :: '"' :: rest) =
        3 + runLength (· = '"') rest := by
      simp only [runLength_cons, decide_true, if_true]
      omega
    have hahead : (Place.scanner ⟨'"' :: '"' :: '"' :: rest, k, p⟩).peek 1 = some '"' ∧
        (Place.scanner ⟨'"' :: '"' :: '"' :: rest, k, p⟩).peek 2 = some '"' :=
      (peek_one_two_iff (by decide) (by decide) (by decide)).2 rfl
    rw [closeRawString_of_peek (peek_ascii (by decide)), if_pos (by simp [hahead]),
      bumpWhile_eq ⟨false, fun c hc => by simp [ne_of_wide hc]⟩, hquotes, rawStringLength]
  | case2 c rest hquotes ih =>
    rw [rawStringLength.eq_2 _ _ hquotes, Place.skip_add]
    refine Eq.trans ?_ (ih _ _)
    by_cases hc : c.toNat < 0x80
    · rw [closeRawString_of_peek (peek_ascii hc), if_neg, bump_ascii hc]
      · rfl
      · intro hall
        simp only [Bool.and_eq_true, decide_eq_true_eq, and_assoc] at hall
        obtain ⟨hquote, hahead⟩ := hall
        rw [peek_one_two_iff hc (by decide) (by decide)] at hahead
        exact hquotes (rest.drop 2) hquote (by rw [← List.take_append_drop 2 rest, hahead]; rfl)
    · refine eq_of_wide (fun s d hd hdwide => ?_) (Nat.le_of_not_lt hc)
      rw [closeRawString_of_peek hd, if_neg (by simp [ne_of_wide hdwide])]
  | case3 =>
    rw [closeRawString]
    rfl

theorem closeString_of_peek {s : Scanner} {c : Char} (h : s.peek 0 = some c) :
    s.closeString =
      if c = '\\' then s.bump.bump.closeString
      else if c = '"' then s.bump
      else if Text.isBreak c then s
      else s.bump.closeString := by
  rw [closeString]
  exact match_peek h _ _

theorem closeString_of_wide (s : Scanner) (d : Char) (h : s.peek 0 = some d) (hd : 0x80 ≤ d.toNat) :
    s.closeString = s.bump.closeString := by
  rw [closeString_of_peek h, if_neg (ne_of_wide hd (by decide)), if_neg (ne_of_wide hd (by decide)),
    if_neg (by simp [isBreak_of_wide hd])]

theorem closeString_nil (k : Nat) (p : Position) :
    (Place.scanner ⟨[], k, p⟩).closeString = Place.scanner ⟨[], k, p⟩ := by
  rw [closeString]
  rfl

theorem closeString_eq (cs : List Char) (k : Nat) (p : Position) :
    (Place.scanner ⟨cs, k, p⟩).closeString = (Place.skip (stringLength cs) ⟨cs, k, p⟩).scanner := by
  induction cs using stringLength.induct generalizing k p with
  | case1 c rest ih =>
    rw [closeString_of_peek (peek_ascii (by decide)), if_pos rfl, bump_ascii (by decide),
      stringLength, Place.skip_add]
    exact (eq_of_bump closeString_of_wide).trans (ih _ _)
  | case2 rest =>
    rw [closeString_of_peek (peek_ascii (by decide)), if_neg (by decide), if_pos rfl,
      bump_ascii (by decide), stringLength]
    rfl
  | case3 c rest hescape hquote hbreak =>
    have hc : c = '\n' ∨ c = '\r' := by simpa [Text.isBreak] using hbreak
    rw [stringLength.eq_3 _ _ hescape hquote, if_pos hbreak]
    rcases hc with rfl | rfl
    · rw [closeString_of_peek (peek_ascii (by decide))]
      rfl
    · rw [closeString_of_peek (peek_ascii (by decide))]
      rfl
  | case4 c rest hescape hquote hbreak ih =>
    rw [stringLength.eq_3 _ _ hescape hquote, if_neg hbreak, Place.skip_add]
    refine Eq.trans ?_ (ih _ _)
    by_cases hc : c.toNat < 0x80
    · rw [closeString_of_peek (peek_ascii hc), bump_ascii hc]
      by_cases hslash : c = '\\'
      · -- only a backslash at the very end is left, where the second step finds no byte
        cases rest with
        | nil =>
          rw [if_pos hslash]
          rfl
        | cons d rest => exact (hescape d rest hslash rfl).elim
      · rw [if_neg hslash, if_neg hquote, if_neg hbreak]
        rfl
    · exact eq_of_wide closeString_of_wide (Nat.le_of_not_lt hc)
  | case5 => exact closeString_nil k p

theorem stringLiteral_eq (cs : List Char) (k : Nat) (p : Position) :
    (Place.scanner ⟨'"' :: cs, k, p⟩).stringLiteral =
      (Place.skip (1 + if cs.take 2 = ['"', '"'] then 2 + rawStringLength (cs.drop 2)
        else stringLength cs) ⟨'"' :: cs, k, p⟩).scanner := by
  have hahead : (Place.scanner ⟨'"' :: cs, k, p⟩).peek 1 = some '"' ∧
      (Place.scanner ⟨'"' :: cs, k, p⟩).peek 2 = some '"' ↔ cs.take 2 = ['"', '"'] :=
    peek_one_two_iff (by decide) (by decide) (by decide)
  unfold stringLiteral
  by_cases h : cs.take 2 = ['"', '"']
  · obtain ⟨rest, rfl⟩ : ∃ rest, cs = '"' :: '"' :: rest :=
      ⟨cs.drop 2, by rw [← List.take_append_drop 2 cs, h]; rfl⟩
    have hthree : bumps 3 (Place.scanner ⟨'"' :: '"' :: '"' :: rest, k, p⟩) =
        (Place.skip 3 ⟨'"' :: '"' :: '"' :: rest, k, p⟩).scanner := by
      rw [bumps, bump_ascii (by decide)]
      exact bump_bump (c := '"') (d := '"') (by decide) (by decide)
    rw [if_pos (by simp [hahead]), if_pos h, hthree, ← Nat.add_assoc, Place.skip_add]
    exact closeRawString_eq rest _ _
  · rw [if_neg (by simpa [hahead] using h), if_neg h, bump_ascii (by decide), Place.skip_add]
    exact closeString_eq cs _ _

theorem closeDelimited_eq {close : Char} (hclose : close.toNat < 0x80) (cs : List Char) (k : Nat)
    (p : Position) :
    closeDelimited close (Place.scanner ⟨cs, k, p⟩) =
      (Place.skip (delimitedLength close cs) ⟨cs, k, p⟩).scanner := by
  have huniform : Uniform fun c => c ≠ close && !Text.isBreak c :=
    ⟨true, fun c hc => by simp [ne_of_wide hc hclose, isBreak_of_wide hc]⟩
  have hpeek := peek_eq_some_iff
    (Place.skip (runLength (fun c => c ≠ close && !Text.isBreak c) cs) ⟨cs, k, p⟩) hclose
  rw [Place.chars_skip] at hpeek
  simp only [closeDelimited, bumpWhile_eq huniform, delimitedLength, oneIf, Place.skip_add, hpeek]
  generalize runLength _ cs = n at hpeek
  split
  case isTrue h =>
    refine bump_of_head? ?_ hclose
    rw [Place.chars_skip, h]
  case isFalse => rfl

theorem closeDelimited_of_wide {close : Char} (hclose : close.toNat < 0x80) (s : Scanner) (d : Char)
    (h : s.peek 0 = some d) (hd : 0x80 ≤ d.toNat) :
    closeDelimited close s = closeDelimited close s.bump := by
  have hrun : s.bumpWhile (fun c => c ≠ close && !Text.isBreak c) =
      s.bump.bumpWhile (fun c => c ≠ close && !Text.isBreak c) := by
    rw [bumpWhile_of_peek h, if_pos (by simp [ne_of_wide hd hclose, isBreak_of_wide hd])]
  simp only [closeDelimited, hrun]

theorem quoted_of_ne {c : Char} {rest : List Char} (h : c ≠ '\\') :
    quoted (c :: rest) =
      if !(Text.isBreak c || c = '\'') && rest.head? = some '\'' then ⟨.char, 2⟩
      else ⟨.punct, 0⟩ := by
  unfold quoted
  split
  · simp_all
  · simp_all
  · next heq =>
    obtain ⟨rfl, rfl⟩ := List.cons.inj heq
    cases Text.isBreak c <;> by_cases hc : c = '\'' <;> simp [hc]
  · next hother =>
    rw [if_neg]
    cases rest with
    | nil => simp
    | cons d rest =>
      have hd : d ≠ '\'' := fun hd => hother c rest (hd ▸ rfl)
      simp [hd]

/-- After a backslash the next byte is taken along. When it is the first of several, the search for
the closing apostrophe takes the others. -/
theorem quote_escape_eq (rest : List Char) (k : Nat) (p : Position) :
    closeDelimited '\'' (bumps 3 (Place.scanner ⟨'\'' :: '\\' :: rest, k, p⟩)) =
      (Place.skip (1 + (quoted ('\\' :: rest)).length) ⟨'\'' :: '\\' :: rest, k, p⟩).scanner := by
  have hthree : bumps 3 (Place.scanner ⟨'\'' :: '\\' :: rest, k, p⟩) =
      (Place.skip 2 ⟨'\'' :: '\\' :: rest, k, p⟩).scanner.bump := by
    rw [← bump_bump (by decide) (by decide)]
    rfl
  rw [hthree]
  cases rest with
  | nil => exact closeDelimited_eq (by decide) [] _ _
  | cons d rest =>
    rw [quoted, Place.skip_add, Place.skip_add]
    calc
      _ = closeDelimited '\'' (Place.skip 3 ⟨'\'' :: '\\' :: d :: rest, k, p⟩).scanner :=
        eq_of_bump (closeDelimited_of_wide (by decide))
      _ = _ := closeDelimited_eq (by decide) rest _ _

theorem quote_eq (cs : List Char) (k : Nat) (p : Position) :
    (Place.scanner ⟨'\'' :: cs, k, p⟩).quote =
      .ok ((quoted cs).kind, (Place.skip (1 + (quoted cs).length) ⟨'\'' :: cs, k, p⟩).scanner) := by
  have hone (d : Char) (hd : d.toNat < 0x80) :
      (Place.scanner ⟨'\'' :: cs, k, p⟩).peek 1 = some d ↔ cs.head? = some d :=
    peek_one_eq_some_iff (by decide) hd
  unfold quote
  rw [sizeAfterNext_eq (by decide), bump_ascii (by decide)]
  cases cs with
  | nil =>
    rw [if_neg (by simp [hone])]
    rfl
  | cons c rest =>
    by_cases hslash : c = '\\'
    · subst hslash
      have hkind : (quoted ('\\' :: rest)).kind = .char := by cases rest <;> rfl
      rw [if_pos (by simp [hone]), quote_escape_eq, hkind]
    · have hany : ((Place.scanner ⟨'\'' :: c :: rest, k, p⟩).peek 1).any
          (fun c => Text.isBreak c || c = '\'') = (Text.isBreak c || c = '\'') := by
        rw [peek_succ (by decide),
          any_peek (fun d hd => by simp [isBreak_of_wide hd, ne_of_wide hd])]
        rfl
      have hclose : (Place.scanner ⟨'\'' :: c :: rest, k, p⟩).peek (1 + c.utf8Size) = some '\'' ↔
          rest.head? = some '\'' := by
        rw [Nat.add_comm, peek_succ (by decide), ← peek_eq_some_iff ⟨rest, _, _⟩ (by decide)]
        exact iff_of_eq (congrArg (· = some '\'') (peek_utf8Size c rest _ _))
      rw [if_neg (by simpa [hone] using hslash)]
      simp only [List.head?_cons, Option.map_some, Option.getD_some, Except.map, c.utf8Size_pos,
        hany, hclose, quoted_of_ne hslash, decide_true, Bool.true_and]
      split
      case isTrue h =>
        have hquote : rest.head? = some '\'' := by simp_all
        have hpass : bumps (c.utf8Size + 2) (Place.scanner ⟨'\'' :: c :: rest, k, p⟩) =
            (Place.skip 2 ⟨'\'' :: c :: rest, k, p⟩).scanner.bump := by
          rw [bumps, bumps_succ, bump_ascii (by decide)]
          exact congrArg bump (bumps_utf8Size c rest _ _)
        rw [hpass, bump_of_head? hquote (by decide)]
        rfl
      case isFalse => rfl

theorem number_eq (cs : List Char) (k : Nat) (p : Position) :
    (Place.scanner ⟨cs, k, p⟩).number = (Place.skip (numberLength cs) ⟨cs, k, p⟩).scanner := by
  induction cs generalizing k p with
  | nil =>
    rw [number]
    rfl
  | cons c rest ih =>
    by_cases hc : c.toNat < 0x80
    · have hdigit : ((Place.scanner ⟨c :: rest, k, p⟩).peek 1).any Char.isDigit =
          rest.head?.any Char.isDigit := by
        rw [peek_succ hc]
        exact any_peek (fun d hd => isDigit_of_wide hd) _
      rw [number_of_peek (peek_ascii hc), hdigit, bump_ascii hc, numberLength]
      split
      · rw [Place.skip_add]
        exact ih _ _
      · rfl
    · have hwide := Nat.le_of_not_lt hc
      obtain ⟨d, hd, hdwide⟩ := peek_wide rest k p hwide
      rw [number_of_peek hd, numberLength, if_neg, if_neg]
      · rfl
      · simp [isAlphanum_of_wide hwide, ne_of_wide hwide]
      · simp [isAlphanum_of_wide hdwide, ne_of_wide hdwide]

theorem operator_of_peek {s : Scanner} {c : Char} (h : s.peek 0 = some c) :
    s.operator = if isOperatorChar c && !s.atCommentStart then s.bump.operator else s := by
  rw [operator]
  exact match_peek h _ _

theorem operator_eq (cs : List Char) (k : Nat) (p : Position) :
    (Place.scanner ⟨cs, k, p⟩).operator = (Place.skip (operatorLength cs) ⟨cs, k, p⟩).scanner := by
  induction cs using operatorLength.induct generalizing k p with
  | case1 rest =>
    rw [operator_of_peek (peek_ascii (by decide)), operatorLength, if_neg]
    · rfl
    · simp [atCommentStart, peek_ascii, peek_one_eq_some_iff]
  | case2 =>
    rw [operator_of_peek (peek_ascii (by decide)), operatorLength, if_neg]
    · rfl
    · simp [atCommentStart, peek_ascii, peek_one_eq_some_iff]
  | case3 c rest hline hblock hop ih =>
    have hc : c.toNat < 0x80 := by
      by_contra hwide
      simp [isOperatorChar_of_wide (Nat.le_of_not_lt hwide)] at hop
    have hcode : (Place.scanner ⟨c :: rest, k, p⟩).atCommentStart = false := by
      have hone (d : Char) (hd : d.toNat < 0x80) :
          (Place.scanner ⟨c :: rest, k, p⟩).peek 1 = some d ↔ rest.head? = some d :=
        peek_one_eq_some_iff hc hd
      simp only [atCommentStart, peek_ascii hc, hone _ (show '/'.toNat < 0x80 by decide),
        hone _ (show '*'.toNat < 0x80 by decide)]
      cases rest <;> simp_all
    rw [operator_of_peek (peek_ascii hc), if_pos (by simp [hop, hcode]), bump_ascii hc,
      operatorLength.eq_3 _ _ hline hblock, if_pos hop, Place.skip_add]
    exact ih _ _
  | case4 c rest hline hblock hop =>
    rw [operatorLength.eq_3 _ _ hline hblock, if_neg hop]
    by_cases hc : c.toNat < 0x80
    · rw [operator_of_peek (peek_ascii hc), if_neg (by simp [hop])]
      rfl
    · obtain ⟨d, hd, hwide⟩ := peek_wide rest k p (Nat.le_of_not_lt hc)
      rw [operator_of_peek hd, if_neg (by simp [isOperatorChar_of_wide hwide])]
      rfl
  | case5 =>
    rw [operator]
    rfl

theorem word_eq {c : Char} (hc : isIdentStart c = true) (cs : List Char) (k : Nat) (p : Position) :
    (Place.scanner ⟨c :: cs, k, p⟩).word =
      .ok (if keywords.contains (String.ofList (c :: cs.take (runLength isIdentPart cs))) then
          .keyword else .ident,
        (Place.skip (1 + runLength isIdentPart cs) ⟨c :: cs, k, p⟩).scanner) := by
  have hpart : isIdentPart c = true := by simp [isIdentPart, hc]
  have huniform : Uniform isIdentPart := ⟨true, fun d hd => by simp [isIdentPart, isIdentStart, hd]⟩
  have hlength : runLength isIdentPart (c :: cs) = 1 + runLength isIdentPart cs := by
    rw [runLength_cons, if_pos hpart]
  simp only [word, bumpWhile_eq huniform, hlength, slice_eq, Except.map]
  rw [Nat.add_comm, List.take_succ_cons]

end Scanner
end SourceGauge.Scala
