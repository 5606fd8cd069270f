import Mathlib
import SourceGauge.Proofs.Scala.Comment
import SourceGauge.Scala.CodeLine

/-! Lines of code. A line counts as code when it is not blank and something else than an ASCII blank
stands outside its comments. That is how a line with a character of code is told, but a blank
outside ASCII, or a vertical tab, also makes a line of code of one that otherwise holds comments
only. -/
namespace SourceGauge.Scala
open Text (splitLines lineStart isBlank)
open Text.Utf8 (encode encode_cons encode_append bytes_of_ascii wide_of_mem length_encode_append
  length_encode_cons exists_append_of_length_encode_le exists_char_of_lt_length_encode)

/-- The line has a character outside all comments for which `p` holds. -/
def ShowsOutside (p : Char → Prop) (source : List Char) (k : Nat) : Prop :=
  ∃ part c tail, (splitLines source)[k]? = some (part ++ c :: tail) ∧ p c ∧
    ∀ earlier t,
      Token.Holds t source earlier (lineStart source k + (encode part).length) c.utf8Size →
        t.isComment = false

/-- The line has a character that is neither blank nor inside a comment. -/
def CarriesCode (source : List Char) (k : Nat) : Prop :=
  ShowsOutside (isBlank · = false) source k

/-- Outside all comments the line has a blank that is none of the five of ASCII. -/
def CarriesOddBlank (source : List Char) (k : Nat) : Prop :=
  ShowsOutside (fun c => isBlank c = true ∧ Lexeme.isGap c = false) source k

theorem isGap_of_not_isBlank {c : Char} (h : isBlank c = false) : Lexeme.isGap c = false := by
  rw [← Bool.not_eq_true]
  intro hgap
  simp only [Lexeme.isGap, Bool.or_eq_true, decide_eq_true_eq] at hgap
  rcases hgap with (((rfl | rfl) | rfl) | rfl) | rfl <;> cases h

/-- All bytes of a character are ASCII blanks or none is. -/
theorem isAsciiBlank_of_mem {c : Char} {b : UInt8} (h : b ∈ String.utf8EncodeChar c) :
    isAsciiBlank b = Lexeme.isGap c := by
  have hsame : isAsciiBlank b = isGapByte b := by
    simp only [isAsciiBlank, isGapByte, List.contains_eq_mem, List.mem_cons, decide_eq_decide]
    tauto
  rw [hsame]
  by_cases hc : c.toNat < 0x80
  · rw [bytes_of_ascii hc, List.mem_singleton] at h
    rw [h, isGapByte_ascii hc]
  · have hwide := Nat.le_of_not_lt hc
    rw [isGapByte_of_wide (wide_of_mem hwide b h), isGap_of_wide hwide]

/-- No place in a text is inside a character. -/
theorem length_encode_le_or_le {front rest before behind : List Char} {c : Char}
    (h : front ++ c :: rest = before ++ behind) :
    (encode before).length ≤ (encode front).length ∨
      (encode front).length + c.utf8Size ≤ (encode before).length := by
  refine (Nat.lt_or_ge (encode front).length (encode before).length).symm.imp_right fun hlt => ?_
  obtain ⟨cs, rfl, hcs⟩ := exists_append_of_length_encode_le h hlt.le
  cases cs with
  | nil => simp at hlt
  | cons d cs =>
    obtain ⟨rfl, -⟩ := List.cons.inj hcs
    rw [length_encode_append, length_encode_cons]
    omega

section Source
variable {source line part tail : List Char} {earlier : List Token} {t : Token} {c : Char}
  {k i : Nat}

/-- A token that holds a byte of a character holds the character. -/
theorem Token.holds_byte_iff (hline : (splitLines source)[k]? = some (part ++ c :: tail))
    (hi : i < c.utf8Size) :
    t.Holds source earlier (lineStart source k + ((encode part).length + i)) 1 ↔
      t.Holds source earlier (lineStart source k + (encode part).length) c.utf8Size := by
  have hsize := c.utf8Size_pos
  suffices htokens : ∀ later, tokenize source = earlier ++ t :: later →
      (t.Holds source earlier (lineStart source k + ((encode part).length + i)) 1 ↔
        t.Holds source earlier (lineStart source k + (encode part).length) c.utf8Size) by
    constructor
    · intro h
      obtain ⟨offset, hstands, -⟩ := id h
      obtain ⟨later, hlater⟩ := hstands.tokens
      exact (htokens later hlater).1 h
    · intro h
      obtain ⟨offset, hstands, -⟩ := id h
      obtain ⟨later, hlater⟩ := hstands.tokens
      exact (htokens later hlater).2 h
  intro later htokens
  obtain ⟨before, text, after, rfl, hreads⟩ := Token.exists_reads_of_tokenize htokens
  obtain ⟨front, rest, hsplit, hfront, -⟩ := Position.exists_front_of_line hline
  have hbegin := length_encode_le_or_le hsplit.symm
  have hend := length_encode_le_or_le (hsplit.symm.trans (List.append_assoc _ _ _).symm)
  rw [hreads.holds_iff htokens, hreads.holds_iff htokens, ← hfront, ← Nat.add_assoc, ← hfront]
  omega

theorem exists_byte_iff :
    (∃ b ∈ encode line, isAsciiBlank b = false) ↔ ∃ c ∈ line, Lexeme.isGap c = false := by
  constructor
  · rintro ⟨b, hb, hblank⟩
    obtain ⟨c, hc, hbyte⟩ := List.mem_flatMap.1 hb
    exact ⟨c, hc, (isAsciiBlank_of_mem hbyte).symm.trans hblank⟩
  · rintro ⟨c, hc, hgap⟩
    obtain ⟨b, hb⟩ := List.exists_mem_of_ne_nil _ (String.utf8EncodeChar_ne_nil (c := c))
    exact ⟨b, List.mem_flatMap.2 ⟨c, hc, hb⟩, (isAsciiBlank_of_mem hb).trans hgap⟩

/-- A line is made of comments only when nothing but ASCII blanks stands outside them. -/
theorem isCommentOnly_iff_not_showsOutside (hline : (splitLines source)[k]? = some line) :
    isCommentOnly (Comment.ofTokens (tokenize source)) (k + 1) line = true ↔
      (∃ c ∈ line, Lexeme.isGap c = false) ∧ ¬ ShowsOutside (Lexeme.isGap · = false) source k := by
  rw [isCommentOnly_eq_true_iff, exists_byte_iff]
  refine and_congr_right fun _ => ⟨fun hall => ?_, fun hnone j b hb hblank => ?_⟩
  · rintro ⟨part, c, tail, hsplit, hgap, houtside⟩
    obtain rfl : line = part ++ c :: tail := Option.some.inj (hline.symm.trans hsplit)
    obtain ⟨b, hb⟩ : ∃ b, (String.utf8EncodeChar c).head? = some b := by
      rw [← Option.isSome_iff_exists, List.isSome_head?]
      exact String.utf8EncodeChar_ne_nil
    have hbyte : (encode (part ++ c :: tail))[(encode part).length]? = some b := by
      rw [getElem?_encode_append, head?_encode_cons, hb]
    have hblank : isAsciiBlank b = false :=
      (isAsciiBlank_of_mem (List.mem_of_head? hb)).trans hgap
    obtain ⟨earlier, t, hholds, hcomment⟩ :=
      (exists_comment_iff_holds hline (List.getElem?_eq_some_iff.1 hbyte).1).1
        (hall _ b hbyte hblank)
    have hchar := (Token.holds_byte_iff hsplit c.utf8Size_pos).1 hholds
    rw [houtside earlier t hchar] at hcomment
    cases hcomment
  · have hj := (List.getElem?_eq_some_iff.1 hb).1
    rw [exists_comment_iff_holds hline hj]
    by_contra hcovered
    obtain ⟨part, c, tail, rfl, hle, hlt⟩ := exists_char_of_lt_length_encode hj
    obtain ⟨i, rfl⟩ := Nat.exists_eq_add_of_le hle
    have hbyte : b ∈ String.utf8EncodeChar c := by
      rw [encode_append, encode_cons, List.getElem?_append_right hle, Nat.add_sub_cancel_left,
        List.getElem?_append_left (by rw [String.length_utf8EncodeChar]; omega)] at hb
      exact List.mem_of_getElem? hb
    refine hnone ⟨part, c, tail, hline, (isAsciiBlank_of_mem hbyte).symm.trans hblank,
      fun earlier t hholds => ?_⟩
    rw [← Bool.not_eq_true]
    intro hcomment
    exact hcovered ⟨earlier, t, (Token.holds_byte_iff hline (by omega)).2 hholds, hcomment⟩

/-- What stands outside comments is code, a blank of ASCII or another blank. -/
theorem showsOutside_iff :
    ShowsOutside (Lexeme.isGap · = false) source k ↔
      CarriesCode source k ∨ CarriesOddBlank source k := by
  constructor
  · rintro ⟨part, c, tail, hsplit, hgap, houtside⟩
    cases hblank : isBlank c with
    | false => exact .inl ⟨part, c, tail, hsplit, hblank, houtside⟩
    | true => exact .inr ⟨part, c, tail, hsplit, ⟨hblank, hgap⟩, houtside⟩
  · rintro (⟨part, c, tail, hsplit, hblank, houtside⟩ |
      ⟨part, c, tail, hsplit, ⟨-, hgap⟩, houtside⟩)
    · exact ⟨part, c, tail, hsplit, isGap_of_not_isBlank hblank, houtside⟩
    · exact ⟨part, c, tail, hsplit, hgap, houtside⟩

/-- Which lines of a source text are lines of code: those with a character that is neither blank
nor inside a comment, and besides them those with a blank outside ASCII (or a vertical tab) outside
their comments, unless they are blank altogether. -/
theorem code_iff_carriesCode_or (hline : (splitLines source)[k]? = some line) :
    LinePolicy.code (Comment.ofTokens (tokenize source)) (k + 1) line = true ↔
      CarriesCode source k ∨ (∃ c ∈ line, isBlank c = false) ∧ CarriesOddBlank source k := by
  have hblank : (!line.all isBlank) = true ↔ ∃ c ∈ line, isBlank c = false := by
    simp
  have hcode (h : CarriesCode source k) : ∃ c ∈ line, isBlank c = false := by
    obtain ⟨part, c, tail, hsplit, hc, -⟩ := h
    obtain rfl : line = part ++ c :: tail := Option.some.inj (hline.symm.trans hsplit)
    exact ⟨c, List.mem_append_cons_self, hc⟩
  have hgap (h : ∃ c ∈ line, isBlank c = false) : ∃ c ∈ line, Lexeme.isGap c = false :=
    h.imp fun _ hc => ⟨hc.1, isGap_of_not_isBlank hc.2⟩
  rw [LinePolicy.code, Bool.and_eq_true, hblank, Bool.not_eq_true', ← Bool.not_eq_true,
    isCommentOnly_iff_not_showsOutside hline, showsOutside_iff]
  constructor
  · rintro ⟨hvisible, hmore⟩
    have hshows : CarriesCode source k ∨ CarriesOddBlank source k := by
      by_contra hnone
      exact hmore ⟨hgap hvisible, hnone⟩
    exact hshows.imp_right fun hodd => ⟨hvisible, hodd⟩
  · rintro (h | ⟨hvisible, hodd⟩)
    · exact ⟨hcode h, fun hmore => hmore.2 (.inl h)⟩
    · exact ⟨hvisible, fun hmore => hmore.2 (.inr hodd)⟩

/-- A line with a no-break space before its comment. -/
theorem code_iff_carriesCode_or_no_break_space :
    let source := "val a\n\u00a0 // b".toList
    let line := "\u00a0 // b".toList
    (splitLines source)[1]? = some line ∧
      LinePolicy.code (Comment.ofTokens (tokenize source)) 2 line = true ∧
      (CarriesCode source 1 ∨ (∃ c ∈ line, isBlank c = false) ∧ CarriesOddBlank source 1) := by
  intro source line
  have hline : (splitLines source)[1]? = some line := by decide +kernel
  have hcode : LinePolicy.code (Comment.ofTokens (tokenize source)) 2 line = true := by
    decide +kernel
  exact ⟨hline, hcode, (code_iff_carriesCode_or hline).1 hcode⟩

/-- Not every line of code carries code: a vertical tab behind a comment is enough. -/
theorem code_without_carriesCode :
    ¬ ∀ (source line : List Char) (k : Nat), (splitLines source)[k]? = some line →
      (LinePolicy.code (Comment.ofTokens (tokenize source)) (k + 1) line = true ↔
        CarriesCode source k) := by
  let comment := "/* a */".toList
  let block : Token := ⟨.comment .block, "/* a */", ⟨1, 0⟩, ⟨1, 7⟩⟩
  let source := comment ++ ['\x0b']
  intro hall
  have hline : (splitLines source)[0]? = some source := by decide +kernel
  have hcode : LinePolicy.code (Comment.ofTokens (tokenize source)) 1 source = true := by
    decide +kernel
  have hstands : block.StandsAt source [] 0 :=
    ⟨⟨[⟨.punct, "\x0b", ⟨1, 7⟩, ⟨1, 8⟩⟩], by decide +kernel⟩,
      [], encode ['\x0b'], by decide +kernel, .last (by simp), rfl⟩
  have hlength : block.bytes.length = (encode comment).length := rfl
  obtain ⟨part, c, tail, hsplit, hblank, houtside⟩ := (hall source source 0 hline).1 hcode
  have hchars : part ++ c :: tail = comment ++ ['\x0b'] :=
    Option.some.inj (hsplit.symm.trans hline)
  rcases length_encode_le_or_le hchars with hbehind | hinside
  · -- what stands behind the comment is the vertical tab
    obtain ⟨cs, -, htab⟩ := exists_append_of_length_encode_le hchars.symm hbehind
    obtain rfl : '\x0b' = c := by
      cases cs with
      | nil => exact (List.cons.inj htab).1
      | cons d cs => simp at htab
    cases hblank
  · have hholds : block.Holds source [] (lineStart source 0 + (encode part).length) c.utf8Size := by
      refine ⟨0, hstands, Nat.zero_le _, ?_⟩
      rw [Text.lineStart_zero, hlength]
      omega
    cases houtside [] block hholds

end Source
end SourceGauge.Scala
