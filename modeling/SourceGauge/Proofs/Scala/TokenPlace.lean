import Mathlib
import SourceGauge.Proofs.Scala.Position
import SourceGauge.Proofs.Scala.Tiling

/-! Where tokens stand. A token has one place in its source text, behind the tokens before it and
the gaps between them, and its position is the place of its first byte in the lines of the text. -/
namespace SourceGauge.Scala
open Text (splitLines lineStart WholeLines Unbroken)
open Text.Utf8 (encode encode_append length_encode_append)

namespace Token

/-- The token begins at a byte offset of a source text. Before it stand the tokens `earlier` and
gaps around them, and nothing else. -/
structure StandsAt (t : Token) (source : List Char) (earlier : List Token) (offset : Nat) :
    Prop where
  tokens : ∃ later, tokenize source = earlier ++ t :: later
  bytes : ∃ before after, encode source = before ++ (t.bytes ++ after) ∧
    Tiles (earlier.map Token.bytes) before ∧ before.length = offset

/-- The token takes `count` bytes of a source text from `first` on, and perhaps others. -/
def Holds (t : Token) (source : List Char) (earlier : List Token) (first count : Nat) : Prop :=
  ∃ offset, t.StandsAt source earlier offset ∧ offset ≤ first ∧
    first + count ≤ offset + t.bytes.length

/-- A token that is read from `text` behind `before`, when the reading begins at `p`. -/
structure Reads (t : Token) (p : Position) (earlier : List Token) (before text after : List Char) :
    Prop where
  text_eq : t.text.toList = text
  first : ∃ c rest, text = c :: rest ∧ Lexeme.isGap c = false
  start_eq : t.start = p.advanceAll before (text ++ after)
  stop_eq : t.stop = p.advanceAll (before ++ text) after
  tiles : Tiles (earlier.map Token.bytes) (encode before)

end Token

theorem takeWhile_gap {gap rest : List UInt8} (hgap : ∀ b ∈ gap, isGapByte b)
    (hrest : ∀ b ∈ rest.head?, isGapByte b = false) :
    (gap ++ rest).takeWhile isGapByte = gap := by
  have hstop : rest.takeWhile isGapByte = [] := by
    cases rest with
    | nil => rfl
    | cons b rest => simp [hrest b rfl]
  rw [List.takeWhile_append_of_pos hgap, hstop, List.append_nil]

/-- Two texts that begin with gaps have the same gap before anything else. -/
theorem gap_eq_of_append_eq {gap other xs ys : List UInt8} (hgap : ∀ b ∈ gap, isGapByte b)
    (hother : ∀ b ∈ other, isGapByte b) (hxs : ∀ b ∈ xs.head?, isGapByte b = false)
    (hys : ∀ b ∈ ys.head?, isGapByte b = false) (h : gap ++ xs = other ++ ys) :
    gap = other ∧ xs = ys := by
  have heq : gap = other := by
    rw [← takeWhile_gap hgap hxs, h, takeWhile_gap hother hys]
  subst heq
  exact ⟨rfl, List.append_cancel_left h⟩

theorem head?_append_of_ne_nil {text rest : List UInt8} (hne : text ≠ []) :
    (text ++ rest).head? = text.head? := by
  cases text with
  | nil => exact absurd rfl hne
  | cons b text => rfl

/-- The tokens before a token determine where it begins. -/
theorem Tiles.eq_of_append_eq {texts : List (List UInt8)} {xs ys more other : List UInt8}
    (hxs : Tiles texts xs) (hys : Tiles texts ys) (h : xs ++ more = ys ++ other)
    (hmore : ∀ b ∈ more.head?, isGapByte b = false)
    (hother : ∀ b ∈ other.head?, isGapByte b = false) : xs = ys := by
  induction hxs generalizing ys with
  | last hgap =>
    cases hys with
    | last hgap' => exact (gap_eq_of_append_eq hgap hgap' hmore hother h).1
  | @token gap text rest texts hgap hne hfirst _ _ _ ih =>
    cases hys with
    | @token gap' _ rest' _ hgap' _ _ _ _ hrest' =>
      have hhead (tail : List UInt8) : ∀ b ∈ (text ++ tail).head?, isGapByte b = false := by
        rwa [head?_append_of_ne_nil hne]
      simp only [List.append_assoc] at h
      obtain ⟨rfl, htext⟩ := gap_eq_of_append_eq hgap hgap' (hhead _) (hhead _) h
      rw [ih hrest' (List.append_cancel_left htext)]

theorem advanceAll_cons (p : Position) (c : Char) (cs rest : List Char) :
    p.advanceAll (c :: cs) rest = (p.advance c (cs ++ rest).head?).advanceAll cs rest := by
  rw [List.head?_append]
  rfl

namespace Token.Reads
variable {t : Token} {p : Position} {earlier : List Token} {before text after : List Char}

theorem here {c : Char} (hc : Lexeme.isGap c = false) (kind : Token.Kind) (p : Position)
    (cs after : List Char) :
    Reads ⟨kind, String.ofList (c :: cs), p, p.advanceAll (c :: cs) after⟩ p [] [] (c :: cs)
      after :=
  ⟨String.toList_ofList, ⟨c, cs, rfl, hc⟩, rfl, rfl, .last (List.forall_mem_nil _)⟩

/-- A token is read in the same way behind a gap. -/
theorem gap {c : Char} (hc : Lexeme.isGap c = true)
    (h : t.Reads (p.advance c (before ++ (text ++ after)).head?) earlier before text after) :
    t.Reads p earlier (c :: before) text after := by
  obtain ⟨htext, hfirst, hstart, hstop, htiles⟩ := h
  refine ⟨htext, hfirst, ?_, ?_, htiles.encode_gap hc⟩
  · rw [hstart, advanceAll_cons]
  · rw [hstop, List.cons_append, advanceAll_cons, List.append_assoc]

/-- A token is read in the same way behind another one. -/
theorem token {c : Char} {cs : List Char} {kind : Token.Kind} {stop : Position}
    (hc : Lexeme.isGap c = false)
    (h : t.Reads (p.advanceAll (c :: cs) (before ++ (text ++ after))) earlier before text after) :
    t.Reads p (⟨kind, String.ofList (c :: cs), p, stop⟩ :: earlier) (c :: cs ++ before) text
      after := by
  obtain ⟨htext, hfirst, hstart, hstop, htiles⟩ := h
  refine ⟨htext, hfirst, ?_, ?_, ?_⟩
  · rw [hstart, Position.advanceAll_append]
  · rw [hstop, List.append_assoc, Position.advanceAll_append p, List.append_assoc]
  · rw [List.map_cons, bytes_ofList]
    exact htiles.encode_token hc

end Token.Reads

/-- Each token is the lexeme at its own place in the text. -/
theorem exists_lexeme {p : Position} {cs : List Char} {earlier later : List Token} {t : Token}
    (h : tokensFrom p cs = earlier ++ t :: later) :
    ∃ before c rest, cs = before ++ c :: rest ∧ t.kind = (Lexeme.extent c rest).kind ∧
      t.Reads p earlier before (c :: rest.take (Lexeme.extent c rest).length)
        (rest.drop (Lexeme.extent c rest).length) := by
  induction p, cs using tokensFrom.induct generalizing earlier
  case case1 p => simp [tokensFrom] at h
  case case2 p c rest hgap ih =>
    rw [tokensFrom, if_pos hgap] at h
    obtain ⟨before, d, more, rfl, hkind, hreads⟩ := ih h
    refine ⟨c :: before, d, more, rfl, hkind, .gap hgap ?_⟩
    rwa [List.cons_append, List.take_append_drop]
  case case3 p c rest hgap e read stop ih =>
    have hc : Lexeme.isGap c = false := by simpa using hgap
    have htokens : ⟨e.kind, String.ofList read, p, stop⟩ :: tokensFrom stop (rest.drop e.length) =
        earlier ++ t :: later := by
      rw [← h, tokensFrom, if_neg hgap]
    cases earlier with
    | nil =>
      obtain ⟨rfl, -⟩ := List.cons.inj htokens
      exact ⟨[], c, rest, rfl, rfl, .here hc _ _ _ _⟩
    | cons first earlier =>
      obtain ⟨rfl, hlater⟩ := List.cons.inj htokens
      obtain ⟨before, d, more, hrest, hkind, hreads⟩ := ih hlater
      have hsplit : c :: rest = read ++ before ++ d :: more := by
        rw [List.append_assoc, ← hrest, List.cons_append, List.take_append_drop]
      refine ⟨read ++ before, d, more, hsplit, hkind, .token hc ?_⟩
      rwa [List.cons_append, List.take_append_drop, ← hrest]

/-- Each token is read from its own part of the text. -/
theorem exists_reads {p : Position} {cs : List Char} {earlier later : List Token} {t : Token}
    (h : tokensFrom p cs = earlier ++ t :: later) :
    ∃ before text after, cs = before ++ (text ++ after) ∧ t.Reads p earlier before text after := by
  obtain ⟨before, c, rest, hcs, -, hreads⟩ := exists_lexeme h
  refine ⟨before, _, _, ?_, hreads⟩
  rw [hcs, List.cons_append, List.take_append_drop]

namespace Token
variable {source before text after : List Char} {earlier later : List Token} {t : Token}

theorem Reads.bytes_eq {p : Position} (h : t.Reads p earlier before text after) :
    t.bytes = encode text := by
  rw [Token.bytes, h.text_eq]

theorem Reads.head?_bytes {p : Position} (h : t.Reads p earlier before text after)
    (more : List UInt8) : ∀ b ∈ (t.bytes ++ more).head?, isGapByte b = false := by
  obtain ⟨c, rest, htext, hc⟩ := h.first
  have hne : encode text ≠ [] := by
    simp [htext, Text.Utf8.encode_cons, String.utf8EncodeChar_ne_nil]
  rw [h.bytes_eq, head?_append_of_ne_nil hne, htext]
  exact isGapByte_head?_encode hc rest

/-- A token begins behind what stands before it, and nowhere else. -/
theorem Reads.standsAt_iff (h : t.Reads .start earlier before text after)
    (htokens : tokenize (before ++ (text ++ after)) = earlier ++ t :: later) {offset : Nat} :
    t.StandsAt (before ++ (text ++ after)) earlier offset ↔ offset = (encode before).length := by
  have hsplit : encode (before ++ (text ++ after)) =
      encode before ++ (t.bytes ++ encode after) := by
    rw [encode_append, encode_append, h.bytes_eq]
  constructor
  · rintro ⟨-, front, back, hbytes, htiles, rfl⟩
    have hsame : encode before = front :=
      h.tiles.eq_of_append_eq htiles (hsplit.symm.trans hbytes) (h.head?_bytes _)
        (h.head?_bytes _)
    rw [hsame]
  · rintro rfl
    exact ⟨⟨later, htokens⟩, _, _, hsplit, h.tiles, rfl⟩

theorem Reads.holds_iff (h : t.Reads .start earlier before text after)
    (htokens : tokenize (before ++ (text ++ after)) = earlier ++ t :: later) {first count : Nat} :
    t.Holds (before ++ (text ++ after)) earlier first count ↔
      (encode before).length ≤ first ∧ first + count ≤ (encode (before ++ text)).length := by
  simp only [Holds, h.standsAt_iff htokens, h.bytes_eq, exists_eq_left, length_encode_append]

theorem exists_reads_of_tokenize (h : tokenize source = earlier ++ t :: later) :
    ∃ before text after, source = before ++ (text ++ after) ∧
      t.Reads .start earlier before text after := by
  rw [tokenize_eq] at h
  exact exists_reads h

end Token

theorem isGap_of_isBreak {c : Char} (h : Text.isBreak c = true) : Lexeme.isGap c = true := by
  simp only [Text.isBreak, Bool.or_eq_true, decide_eq_true_eq] at h
  rcases h with rfl | rfl <;> rfl

theorem isBreak_of_not_isGap {c : Char} (h : Lexeme.isGap c = false) : Text.isBreak c = false := by
  rw [← Bool.not_eq_true] at h ⊢
  exact mt isGap_of_isBreak h

section Lines
variable {source before text after : List Char} {earlier later : List Token} {t : Token}

/-- The line in which a token begins, and what stands before the token there. -/
theorem Token.Reads.exists_part (h : t.Reads .start earlier before text after) :
    ∃ k whole part, before = whole ++ part ∧ WholeLines k whole (part ++ (text ++ after)) ∧
      Unbroken part ∧ t.start = ⟨k + 1, (encode part).length⟩ := by
  obtain ⟨c, rest, rfl, hc⟩ := h.first
  obtain ⟨k, whole, part, rfl, hwhole, hpart⟩ :=
    Text.exists_wholeLines before (rest ++ after) (isBreak_of_not_isGap hc)
  refine ⟨k, whole, part, rfl, hwhole, hpart, ?_⟩
  rw [h.start_eq, List.cons_append, Position.advanceAll_start hwhole hpart]

/-- Each line of a token's text stands in a line of the source text, the first one at the column
where the token begins and every other one at the front. -/
theorem exists_line_of_piece {k i : Nat} {whole part piece : List Char}
    (hwhole : WholeLines k whole (part ++ (text ++ after))) (hpart : Unbroken part)
    (h : (splitLines text)[i]? = some piece) :
    ∃ tail, (splitLines (whole ++ (part ++ (text ++ after))))[k + i]? =
      some ((if i = 0 then part else []) ++ (piece ++ tail)) := by
  obtain ⟨front, rest, rfl, hfront, hpiece, hne⟩ := Text.exists_of_getElem?_splitLines h
  have hmore : piece ++ (rest ++ after) ≠ [] := by
    rw [← List.append_assoc]
    exact List.append_ne_nil_of_left_ne_nil hne after
  cases i with
  | zero =>
    obtain rfl := hfront.eq_nil
    have hwhole' : WholeLines k whole (part ++ piece ++ (rest ++ after)) := by
      simpa using hwhole
    have hline := hwhole'.getElem?_splitLines (Text.unbroken_append.2 ⟨hpart, hpiece⟩) (by simp_all)
    exact ⟨_, by simpa using hline⟩
  | succ i =>
    have hall : WholeLines (k + (i + 1)) (whole ++ (part ++ front)) (piece ++ (rest ++ after)) := by
      refine WholeLines.append (by simpa using hwhole) (.part_append hpart ?_)
      rw [← List.append_assoc]
      exact hfront.append_rest hne after
    have hline := hall.getElem?_splitLines hpiece hmore
    exact ⟨_, by simpa using hline⟩

theorem head?_encode_cons (c : Char) (cs : List Char) :
    (encode (c :: cs)).head? = (String.utf8EncodeChar c).head? := by
  rw [Text.Utf8.encode_cons]
  exact head?_append_of_ne_nil String.utf8EncodeChar_ne_nil

/-- The byte behind a part of a line is the first byte of what follows. -/
theorem getElem?_encode_append (part rest : List Char) :
    (encode (part ++ rest))[(encode part).length]? = (encode rest).head? := by
  rw [encode_append, List.getElem?_append_right (Nat.le_refl _), Nat.sub_self,
    List.head?_eq_getElem?]

theorem extract_encode_append (part text rest : List Char) :
    (encode (part ++ text ++ rest)).extract (encode part).length (encode (part ++ text)).length =
      encode text := by
  rw [List.extract_eq_take_drop, length_encode_append, Nat.add_sub_cancel_left, List.append_assoc,
    encode_append, List.drop_left, encode_append, List.take_left]

/-- A token without a line break stands as a whole in the line in which it begins. -/
theorem stop_of_unbroken {k : Nat} {whole part : List Char} (htext : Unbroken text)
    (hne : text ≠ []) (hwhole : WholeLines k whole (part ++ (text ++ after)))
    (hpart : Unbroken part) :
    Position.start.advanceAll (whole ++ part ++ text) after =
        ⟨k + 1, (encode (part ++ text)).length⟩ ∧
      ∃ tail, (splitLines (whole ++ (part ++ (text ++ after))))[k]? =
        some (part ++ text ++ tail) := by
  have hunbroken : Unbroken (part ++ text) := Text.unbroken_append.2 ⟨hpart, htext⟩
  have hwhole' : WholeLines k whole (part ++ text ++ after) := by
    rwa [List.append_assoc]
  rw [List.append_assoc, Position.advanceAll_start hwhole' hunbroken]
  have hline := hwhole'.getElem?_splitLines hunbroken (by simp [hne])
  exact ⟨rfl, _, by simpa using hline⟩

/-- The position of a token is a line of the source text and a column in it at which the first byte
of the token stands. A token without a line break ends in the same line, and stands there as a
whole. Of any other token, such as a comment, each line stands in a line of its own: the first one
where the token begins, and every other one at the front of the line that follows. -/
theorem tokenize_lines {source : List Char} {earlier later : List Token} {t : Token}
    (h : tokenize source = earlier ++ t :: later) :
    ∃ k line, t.start.line = k + 1 ∧ (splitLines source)[k]? = some line ∧
      t.StandsAt source earlier (lineStart source k + t.start.column) ∧
      (∃ b, t.bytes.head? = some b ∧ (encode line)[t.start.column]? = some b) ∧
      ((∀ c ∈ t.text.toList, Text.isBreak c = false) →
        t.stop.line = t.start.line ∧ t.stop.column ≤ (encode line).length ∧
          (encode line).extract t.start.column t.stop.column = t.bytes) ∧
      ∀ i piece, (splitLines t.text.toList)[i]? = some piece →
        ∃ other, (splitLines source)[k + i]? = some other ∧
          encode piece <+: (encode other).drop (if i = 0 then t.start.column else 0) := by
  obtain ⟨before, text, after, rfl, hreads⟩ := Token.exists_reads_of_tokenize h
  obtain ⟨k, whole, part, rfl, hwhole, hpart, hstart⟩ := hreads.exists_part
  obtain ⟨c, rest, rfl, hc⟩ := hreads.first
  have hne : c :: rest ≠ [] := List.cons_ne_nil c rest
  have hsplit : whole ++ part ++ (c :: rest ++ after) = whole ++ (part ++ (c :: rest ++ after)) :=
    List.append_assoc _ _ _
  have hline : (splitLines (whole ++ part ++ (c :: rest ++ after)))[k]? =
      some (part ++ (c :: (splitLines (rest ++ after)).headD [])) := by
    rw [hsplit, hwhole.getElem?_splitLines hpart (by simp), List.cons_append,
      Text.splitLines_cons (isBreak_of_not_isGap hc)]
    rfl
  refine ⟨k, _, by rw [hstart], hline, ?_, ?_, fun hunbroken => ?_, fun i piece hpiece => ?_⟩
  · rw [hreads.standsAt_iff h, hstart, hsplit, hwhole.lineStart_eq, length_encode_append]
  · obtain ⟨b, hb⟩ : ∃ b, (String.utf8EncodeChar c).head? = some b := by
      cases hbytes : String.utf8EncodeChar c with
      | nil => exact absurd hbytes String.utf8EncodeChar_ne_nil
      | cons b bs => exact ⟨b, rfl⟩
    refine ⟨b, ?_, ?_⟩
    · rw [hreads.bytes_eq, head?_encode_cons, hb]
    · rw [hstart, getElem?_encode_append, head?_encode_cons, hb]
  · rw [hreads.text_eq] at hunbroken
    obtain ⟨hstop, tail, hwholeLine⟩ := stop_of_unbroken hunbroken hne hwhole hpart
    rw [← hreads.stop_eq] at hstop
    rw [hsplit, hwholeLine] at hline
    rw [← Option.some.inj hline, hstop, hstart, extract_encode_append, hreads.bytes_eq,
      length_encode_append (part ++ _)]
    exact ⟨rfl, Nat.le_add_right _ _, rfl⟩
  · rw [hreads.text_eq] at hpiece
    obtain ⟨tail, hother⟩ := exists_line_of_piece hwhole hpart hpiece
    refine ⟨_, by rw [hsplit]; exact hother, ?_⟩
    rw [hstart]
    split
    · rw [encode_append, List.drop_left, encode_append]
      exact List.prefix_append _ _
    · rw [List.drop_zero, List.nil_append, encode_append]
      exact List.prefix_append _ _

/-- A comment that begins in the second line and ends in the third one. -/
theorem tokenize_lines_comment :
    let source := "a\r\n /* é\r\n*/ b".toList
    let name : Token := ⟨.ident, "a", ⟨1, 0⟩, ⟨1, 1⟩⟩
    let comment : Token := ⟨.comment .block, "/* é\r\n*/", ⟨2, 1⟩, ⟨3, 2⟩⟩
    let last : Token := ⟨.ident, "b", ⟨3, 3⟩, ⟨3, 4⟩⟩
    tokenize source = [name] ++ comment :: [last] ∧ comment.StandsAt source [name] 4 ∧
      ∀ i piece, (splitLines comment.text.toList)[i]? = some piece →
        ∃ other, (splitLines source)[1 + i]? = some other ∧
          encode piece <+: (encode other).drop (if i = 0 then 1 else 0) := by
  intro source name comment last
  have htokens : tokenize source = [name] ++ comment :: [last] := by decide +kernel
  obtain ⟨k, line, hk, -, hstands, -, -, hpieces⟩ := tokenize_lines htokens
  obtain rfl : 1 = k := Nat.succ.inj hk
  exact ⟨htokens, hstands, hpieces⟩

end Lines

end SourceGauge.Scala
