import Mathlib
import SourceGauge.Proofs.Scala.Lexer

/-! The tokens of a source text tile it: their bytes and gap bytes between them are the text, in
order and each byte once. -/
namespace SourceGauge.Scala
open Text.Utf8 (encode encode_cons encode_append bytes_of_ascii bytes_of_wide)

/-- Space, tab, LF, CR and form feed. -/
def isGapByte (b : UInt8) : Bool := [0x20, 0x09, 0x0A, 0x0D, 0x0C].contains b

/-- Some bytes are a gap, a token text, a gap, a token text and so on, up to a last gap. No token
text is empty or begins with a gap byte, and each begins and ends between two characters. -/
inductive Tiles : List (List UInt8) → List UInt8 → Prop
  | last {gap : List UInt8} (hgap : ∀ b ∈ gap, isGapByte b) : Tiles [] gap
  | token {gap text rest : List UInt8} {texts : List (List UInt8)} (hgap : ∀ b ∈ gap, isGapByte b)
      (hne : text ≠ []) (hfirst : ∀ b ∈ text.head?, isGapByte b = false)
      (hstart : Scanner.atBoundary (text ++ rest)) (hstop : Scanner.atBoundary rest)
      (hrest : Tiles texts rest) : Tiles (text :: texts) (gap ++ (text ++ rest))

def Token.bytes (t : Token) : List UInt8 := encode t.text.toList

theorem Tiles.cons {b : UInt8} {bytes : List UInt8} {texts : List (List UInt8)}
    (hb : isGapByte b) (h : Tiles texts bytes) : Tiles texts (b :: bytes) := by
  cases h with
  | last hgap => exact .last (List.forall_mem_cons.2 ⟨hb, hgap⟩)
  | token hgap hne hfirst hstart hstop hrest =>
    exact .token (List.forall_mem_cons.2 ⟨hb, hgap⟩) hne hfirst hstart hstop hrest

theorem isGapByte_ascii {c : Char} (hc : c.toNat < 0x80) :
    isGapByte (UInt8.ofNat c.toNat) = Lexeme.isGap c := by
  have hbyte (d : Char) (hd : d.toNat < 0x80) :
      UInt8.ofNat c.toNat = UInt8.ofNat d.toNat ↔ c = d := by
    refine ⟨fun heq => ?_, fun heq => heq ▸ rfl⟩
    rw [← ofUInt8_ofNat hc, ← ofUInt8_ofNat hd, heq]
  have hspace : UInt8.ofNat c.toNat = 0x20 ↔ c = ' ' := hbyte ' ' (by decide)
  have htab : UInt8.ofNat c.toNat = 0x09 ↔ c = '\t' := hbyte '\t' (by decide)
  have hlf : UInt8.ofNat c.toNat = 0x0A ↔ c = '\n' := hbyte '\n' (by decide)
  have hcr : UInt8.ofNat c.toNat = 0x0D ↔ c = '\r' := hbyte '\r' (by decide)
  have hff : UInt8.ofNat c.toNat = 0x0C ↔ c = '\x0c' := hbyte '\x0c' (by decide)
  simp [isGapByte, Lexeme.isGap, hspace, htab, hlf, hcr, hff, Bool.or_assoc]

theorem isGapByte_of_wide {b : UInt8} (h : 0x80 ≤ b.toNat) : isGapByte b = false := by
  have hascii : ∀ x ∈ ([0x20, 0x09, 0x0A, 0x0D, 0x0C] : List UInt8), x.toNat < 0x80 := by simp
  simp only [isGapByte, List.contains_eq_mem, decide_eq_false_iff_not]
  intro hmem
  have := hascii b hmem
  omega

theorem isGapByte_head?_encode {c : Char} (hc : Lexeme.isGap c = false) (cs : List Char) :
    ∀ b ∈ (encode (c :: cs)).head?, isGapByte b = false := by
  intro b hb
  rw [encode_cons] at hb
  by_cases hascii : c.toNat < 0x80
  · rw [bytes_of_ascii hascii] at hb
    obtain rfl : UInt8.ofNat c.toNat = b := by simpa using hb
    rw [isGapByte_ascii hascii, hc]
  · obtain ⟨x, xs, hbytes, hx, _⟩ := bytes_of_wide (Nat.le_of_not_lt hascii)
    obtain rfl : x = b := by simpa [hbytes] using hb
    exact isGapByte_of_wide (by omega)

theorem Tiles.encode_gap {c : Char} {cs : List Char} {texts : List (List UInt8)}
    (hc : Lexeme.isGap c = true) (h : Tiles texts (encode cs)) :
    Tiles texts (encode (c :: cs)) := by
  have hascii : c.toNat < 0x80 := by
    by_contra hwide
    simp [isGap_of_wide (Nat.le_of_not_lt hwide)] at hc
  rw [encode_cons, bytes_of_ascii hascii]
  exact h.cons ((isGapByte_ascii hascii).trans hc)

theorem Tiles.encode_token {c : Char} {text rest : List Char} {texts : List (List UInt8)}
    (hc : Lexeme.isGap c = false) (h : Tiles texts (encode rest)) :
    Tiles (encode (c :: text) :: texts) (encode (c :: text ++ rest)) := by
  have hne : encode (c :: text) ≠ [] := by
    simp [encode_cons, String.utf8EncodeChar_ne_nil]
  have hstart := Scanner.atBoundary_encode (c :: text ++ rest)
  rw [encode_append] at hstart ⊢
  exact .token (List.forall_mem_nil _) hne (isGapByte_head?_encode hc text) hstart
    (Scanner.atBoundary_encode rest) h

theorem bytes_ofList (kind : Token.Kind) (text : List Char) (start stop : Position) :
    Token.bytes ⟨kind, String.ofList text, start, stop⟩ = encode text := by
  simp [Token.bytes]

theorem tiles_tokensFrom (p : Position) (cs : List Char) :
    Tiles ((tokensFrom p cs).map Token.bytes) (encode cs) := by
  induction p, cs using tokensFrom.induct with
  | case1 p =>
    rw [tokensFrom]
    exact .last (by simp)
  | case2 p c rest hgap ih =>
    rw [tokensFrom, if_pos hgap]
    exact ih.encode_gap hgap
  | case3 p c rest hgap e text stop ih =>
    have hsplit : c :: rest = text ++ rest.drop e.length := by
      rw [List.cons_append, List.take_append_drop]
    rw [tokensFrom, if_neg hgap, hsplit, List.map_cons, bytes_ofList]
    exact ih.encode_token (by simpa using hgap)

/-- Every source text is cut into tokens without cutting through a character, and the tokens tile
the text. -/
theorem tokenize_tiles (source : List Char) :
    (Scanner.ofBytes (encode source)).tokens = .ok (tokenize source) ∧
      Tiles ((tokenize source).map Token.bytes) (encode source) := by
  rw [tokenize_eq]
  exact ⟨tokens_encode source, tiles_tokensFrom .start source⟩

end SourceGauge.Scala
