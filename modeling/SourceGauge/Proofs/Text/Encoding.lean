import Mathlib
import SourceGauge.Proofs.Text.WellFormed
import SourceGauge.Text.Encoding

/-! Decoding undoes encoding. Under UTF-8 one byte order mark at the front is dropped, and what is
not valid is refused with its place. Under Latin-1 every byte is a character of its own. -/
namespace SourceGauge.Text.Encoding
open Utf8 (WellFormed encode)

theorem encode_mark (s : List Char) :
    encode ('\ufeff' :: s) = 0xEF :: 0xBB :: 0xBF :: encode s := by
  rw [Utf8.encode_cons]
  rfl

theorem dropMark_of_head?_ne {s : List Char} (h : s.head? ≠ some '\ufeff') : dropMark s = s := by
  cases s with
  | nil => rfl
  | cons c s =>
    rw [dropMark, if_neg]
    rintro rfl
    exact h rfl

theorem decode_utf8_encode (s : List Char) : decode .utf8 (encode s) = .ok (dropMark s) := by
  rw [decode, Utf8.decode_encode, Except.map]

theorem decode_utf8_eq_error_iff {bytes : List UInt8} {k : Nat} :
    decode .utf8 bytes = .error k ↔ Utf8.decode bytes = .error k := by
  rw [decode]
  cases Utf8.decode bytes <;> simp [Except.map]

section Latin1
variable {bytes : List UInt8}

theorem toNat_ofNat_byte (b : UInt8) : (Char.ofNat b.toNat).toNat = b.toNat := by
  have hvalid : b.toNat.isValidChar := .inl (by have := b.toNat_lt; omega)
  rw [Char.ofNat, dif_pos hvalid]
  rfl

theorem map_toNat_latin1 (bytes : List UInt8) :
    (bytes.map fun b => Char.ofNat b.toNat).map Char.toNat = bytes.map UInt8.toNat := by
  rw [List.map_map]
  exact List.map_congr_left fun b _ => toNat_ofNat_byte b

theorem encode_latin1_of_ascii (h : ∀ b ∈ bytes, b < 0x80) :
    encode (bytes.map fun b => Char.ofNat b.toNat) = bytes := by
  induction bytes with
  | nil => rfl
  | cons b bytes ih =>
    obtain ⟨hb, hbytes⟩ := List.forall_mem_cons.1 h
    have hascii : (Char.ofNat b.toNat).toNat < 0x80 := by
      rw [toNat_ofNat_byte]
      exact UInt8.lt_iff_toNat_lt.1 hb
    rw [List.map_cons, Utf8.encode_cons, Utf8.bytes_of_ascii hascii, ih hbytes, toNat_ofNat_byte,
      UInt8.ofNat_toNat, List.singleton_append]

theorem head?_latin1_ne_mark : (bytes.map fun b => Char.ofNat b.toNat).head? ≠ some '\ufeff' := by
  intro hmark
  rw [List.head?_map, Option.map_eq_some_iff] at hmark
  obtain ⟨b, -, hb⟩ := hmark
  have hnumber := congrArg Char.toNat hb
  rw [toNat_ofNat_byte] at hnumber
  have hlt := b.toNat_lt
  rw [hnumber] at hlt
  exact absurd hlt (by decide)

end Latin1

/-- Under UTF-8 the bytes of a text are read back; of byte order marks at the front one is dropped.
A sequence that is not valid is refused where its longest valid front part ends. Under Latin-1
nothing is refused, each byte is the character of its number, and ASCII reads as under UTF-8. -/
theorem decode_undoes_encode :
    (∀ s : List Char, s.head? ≠ some '\ufeff' → decode .utf8 (encode s) = .ok s) ∧
      (∀ s : List Char, decode .utf8 (0xEF :: 0xBB :: 0xBF :: encode s) = .ok s) ∧
      (∀ bytes : List UInt8, ¬ WellFormed bytes → ∃ k < bytes.length,
        decode .utf8 bytes = .error k ∧ WellFormed (bytes.take k) ∧
          ∀ j, k < j → ¬ WellFormed (bytes.take j)) ∧
      (∀ bytes : List UInt8, ∃ s, decode .latin1 bytes = .ok s ∧
        s.map Char.toNat = bytes.map UInt8.toNat) ∧
      (∀ bytes bytes' : List UInt8, decode .latin1 bytes = decode .latin1 bytes' →
        bytes = bytes') ∧
      ∀ bytes : List UInt8, (∀ b ∈ bytes, b < 0x80) →
        decode .latin1 bytes = decode .utf8 bytes := by
  refine ⟨fun s hs => ?_, fun s => ?_, fun bytes hbytes => ?_, fun bytes => ?_,
    fun bytes bytes' hsame => ?_, fun bytes hascii => ?_⟩
  · rw [decode_utf8_encode, dropMark_of_head?_ne hs]
  · rw [← encode_mark, decode_utf8_encode, dropMark, if_pos rfl]
  · obtain ⟨k, hk, -⟩ := Utf8.exists_error_of_not_wellFormed hbytes
    obtain ⟨hlt, hfront, hlonger⟩ := Utf8.decode_eq_error_iff.1 hk
    exact ⟨k, hlt, decode_utf8_eq_error_iff.2 hk, hfront, hlonger⟩
  · exact ⟨_, rfl, map_toNat_latin1 bytes⟩
  · have hnumbers := congrArg (List.map Char.toNat) (Except.ok.inj hsame)
    rw [map_toNat_latin1, map_toNat_latin1] at hnumbers
    exact List.map_injective_iff.2 (fun _ _ => UInt8.toNat_inj.1) hnumbers
  · have hutf8 := decode_utf8_encode (bytes.map fun b => Char.ofNat b.toNat)
    rw [encode_latin1_of_ascii hascii, dropMark_of_head?_ne head?_latin1_ne_mark] at hutf8
    rw [hutf8]
    rfl

/-- A text without a mark, one that begins with a mark of its own behind the mark of the file, a
surrogate behind a letter, and ASCII. -/
theorem decode_undoes_encode_surrogate :
    ['é', '€'].head? ≠ some '\ufeff' ∧ decode .utf8 (encode ['é', '€']) = .ok ['é', '€'] ∧
      decode .utf8 (0xEF :: 0xBB :: 0xBF :: encode ['\ufeff', 'a']) = .ok ['\ufeff', 'a'] ∧
      ¬ WellFormed [0x61, 0xED, 0xA0, 0x80] ∧
      (∃ k < 4, decode .utf8 [0x61, 0xED, 0xA0, 0x80] = .error k ∧
        WellFormed ([0x61, 0xED, 0xA0, 0x80].take k) ∧
        ∀ j, k < j → ¬ WellFormed ([0x61, 0xED, 0xA0, 0x80].take j)) ∧
      (∀ b ∈ ([0x61, 0x62] : List UInt8), b < 0x80) ∧
      decode .latin1 [0x61, 0x62] = decode .utf8 [0x61, 0x62] := by
  obtain ⟨hread, hmark, hrefused, -, -, hascii⟩ := decode_undoes_encode
  have hplain : ['é', '€'].head? ≠ some '\ufeff' := by decide
  have hletters : ∀ b ∈ ([0x61, 0x62] : List UInt8), b < 0x80 := by decide +kernel
  have hsurrogate : ¬ WellFormed [0x61, 0xED, 0xA0, 0x80] := by
    have herror : Utf8.decode [0x61, 0xED, 0xA0, 0x80] = .error 1 := by decide +kernel
    exact (Utf8.decode_eq_error_iff.1 herror).2.2 4 (by decide)
  exact ⟨hplain, hread _ hplain, hmark _, hsurrogate, hrefused _ hsurrogate, hletters,
    hascii _ hletters⟩

end SourceGauge.Text.Encoding
