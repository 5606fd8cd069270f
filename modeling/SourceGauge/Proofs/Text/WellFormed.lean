import Mathlib
import SourceGauge.Proofs.Text.Utf8

/-! Valid UTF-8, said without the reader: a table gives the ranges of the bytes of one character,
and a text is the bytes of characters one after the other. Decoding accepts exactly this, and a
sequence that is refused is refused at the end of its longest valid front part. -/
namespace SourceGauge.Text.Utf8
open String (utf8EncodeChar)

/-- The ranges of the bytes of one character, first byte first. Overlong forms, surrogates and
numbers above the last code point are in none of the rows. -/
def characterRanges : List (List (Nat × Nat)) :=
  [[(0x00, 0x7F)],
    [(0xC2, 0xDF), (0x80, 0xBF)],
    [(0xE0, 0xE0), (0xA0, 0xBF), (0x80, 0xBF)],
    [(0xE1, 0xEC), (0x80, 0xBF), (0x80, 0xBF)],
    [(0xED, 0xED), (0x80, 0x9F), (0x80, 0xBF)],
    [(0xEE, 0xEF), (0x80, 0xBF), (0x80, 0xBF)],
    [(0xF0, 0xF0), (0x90, 0xBF), (0x80, 0xBF), (0x80, 0xBF)],
    [(0xF1, 0xF3), (0x80, 0xBF), (0x80, 0xBF), (0x80, 0xBF)],
    [(0xF4, 0xF4), (0x80, 0x8F), (0x80, 0xBF), (0x80, 0xBF)]]

def InRange (b : UInt8) (range : Nat × Nat) : Prop := range.1 ≤ b.toNat ∧ b.toNat ≤ range.2

def IsCharacter (bytes : List UInt8) : Prop :=
  ∃ ranges ∈ characterRanges, List.Forall₂ InRange bytes ranges

/-- The bytes of characters, one character after the other. -/
inductive WellFormed : List UInt8 → Prop
  | nil : WellFormed []
  | append {bytes rest : List UInt8} (hbytes : IsCharacter bytes) (hrest : WellFormed rest) :
      WellFormed (bytes ++ rest)

section Character

theorem isCharacter_utf8EncodeChar (c : Char) : IsCharacter (utf8EncodeChar c) := by
  have hvalid := c.valid
  simp only [UInt32.isValidChar, Nat.isValidChar] at hvalid
  unfold String.utf8EncodeChar
  generalize c.val.toNat = v at *
  dsimp only
  split
  · refine ⟨[(0x00, 0x7F)], by decide, ?_⟩
    simp [InRange]
    omega
  split
  · refine ⟨[(0xC2, 0xDF), (0x80, 0xBF)], by decide, ?_⟩
    simp [InRange]
    omega
  split
  -- Of three bytes the second one is bounded above the overlong forms and below the surrogates.
  · rcases (by omega : v < 0x1000 ∨ 0x1000 ≤ v ∧ v < 0xD000 ∨ 0xD000 ≤ v ∧ v < 0xD800 ∨
      0xE000 ≤ v) with h | h | h | h
    · refine ⟨[(0xE0, 0xE0), (0xA0, 0xBF), (0x80, 0xBF)], by decide, ?_⟩
      simp [InRange]
      omega
    · refine ⟨[(0xE1, 0xEC), (0x80, 0xBF), (0x80, 0xBF)], by decide, ?_⟩
      simp [InRange]
      omega
    · refine ⟨[(0xED, 0xED), (0x80, 0x9F), (0x80, 0xBF)], by decide, ?_⟩
      simp [InRange]
      omega
    · refine ⟨[(0xEE, 0xEF), (0x80, 0xBF), (0x80, 0xBF)], by decide, ?_⟩
      simp [InRange]
      omega
  · rcases (by omega : v < 0x40000 ∨ 0x40000 ≤ v ∧ v < 0x100000 ∨ 0x100000 ≤ v) with h | h | h
    · refine ⟨[(0xF0, 0xF0), (0x90, 0xBF), (0x80, 0xBF), (0x80, 0xBF)], by decide, ?_⟩
      simp [InRange]
      omega
    · refine ⟨[(0xF1, 0xF3), (0x80, 0xBF), (0x80, 0xBF), (0x80, 0xBF)], by decide, ?_⟩
      simp [InRange]
      omega
    · refine ⟨[(0xF4, 0xF4), (0x80, 0x8F), (0x80, 0xBF), (0x80, 0xBF)], by decide, ?_⟩
      simp [InRange]
      omega

theorem exists_toNat_eq {n : Nat} (h : n.isValidChar) : ∃ c : Char, c.val.toNat = n :=
  ⟨Char.ofNat n, by rw [Char.ofNat, dif_pos h]; rfl⟩

variable {b₀ b₁ b₂ b₃ : UInt8}

theorem exists_char_of_one (h₀ : b₀.toNat ≤ 0x7F) : ∃ c, utf8EncodeChar c = [b₀] := by
  obtain ⟨c, hc⟩ := @exists_toNat_eq b₀.toNat (by unfold Nat.isValidChar; omega)
  refine ⟨c, ?_⟩
  unfold String.utf8EncodeChar
  rw [hc, if_pos h₀]
  simp

theorem exists_char_of_two (h₀ : 0xC2 ≤ b₀.toNat ∧ b₀.toNat ≤ 0xDF)
    (h₁ : 0x80 ≤ b₁.toNat ∧ b₁.toNat ≤ 0xBF) : ∃ c, utf8EncodeChar c = [b₀, b₁] := by
  obtain ⟨c, hc⟩ := @exists_toNat_eq (b₀.toNat % 32 * 64 + b₁.toNat % 64)
    (by unfold Nat.isValidChar; omega)
  refine ⟨c, ?_⟩
  unfold String.utf8EncodeChar
  rw [hc]
  dsimp only
  rw [if_neg (by omega), if_pos (by omega)]
  simp [← UInt8.toNat_inj]
  omega

/-- Three bytes are a character, unless it has a shorter form or would be a surrogate. -/
theorem exists_char_of_three (h₀ : 0xE0 ≤ b₀.toNat ∧ b₀.toNat ≤ 0xEF)
    (h₁ : 0x80 ≤ b₁.toNat ∧ b₁.toNat ≤ 0xBF) (h₂ : 0x80 ≤ b₂.toNat ∧ b₂.toNat ≤ 0xBF)
    (hlong : b₀.toNat = 0xE0 → 0xA0 ≤ b₁.toNat)
    (hsurrogate : b₀.toNat = 0xED → b₁.toNat ≤ 0x9F) :
    ∃ c, utf8EncodeChar c = [b₀, b₁, b₂] := by
  obtain ⟨c, hc⟩ := @exists_toNat_eq
    (b₀.toNat % 16 * 4096 + b₁.toNat % 64 * 64 + b₂.toNat % 64)
    (by unfold Nat.isValidChar; omega)
  refine ⟨c, ?_⟩
  unfold String.utf8EncodeChar
  rw [hc]
  dsimp only
  rw [if_neg (by omega), if_neg (by omega), if_pos (by omega)]
  simp [← UInt8.toNat_inj]
  omega

/-- Four bytes are a character, unless it has a shorter form or its number would be too large. -/
theorem exists_char_of_four (h₀ : 0xF0 ≤ b₀.toNat ∧ b₀.toNat ≤ 0xF4)
    (h₁ : 0x80 ≤ b₁.toNat ∧ b₁.toNat ≤ 0xBF) (h₂ : 0x80 ≤ b₂.toNat ∧ b₂.toNat ≤ 0xBF)
    (h₃ : 0x80 ≤ b₃.toNat ∧ b₃.toNat ≤ 0xBF) (hlong : b₀.toNat = 0xF0 → 0x90 ≤ b₁.toNat)
    (hlast : b₀.toNat = 0xF4 → b₁.toNat ≤ 0x8F) :
    ∃ c, utf8EncodeChar c = [b₀, b₁, b₂, b₃] := by
  obtain ⟨c, hc⟩ := @exists_toNat_eq
    (b₀.toNat % 8 * 262144 + b₁.toNat % 64 * 4096 + b₂.toNat % 64 * 64 + b₃.toNat % 64)
    (by unfold Nat.isValidChar; omega)
  refine ⟨c, ?_⟩
  unfold String.utf8EncodeChar
  rw [hc]
  dsimp only
  rw [if_neg (by omega), if_neg (by omega), if_neg (by omega)]
  simp [← UInt8.toNat_inj]
  omega

/-- The table holds the bytes of every character, and no other bytes. -/
theorem isCharacter_iff {bytes : List UInt8} :
    IsCharacter bytes ↔ ∃ c, utf8EncodeChar c = bytes := by
  constructor
  · rintro ⟨ranges, hranges, hbytes⟩
    simp only [characterRanges, List.mem_cons, List.not_mem_nil, or_false] at hranges
    rcases hranges with rfl | rfl | rfl | rfl | rfl | rfl | rfl | rfl | rfl <;>
      simp only [List.forall₂_cons_right_iff, List.forall₂_nil_right_iff] at hbytes
    · obtain ⟨b₀, _, h₀, rfl, rfl⟩ := hbytes
      exact exists_char_of_one h₀.2
    · obtain ⟨b₀, _, h₀, ⟨b₁, _, h₁, rfl, rfl⟩, rfl⟩ := hbytes
      exact exists_char_of_two h₀ h₁
    iterate 4
      · obtain ⟨b₀, _, h₀, ⟨b₁, _, h₁, ⟨b₂, _, h₂, rfl, rfl⟩, rfl⟩, rfl⟩ := hbytes
        unfold InRange at *
        apply exists_char_of_three <;> omega
    iterate 3
      · obtain ⟨b₀, _, h₀, ⟨b₁, _, h₁, ⟨b₂, _, h₂, ⟨b₃, _, h₃, rfl, rfl⟩, rfl⟩, rfl⟩, rfl⟩ :=
          hbytes
        unfold InRange at *
        apply exists_char_of_four <;> omega
  · rintro ⟨c, rfl⟩
    exact isCharacter_utf8EncodeChar c

theorem wellFormed_iff_exists_encode {bytes : List UInt8} :
    WellFormed bytes ↔ ∃ cs, encode cs = bytes := by
  constructor
  · intro h
    induction h with
    | nil => exact ⟨[], rfl⟩
    | append hbytes _ ih =>
      obtain ⟨c, rfl⟩ := isCharacter_iff.1 hbytes
      obtain ⟨cs, rfl⟩ := ih
      exact ⟨c :: cs, encode_cons c cs⟩
  · rintro ⟨cs, rfl⟩
    induction cs with
    | nil => exact .nil
    | cons c cs ih =>
      rw [encode_cons]
      exact .append (isCharacter_utf8EncodeChar c) ih

end Character

section Decode
variable {bytes : List UInt8}

theorem prefix_of_readChar? {c : Char} (h : readChar? bytes = some c) :
    utf8EncodeChar c <+: bytes := by
  rw [readChar?] at h
  split at h
  case isTrue hfront =>
    obtain rfl := Option.some.inj h
    exact List.isPrefixOf_iff_prefix.1 hfront
  case isFalse => cases h

/-- A sequence is the bytes of some characters, or it is refused behind the last of them. -/
theorem decodeFrom_cases (offset : Nat) (bytes : List UInt8) :
    (∃ cs, decodeFrom offset bytes = .ok cs ∧ encode cs = bytes) ∨
      ∃ cs rest, decodeFrom offset bytes = .error (offset + (encode cs).length) ∧
        encode cs ++ rest = bytes ∧ rest ≠ [] := by
  fun_induction decodeFrom offset bytes with
  | case1 offset => exact .inl ⟨[], rfl, rfl⟩
  | case2 offset b rest hread =>
    exact .inr ⟨[], b :: rest, rfl, rfl, List.cons_ne_nil b rest⟩
  | case3 offset b rest c hread ih =>
    obtain ⟨tail, htail⟩ := prefix_of_readChar? hread
    have hdrop : rest.drop (c.utf8Size - 1) = tail := by
      obtain ⟨n, hn⟩ := Nat.exists_eq_add_of_le' c.utf8Size_pos
      have hsize := String.length_utf8EncodeChar c
      rw [hn] at hsize ⊢
      rw [Nat.add_sub_cancel, ← List.drop_succ_cons (a := b), ← htail, ← hsize, List.drop_left]
    rw [hdrop] at ih ⊢
    rcases ih with ⟨cs, hcs, rfl⟩ | ⟨cs, back, hcs, rfl, hback⟩
    · refine .inl ⟨c :: cs, ?_, by rw [encode_cons, htail]⟩
      rw [hcs]
      rfl
    · refine .inr ⟨c :: cs, back, ?_, by rw [encode_cons, List.append_assoc, htail], hback⟩
      rw [hcs, length_encode_cons, ← Nat.add_assoc]
      rfl

theorem decode_eq_ok_iff {cs : List Char} : decode bytes = .ok cs ↔ encode cs = bytes := by
  constructor
  · intro h
    rcases decodeFrom_cases 0 bytes with ⟨ds, hds, rfl⟩ | ⟨ds, rest, hds, -⟩
    · rw [Except.ok.inj (h.symm.trans hds)]
    · cases h.symm.trans hds
  · rintro rfl
    exact decode_encode cs

/-- A valid front part is read in any case. -/
theorem le_of_decodeFrom_eq_error {offset k : Nat} (h : decodeFrom offset bytes = .error k) :
    offset ≤ k := by
  rcases decodeFrom_cases offset bytes with ⟨cs, hcs, -⟩ | ⟨cs, rest, hcs, -⟩
  · cases h.symm.trans hcs
  · rw [Except.error.inj (h.symm.trans hcs)]
    exact Nat.le_add_right _ _

/-- Bytes that are refused are not part of a longer valid front part. -/
theorem not_wellFormed_take {j k : Nat} (h : decode bytes = .error k) (hk : k < bytes.length)
    (hj : k < j) : ¬ WellFormed (bytes.take j) := by
  intro hfront
  obtain ⟨ds, hds⟩ := wellFormed_iff_exists_encode.1 hfront
  have hlength : (encode ds).length = min j bytes.length := by rw [hds, List.length_take]
  rw [← List.take_append_drop j bytes, ← hds, decode, decodeFrom_encode_append] at h
  cases hrest : decodeFrom (0 + (encode ds).length) (bytes.drop j) with
  | ok cs =>
    rw [hrest] at h
    cases h
  | error i =>
    rw [hrest] at h
    obtain rfl := Except.error.inj h
    have hle := le_of_decodeFrom_eq_error hrest
    omega

theorem exists_error_of_not_wellFormed (h : ¬ WellFormed bytes) :
    ∃ k, decode bytes = .error k ∧ k < bytes.length ∧ WellFormed (bytes.take k) := by
  rcases decodeFrom_cases 0 bytes with ⟨cs, -, rfl⟩ | ⟨cs, rest, hcs, rfl, hne⟩
  · exact (h (wellFormed_iff_exists_encode.2 ⟨cs, rfl⟩)).elim
  · refine ⟨(encode cs).length, by rw [decode, hcs, Nat.zero_add], ?_, ?_⟩
    · rw [List.length_append]
      exact Nat.lt_add_of_pos_right (List.length_pos_of_ne_nil hne)
    · rw [List.take_left]
      exact wellFormed_iff_exists_encode.2 ⟨cs, rfl⟩

/-- A sequence that is not valid is refused at the end of its longest valid front part. -/
theorem decode_eq_error_iff {k : Nat} : decode bytes = .error k ↔
    k < bytes.length ∧ WellFormed (bytes.take k) ∧ ∀ j, k < j → ¬ WellFormed (bytes.take j) := by
  have hlast (i : Nat) (hi : i < bytes.length)
      (hlonger : ∀ j, i < j → ¬ WellFormed (bytes.take j)) : ¬ WellFormed bytes := by
    have hall := hlonger bytes.length hi
    rwa [List.take_length] at hall
  constructor
  · intro h
    have hinvalid : ¬ WellFormed bytes := by
      intro hvalid
      obtain ⟨cs, hcs⟩ := wellFormed_iff_exists_encode.1 hvalid
      cases h.symm.trans (decode_eq_ok_iff.2 hcs)
    obtain ⟨i, hi, hlt, hfront⟩ := exists_error_of_not_wellFormed hinvalid
    obtain rfl := Except.error.inj (h.symm.trans hi)
    exact ⟨hlt, hfront, fun j => not_wellFormed_take h hlt⟩
  · rintro ⟨hlt, hfront, hlonger⟩
    obtain ⟨i, hi, hilt, hifront⟩ := exists_error_of_not_wellFormed (hlast k hlt hlonger)
    -- Of two ends of valid front parts neither lies behind the other.
    rcases Nat.lt_trichotomy i k with hik | rfl | hki
    · exact (not_wellFormed_take hi hilt hik hfront).elim
    · exact hi
    · exact (hlonger i hki hifront).elim

end Decode
end SourceGauge.Text.Utf8
