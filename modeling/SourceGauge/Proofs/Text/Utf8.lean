import Mathlib
import SourceGauge.Text.Utf8

/-! UTF-8 reads back what it writes. A character is ASCII, and then it is one byte, its own number;
or all its bytes lie outside ASCII. -/
namespace SourceGauge.Text.Utf8
open String (utf8EncodeChar)

@[simp] theorem encode_nil : encode [] = [] := rfl

theorem encode_cons (c : Char) (cs : List Char) :
    encode (c :: cs) = utf8EncodeChar c ++ encode cs := by
  simp [encode]

theorem encode_append (cs ds : List Char) : encode (cs ++ ds) = encode cs ++ encode ds := by
  simp [encode]

theorem length_encode_cons (c : Char) (cs : List Char) :
    (encode (c :: cs)).length = c.utf8Size + (encode cs).length := by
  rw [encode_cons, List.length_append, String.length_utf8EncodeChar]

theorem length_encode_append (cs ds : List Char) :
    (encode (cs ++ ds)).length = (encode cs).length + (encode ds).length := by
  rw [encode_append, List.length_append]

theorem length_encode_concat (cs : List Char) (c : Char) :
    (encode (cs ++ [c])).length = (encode cs).length + c.utf8Size := by
  rw [length_encode_append, length_encode_cons]
  rfl

/-- Of two beginnings of a text, the one with fewer bytes begins the other. -/
theorem exists_append_of_length_encode_le {xs ys zs ws : List Char} (h : xs ++ ys = zs ++ ws)
    (hle : (encode xs).length ≤ (encode zs).length) : ∃ cs, zs = xs ++ cs ∧ ys = cs ++ ws := by
  rcases List.append_eq_append_iff.1 h with ⟨cs, hzs, hys⟩ | ⟨cs, hxs, hws⟩
  · exact ⟨cs, hzs, hys⟩
  · cases cs with
    | nil => exact ⟨[], by simp [hxs], by simpa using hws.symm⟩
    | cons c cs =>
      rw [hxs, length_encode_append, length_encode_cons] at hle
      have := c.utf8Size_pos
      omega

/-- Each byte of a text belongs to one of its characters. -/
theorem exists_char_of_lt_length_encode {cs : List Char} {j : Nat} (h : j < (encode cs).length) :
    ∃ part c rest, cs = part ++ c :: rest ∧ (encode part).length ≤ j ∧
      j < (encode part).length + c.utf8Size := by
  induction cs generalizing j with
  | nil => exact absurd h (Nat.not_lt_zero j)
  | cons c cs ih =>
    rw [length_encode_cons] at h
    by_cases hj : j < c.utf8Size
    · exact ⟨[], c, cs, rfl, Nat.zero_le j, by simpa using hj⟩
    · obtain ⟨part, d, rest, rfl, hle, hlt⟩ := @ih (j - c.utf8Size) (by omega)
      refine ⟨c :: part, d, rest, rfl, ?_, ?_⟩ <;> rw [length_encode_cons] <;> omega

theorem bytes_of_ascii {c : Char} (h : c.toNat < 0x80) :
    utf8EncodeChar c = [UInt8.ofNat c.toNat] :=
  if_pos (Nat.le_of_lt_succ h)

theorem toNat_lt (c : Char) : c.toNat < 0x110000 := by
  have hvalid := c.valid
  change c.val.toNat < _
  simp only [UInt32.isValidChar, Nat.isValidChar] at hvalid
  omega

/-- The bytes of a character outside ASCII: a leading byte, and one to three that follow it. -/
theorem bytes_of_wide {c : Char} (h : 0x80 ≤ c.toNat) :
    ∃ b bs, utf8EncodeChar c = b :: bs ∧ 0xC0 ≤ b.toNat ∧ ∀ x ∈ bs, 0x80 ≤ x.toNat := by
  have hlt := toNat_lt c
  change 0x80 ≤ c.val.toNat at h
  change c.val.toNat < _ at hlt
  unfold String.utf8EncodeChar
  generalize c.val.toNat = v at *
  simp only [show ¬ v ≤ 0x7f by omega, if_false]
  split
  · refine ⟨_, _, rfl, ?_, ?_⟩ <;> simp <;> omega
  · split
    · refine ⟨_, _, rfl, ?_, ?_⟩ <;> simp <;> omega
    · refine ⟨_, _, rfl, ?_, ?_⟩ <;> simp <;> omega

theorem wide_of_mem {c : Char} (h : 0x80 ≤ c.toNat) : ∀ b ∈ utf8EncodeChar c, 0x80 ≤ b.toNat := by
  obtain ⟨b, bs, hbytes, hb, hbs⟩ := bytes_of_wide h
  rw [hbytes]
  intro x hx
  rcases List.mem_cons.1 hx with rfl | hx
  · omega
  · exact hbs x hx

theorem candidate_append (c : Char) (bs : List UInt8) :
    candidate (utf8EncodeChar c ++ bs) = c.toNat := by
  have hlt := toNat_lt c
  change _ = c.val.toNat
  change c.val.toNat < _ at hlt
  unfold String.utf8EncodeChar
  generalize c.val.toNat = v at *
  dsimp only
  split
  · simp [candidate, payload]
    rw [if_pos (by omega)]
    omega
  · split
    · simp [candidate, payload]
      rw [if_neg (by omega), if_pos (by omega)]
      omega
    · split
      · simp [candidate, payload]
        rw [if_neg (by omega), if_neg (by omega), if_pos (by omega)]
        omega
      · simp [candidate, payload]
        rw [if_neg (by omega), if_neg (by omega), if_neg (by omega)]
        omega

theorem readChar?_append (c : Char) (bs : List UInt8) :
    readChar? (utf8EncodeChar c ++ bs) = some c := by
  simp [readChar?, candidate_append, Char.ofNat_toNat]

theorem decodeFrom_append (offset : Nat) (c : Char) (rest : List UInt8) :
    decodeFrom offset (utf8EncodeChar c ++ rest) =
      (decodeFrom (offset + c.utf8Size) rest).map (c :: ·) := by
  have hread := readChar?_append c rest
  have hsize := String.length_utf8EncodeChar c
  cases hbytes : utf8EncodeChar c with
  | nil => exact absurd hbytes String.utf8EncodeChar_ne_nil
  | cons b bs =>
    rw [hbytes] at hread hsize
    have hrest : (bs ++ rest).drop (c.utf8Size - 1) = rest := by
      rw [show c.utf8Size - 1 = bs.length by simp at hsize; omega, List.drop_left]
    rw [List.cons_append] at hread ⊢
    simp only [decodeFrom, hread, hrest]

/-- The characters at the front of a sequence are read, and then what follows them. -/
theorem decodeFrom_encode_append (offset : Nat) (cs : List Char) (rest : List UInt8) :
    decodeFrom offset (encode cs ++ rest) =
      (decodeFrom (offset + (encode cs).length) rest).map (cs ++ ·) := by
  induction cs generalizing offset with
  | nil =>
    rw [encode_nil, List.nil_append, List.length_nil, Nat.add_zero]
    cases decodeFrom offset rest <;> rfl
  | cons c cs ih =>
    rw [encode_cons, List.append_assoc, decodeFrom_append, ih, List.length_append,
      String.length_utf8EncodeChar, Nat.add_assoc]
    cases decodeFrom (offset + (c.utf8Size + (encode cs).length)) rest <;> rfl

theorem decodeFrom_encode (offset : Nat) (cs : List Char) :
    decodeFrom offset (encode cs) = .ok cs := by
  have hcs := decodeFrom_encode_append offset cs []
  rwa [List.append_nil, decodeFrom, Except.map, List.append_nil] at hcs

/-- Decoding reads back every encoded text. -/
theorem decode_encode (cs : List Char) : decode (encode cs) = .ok cs := decodeFrom_encode 0 cs

end SourceGauge.Text.Utf8
