import Mathlib
import SourceGauge.Proofs.Text.Utf8
import SourceGauge.Scala.Lexeme
import SourceGauge.Scala.Scanner

/-! What byte steps of a scanner amount to in characters. One step passes an ASCII character. In any
other character a scan that goes on through bytes outside ASCII passes all bytes of it, and one that
stops there has not entered it. -/
namespace SourceGauge.Scala
open String (utf8EncodeChar)
open Text.Utf8 (encode encode_cons encode_append decode_encode readChar?_append bytes_of_ascii
  bytes_of_wide wide_of_mem)

/-- A place between two characters, with the characters ahead. -/
structure Place where
  chars : List Char
  offset : Nat
  position : Position

namespace Place

def scanner (a : Place) : Scanner := ⟨encode a.chars, a.offset, a.position⟩

/-- The place after the next character. -/
def next (a : Place) : Place :=
  match a.chars with
  | [] => a
  | c :: cs => ⟨cs, a.offset + c.utf8Size, a.position.advance c cs.head?⟩

def skip (n : Nat) (a : Place) : Place := next^[n] a

@[simp] theorem skip_zero (a : Place) : a.skip 0 = a := rfl

theorem skip_succ (n : Nat) (a : Place) : a.skip (n + 1) = a.next.skip n := rfl

theorem skip_add (m n : Nat) (a : Place) : a.skip (m + n) = (a.skip m).skip n := by
  unfold skip
  rw [Nat.add_comm, Function.iterate_add_apply]

theorem chars_skip (n : Nat) (a : Place) : (a.skip n).chars = a.chars.drop n := by
  induction n generalizing a with
  | zero => rfl
  | succ n ih =>
    obtain ⟨cs, k, p⟩ := a
    rw [skip_succ, ih]
    cases cs <;> simp [next]

theorem offset_skip (n : Nat) (a : Place) :
    (a.skip n).offset = a.offset + (encode (a.chars.take n)).length := by
  induction n generalizing a with
  | zero => rfl
  | succ n ih =>
    obtain ⟨cs, k, p⟩ := a
    rw [skip_succ, ih]
    cases cs with
    | nil => simp [next]
    | cons c cs => simp [next, encode_cons, Nat.add_assoc]

theorem position_skip (n : Nat) (a : Place) :
    (a.skip n).position = a.position.advanceAll (a.chars.take n) (a.chars.drop n) := by
  induction n generalizing a with
  | zero => rfl
  | succ n ih =>
    obtain ⟨cs, k, p⟩ := a
    rw [skip_succ, ih]
    cases cs with
    | nil => simp [next, Position.advanceAll]
    | cons c cs =>
      have hhead : (cs.take n).head?.or (cs.drop n).head? = cs.head? := by
        rw [← List.head?_append, List.take_append_drop]
      simp only [next, List.take_succ_cons, List.drop_succ_cons, Position.advanceAll, hhead]

end Place

theorem toNat_ofUInt8 (b : UInt8) : (Char.ofUInt8 b).toNat = b.toNat := by
  simp [Char.ofUInt8, Char.toNat]

theorem ofUInt8_ofNat {c : Char} (h : c.toNat < 0x80) : Char.ofUInt8 (UInt8.ofNat c.toNat) = c := by
  apply Char.toNat_inj.1
  rw [toNat_ofUInt8, UInt8.toNat_ofNat']
  omega

theorem ne_of_wide {c d : Char} (h : 0x80 ≤ c.toNat) (hd : d.toNat < 0x80) : c ≠ d := by
  rintro rfl
  omega

namespace Lexeme

theorem runLength_cons (q : Char → Bool) (c : Char) (cs : List Char) :
    runLength q (c :: cs) = if q c then 1 + runLength q cs else 0 := by
  simp only [runLength, List.takeWhile_cons]
  split
  · rw [List.length_cons, Nat.add_comm]
  · rfl

theorem drop_runLength (q : Char → Bool) (cs : List Char) :
    cs.drop (runLength q cs) = cs.dropWhile q := by
  have hsplit := List.takeWhile_append_dropWhile (p := q) (l := cs)
  calc
    cs.drop (runLength q cs) = (cs.takeWhile q ++ cs.dropWhile q).drop (cs.takeWhile q).length := by
      rw [hsplit, runLength]
    _ = cs.dropWhile q := List.drop_left

end Lexeme

namespace Scanner

section Steps
variable {c : Char} {cs : List Char} {k : Nat} {p : Position}

theorem peek_nil (n : Nat) : (Place.scanner ⟨[], k, p⟩).peek n = none := rfl

theorem peek_ascii (h : c.toNat < 0x80) : (Place.scanner ⟨c :: cs, k, p⟩).peek 0 = some c := by
  simp [Place.scanner, peek, encode_cons, bytes_of_ascii h, ofUInt8_ofNat h]

theorem peek_wide (cs : List Char) (k : Nat) (p : Position) (h : 0x80 ≤ c.toNat) :
    ∃ d, (Place.scanner ⟨c :: cs, k, p⟩).peek 0 = some d ∧ 0x80 ≤ d.toNat := by
  obtain ⟨b, bs, hbytes, hb, _⟩ := bytes_of_wide h
  refine ⟨Char.ofUInt8 b, by simp [Place.scanner, peek, encode_cons, hbytes], ?_⟩
  rw [toNat_ofUInt8]
  omega

theorem peek_succ (h : c.toNat < 0x80) (n : Nat) :
    (Place.scanner ⟨c :: cs, k, p⟩).peek (n + 1) = (Place.next ⟨c :: cs, k, p⟩).scanner.peek n := by
  simp [Place.scanner, Place.next, peek, encode_cons, bytes_of_ascii h]

/-- An ASCII character is seen at the head of the bytes just when it is the next character. -/
theorem peek_eq_some_iff (a : Place) {d : Char} (hd : d.toNat < 0x80) :
    a.scanner.peek 0 = some d ↔ a.chars.head? = some d := by
  obtain ⟨cs, k, p⟩ := a
  cases cs with
  | nil => simp [peek_nil]
  | cons c cs =>
    by_cases hc : c.toNat < 0x80
    · simp [peek_ascii hc]
    · obtain ⟨e, he, hwide⟩ := peek_wide cs k p (Nat.le_of_not_lt hc)
      simp [he, ne_of_wide hwide hd, ne_of_wide (Nat.le_of_not_lt hc) hd]

theorem any_peek {q : Char → Bool} (hq : ∀ c : Char, 0x80 ≤ c.toNat → q c = false) (a : Place) :
    (a.scanner.peek 0).any q = a.chars.head?.any q := by
  obtain ⟨cs, k, p⟩ := a
  cases cs with
  | nil => simp [peek_nil]
  | cons c cs =>
    by_cases hc : c.toNat < 0x80
    · simp [peek_ascii hc]
    · obtain ⟨d, hd, hwide⟩ := peek_wide cs k p (Nat.le_of_not_lt hc)
      simp [hd, hq d hwide, hq c (Nat.le_of_not_lt hc)]

theorem peek_utf8Size (c : Char) (cs : List Char) (k : Nat) (p : Position) :
    (Place.scanner ⟨c :: cs, k, p⟩).peek c.utf8Size =
      (Place.next ⟨c :: cs, k, p⟩).scanner.peek 0 := by
  simp only [Place.scanner, Place.next, peek, encode_cons]
  rw [← String.length_utf8EncodeChar, List.getElem?_append_right (Nat.le_refl _), Nat.sub_self]

theorem bump_ascii (h : c.toNat < 0x80) :
    (Place.scanner ⟨c :: cs, k, p⟩).bump = (Place.next ⟨c :: cs, k, p⟩).scanner := by
  have hsize : c.utf8Size = 1 := by
    rw [← String.length_utf8EncodeChar, bytes_of_ascii h]
    rfl
  have hnext : (Place.next ⟨c :: cs, k, p⟩).scanner.peek 0 = some '\n' ↔ cs.head? = some '\n' :=
    peek_eq_some_iff _ (by decide)
  have htail : (encode (c :: cs)).tail = encode cs := by
    simp [encode_cons, bytes_of_ascii h]
  simp only [bump, peek_ascii h, peek_succ h 0, ne_eq, hnext]
  simp [Place.scanner, Place.next, Position.advance, htail, hsize]

/-- A byte outside ASCII moves the column by one. -/
theorem bump_wide {s : Scanner} {d : Char} (h : s.peek 0 = some d) (hd : 0x80 ≤ d.toNat) :
    s.bump = ⟨s.rest.tail, s.offset + 1, ⟨s.position.line, s.position.column + 1⟩⟩ := by
  simp [bump, h, ne_of_wide hd (d := '\n') (by decide), ne_of_wide hd (d := '\r') (by decide)]

theorem bumps_succ (n : Nat) (s : Scanner) : bumps (n + 1) s = (bumps n s).bump := by
  induction n generalizing s with
  | zero => rfl
  | succ n ih => exact ih s.bump

theorem bumps_wide (bs rest : List UInt8) (hbs : ∀ b ∈ bs, 0x80 ≤ b.toNat) (k : Nat)
    (p : Position) :
    bumps bs.length ⟨bs ++ rest, k, p⟩ = ⟨rest, k + bs.length, ⟨p.line, p.column + bs.length⟩⟩ := by
  induction bs generalizing k p with
  | nil => rfl
  | cons b bs ih =>
    have hpeek : (⟨b :: bs ++ rest, k, p⟩ : Scanner).peek 0 = some (Char.ofUInt8 b) := rfl
    have hwide : 0x80 ≤ (Char.ofUInt8 b).toNat := by
      rw [toNat_ofUInt8]
      exact hbs b List.mem_cons_self
    have hrest := ih (fun x hx => hbs x (List.mem_cons_of_mem b hx)) (k + 1) ⟨p.line, p.column + 1⟩
    rw [List.length_cons, bumps, bump_wide hpeek hwide]
    simpa [Nat.add_assoc, Nat.add_comm 1] using hrest

/-- As many steps as a character has bytes pass the character. -/
theorem bumps_utf8Size (c : Char) (cs : List Char) (k : Nat) (p : Position) :
    bumps c.utf8Size (Place.scanner ⟨c :: cs, k, p⟩) = (Place.next ⟨c :: cs, k, p⟩).scanner := by
  rw [← String.length_utf8EncodeChar]
  by_cases hc : c.toNat < 0x80
  · rw [bytes_of_ascii hc]
    exact bump_ascii hc
  · have hwide := Nat.le_of_not_lt hc
    have := bumps_wide (utf8EncodeChar c) (encode cs) (wide_of_mem hwide) k p
    rw [← encode_cons] at this
    simpa [Place.scanner, Place.next, Position.advance, ne_of_wide hwide] using this

theorem eq_of_bumps {α : Type} {f : Scanner → α}
    (hf : ∀ s d, s.peek 0 = some d → 0x80 ≤ d.toNat → f s = f s.bump) (bs rest : List UInt8)
    (hbs : ∀ b ∈ bs, 0x80 ≤ b.toNat) (s : Scanner) (hs : s.rest = bs ++ rest) :
    f s = f (bumps bs.length s) := by
  induction bs generalizing s with
  | nil => rfl
  | cons b bs ih =>
    have hpeek : s.peek 0 = some (Char.ofUInt8 b) := by simp [peek, hs]
    have hwide : 0x80 ≤ (Char.ofUInt8 b).toNat := by
      rw [toNat_ofUInt8]
      exact hbs b List.mem_cons_self
    have htail : s.bump.rest = bs ++ rest := by simp [bump_wide hpeek hwide, hs]
    rw [hf s _ hpeek hwide]
    exact ih (fun x hx => hbs x (List.mem_cons_of_mem b hx)) s.bump htail

/-- A scan that every byte outside ASCII leaves as it is passes a whole character of them. -/
theorem eq_of_wide {α : Type} {f : Scanner → α}
    (hf : ∀ s d, s.peek 0 = some d → 0x80 ≤ d.toNat → f s = f s.bump) (h : 0x80 ≤ c.toNat) :
    f (Place.scanner ⟨c :: cs, k, p⟩) = f (Place.next ⟨c :: cs, k, p⟩).scanner := by
  -- the scan may be moved on byte by byte, and after the last byte it stands behind the character
  rw [eq_of_bumps hf (utf8EncodeChar c) (encode cs) (wide_of_mem h) _ (encode_cons c cs),
    String.length_utf8EncodeChar, bumps_utf8Size]

/-- Such a scan does not mind either when the first byte of the character has been taken already. -/
theorem eq_of_bump {α : Type} {f : Scanner → α}
    (hf : ∀ s d, s.peek 0 = some d → 0x80 ≤ d.toNat → f s = f s.bump) :
    f (Place.scanner ⟨c :: cs, k, p⟩).bump = f (Place.next ⟨c :: cs, k, p⟩).scanner := by
  by_cases hc : c.toNat < 0x80
  · rw [bump_ascii hc]
  · obtain ⟨d, hd, hwide⟩ := peek_wide cs k p (Nat.le_of_not_lt hc)
    rw [← hf _ d hd hwide, eq_of_wide hf (Nat.le_of_not_lt hc)]

end Steps

/-- A predicate that does not tell characters outside ASCII apart. -/
def Uniform (p : Char → Bool) : Prop := ∃ v, ∀ c : Char, 0x80 ≤ c.toNat → p c = v

theorem bumpWhile_eq {p : Char → Bool} (hp : Uniform p) (a : Place) :
    a.scanner.bumpWhile p = (a.skip (Lexeme.runLength p a.chars)).scanner := by
  obtain ⟨v, hv⟩ := hp
  obtain ⟨cs, k, q⟩ := a
  induction cs generalizing k q with
  | nil => simp [bumpWhile, peek_nil, Lexeme.runLength]
  | cons c cs ih =>
    have hnext : (Place.next ⟨c :: cs, k, q⟩).scanner.bumpWhile p =
        ((Place.next ⟨c :: cs, k, q⟩).skip (Lexeme.runLength p cs)).scanner := ih _ _
    rw [Lexeme.runLength_cons]
    by_cases hc : c.toNat < 0x80
    · rw [bumpWhile_of_peek (peek_ascii hc), bump_ascii hc, hnext]
      split
      · rw [Place.skip_add]
        rfl
      · rfl
    · have hwide := Nat.le_of_not_lt hc
      cases v with
      | false =>
        obtain ⟨d, hd, hdwide⟩ := peek_wide cs k q hwide
        rw [bumpWhile_of_peek hd, hv d hdwide, hv c hwide]
        rfl
      | true =>
        rw [eq_of_wide (f := bumpWhile p) (fun s d hd hdwide => by
          rw [bumpWhile_of_peek hd, if_pos (hv d hdwide)]) hwide, hnext, if_pos (hv c hwide),
          Place.skip_add]
        rfl

theorem atBoundary_encode (cs : List Char) : atBoundary (encode cs) = true := by
  cases cs with
  | nil => rfl
  | cons c cs =>
    rw [encode_cons]
    by_cases hc : c.toNat < 0x80
    · rw [bytes_of_ascii hc]
      simp [atBoundary, UInt8.lt_iff_toNat_lt]
      omega
    · obtain ⟨b, bs, hbytes, hb, _⟩ := bytes_of_wide (Nat.le_of_not_lt hc)
      simp [hbytes, atBoundary, UInt8.le_iff_toNat_le, hb]

/-- A slice between two characters is the text between them. -/
theorem slice_eq (a : Place) (n : Nat) :
    a.scanner.slice (a.skip n).scanner = .ok (String.ofList (a.chars.take n)) := by
  have hsplit : encode a.chars = encode (a.chars.take n) ++ encode (a.chars.drop n) := by
    rw [← encode_append, List.take_append_drop]
  have htake : (encode a.chars).take ((a.skip n).offset - a.offset) = encode (a.chars.take n) := by
    rw [Place.offset_skip, Nat.add_sub_cancel_left, hsplit, List.take_left]
  simp only [slice, Place.scanner, atBoundary_encode, Bool.and_self, if_true, htake, decode_encode]

example :
    (ofBytes (encode ['é'])).slice (ofBytes (encode ['é'])).bump = .error .splitCharacter := by
  decide

theorem sizeAfterNext_eq {c : Char} {cs : List Char} {k : Nat} {p : Position}
    (h : c.toNat < 0x80) :
    (Place.scanner ⟨c :: cs, k, p⟩).sizeAfterNext = .ok ((cs.head?.map Char.utf8Size).getD 0) := by
  have hdrop : (encode (c :: cs)).drop 1 = encode cs := by
    simp [encode_cons, bytes_of_ascii h]
  simp only [sizeAfterNext, Place.scanner, hdrop, atBoundary_encode, if_true]
  cases cs with
  | nil => rfl
  | cons d cs => simp [encode_cons, readChar?_append]

end Scanner
end SourceGauge.Scala
