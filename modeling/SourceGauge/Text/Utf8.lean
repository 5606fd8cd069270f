import SourceGauge.Number.Power

/-! UTF-8. A character is read by way of the code point that the leading bytes suggest; it
counts only if its own encoding is what the bytes begin with. -/
namespace SourceGauge.Text.Utf8

/-- The low bits that the `i`-th byte contributes; a missing byte contributes none. -/
def payload (bytes : List UInt8) (i size : Nat) : Nat := (bytes[i]?.getD 0).toNat % size

/-- The code point that a sequence of the length announced by its first byte would have. -/
def candidate (bytes : List UInt8) : Nat :=
  let lead := (bytes.headD 0).toNat
  let tail (i : Nat) := payload bytes i 64
  if lead < 0xC0 then lead % 0x80
  else if lead < 0xE0 then payload bytes 0 32 * 64 + tail 1
  else if lead < 0xF0 then payload bytes 0 16 * 64 ^ 2 + tail 1 * 64 + tail 2
  else payload bytes 0 8 * 64 ^ 3 + tail 1 * 64 ^ 2 + tail 2 * 64 + tail 3

/-- The character whose encoding the bytes begin with. -/
def readChar? (bytes : List UInt8) : Option Char :=
  let c := Char.ofNat (candidate bytes)
  if (String.utf8EncodeChar c).isPrefixOf bytes then some c else none

/-- The characters of a byte sequence that begins at `offset`, or the offset of the first byte
at which no character begins. -/
def decodeFrom (offset : Nat) : List UInt8 → Except Nat (List Char)
  | [] => .ok []
  | b :: rest =>
    match readChar? (b :: rest) with
    | none => .error offset
    | some c =>
      (decodeFrom (offset + c.utf8Size) (rest.drop (c.utf8Size - 1))).map (c :: ·)
termination_by bytes => bytes.length
decreasing_by simp only [List.length_drop, List.length_cons]; omega

def decode (bytes : List UInt8) : Except Nat (List Char) := decodeFrom 0 bytes

def encode (cs : List Char) : List UInt8 := cs.flatMap String.utf8EncodeChar

example : readChar? [0xE2, 0x82, 0xAC] = some '€' := by decide
example : readChar? [0xE0, 0x80, 0x80] = none := by decide
example : readChar? [0xED, 0xA0, 0x80] = none := by decide
example : readChar? [0xF4, 0x90, 0x80, 0x80] = none := by decide

end SourceGauge.Text.Utf8
