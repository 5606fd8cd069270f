import SourceGauge.Scala.Position
import SourceGauge.Text.Utf8

/-! A scanner over the bytes of a source text. It moves byte by byte, and a token is a slice of the
text between two of its places. A byte is looked at as the character of its own number, so a byte
outside ASCII is looked at as a character outside ASCII. -/
namespace SourceGauge.Scala

/-- A slice that would begin or end inside a character. -/
inductive Fault
  | splitCharacter
  deriving DecidableEq, Repr

/-- The bytes ahead, how many bytes lie behind, and the place in lines and columns. -/
structure Scanner where
  rest : List UInt8
  offset : Nat
  position : Position
  deriving DecidableEq, Repr

namespace Scanner

def ofBytes (bytes : List UInt8) : Scanner := ⟨bytes, 0, .start⟩

def peek (s : Scanner) (n : Nat) : Option Char := s.rest[n]?.map Char.ofUInt8

/-- Takes one byte, if any is left. In CRLF it is the LF that ends the line. -/
def bump (s : Scanner) : Scanner :=
  match s.peek 0 with
  | none => s
  | some c =>
    let ends := c = '\n' || (c = '\r' && s.peek 1 ≠ some '\n')
    { rest := s.rest.tail
      offset := s.offset + 1
      position :=
        if ends then ⟨s.position.line + 1, 0⟩ else ⟨s.position.line, s.position.column + 1⟩ }

def bumps : Nat → Scanner → Scanner
  | 0, s => s
  | n + 1, s => bumps n s.bump

theorem length_bump_lt {s : Scanner} {c : Char} (h : s.peek 0 = some c) :
    s.bump.rest.length < s.rest.length := by
  have hne : s.rest ≠ [] := by
    intro hnil
    simp [peek, hnil] at h
  have hpos := List.length_pos_iff.2 hne
  simp only [bump, h, List.length_tail]
  omega

theorem length_bump_le (s : Scanner) : s.bump.rest.length ≤ s.rest.length := by
  cases h : s.peek 0 with
  | none => simp [bump, h]
  | some c => exact Nat.le_of_lt (length_bump_lt h)

theorem length_bumps_le (n : Nat) (s : Scanner) : (bumps n s).rest.length ≤ s.rest.length := by
  induction n generalizing s with
  | zero => exact Nat.le_refl _
  | succ n ih => exact Nat.le_trans (ih s.bump) s.length_bump_le

/-- Takes bytes as long as they pass `p`. -/
def bumpWhile (p : Char → Bool) (s : Scanner) : Scanner :=
  match _h : s.peek 0 with
  | none => s
  | some c => if p c then bumpWhile p s.bump else s
termination_by s.rest.length
decreasing_by exact length_bump_lt _h

theorem length_bumpWhile_le (p : Char → Bool) (s : Scanner) :
    (s.bumpWhile p).rest.length ≤ s.rest.length := by
  fun_induction bumpWhile p s with
  | case1 => exact Nat.le_refl _
  | case2 s c _ _ ih => exact Nat.le_trans ih s.length_bump_le
  | case3 => exact Nat.le_refl _

theorem match_peek {α : Type} {s : Scanner} {c : Char} (h : s.peek 0 = some c) (atEnd : α)
    (f : Char → α) :
    (match _h : s.peek 0 with
      | none => atEnd
      | some d => f d) = f c := by
  split
  · next hn => simp [h] at hn
  · next d hd => rw [← Option.some.inj (h.symm.trans hd)]

theorem bumpWhile_of_peek {p : Char → Bool} {s : Scanner} {c : Char} (h : s.peek 0 = some c) :
    s.bumpWhile p = if p c then s.bump.bumpWhile p else s := by
  rw [bumpWhile]
  exact match_peek h _ _

/-- No character has its first byte behind this place and its last byte ahead. -/
def atBoundary (bytes : List UInt8) : Bool := bytes.head?.all fun b => b < 0x80 || 0xC0 ≤ b

/-- The text from `s` up to `t`. -/
def slice (s t : Scanner) : Except Fault String :=
  if atBoundary s.rest && atBoundary t.rest then
    match Text.Utf8.decode (s.rest.take (t.offset - s.offset)) with
    | .ok cs => .ok (String.ofList cs)
    | .error _ => .error .splitCharacter
  else .error .splitCharacter

/-- The number of bytes of the character that begins after the next byte, zero at the end. -/
def sizeAfterNext (s : Scanner) : Except Fault Nat :=
  if atBoundary (s.rest.drop 1) then
    .ok (((Text.Utf8.readChar? (s.rest.drop 1)).map Char.utf8Size).getD 0)
  else .error .splitCharacter

end Scanner
end SourceGauge.Scala
