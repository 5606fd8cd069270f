import SourceGauge.Text.Line

/-! Places in a source text: a line counted from 1 and a column counted from 0 in UTF-8 bytes. -/
namespace SourceGauge.Scala

structure Position where
  line : Nat
  column : Nat
  deriving DecidableEq, Repr, Inhabited

namespace Position

def start : Position := ⟨1, 0⟩

/-- The order of reading: by line, then by column. -/
def before (p q : Position) : Bool :=
  p.line < q.line || (p.line = q.line && p.column < q.column)

/-- The place after the character `c`, when `next` follows it. In CRLF it is the LF that ends
the line. -/
def advance (p : Position) (c : Char) (next : Option Char) : Position :=
  if c = '\n' || (c = '\r' && next ≠ some '\n') then ⟨p.line + 1, 0⟩
  else ⟨p.line, p.column + c.utf8Size⟩

/-- The place after the characters of a text, when `rest` follows it. -/
def advanceAll (p : Position) : List Char → List Char → Position
  | [], _ => p
  | c :: cs, rest => (p.advance c (cs.head?.or rest.head?)).advanceAll cs rest

theorem advanceAll_append (p : Position) (xs ys rest : List Char) :
    p.advanceAll (xs ++ ys) rest = (p.advanceAll xs (ys ++ rest)).advanceAll ys rest := by
  induction xs generalizing p with
  | nil => rfl
  | cons x xs ih => simp [advanceAll, ih, List.head?_append, Option.or_assoc]

example : start.advanceAll "é\r\nab".toList [] = ⟨2, 2⟩ := by cbv

end Position
end SourceGauge.Scala
