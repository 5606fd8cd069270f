/-! Lines of a text. A line ends at LF, at CRLF or at a CR that no LF follows. -/
namespace SourceGauge.Text

/-- The two characters that take part in line breaks. -/
def isBreak (c : Char) : Bool := c = '\n' || c = '\r'

/-- The lines of a text without their breaks. A break at the very end opens no further line,
and the empty text has no lines. -/
def splitLines : List Char → List (List Char)
  | [] => []
  | '\n' :: rest => [] :: splitLines rest
  | '\r' :: '\n' :: rest => [] :: splitLines rest
  | '\r' :: rest => [] :: splitLines rest
  | c :: rest =>
    match splitLines rest with
    | [] => [[c]]
    | line :: lines => (c :: line) :: lines

example : splitLines "a\n\nb\r\nc\rd\n".toList = ["a".toList, [], ['b'], ['c'], ['d']] := by cbv

end SourceGauge.Text
