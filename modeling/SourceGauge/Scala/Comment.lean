import SourceGauge.Scala.Lexer
import SourceGauge.Text.Blank

/-! The comments of a file: which bytes of a line they cover, and how many lines carry
commentary. -/
namespace SourceGauge.Scala

/-- A comment of a file. A plain block comment before all code is a header. -/
structure Comment where
  kind : CommentKind
  text : String
  start : Position
  stop : Position
  header : Bool
  deriving DecidableEq, Repr

namespace Comment

/-- The comments of a token list that follows code exactly when `afterCode` holds. -/
def ofTokensFrom (afterCode : Bool) : List Token → List Comment
  | [] => []
  | t :: rest =>
    match t.kind with
    | .comment kind =>
      ⟨kind, t.text, t.start, t.stop, !afterCode && kind = .block⟩ :: ofTokensFrom afterCode rest
    | _ => ofTokensFrom true rest

def ofTokens (tokens : List Token) : List Comment := ofTokensFrom false tokens

/-- The columns of a line from `first` on, up to `stop` or up to the end of the line. -/
structure Columns where
  first : Nat
  stop : Option Nat
  deriving DecidableEq, Repr

def Columns.holds (r : Columns) (column : Nat) : Bool :=
  r.first ≤ column && r.stop.all (column < ·)

/-- The columns that the comment takes of the line with a given number, if it reaches that line. It
begins at the front of each line but its first, and goes to the end of each line but its last. -/
def columnsOn? (c : Comment) (number : Nat) : Option Columns :=
  if c.start.line ≤ number && number ≤ c.stop.line then
    some
      { first := if number = c.start.line then c.start.column else 0
        stop := if number = c.stop.line then some c.stop.column else none }
  else none

/-- Comment marks, decoration and blank characters. -/
def isDecoration (c : Char) : Bool := c = '*' || c = '/' || Text.isBlank c

/-- Something is left of the line without the decoration at its ends. -/
def carriesText (line : List Char) : Bool := !(Text.stripEnds isDecoration line).isEmpty

/-- The numbers of the lines on which the comment carries text. -/
def textLines (c : Comment) : List Nat :=
  (Text.splitLines c.text.toList).zipIdx.filterMap fun (line, offset) =>
    if carriesText line then some (c.start.line + offset) else none

end Comment

/-- The number of lines on which some comment, headers apart, carries text. -/
def countCommentLines (comments : List Comment) : Nat :=
  ((comments.filter (!·.header)).flatMap Comment.textLines).eraseDups.length

/-- The five blank characters of ASCII, as bytes. -/
def isAsciiBlank (b : UInt8) : Bool := [0x20, 0x09, 0x0A, 0x0C, 0x0D].contains b

/-- The line has bytes other than ASCII blanks, and comments hold all of them. -/
def isCommentOnly (comments : List Comment) (number : Nat) (line : List Char) : Bool :=
  let ranges := comments.filterMap (·.columnsOn? number)
  let visible := (Text.Utf8.encode line).zipIdx.filter fun b => !isAsciiBlank b.1
  !visible.isEmpty && visible.all fun b => ranges.any (·.holds b.2)

end SourceGauge.Scala
