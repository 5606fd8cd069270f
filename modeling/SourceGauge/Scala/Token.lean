import SourceGauge.Scala.Position

/-! Tokens of Scala source text. Comments are tokens too. -/
namespace SourceGauge.Scala

inductive CommentKind
  | line
  | block
  | doc
  deriving DecidableEq, Repr

namespace Token

inductive Kind
  | ident
  | keyword
  | number
  | string
  | char
  | operator
  | punct
  | comment (kind : CommentKind)
  deriving DecidableEq, Repr

end Token

/-- A token with its text. It begins at `start` and ends before `stop`. -/
structure Token where
  kind : Token.Kind
  text : String
  start : Position
  stop : Position
  deriving DecidableEq, Repr

namespace Token

def isComment (t : Token) : Bool :=
  match t.kind with
  | .comment _ => true
  | _ => false

def isKeyword (t : Token) (word : String) : Bool := t.kind = .keyword && t.text = word

def isPunct (t : Token) (mark : String) : Bool := t.kind = .punct && t.text = mark

end Token

/-- The reserved words of the language. -/
def keywords : List String :=
  ["abstract", "case", "catch", "class", "def", "do", "else", "extends", "false", "final",
    "finally", "for", "forSome", "if", "implicit", "import", "lazy", "match", "new", "null",
    "object", "override", "package", "private", "protected", "return", "sealed", "super",
    "this", "throw", "trait", "try", "true", "type", "val", "var", "while", "with", "yield"]

end SourceGauge.Scala
