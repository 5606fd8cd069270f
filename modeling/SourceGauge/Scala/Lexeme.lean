import SourceGauge.Scala.Token

/-! How far a token reaches. Each length counts characters, and each reader looks only at the
characters that stand after the ones already known to belong to the token. Between two tokens stand
gap characters only. -/
namespace SourceGauge.Scala.Lexeme

/-- The characters that stand between tokens. -/
def isGap (c : Char) : Bool := c = ' ' || c = '\t' || c = '\n' || c = '\r' || c = '\x0c'

/-- Every character outside ASCII belongs to an identifier. -/
def isIdentStart (c : Char) : Bool := c.isAlpha || c = '_' || c = '$' || 0x80 ≤ c.toNat

def isIdentPart (c : Char) : Bool := isIdentStart c || c.isDigit

def isOperatorChar (c : Char) : Bool :=
  ['!', '#', '%', '&', '*', '+', '-', '/', ':', '<', '=', '>', '?', '\\', '^', '|', '~'].contains c

/-- The length of the longest leading run of characters that pass `p`. -/
def runLength (p : Char → Bool) (cs : List Char) : Nat := (cs.takeWhile p).length

/-- One when the text begins with `c`, else zero. -/
def oneIf (c : Char) (cs : List Char) : Nat := if cs.head? = some c then 1 else 0

/-- Reads a block comment from after its opening mark, with `outer` comments open around it.
Comments nest, and an unclosed one reaches to the end. -/
def blockLength (outer : Nat) : List Char → Nat
  | '/' :: '*' :: rest => 2 + blockLength (outer + 1) rest
  | '*' :: '/' :: rest =>
    match outer with
    | 0 => 2
    | outer + 1 => 2 + blockLength outer rest
  | _ :: rest => 1 + blockLength outer rest
  | [] => 0

/-- Reads a triple-quoted string from after its opening quotes. The run of quotes that holds
the closing three belongs to the string as a whole. -/
def rawStringLength : List Char → Nat
  | '"' :: '"' :: '"' :: rest => 3 + runLength (· = '"') rest
  | _ :: rest => 1 + rawStringLength rest
  | [] => 0

/-- Reads a string from after its opening quote. A backslash takes the next character along,
whatever it is; otherwise the string ends before a line break if no quote closes it. -/
def stringLength : List Char → Nat
  | '\\' :: _ :: rest => 2 + stringLength rest
  | '"' :: _ => 1
  | c :: rest => if Text.isBreak c then 0 else 1 + stringLength rest
  | [] => 0

/-- Reads up to and including `close`, or up to the end of the line. -/
def delimitedLength (close : Char) (cs : List Char) : Nat :=
  let n := runLength (fun c => c ≠ close && !Text.isBreak c) cs
  n + oneIf close (cs.drop n)

/-- Reads a number after its first digit. A point belongs to it when a digit follows. -/
def numberLength : List Char → Nat
  | [] => 0
  | c :: rest =>
    if c.isAlphanum || c = '_' || (c = '.' && rest.head?.any Char.isDigit) then
      1 + numberLength rest
    else 0

/-- Reads an operator after its first character. It stops before a comment. -/
def operatorLength : List Char → Nat
  | '/' :: '/' :: _ => 0
  | '/' :: '*' :: _ => 0
  | c :: rest => if isOperatorChar c then 1 + operatorLength rest else 0
  | [] => 0

/-- The kind of a token, and how many characters it takes after its first. -/
structure Extent where
  kind : Token.Kind
  length : Nat
  deriving DecidableEq, Repr

/-- Reads what follows an apostrophe: a character literal, or nothing when the apostrophe stands
alone. After a backslash the next character is taken along, whatever it is. -/
def quoted : List Char → Extent
  | ['\\'] => ⟨.char, 1⟩
  | '\\' :: _ :: rest => ⟨.char, 2 + delimitedLength '\'' rest⟩
  | c :: '\'' :: _ => if Text.isBreak c || c = '\'' then ⟨.punct, 0⟩ else ⟨.char, 2⟩
  | _ => ⟨.punct, 0⟩

/-- The extent of the token that begins with `c`. -/
def extent (c : Char) (rest : List Char) : Extent :=
  if c = '/' && rest.head? = some '/' then ⟨.comment .line, runLength (!Text.isBreak ·) rest⟩
  else if c = '/' && rest.head? = some '*' then
    let doc := rest[1]? = some '*' && rest[2]? ≠ some '/'
    ⟨.comment (if doc then .doc else .block), 1 + blockLength 0 (rest.drop 1)⟩
  else if c = '"' then
    if rest.take 2 = ['"', '"'] then ⟨.string, 2 + rawStringLength (rest.drop 2)⟩
    else ⟨.string, stringLength rest⟩
  else if c = '\'' then quoted rest
  else if c = '\x60' then ⟨.ident, delimitedLength '\x60' rest⟩
  else if c.isDigit then ⟨.number, numberLength rest⟩
  else if isIdentStart c then
    let n := runLength isIdentPart rest
    ⟨if keywords.contains (String.ofList (c :: rest.take n)) then .keyword else .ident, n⟩
  else if isOperatorChar c then ⟨.operator, operatorLength rest⟩
  else ⟨.punct, 0⟩

end SourceGauge.Scala.Lexeme

namespace SourceGauge.Scala

/-- The tokens of a text that begins at `p`. -/
def tokensFrom (p : Position) : List Char → List Token
  | [] => []
  | c :: rest =>
    if Lexeme.isGap c then tokensFrom (p.advance c rest.head?) rest
    else
      let e := Lexeme.extent c rest
      let text := c :: rest.take e.length
      let stop := p.advanceAll text (rest.drop e.length)
      ⟨e.kind, String.ofList text, p, stop⟩ :: tokensFrom stop (rest.drop e.length)
termination_by cs => cs.length
decreasing_by
  · simp
  · simp only [List.length_drop, List.length_cons]; omega

end SourceGauge.Scala
