import SourceGauge.Scala.Item

/-! Code metrics of a token list: types, functions and their complexity, statements and the
public interface. One fold over the items keeps the open delimiters, the open functions and
what was seen just before. -/
namespace SourceGauge.Scala

/-- What the metrics say of a file. The complexities stand in the order in which the functions
end. -/
structure CodeMetrics where
  types : Nat
  statements : Nat
  functions : Nat
  complexity : Nat
  functionComplexities : List Nat
  publicApi : Nat
  undocumentedPublicApi : Nat
  deriving DecidableEq, Repr

/-- An open delimiter: the brace of a class, object or trait body, another brace, or a
parenthesis or bracket. -/
inductive Frame
  | template
  | block
  | paren
  deriving DecidableEq, Repr

/-- A function whose body has not ended, opened at a number of open delimiters. -/
structure OpenFunction where
  depth : Nat
  decisions : Nat
  deriving DecidableEq, Repr

/-- The state between two items. Frames and functions stand innermost first, complexities of
ended functions latest first. -/
structure Scan where
  types : Nat := 0
  statements : Nat := 0
  functions : Nat := 0
  publicApi : Nat := 0
  undocumented : Nat := 0
  frames : List Frame := []
  openFunctions : List OpenFunction := []
  ended : List Nat := []
  /-- Decisions outside all functions. -/
  outside : Nat := 0
  /-- A type declaration still waits for its body. -/
  pendingTemplate : Bool := false
  previous : Option Token := none
  /-- A hiding modifier stands before the next code token. -/
  hidden : Bool := false
  /-- A doc comment stands before the next code token. -/
  documented : Bool := false
  /-- The number of open delimiters at the latest `case` that waits for its arrow. -/
  patternDepth : Option Nat := none
  afterCaseArrow : Bool := false
  deriving DecidableEq, Repr

namespace Scan

def depth (s : Scan) : Nat := s.frames.length

def inParen (s : Scan) : Bool := s.frames.head? = some .paren

/-- Ends the innermost functions as long as they were opened at `depth` or deeper. -/
def endFunctionsFrom (depth : Nat) (functions : List OpenFunction) (ended : List Nat) :
    List OpenFunction × List Nat :=
  match functions with
  | [] => ([], ended)
  | f :: rest =>
    if depth ≤ f.depth then endFunctionsFrom depth rest ((1 + f.decisions) :: ended)
    else (f :: rest, ended)

def closeFrom (s : Scan) (depth : Nat) : Scan :=
  let (remaining, ended) := endFunctionsFrom depth s.openFunctions s.ended
  { s with openFunctions := remaining, ended := ended }

/-- A decision belongs to the innermost open function, or to the file. -/
def countDecision (s : Scan) : Scan :=
  match s.openFunctions with
  | [] => { s with outside := s.outside + 1 }
  | f :: rest => { s with openFunctions := { f with decisions := f.decisions + 1 } :: rest }

def openFrame (s : Scan) (frame : Frame) : Scan := { s with frames := frame :: s.frames }

/-- A closing delimiter ends the functions opened inside the frame that it closes. -/
def closeFrame (s : Scan) : Scan :=
  let s := { s with frames := s.frames.tail }
  s.closeFrom (s.depth + 1)

def punct (s : Scan) (mark : String) : Scan :=
  if mark = "\x7b" then
    { s with pendingTemplate := false }.openFrame
      (if s.pendingTemplate then .template else .block)
  else if mark = "(" || mark = "[" then s.openFrame .paren
  else if mark = "\x7d" || mark = ")" || mark = "]" then s.closeFrame
  else s

/-- The arrow that ends the pattern of the latest `case`. -/
def endsPattern (s : Scan) (t : Token) : Bool :=
  t.kind = .operator && t.text = "=>" && s.patternDepth = some s.depth

def operator (s : Scan) (symbol : String) : Scan :=
  if symbol = "&&" || symbol = "||" then s.countDecision
  else if symbol = "=" then
    if s.inParen then s else { s with pendingTemplate := false }
  else if symbol = "=>" && s.patternDepth = some s.depth then { s with patternDepth := none }
  else s

/-- The declaration counts as public when only type bodies enclose it and no modifier hides
it. -/
def isPublic (s : Scan) : Bool := s.frames.all (· = .template) && !s.hidden

def countApi (s : Scan) : Scan :=
  if s.isPublic then
    { s with
      publicApi := s.publicApi + 1
      undocumented := if s.documented then s.undocumented else s.undocumented + 1 }
  else s

def isTypeWord (word : String) : Bool := word = "class" || word = "object" || word = "trait"

/-- A declaration ends the functions at its own depth, which have no braces. Parameters and
pattern bindings are no declarations. -/
def declaration (s : Scan) (word : String) : Scan :=
  if s.inParen then s
  else
    let s := s.closeFrom s.depth
    let s :=
      if word = "def" then
        { s with
          functions := s.functions + 1
          openFunctions := ⟨s.depth, 0⟩ :: s.openFunctions
          pendingTemplate := false }
      else if isTypeWord word then { s with types := s.types + 1, pendingTemplate := true }
      else { s with pendingTemplate := false }
    s.countApi

def declarations : List String := ["def", "val", "var", "type", "class", "object", "trait"]

def keyword (s : Scan) (word : String) : Scan :=
  if word = "if" || word = "while" || word = "for" then s.countDecision
  else if word = "case" then { s.countDecision with patternDepth := some s.depth }
  else if declarations.contains word && !s.previous.any (·.isPunct ".") then s.declaration word
  else s

def continuationWords : List String :=
  ["if", "while", "for", "match", "new", "return", "throw", "extends", "with"]

/-- After such a token a line break does not end the expression. -/
def isContinuation (t : Token) : Bool :=
  match t.kind with
  | .operator => t.text ≠ "=>"
  | .punct => [",", ".", "(", "["].contains t.text
  | .keyword => continuationWords.contains t.text
  | _ => false

def statementWords : List String :=
  ["val", "var", "if", "while", "for", "do", "try", "return", "throw", "new", "this", "super",
    "null", "true", "false"]

def canStartStatement (t : Token) : Bool :=
  match t.kind with
  | .ident | .number | .string | .char => true
  | .keyword => statementWords.contains t.text
  | .punct => t.text = "("
  | _ => false

/-- A statement may begin at the start of the file, after a semicolon, an opening brace or a
case arrow, and after a line break that does not continue an expression. -/
def atBoundary (s : Scan) (t : Token) : Bool :=
  match s.previous with
  | none => true
  | some p =>
    p.isPunct ";" || p.isPunct "\x7b" || s.afterCaseArrow ||
      (p.stop.line < t.start.line && !isContinuation p)

def startsStatement (s : Scan) (t : Token) : Bool :=
  !s.inParen && s.atBoundary t && canStartStatement t

/-- A statement at the depth of an open function shows that its body, which has no braces, has
ended. -/
def beginStatement (s : Scan) : Scan :=
  { s with statements := s.statements + 1 }.closeFrom s.depth

def code (s : Scan) (t : Token) : Scan :=
  let s := if s.startsStatement t then s.beginStatement else s
  let next :=
    match t.kind with
    | .punct => s.punct t.text
    | .operator => s.operator t.text
    | .keyword => s.keyword t.text
    | _ => s
  { next with
    afterCaseArrow := s.endsPattern t
    hidden := false
    documented := false
    previous := some t }

def step (s : Scan) : Item → Scan
  | .comment t => if t.kind = .comment .doc then { s with documented := true } else s
  | .annot _ => s
  | .modifier word _ => if Item.isHiding word then { s with hidden := true } else s
  | .typeCase _ => s
  | .code t => s.code t

def run (tokens : List Token) : Scan := (Item.ofTokens tokens).foldl step {}

/-- At the end of the file every function ends. -/
def metrics (s : Scan) : CodeMetrics :=
  let s := s.closeFrom 0
  { types := s.types
    statements := s.statements
    functions := s.functions
    complexity := s.ended.foldr (· + ·) 0 + s.outside
    functionComplexities := s.ended.reverse
    publicApi := s.publicApi
    undocumentedPublicApi := s.undocumented }

end Scan

/-- The code metrics of a token list. -/
def CodeMetrics.ofTokens (tokens : List Token) : CodeMetrics := (Scan.run tokens).metrics

end SourceGauge.Scala
