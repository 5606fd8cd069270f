import SourceGauge.Scala.Token

/-! The token list cut into items: annotations and qualified modifiers are taken whole, every
other token is an item of its own. The items of a list put together are the list. -/
namespace SourceGauge.Scala

/-- A stretch of tokens that the code metrics take in at one go. -/
inductive Item
  | comment (t : Token)
  | annot (span : List Token)
  | modifier (word : Token) (qualifier : List Token)
  /-- The word before `class` or `object` in a case class or case object. -/
  | typeCase (t : Token)
  | code (t : Token)
  deriving DecidableEq, Repr

namespace Item

def tokens : Item → List Token
  | .comment t => [t]
  | .annot span => span
  | .modifier word qualifier => word :: qualifier
  | .typeCase t => [t]
  | .code t => [t]

def modifiers : List String :=
  ["private", "protected", "override", "final", "abstract", "sealed", "implicit", "lazy"]

/-- The modifiers that hide a declaration. Only they take a qualifier in brackets. -/
def isHiding (word : Token) : Bool := word.text = "private" || word.text = "protected"

/-- Reads a group from after its opening mark, with `outer` such groups open around it. An
unclosed group reaches to the end. -/
def groupLength (opening closing : String) (outer : Nat) : List Token → Nat
  | [] => 0
  | t :: rest =>
    if t.isPunct opening then 1 + groupLength opening closing (outer + 1) rest
    else if t.isPunct closing then
      match outer with
      | 0 => 1
      | outer + 1 => 1 + groupLength opening closing outer rest
    else 1 + groupLength opening closing outer rest

def isName (t : Token) : Bool := t.kind = .ident || t.kind = .keyword

/-- Reads the argument list of an annotation, which begins on the line where its name ends. -/
def argumentsLength (name : Token) : List Token → Nat
  | [] => 0
  | t :: rest =>
    if t.isPunct "(" && t.start.line = name.stop.line then 1 + groupLength "(" ")" 0 rest else 0

/-- Reads an annotation from after the first part of its name. -/
def annotationTail (name : Token) : List Token → Nat
  | dot :: next :: rest =>
    if dot.isPunct "." && isName next then 2 + annotationTail next rest
    else argumentsLength name (dot :: next :: rest)
  | rest => argumentsLength name rest

/-- Reads an annotation from after its at sign. -/
def annotationLength : List Token → Nat
  | [] => 0
  | name :: rest => if isName name then 1 + annotationTail name rest else 0

/-- Reads the bracketed qualifier of a hiding modifier, and the comments before it. -/
def qualifierLength (rest : List Token) : Nat :=
  let n := (rest.takeWhile Token.isComment).length
  match rest.drop n with
  | [] => 0
  | t :: inner => if t.isPunct "[" then n + 1 + groupLength "[" "]" 0 inner else 0

/-- The next token, comments aside, is `class` or `object`. -/
def precedesType (rest : List Token) : Bool :=
  (rest.find? (!·.isComment)).any fun t => t.isKeyword "class" || t.isKeyword "object"

/-- The item that begins with `t`, and how many tokens after `t` it takes. -/
def read (t : Token) (rest : List Token) : Item × Nat :=
  if t.isComment then (.comment t, 0)
  else if t.isPunct "@" then
    let n := annotationLength rest
    (.annot (t :: rest.take n), n)
  else if t.kind = .keyword && modifiers.contains t.text then
    let n := if isHiding t then qualifierLength rest else 0
    (.modifier t (rest.take n), n)
  else if t.isKeyword "case" && precedesType rest then (.typeCase t, 0)
  else (.code t, 0)

/-- The items of a token list, in order. -/
def ofTokens : List Token → List Item
  | [] => []
  | t :: rest => (read t rest).1 :: ofTokens (rest.drop (read t rest).2)
termination_by ts => ts.length
decreasing_by simp only [List.length_drop, List.length_cons]; omega

theorem tokens_read (t : Token) (rest : List Token) :
    (read t rest).1.tokens = t :: rest.take (read t rest).2 := by
  unfold read
  split
  · rfl
  split
  · rfl
  split
  · rfl
  split <;> rfl

/-- No token is lost, and none is taken twice. -/
theorem flatMap_tokens_ofTokens (ts : List Token) : (ofTokens ts).flatMap tokens = ts := by
  fun_induction ofTokens ts with
  | case1 => rfl
  | case2 t rest ih => simp [tokens_read, ih]

end Item
end SourceGauge.Scala
