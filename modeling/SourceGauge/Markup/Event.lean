/-! The events of a markup document, read one after the other up to its end or its first
fault. -/
namespace SourceGauge.Markup

/-- A start tag: its name, and the text after it. -/
structure Tag where
  name : List Char
  attributes : List Char
  deriving DecidableEq, Repr

/-- A tag that closes itself gives an opening and a closing event. Comments, declarations and
instructions give none. -/
inductive Event
  | opening (tag : Tag)
  | closing
  | text (raw : List Char)
  | verbatim (chars : List Char)
  | doctype
  | fault
  deriving DecidableEq, Repr

/-- The blank characters of markup. -/
def isSpace (c : Char) : Bool := c = ' ' || c = '\t' || c = '\r' || c = '\n'

/-- What stands before and after the first occurrence of `mark`. -/
def splitAtMark (mark : List Char) : List Char → Option (List Char × List Char)
  | [] => none
  | c :: rest =>
    if mark.isPrefixOf (c :: rest) then some ([], (c :: rest).drop mark.length)
    else (splitAtMark mark rest).map fun (before, after) => (c :: before, after)

/-- The text of a tag up to its end. An end mark inside quotes does not count. -/
def tagText (quote : Option Char) : List Char → Option (List Char × List Char)
  | [] => none
  | c :: rest =>
    if c = '>' && quote.isNone then some ([], rest)
    else
      let quote :=
        match quote with
        | some q => if c = q then none else some q
        | none => if c = '"' || c = '\'' then some c else none
      (tagText quote rest).map fun (before, after) => (c :: before, after)

/-- What follows a document type declaration, inside which `depth` further marks are open. -/
def afterDoctype (depth : Nat) : List Char → Option (List Char)
  | [] => none
  | c :: rest =>
    if c = '<' then afterDoctype (depth + 1) rest
    else if c = '>' then
      match depth with
      | 0 => some rest
      | depth + 1 => afterDoctype depth rest
    else afterDoctype depth rest

/-- What follows a document type, which needs a name. Its keyword may be in small letters. -/
def doctype (cs : List Char) : Option (List Char) :=
  let body := cs.drop 7
  let isDoctype := (cs.take 7).map Char.toUpper = "DOCTYPE".toList
  if isDoctype && (body.dropWhile isSpace).head?.any (· ≠ '>') then
    afterDoctype 0 body
  else none

/-- What comes after the characters that open a piece of markup: its events, the elements that
are then open, and the rest. -/
abbrev Piece := List Event × List (List Char) × List Char

/-- A start tag. The slash that closes it must be its last character. -/
def startTag (opened : List (List Char)) (cs : List Char) : Option Piece := do
  let (body, rest) ← tagText none cs
  let closed := body.getLast? = some '/'
  let body := if closed then body.dropLast else body
  let tag : Tag := ⟨body.takeWhile (!isSpace ·), body.dropWhile (!isSpace ·)⟩
  return if closed then ([.opening tag, .closing], opened, rest)
    else ([.opening tag], tag.name :: opened, rest)

/-- An end tag must name the element that was opened last. Blanks after the name do not
count. -/
def endTag (opened : List (List Char)) (cs : List Char) : Option Piece := do
  let (body, rest) ← tagText none cs
  let name := if body.all isSpace then body else (body.reverse.dropWhile isSpace).reverse
  match opened with
  | [] => none
  | last :: opened => if name = last then some ([.closing], opened, rest) else none

/-- A comment, a section of verbatim text or a document type. -/
def declaration (opened : List (List Char)) (cs : List Char) : Option Piece :=
  match cs with
  | '-' :: '-' :: body => (splitAtMark "-->".toList body).map fun (_, rest) => ([], opened, rest)
  | '[' :: 'C' :: 'D' :: 'A' :: 'T' :: 'A' :: '[' :: body =>
    (splitAtMark "]]>".toList body).map fun (text, rest) => ([.verbatim text], opened, rest)
  | _ => (doctype cs).map fun rest => ([.doctype], opened, rest)

/-- An instruction or an XML declaration. -/
def instruction (opened : List (List Char)) (cs : List Char) : Option Piece :=
  if cs.head? = some '>' then none
  else (splitAtMark "?>".toList cs).map fun (_, rest) => ([], opened, rest)

/-- The piece of markup or text at the front of a document that is not empty. -/
def piece (opened : List (List Char)) (cs : List Char) : Option Piece :=
  match cs with
  | '<' :: '/' :: rest => endTag opened rest
  | '<' :: '!' :: rest => declaration opened rest
  | '<' :: '?' :: rest => instruction opened rest
  | '<' :: rest => startTag opened rest
  | cs => some ([.text (cs.takeWhile (· ≠ '<'))], opened, cs.dropWhile (· ≠ '<'))

def eventsFrom (fuel : Nat) (opened : List (List Char)) (cs : List Char) : List Event :=
  match fuel, cs with
  | _, [] => []
  | 0, _ => [.fault]
  | fuel + 1, cs =>
    match piece opened cs with
    | none => [.fault]
    | some (events, opened, rest) => events ++ eventsFrom fuel opened rest

/-- The events of a document. A byte order mark at its front is dropped. -/
def events (cs : List Char) : List Event :=
  let body := if cs.head? = some '\ufeff' then cs.tail else cs
  eventsFrom body.length [] body

/-- The first tag of a document, or why there is none. -/
inductive FirstTag
  | found (tag : Tag)
  | missing
  | fault
  deriving DecidableEq, Repr

def firstTag : List Event → FirstTag
  | [] => .missing
  | .opening tag :: _ => .found tag
  | .closing :: _ => .fault
  | .fault :: _ => .fault
  | _ :: rest => firstTag rest

end SourceGauge.Markup
