import SourceGauge.Markup.Event
import SourceGauge.Markup.Reference

/-! The content of a markup document as readers see it: tags, and the texts between them. -/
namespace SourceGauge.Markup

/-- A text with an unknown reference has no characters, which is a fault only for those who
read it. -/
inductive Item
  | opening (tag : Tag)
  | closing
  | text (chars : Option (List Char))
  | doctype
  | fault
  deriving DecidableEq, Repr

/-- A part of a text. Only in a part that is not verbatim are there references, and blanks that
do not count. -/
structure TextPart where
  verbatim : Bool
  chars : List Char
  deriving DecidableEq, Repr

namespace TextPart

def isBlank (p : TextPart) : Bool := !p.verbatim && p.chars.all isSpace

def trimStart (p : TextPart) : TextPart :=
  if p.verbatim then p else { p with chars := p.chars.dropWhile isSpace }

def trimEnd (p : TextPart) : TextPart :=
  if p.verbatim then p else { p with chars := (p.chars.reverse.dropWhile isSpace).reverse }

def expand? (p : TextPart) : Option (List Char) :=
  if p.verbatim then some p.chars else expand p.chars

/-- The characters of parts; blanks at the end of the last one do not count. -/
def join? : List TextPart → Option (List Char)
  | [] => some []
  | [p] => p.trimEnd.expand?
  | p :: rest => do return (← p.expand?) ++ (← join? rest)

/-- The item of the parts between two tags: blanks at both ends do not count, and a text of
blanks alone is none. -/
def items (parts : List TextPart) : List Item :=
  match parts.dropWhile isBlank with
  | [] => []
  | p :: rest => [.text (join? (p.trimStart :: rest))]

end TextPart

/-- The items of events, after text parts that are given in reverse. -/
def itemsFrom (parts : List TextPart) : List Event → List Item
  | [] => TextPart.items parts.reverse
  | .text raw :: rest => itemsFrom (⟨false, raw⟩ :: parts) rest
  | .verbatim chars :: rest => itemsFrom (⟨true, chars⟩ :: parts) rest
  | .opening tag :: rest => TextPart.items parts.reverse ++ .opening tag :: itemsFrom [] rest
  | .closing :: rest => TextPart.items parts.reverse ++ .closing :: itemsFrom [] rest
  | .doctype :: rest => TextPart.items parts.reverse ++ .doctype :: itemsFrom [] rest
  | .fault :: rest => TextPart.items parts.reverse ++ .fault :: itemsFrom [] rest

/-- The items of a document. -/
def items (events : List Event) : List Item := itemsFrom [] events

end SourceGauge.Markup
