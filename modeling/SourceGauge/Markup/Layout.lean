import SourceGauge.Markup.Cursor

/-! How an element is read whose attributes and children are fields with names. -/
namespace SourceGauge.Markup

/-- Texts of an element that have been read, by the names of their fields. A field that is said
to have no content is there without a text. -/
abbrev Texts := List (String × Option String)

/-- How an element is read: its texts have the names `texts`, as attributes or as elements with a
leading `@`; each other child is read into a value by `child`, which is given the tags of the
element and of the child. -/
structure Layout (σ : Type) where
  texts : List String
  child : Tag → Tag → σ → Cursor → Option (σ × Cursor)

namespace Layout
variable {σ : Type}

/-- The name of the text that a child gives. -/
def textName? (l : Layout σ) (t : Tag) : Option String :=
  match localName t.name with
  | '@' :: name => l.texts.find? (· = String.ofList name)
  | _ => none

/-- Adds a text, which may come only once. -/
def add? (texts : Texts) (name : String) (text : Option String) : Option Texts :=
  if texts.any (·.1 = name) then none else some ((name, text) :: texts)

/-- Adds the text that an attribute gives. -/
def addAttribute? (l : Layout σ) (texts : Texts) (a : Attribute) : Option Texts :=
  if l.texts.contains a.field then
    (expand a.raw).bind fun chars => add? texts a.field (some (String.ofList chars))
  else some texts

/-- Reads the children of an element up to its end. Texts between them do not count. -/
def children? (l : Layout σ) (element : Tag) :
    Nat → Texts → σ → Cursor → Option (Texts × σ × Cursor)
  | 0, _, _, _ => none
  | fuel + 1, texts, s, c => do
    match ← c.next? with
    | (.closing, c) => return (texts, s, c)
    | (.opening tag, c) =>
      match l.textName? tag with
      | some name =>
        if c.isAbsent element tag then
          l.children? element fuel (← add? texts name none) s (← c.skip?)
        else
          let (chars, c) ← c.text?
          l.children? element fuel (← add? texts name (some (String.ofList chars))) s c
      | none =>
        let (s, c) ← l.child element tag s c
        l.children? element fuel texts s c
    | (_, c) => l.children? element fuel texts s c

/-- Reads an element whose start tag has been taken. -/
def read? (l : Layout σ) (element : Tag) (s : σ) (c : Cursor) :
    Option (Texts × σ × Cursor) := do
  let texts ← (← element.attributes?).foldlM l.addAttribute? []
  l.children? element c.bound texts s c

end Layout
end SourceGauge.Markup
