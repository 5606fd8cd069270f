import SourceGauge.Markup.Attribute

/-! Name spaces: the labels that start tags declare, for as long as they are in scope. -/
namespace SourceGauge.Markup

structure Binding where
  label : List Char
  space : List Char
  depth : Nat
  deriving DecidableEq, Repr

/-- The bindings in scope, latest first, at a depth of open elements. -/
structure Scope where
  depth : Nat
  bindings : List Binding
  deriving DecidableEq, Repr

namespace Scope

def empty : Scope := ⟨0, []⟩

/-- The space of the reserved label `xml`. -/
def xmlSpace : List Char := "http://www.w3.org/XML/1998/namespace".toList

/-- The space of declarations. -/
def declarationSpace : List Char := "http://www.w3.org/2000/xmlns/".toList

/-- The space of attributes that say how an element is an instance of its type. -/
def instanceSpace : List Char := "http://www.w3.org/2001/XMLSchema-instance".toList

/-- Adds what an attribute declares. Reserved labels cannot be declared anew, and no other label
stands for a reserved space. -/
def declare? (s : Scope) (a : Attribute) : Option Scope :=
  match a.declared? with
  | none => some s
  | some label =>
    if label = "xml".toList then if a.raw = xmlSpace then some s else none
    else if label = "xmlns".toList then none
    else if a.name.contains ':' && (a.raw = xmlSpace || a.raw = declarationSpace) then none
    else some { s with bindings := ⟨label, a.raw, s.depth⟩ :: s.bindings }

/-- Opens the scope of an element. -/
def open? (s : Scope) (t : Tag) : Option Scope :=
  t.leadingAttributes.foldlM declare? { s with depth := s.depth + 1 }

/-- Closes the scope that was opened last. -/
def close (s : Scope) : Scope :=
  let depth := s.depth - 1
  { depth, bindings := s.bindings.dropWhile (depth < ·.depth) }

/-- The space of a label. -/
def space? (s : Scope) (label : List Char) : Option (List Char) :=
  (s.bindings.find? (·.label = label)).map (·.space)

/-- The attribute says that its element has no content. -/
def saysAbsent (s : Scope) (a : Attribute) : Bool :=
  localName a.name = "nil".toList && (a.raw = "1".toList || a.raw = "true".toList) &&
    (nameLabel? a.name).any fun label => label ≠ [] && s.space? label = some instanceSpace

/-- A tag says that its element has no content. -/
def isAbsent (s : Scope) (t : Tag) : Bool := t.soundAttributes.any s.saysAbsent

end Scope
end SourceGauge.Markup
