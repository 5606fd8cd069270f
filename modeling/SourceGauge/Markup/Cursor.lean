import SourceGauge.Markup.Item
import SourceGauge.Markup.Scope

/-! A place in a markup document between two items, and what can be read from there. A cursor
always looks one item ahead, and what that item declares is in scope already. -/
namespace SourceGauge.Markup

/-- Items that were set aside come first, then the item ahead and the rest. The scope of an
element whose end is ahead is still open when `closes` holds. No element has as many parts as
`bound` says. -/
structure Cursor where
  aside : List Item
  ahead : Option Item
  rest : List Item
  scope : Scope
  closes : Bool
  bound : Nat

namespace Cursor

/-- Closes the scope of an element whose end has been passed. -/
def leave (c : Cursor) : Cursor :=
  if c.closes then { c with scope := c.scope.close, closes := false } else c

/-- Moves the next item ahead. An opening that cannot be brought into scope is a fault. -/
def lookAhead (c : Cursor) : Cursor :=
  match c.rest with
  | [] => { c with ahead := none }
  | .opening tag :: rest =>
    match c.scope.open? tag with
    | some scope => { c with ahead := some (.opening tag), rest, scope }
    | none => { c with ahead := some .fault, rest }
  | .closing :: rest => { c with ahead := some .closing, rest, closes := true }
  | item :: rest => { c with ahead := some item, rest }

def advance (c : Cursor) : Cursor := c.leave.lookAhead

theorem lookAhead_rest (c : Cursor) : c.lookAhead.rest = c.rest.tail := by
  unfold lookAhead
  split
  case h_2 => split <;> simp_all
  all_goals simp_all

theorem advance_rest (c : Cursor) : c.advance.rest = c.rest.tail := by
  rw [advance, lookAhead_rest, leave]
  split <;> rfl

/-- The start of a document. -/
def start (items : List Item) : Cursor :=
  advance ⟨[], none, items, .empty, false, items.length + 1⟩

/-- Takes the next tag or text. There is none at a fault or at the end of the document, and
document types are passed over. -/
def next? (c : Cursor) : Option (Item × Cursor) :=
  match c.aside with
  | item :: aside => some (item, { c with aside })
  | [] =>
    match c.ahead with
    | none => none
    | some .fault => none
    | some (.text none) => none
    | some .doctype => if c.rest = [] then none else next? c.advance
    | some item => some (item, c.advance)
termination_by c.rest.length
decreasing_by
  rw [advance_rest]
  cases h : c.rest <;> simp_all

/-- What follows the element in which `depth` further elements are open. -/
def afterElement (depth : Nat) : List Item → Option (List Item)
  | [] => none
  | .fault :: _ => none
  | .opening _ :: rest => afterElement (depth + 1) rest
  | .closing :: rest =>
    match depth with
    | 0 => some rest
    | depth + 1 => afterElement depth rest
  | _ :: rest => afterElement depth rest

/-- Passes over the element whose start tag has been taken. Its texts are not read, and what its
tags declare is not looked at; but what its start tag and the item ahead have declared stays in
scope, for no end closes it. -/
def skip? (c : Cursor) : Option Cursor :=
  if c.aside ≠ [] then
    (afterElement 0 c.aside).map fun aside => { c with aside }
  else
    match c.ahead with
    | none => none
    | some .fault => none
    | some .closing => some c.advance
    | some (.opening _) => (afterElement 1 c.rest).map fun rest => advance { c with rest }
    | some _ => (afterElement 0 c.rest).map fun rest => advance { c with rest }

/-- Takes all items of an element whose start tag has been taken, with `depth` further elements
open. They come in reverse, before those of `taken`. -/
def takeFrom (fuel depth : Nat) (taken : List Item) (c : Cursor) : Option (List Item × Cursor) :=
  match fuel with
  | 0 => none
  | fuel + 1 => do
    let (item, c) ← c.next?
    match item, depth with
    | .closing, 0 => return (item :: taken, c)
    | .closing, depth + 1 => takeFrom fuel depth (item :: taken) c
    | .opening _, depth => takeFrom fuel (depth + 1) (item :: taken) c
    | _, depth => takeFrom fuel depth (item :: taken) c

/-- The text of an element whose start tag has been taken, and which holds no others. -/
def text? (c : Cursor) : Option (List Char × Cursor) := do
  match ← c.next? with
  | (.closing, c) => return ([], c)
  | (.text (some chars), c) =>
    match ← c.next? with
    | (.closing, c) => return (chars, c)
    | _ => none
  | _ => none

/-- Reads the elements of a list, whose first start tag has been taken. To the list belong the
elements inside the same outer one with the same whole name. No text may stand between them;
other elements are set aside, and come again before the end of the outer element. -/
def list? {α : Type} (read : Tag → Cursor → Option (α × Cursor)) (first : Tag) (c : Cursor) :
    Option (List α × Cursor) := do
  let (a, c) ← read first c
  more c.bound [a] [] c
where
  /-- Reads further elements after those found. The items set aside are in reverse. -/
  more (fuel : Nat) (found : List α) (aside : List Item) (c : Cursor) :
      Option (List α × Cursor) :=
    match fuel with
    | 0 => none
    | fuel + 1 => do
      match ← c.next? with
      | (.opening tag, c) =>
        if tag.name = first.name then
          let (a, c) ← read tag c
          more fuel (a :: found) aside c
        else
          let (aside, c) ← takeFrom c.bound 0 (.opening tag :: aside) c
          more fuel found aside c
      | (.closing, c) =>
        return (found.reverse, { c with aside := aside.reverse ++ .closing :: c.aside })
      | _ => none

/-- A child has no content because its own tag or that of the element says so. -/
def isAbsent (c : Cursor) (element child : Tag) : Bool :=
  c.scope.isAbsent element || c.scope.isAbsent child

end Cursor

end SourceGauge.Markup
