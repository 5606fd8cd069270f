import SourceGauge.Path.Basic
import SourceGauge.Text.Utf8

/-! File trees: what stands where, and where a path leads. A path is followed step by step from
the working directory, or from the root if it is absolute. -/
namespace SourceGauge

inductive Entry
  | file (bytes : List UInt8)
  | link (target : Path)
  | directory (entries : List (List Char × Entry))

/-- The names that lead from the root to a place. -/
abbrev Place := List (List Char)

structure FileTree where
  /-- What the root directory holds. -/
  entries : List (List Char × Entry)
  /-- The working directory. -/
  here : Place

namespace Entry

def children : Entry → List (List Char × Entry)
  | .directory entries => entries
  | _ => []

def isDirectory : Entry → Bool
  | .directory _ => true
  | _ => false

/-- The entry that names lead to; links are not followed. -/
def get? (e : Entry) : Place → Option Entry
  | [] => some e
  | name :: rest => (e.children.lookup name).bind fun child => child.get? rest

end Entry

namespace FileTree

/-- The number of symbolic links that may be followed for one path. -/
def maxLinks : Nat := 40

def get? (t : FileTree) (place : Place) : Option Entry := (Entry.directory t.entries).get? place

def hasDirectory (t : FileTree) (place : Place) : Bool := (t.get? place).any (·.isDirectory)

/-- The place from which a path that is read at `place` sets out. -/
def start (place : Place) (p : Path) : Place := if p.isAbsolute then [] else place

/-- The place to which steps lead. Each step sets out from a directory; the root has no
parent but itself. -/
def follow? (t : FileTree) (links : Nat) (place : Place) : List (List Char) → Option Place
  | [] => some place
  | step :: rest =>
    if t.hasDirectory place then
      match Component.ofSegment? step with
      | some (.name name) =>
        match t.get? (place ++ [name]) with
        | some (.link target) =>
          match links with
          | 0 => none
          | links + 1 =>
            follow? t links (start place target) (Path.segments target.chars ++ rest)
        | some _ => follow? t links (place ++ [name]) rest
        | none => none
      | some .parent => follow? t links place.dropLast rest
      | _ => follow? t links place rest
    else none
termination_by steps => (links, steps.length)

/-- Where a path leads. The empty path leads nowhere. -/
def locate? (t : FileTree) (p : Path) : Option Place :=
  if p.chars.isEmpty then none
  else t.follow? maxLinks (start t.here p) (Path.segments p.chars)

/-- The tree as seen from another working directory. -/
def inside (t : FileTree) (place : Place) : FileTree := { t with here := place }

/-- The last step of a path is a symbolic link. -/
def isLink (t : FileTree) (p : Path) : Bool :=
  let steps := Path.segments p.chars
  match t.follow? maxLinks (start t.here p) steps.dropLast with
  | some place =>
    match t.get? (place ++ [steps.getLastD []]) with
    | some (.link _) => true
    | _ => false
  | none => false

/-- What stands where a path leads. -/
def find? (t : FileTree) (p : Path) : Option Entry := (t.locate? p).bind t.get?

def isDir (t : FileTree) (p : Path) : Bool := (t.find? p).any (·.isDirectory)

/-- The bytes of a file. -/
def read? (t : FileTree) (p : Path) : Option (List UInt8) :=
  match t.find? p with
  | some (.file bytes) => some bytes
  | _ => none

def isFile (t : FileTree) (p : Path) : Bool := (t.read? p).isSome

/-- The text of a file that is wholly UTF-8. -/
def readText? (t : FileTree) (p : Path) : Option (List Char) :=
  (t.read? p).bind fun bytes => (Text.Utf8.decode bytes).toOption

/-- The names in a directory. -/
def names? (t : FileTree) (p : Path) : Option (List (List Char)) :=
  match t.find? p with
  | some (.directory entries) => some (entries.map (·.1))
  | _ => none

end FileTree
end SourceGauge
