import SourceGauge.FileTree.Basic

/-! Growing a file tree entry by entry. Directories that are missing on the way are made. -/
namespace SourceGauge

/-- Applies `f` to the entry of a name, or to a new empty directory if there is none. -/
def Entry.alterChild (f : Entry → Entry) (name : List Char) :
    List (List Char × Entry) → List (List Char × Entry)
  | [] => [(name, f (.directory []))]
  | (other, e) :: rest =>
    if other = name then (other, f e) :: rest else (other, e) :: alterChild f name rest

/-- Puts an entry at a place; what stood there goes. Nothing can be put below a file. -/
def Entry.put (new : Entry) : Place → Entry → Entry
  | [], _ => new
  | name :: rest, .directory entries => .directory (alterChild (put new rest) name entries)
  | _, e => e

namespace FileTree

/-- A tree that holds the working directory only. -/
def empty (here : Place) : FileTree :=
  { entries := ((Entry.directory []).put here (.directory [])).children, here }

/-- The place where a new entry of a given path belongs. -/
def placeFor (t : FileTree) (p : Path) : Place :=
  (Path.segments p.chars).foldl (fun place step =>
    (t.follow? maxLinks place [step]).getD (place ++ [step])) (start t.here p)

/-- Adds an entry. A directory that is already there keeps what it holds. -/
def add (t : FileTree) (p : Path) (e : Entry) : FileTree :=
  let place := t.placeFor p
  if e.isDirectory && t.hasDirectory place then t
  else { t with entries := (e.put place (.directory t.entries)).children }

example : (((empty [['w']]).add (.ofString "a/b") (.file [1])).add (.ofString "l")
    (.link (.ofString "a"))).read? (.ofString "../w/l/./b") = some [1] := by cbv

end FileTree
end SourceGauge
