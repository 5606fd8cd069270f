import SourceGauge.FileTree.Basic
import SourceGauge.Ignore.Rule

/-! The rules that hold in a directory: those of its own ignore files, those of the directories
around it, and the rules of the user. Rules of version control hold inside a repository only. -/
namespace SourceGauge.Ignore

/-- The rules that one directory brings along. -/
structure Layer where
  ignore : Rules
  gitignore : Rules
  exclude : Rules
  isRepository : Bool

/-- The rules of a file, or none if it cannot be read. -/
def rulesAt (t : FileTree) (p : Path) : Rules := (t.read? p).elim [] Rules.ofBytes

namespace Repository

/-- The first line of a file. -/
def firstLine? (t : FileTree) (p : Path) : Option (List Char) := do
  let line ← (Rules.splitLines (← t.read? p)).head?
  (Text.Utf8.decode line).toOption

/-- The directory that the first line of a file `.git` names. -/
def linked? (line : List Char) : Option Path :=
  let mark := "gitdir: ".toList
  if mark.isPrefixOf line then some ⟨line.drop mark.length⟩ else none

/-- The directory that the trees linked to a repository share. Its path stands in the file
`commondir`, and is read from there if it begins with a point. -/
def common? (t : FileTree) (linked : Path) : Option Path := do
  let line ← firstLine? t (linked.join (.ofString "commondir"))
  return if line.head? = some '.' then linked.join ⟨line⟩ else ⟨line⟩

/-- The exclude rules of the directory at a place. If `.git` is a file there, they are those of
the repository to which it leads. -/
def exclude (t : FileTree) (place : Place) : Rules :=
  let own := t.inside place
  let git : Path := .ofString ".git"
  if own.isFile git then
    let shared := ((firstLine? own git).bind linked?).bind (common? t)
    shared.elim [] fun dir => rulesAt t (dir.join (.ofString "info/exclude"))
  else rulesAt own (.ofString ".git/info/exclude")

end Repository

def Layer.ofPlace (t : FileTree) (place : Place) : Layer :=
  let own := t.inside place
  { ignore := rulesAt own (.ofString ".ignore")
    gitignore := rulesAt own (.ofString ".gitignore")
    exclude := Repository.exclude t place
    isRepository := [".git", ".jj"].any fun name => (own.locate? (.ofString name)).isSome }

namespace UserRules

/-- The blank characters of the user's configuration. -/
def isSpace (b : UInt8) : Bool := b = 32 || (9 ≤ b && b ≤ 13)

/-- Only blanks stand before the end of a line, on this line or after it. -/
def endsLine : List UInt8 → Bool
  | [] => true
  | b :: rest => b = 10 || (isSpace b && endsLine rest)

/-- The end of a line comes next, or after a quote. -/
def endsValue (bytes : List UInt8) : Bool :=
  endsLine bytes ||
    match bytes.dropWhile isSpace with
    | b :: rest => b = 34 && endsLine rest
    | [] => false

/-- The least part without blanks, but not an empty one, after which a value ends. -/
def value? : List UInt8 → Option (List UInt8)
  | [] => none
  | b :: rest =>
    if isSpace b then none
    else if endsValue rest then some [b]
    else (value? rest).map (b :: ·)

/-- The value of the setting `excludesfile` if it stands at the front, after blanks that may
reach over lines. A quote before the value does not count if there is a value without it. -/
def setting? (bytes : List UInt8) : Option (List UInt8) :=
  let name := "excludesfile".toUTF8.toList
  let bytes := bytes.dropWhile isSpace
  let lower (b : UInt8) : UInt8 := if 65 ≤ b && b ≤ 90 then b + 32 else b
  if (bytes.take name.length).map lower ≠ name then none
  else
    match (bytes.drop name.length).dropWhile isSpace with
    | [] => none
    | b :: rest =>
      let rest := rest.dropWhile isSpace
      let unquoted := if rest.head? = some 34 then (rest.drop 1).dropWhile isSpace else rest
      if b = 61 then (value? unquoted).or (value? rest) else none

/-- What follows each line feed. -/
def afterFeeds : List UInt8 → List (List UInt8)
  | [] => []
  | b :: rest => if b = 10 then rest :: afterFeeds rest else afterFeeds rest

/-- The file that a configuration names. A tilde stands for the home directory. -/
def configured? (t : FileTree) (home : Path) (config : String) : Option Path := do
  let bytes ← t.read? (home.join (.ofString config))
  let value ← (bytes :: afterFeeds bytes).findSome? setting?
  let chars ← (Text.Utf8.decode value).toOption
  return ⟨chars.flatMap fun c => if c = '~' then home.chars else [c]⟩

/-- The file with the rules of the user, wherever the configuration places it. -/
def file (t : FileTree) (home : Path) : Path :=
  let chosen := (configured? t home ".gitconfig").or (configured? t home ".config/git/config")
  chosen.getD (home.join (.ofString ".config/git/ignore"))

end UserRules

/-! Rules see a path as it is spelled, seen from the directory to which they belong. -/

/-- The path without one point at its front. -/
def dropPoint : List Char → List Char
  | '.' :: '/' :: rest => rest
  | cs => cs

/-- What stands in a path after the text `front` and a separator. -/
def dropFront (front path : List Char) : List Char :=
  if !front.isPrefixOf path then path
  else
    match path.drop front.length with
    | '/' :: rest => rest
    | rest => rest

/-- A directory is spelled as the current one. -/
def isCurrent (dir : List Char) : Bool := (Path.mk dir).components = [.current]

/-- A path as seen from a directory. Two points at the front of the path do not count, but only
one of the directory. -/
def seenFrom (dir path : Path) : List Char :=
  let chars := dropPoint (dropPoint path.chars)
  let front := dropPoint dir.chars
  if isCurrent front || !chars.contains '/' then chars else dropFront front chars

/-- The layers around the entries of a directory, nearest first: those of the directories in
which it was reached, as spelled from `root`, and those of the directories above, each with the
names that lead from there to `root`. -/
structure Surroundings where
  root : Path
  own : List (Layer × Path)
  above : List (Layer × Place)
  user : Rules
  /-- The working directory, from which the rules of the user see a path. -/
  here : Path

namespace Surroundings

/-- What surrounds the directory at a place. -/
def ofPlace (t : FileTree) (home : Path) (place : Place) (root : Path) : Surroundings :=
  { root, own := []
    above := (List.range place.length).reverse.map fun n =>
      (Layer.ofPlace t (place.take n), place.drop n)
    user := rulesAt t (UserRules.file t home)
    here := ⟨'/' :: Path.joinSegments t.here⟩ }

/-- The surroundings inside a directory that brings its own layer. -/
def enter (s : Surroundings) (layer : Layer) (dir : Path) : Surroundings :=
  { s with own := (layer, dir) :: s.own }

/-- A path as seen from `root`. -/
def belowRoot (s : Surroundings) (path : Path) : List Char :=
  let chars := dropPoint path.chars
  if isCurrent s.root.chars then chars else dropFront (dropPoint s.root.chars) chars

/-- All layers, with the path as each of them sees it. -/
def views (s : Surroundings) (path : Path) : List (Layer × List UInt8) :=
  let own := s.own.map fun (layer, dir) => (layer, Text.Utf8.encode (seenFrom dir path))
  let below := s.belowRoot path
  own ++ s.above.map fun (layer, names) =>
    (layer, Text.Utf8.encode (Path.joinSegments (names ++ [below])))

/-- The layers up to the nearest repository, if there is one at all. -/
def versioned (layers : List (Layer × List UInt8)) : List (Layer × List UInt8) :=
  let inside := layers.takeWhile fun (layer, _) => !layer.isRepository
  match layers.drop inside.length with
  | [] => []
  | repository :: _ => inside ++ [repository]

/-- The verdict on an entry at a path as spelled. The rules of one kind speak before those of the
next, and near ones before far ones. -/
def verdict? (s : Surroundings) (path : Path) (isDirectory : Bool) : Option Verdict :=
  let first (layers : List (Layer × List UInt8)) (rules : Layer → Rules) : Option Verdict :=
    layers.findSome? fun (layer, view) => (rules layer).verdict? view isDirectory
  let layers := s.views path
  let versioned := versioned layers
  let user : Rules := if versioned.isEmpty then [] else s.user
  (first layers (·.ignore)).or <| (first versioned (·.gitignore)).or <|
    (first versioned (·.exclude)).or <|
      user.verdict? (Text.Utf8.encode (seenFrom s.here path)) isDirectory

def skips (s : Surroundings) (path : Path) (isDirectory : Bool) : Bool :=
  s.verdict? path isDirectory = some .skip

end Surroundings
end SourceGauge.Ignore
