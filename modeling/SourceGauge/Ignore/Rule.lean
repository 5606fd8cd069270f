import SourceGauge.Ignore.Glob
import SourceGauge.Text.Blank

/-! Ignore rules: the lines of an ignore file, and the verdict of a list of rules. The last rule
that matches decides. -/
namespace SourceGauge.Ignore

inductive Verdict
  | skip
  | keep
  deriving DecidableEq, Repr

structure Rule where
  pattern : Pattern
  verdict : Verdict
  onlyDirectories : Bool
  deriving DecidableEq, Repr

namespace Rule

/-- A line without blank characters at its end. An escaped blank stays. -/
def trimLine (line : List Char) : List Char :=
  if ['\\', ' '].isSuffixOf line then line
  else (line.reverse.dropWhile Text.isBlank).reverse

/-- A separator at the end marks a rule for directories only. An escape before it goes too. -/
def dropSlash (line : List Char) : List Char × Bool :=
  match line.reverse with
  | '/' :: '\\' :: rest => (rest.reverse, true)
  | '/' :: rest => (rest.reverse, true)
  | _ => (line, false)

/-- The glob of a line. One that is not anchored and names no directory matches at any depth, and
one for everything below a directory does not match the directory. -/
def anchor (anchored : Bool) (glob : List Char) : List Char :=
  let deep := ['*', '*', '/']
  let glob :=
    if anchored || glob.contains '/' || deep.isPrefixOf glob || glob = ['*', '*'] then glob
    else deep ++ glob
  if ['/', '*', '*'].isSuffixOf glob then glob ++ ['/', '*'] else glob

/-- The rule of a line. Comments, empty lines and malformed globs are none. -/
def ofLine? (line : List Char) : Option Rule :=
  match trimLine line with
  | [] => none
  | '#' :: _ => none
  | '\\' :: '!' :: rest => build .skip false ('!' :: rest)
  | '\\' :: '#' :: rest => build .skip false ('#' :: rest)
  | '!' :: '/' :: rest => build .keep true rest
  | '!' :: rest => build .keep false rest
  | '/' :: rest => build .skip true rest
  | rest => build .skip false rest
where
  build (verdict : Verdict) (anchored : Bool) (glob : List Char) : Option Rule :=
    let (glob, onlyDirectories) := dropSlash glob
    (globPattern? (anchor anchored glob)).map fun pattern =>
      { pattern, verdict, onlyDirectories }

def applies (path : List UInt8) (isDirectory : Bool) (r : Rule) : Bool :=
  (isDirectory || !r.onlyDirectories) && r.pattern.accepts path

end Rule

abbrev Rules := List Rule

namespace Rules

/-- The bytes before each line break, which is a line feed with or without a carriage return
before it; the last piece is there only if it is not empty. -/
def splitLines (bytes : List UInt8) : List (List UInt8) :=
  match bytes with
  | [] => []
  | 13 :: 10 :: rest => [] :: splitLines rest
  | b :: rest =>
    if b = 10 then [] :: splitLines rest
    else
      match splitLines rest with
      | [] => [[b]]
      | line :: more => (b :: line) :: more

/-- The text lines of a file up to the first one that is not UTF-8. -/
def textLines : List (List UInt8) → List (List Char)
  | [] => []
  | line :: rest =>
    match Text.Utf8.decode line with
    | .ok chars => chars :: textLines rest
    | .error _ => []

/-- The rules of an ignore file. Byte order marks at its front do not count. -/
def ofBytes (bytes : List UInt8) : Rules :=
  match textLines (splitLines bytes) with
  | [] => []
  | first :: rest => ((first.dropWhile (· = '\ufeff')) :: rest).filterMap Rule.ofLine?

def verdict? (rules : Rules) (path : List UInt8) (isDirectory : Bool) : Option Verdict :=
  (rules.reverse.find? (Rule.applies path isDirectory)).map (·.verdict)

end Rules

example :
    Rules.verdict? (Rules.ofBytes "*.scala\n!Kept.scala\n".toUTF8.toList)
      "a/Kept.scala".toUTF8.toList false = some .keep := by
  decide +kernel

end SourceGauge.Ignore
