import SourceGauge.Ignore.Pattern
import SourceGauge.Text.Utf8

/-! Globs: the patterns of ignore files. `?` and `*` stay inside one name of a path, two stars
between separators stand for any number of names, brackets hold a class and braces hold
alternatives. -/
namespace SourceGauge.Ignore

/-- What the characters of a glob stand for, apart from the pairing of stars and braces. -/
inductive GlobSymbol
  | literal (c : Char) (escaped : Bool)
  | any
  | star
  | oneOf (s : ByteSet)
  | opening
  | comma
  | closing
  deriving DecidableEq, Repr

namespace GlobSymbol

/-- The ranges that the characters of a class denote, latest first. In an open range the next
character becomes the end of the latest range. A range must not be reversed. -/
def classRanges (isOpen : Bool) (ranges : List (Char × Char)) :
    List Char → Option (List (Char × Char))
  | [] => some (if isOpen then ('-', '-') :: ranges else ranges)
  | c :: rest =>
    match isOpen, ranges with
    | true, (low, _) :: more =>
      if c < low then none else classRanges false ((low, c) :: more) rest
    | _, _ =>
      if c = '-' && !ranges.isEmpty then classRanges true ranges rest
      else classRanges false ((c, c) :: ranges) rest

/-- A character counts in a class with each of its bytes, and a range runs from the last byte of
its low end to the first byte of its high end. -/
def rangeBytes (range : Char × Char) : List (UInt8 × UInt8) :=
  let low := String.utf8EncodeChar range.1
  let high := String.utf8EncodeChar range.2
  let each := List.map fun b : UInt8 => (b, b)
  if range.1 = range.2 then each low
  else each low.dropLast ++ [(low.getLastD 0, high.headD 0)] ++ each high.tail

/-- Splits what follows an opening bracket into the class, without its sign of negation, and the
rest. A closing bracket at the front belongs to the class. -/
def splitClass (cs : List Char) : Bool × List Char × List Char :=
  let negated := cs.head? = some '!' || cs.head? = some '^'
  let cs := if negated then cs.drop 1 else cs
  let body := cs.take 1 ++ (cs.drop 1).takeWhile (· ≠ ']')
  (negated, body, (cs.drop 1).dropWhile (· ≠ ']'))

theorem length_splitClass_le (cs : List Char) : (splitClass cs).2.2.length ≤ cs.length := by
  have h (l : List Char) : (l.dropWhile (· ≠ ']')).length ≤ l.length :=
    (List.dropWhile_sublist _).length_le
  simp only [splitClass]
  refine Nat.le_trans (h _) ?_
  split <;> simp only [List.length_drop] <;> omega

/-- The symbols of a glob. Once a bracket has no partner, brackets stand for themselves. There
is no reading with a reversed range or with nothing to escape at the end. -/
def read (classes : Bool) : List Char → Option (List GlobSymbol)
  | [] => some []
  | '\\' :: c :: rest => (read classes rest).map (.literal c true :: ·)
  | c :: rest =>
    if c = '\\' then none
    else if c = '[' && classes then
      match classRanges false [] (splitClass rest).2.1 with
      | none => none
      | some ranges =>
        if (splitClass rest).2.2.isEmpty then (read false rest).map (.literal '[' false :: ·)
        else
          (read classes ((splitClass rest).2.2.drop 1)).map
            (.oneOf ⟨(splitClass rest).1, ranges.flatMap rangeBytes⟩ :: ·)
    else
      let symbol : GlobSymbol := match c with
        | '?' => .any
        | '*' => .star
        | '\x7b' => .opening
        | ',' => .comma
        | '\x7d' => .closing
        | c => .literal c false
      (read classes rest).map (symbol :: ·)
termination_by cs => cs.length
decreasing_by
  all_goals
    have := length_splitClass_le rest
    simp only [List.length_cons, List.length_drop]
    omega

/-- The last character with which a symbol is written. -/
def lastChar : GlobSymbol → Char
  | .literal c _ => c
  | .any => '?'
  | .star => '*'
  | .oneOf _ => ']'
  | .opening => '\x7b'
  | .comma => ','
  | .closing => '\x7d'

end GlobSymbol

/-- A part of a glob. -/
inductive GlobPart
  | plain (p : Pattern)
  /-- Any leading names. -/
  | leading
  /-- Any names in between. -/
  | between
  /-- Whatever lies below. -/
  | below

namespace GlobPart

def pattern : GlobPart → Pattern
  | .plain p => p
  | .leading => .orElse (.orElse .empty (.one 47)) (.andThen (.many (.byte .all)) (.one 47))
  | .between =>
    .orElse (.one 47) (.concat [.one 47, .many (.byte .all), .one 47])
  | .below => .andThen (.one 47) (.many (.byte .all))

def patternOf (parts : List GlobPart) : Pattern := .concat (parts.map pattern)

def star : GlobPart := .plain (.many (.byte .inName))

/-- A part for two stars takes the place of the part before it. Repeated ones count once. -/
def replaceLatest (latest : List GlobPart) (new : GlobPart) : List GlobPart :=
  match latest with
  | .leading :: _ => latest
  | .below :: _ => latest
  | _ :: more => new :: more
  | [] => [new]

end GlobPart

/-- A glob that is read up to some point: the parts of the current alternative, latest first,
and for each brace that is open the alternatives before it and the parts before the brace. -/
structure GlobReading where
  parts : List GlobPart
  outer : List (List Pattern × List GlobPart)

namespace GlobReading

def push (r : GlobReading) (part : GlobPart) : GlobReading := { r with parts := part :: r.parts }

def current (r : GlobReading) : Pattern := GlobPart.patternOf r.parts.reverse

/-- One of the alternatives; empty ones do not count. -/
def oneOf (alternatives : List Pattern) : Pattern :=
  match alternatives.filter (· ≠ .empty) with
  | [] => .empty
  | p :: rest => rest.foldl .orElse p

/-- Two stars may mean more than two stars where a separator comes before them, or inside braces
the characters that begin an alternative. It does not matter whether those are escaped. -/
def takesNames (r : GlobReading) (last : Option Char) : Bool :=
  last = some '/' || (!r.outer.isEmpty && (last = some ',' || last = some '\x7b'))

/-- Two stars end the glob, or inside braces an alternative. -/
def atEnd (r : GlobReading) : List GlobSymbol → Bool
  | [] => true
  | next :: _ => !r.outer.isEmpty && (next = .comma || next = .closing)

/-- Reads the symbols after the parts so far. `last` is the character that was read last. -/
def run (r : GlobReading) (last : Option Char) : List GlobSymbol → Option GlobReading
  | [] => some r
  | .star :: .star :: rest =>
    let stars := (r.push .star).push .star
    if r.parts.isEmpty then
      match rest with
      | .literal '/' false :: more => run (r.push .leading) (some '/') more
      | [] => some (r.push .leading)
      | more => run stars (some '*') more
    else if !r.takesNames last then run stars (some '*') rest
    else if r.atEnd rest then
      run { r with parts := GlobPart.replaceLatest r.parts .below } (some '*') rest
    else
      match rest with
      | .literal '/' false :: more =>
        run { r with parts := GlobPart.replaceLatest r.parts .between } (some '/') more
      | more => run stars (some '*') more
  | symbol :: rest =>
    let last := some symbol.lastChar
    match symbol with
    | .star => run (r.push .star) last rest
    | .any => run (r.push (.plain (.byte .inName))) last rest
    | .oneOf s => run (r.push (.plain (.byte s))) last rest
    | .opening => run ⟨[], ([], r.parts) :: r.outer⟩ last rest
    | .comma =>
      match r.outer with
      | [] => run (r.push (.plain (.one 44))) last rest
      | (alternatives, saved) :: outer =>
        run ⟨[], (alternatives ++ [r.current], saved) :: outer⟩ last rest
    | .closing =>
      match r.outer with
      | [] => none
      | (alternatives, saved) :: outer =>
        run ⟨.plain (oneOf (alternatives ++ [r.current])) :: saved, outer⟩ last rest
    | .literal c _ => run (r.push (.plain (.literal (String.utf8EncodeChar c)))) last rest
termination_by symbols => symbols.length

end GlobReading

/-- The pattern of a glob, unless its text is malformed. Two stars alone match everything. -/
def globPattern? (glob : List Char) : Option Pattern := do
  let r ← GlobReading.run ⟨[], []⟩ none (← GlobSymbol.read true glob)
  if !r.outer.isEmpty then none
  else
    match r.parts with
    | [.leading] => return .many (.byte .all)
    | _ => return r.current

/-- The glob matches a path. -/
def globMatches (glob path : String) : Bool :=
  (globPattern? glob.toList).any fun p => p.accepts (Text.Utf8.encode path.toList)

example : globMatches "**/*.scala" "a/b.scala" = true := by decide +kernel
example : globMatches "a/**/b" "a/b" = true := by decide +kernel
example : globMatches "*.scala" "a/b.scala" = false := by decide +kernel
example : globMatches "a[!b-d]\x7bx,y\x7d" "aey" = true := by decide +kernel

end SourceGauge.Ignore
