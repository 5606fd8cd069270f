/-! File paths: text seen through its components. Two spellings of one component list name the
same file, and printing keeps the spelling. -/
namespace SourceGauge

/-- One step of a path. In their order the root comes first and names come last. -/
inductive Component
  | root
  | current
  | parent
  | name (chars : List Char)
  deriving DecidableEq, Repr, Ord

namespace Component

/-- What one piece between separators stands for; an empty piece and a single point stand for
nothing. -/
def ofSegment? : List Char → Option Component
  | [] => none
  | ['.'] => none
  | ['.', '.'] => some .parent
  | cs => some (.name cs)

def chars : Component → List Char
  | .root => ['/']
  | .current => ['.']
  | .parent => ['.', '.']
  | .name cs => cs

instance : Hashable Component where
  hash c := hash (String.ofList c.chars)

end Component

structure Path where
  chars : List Char
  deriving DecidableEq, Repr, Inhabited

namespace Path

def ofString (s : String) : Path := ⟨s.toList⟩

def text (p : Path) : String := String.ofList p.chars

/-- The pieces between separators; there is always at least one. -/
def segments : List Char → List (List Char)
  | [] => [[]]
  | c :: rest =>
    if c = '/' then [] :: segments rest
    else
      match segments rest with
      | [] => [[c]]
      | piece :: more => (c :: piece) :: more

/-- Puts pieces together with separators between them. -/
def joinSegments (pieces : List (List Char)) : List Char := ['/'].intercalate pieces

theorem segments_ne_nil (cs : List Char) : segments cs ≠ [] := by
  cases cs with
  | nil => simp [segments]
  | cons c rest => simp only [segments]; split <;> (try split) <;> simp

theorem joinSegments_segments (cs : List Char) : joinSegments (segments cs) = cs := by
  induction cs with
  | nil => rfl
  | cons c rest ih =>
    simp only [segments]
    have hne := segments_ne_nil rest
    generalize segments rest = pieces at ih hne
    cases pieces with
    | nil => exact absurd rfl hne
    | cons piece more =>
      split
      · subst c; simp_all [joinSegments, List.intercalate, List.intersperse]
      · cases more <;> simp_all [joinSegments, List.intercalate, List.intersperse]

/-- A path splits into what stands before its body, and the pieces of the body. Only the root
and a point at the very front stand before. -/
def split (p : Path) : Option Component × List (List Char) :=
  match p.chars with
  | '/' :: rest => (some .root, segments rest)
  | cs =>
    match segments cs with
    | ['.'] :: more => (some .current, more)
    | pieces => (none, pieces)

def components (p : Path) : List Component :=
  p.split.1.toList ++ p.split.2.filterMap Component.ofSegment?

def isAbsolute (p : Path) : Bool := p.chars.head? = some '/'

/-- The two paths have the same components. -/
def same (p q : Path) : Bool := p.components = q.components

/-- The order of files: by components, each by its characters. -/
def le (p q : Path) : Bool := (compare p.components q.components).isLE

/-- An absolute right side replaces the base. -/
def join (base p : Path) : Path :=
  if p.isAbsolute || base.chars.isEmpty then p
  else if base.chars.getLast? = some '/' then ⟨base.chars ++ p.chars⟩
  else ⟨base.chars ++ '/' :: p.chars⟩

/-- The path that is written from components. -/
def ofComponents : List Component → Path
  | .root :: rest => ⟨'/' :: joinSegments (rest.map Component.chars)⟩
  | cs => ⟨joinSegments (cs.map Component.chars)⟩

/-- The last component, if it is a name. -/
def fileName? (p : Path) : Option (List Char) :=
  match p.components.getLast? with
  | some (.name cs) => some cs
  | _ => none

/-- The part of the file name after its last point, if there is something before that point. -/
def extension? (p : Path) : Option (List Char) := do
  let name ← p.fileName?
  if !name.contains '.' then none
  else
    let ending := (name.reverse.takeWhile (· ≠ '.')).reverse
    if name.length = ending.length + 1 then none else some ending

example : (ofString "./a//b/.").components = [.current, .name ['a'], .name ['b']] := by cbv
example : (ofString "x/.scala").extension? = none := by cbv

end Path
end SourceGauge
