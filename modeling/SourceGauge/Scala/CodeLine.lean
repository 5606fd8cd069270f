import SourceGauge.Scala.Comment

/-! Lines of code: which lines of a file count as code, under a given policy. -/
namespace SourceGauge.Scala

/-- A policy says whether a line, given by its number and text, counts as code. -/
abbrev LinePolicy := List Comment → Nat → List Char → Bool

/-- The usual policy: a line of code is neither blank nor made of comments only. -/
def LinePolicy.code : LinePolicy := fun comments number line =>
  !line.all Text.isBlank && !isCommentOnly comments number line

/-- For each line in order, whether it counts as code. -/
def markCode (policy : LinePolicy) (comments : List Comment) (lines : List (List Char)) :
    List Bool :=
  (lines.zipIdx 1).map fun (line, number) => policy comments number line

def countCode (policy : LinePolicy) (comments : List Comment) (lines : List (List Char)) : Nat :=
  (markCode policy comments lines).count true

end SourceGauge.Scala
