import SourceGauge.Path.Relative

/-! Source files of a project, and which of them are test code. -/
namespace SourceGauge

inductive FileType
  | main
  | test
  deriving DecidableEq, Repr

structure SourceFile where
  path : Path
  fileType : FileType
  deriving DecidableEq, Repr

namespace SourceFile

/-- The files that the source metrics measure. -/
def isEligible (f : SourceFile) : Bool := f.fileType = .main

end SourceFile

namespace Path

def isScala (p : Path) : Bool := p.extension? = some "scala".toList

/-- A path inside a project belongs to test code when a directory on it bears one of the given
names. -/
def fileType (p : Path) (testDirs : List String) : FileType :=
  if p.components.dropLast.any fun c =>
      match c with
      | .name cs => testDirs.contains (String.ofList cs)
      | _ => false
  then .test else .main

end Path
end SourceGauge
