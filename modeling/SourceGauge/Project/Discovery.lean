import SourceGauge.Ignore.Walk
import SourceGauge.Project.Source

/-! The source files of a project, in the order of their paths. -/
namespace SourceGauge.Project

/-- The source file at a path, if it is one. What lies between the root and the file tells its
type. -/
def sourceFile? (root : Path) (testDirs : List String) (path : Path) : Option SourceFile :=
  if path.isScala then
    some { path, fileType := ((path.below? root).getD path).fileType testDirs }
  else none

/-- The source files among the files of a project. -/
def sourcesAmong (root : Path) (testDirs : List String) (paths : List Path) : List SourceFile :=
  (paths.filterMap (sourceFile? root testDirs)).mergeSort fun f g => f.path.le g.path

/-- All source files below `root` that the ignore rules leave. -/
def discover (t : FileTree) (home root : Path) (testDirs : List String) : List SourceFile :=
  sourcesAmong root testDirs (Ignore.files t home root)

end SourceGauge.Project
