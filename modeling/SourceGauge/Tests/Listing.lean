import SourceGauge.FileTree.Basic

/-! Which files of a directory are test reports. -/
namespace SourceGauge.TestReports

/-- The beginning of the names that test reports have by convention. -/
def conventionalStart : String := "TEST-"

def isConventional (p : Path) : Bool :=
  p.fileName?.any fun name => conventionalStart.toList.isPrefixOf name

/-- Report files are markup files. If some of them bear conventional names, only those count. -/
def among (dir : Path) (names : List (List Char)) (isFile : Path → Bool) : List Path :=
  let files := (names.map fun name => dir.join ⟨name⟩).filter fun p =>
    p.extension? = some "xml".toList && isFile p
  let conventional := files.filter isConventional
  (if conventional.isEmpty then files else conventional).mergeSort Path.le

/-- Why there is no list of reports. -/
inductive ListingError
  | notFound
  | unreadable
  deriving DecidableEq, Repr

/-- The reports in a directory, in the order of their names. -/
def listing (t : FileTree) (dir : Path) : Except ListingError (List Path) :=
  if !t.isDir dir then .error .notFound
  else
    match t.names? dir with
    | none => .error .unreadable
    | some names => .ok (among dir names t.isFile)

end SourceGauge.TestReports
