import SourceGauge.Path.Basic
import SourceGauge.Text.Blank

/-! Paths without detours: points are dropped and each step up cancels the name before it. -/
namespace SourceGauge.Path

inductive ResolutionError
  | empty
  | nul
  | escapesRoot
  deriving DecidableEq, Repr

def ResolutionError.message : ResolutionError → String
  | .empty => "path is empty"
  | .nul => "path contains a NUL byte"
  | .escapesRoot => "path escapes the file system root"

/-- Folds the components into those kept so far, latest first. A step up that nothing cancels
stays, except above the root. -/
def normalize (kept : List Component) :
    List Component → Except ResolutionError (List Component)
  | [] => .ok kept.reverse
  | .current :: rest => normalize kept rest
  | .parent :: rest =>
    match kept with
    | .name _ :: kept => normalize kept rest
    | .root :: _ => .error .escapesRoot
    | kept => normalize (.parent :: kept) rest
  | c :: rest => normalize (c :: kept) rest

/-- The normal form of a path that is given relative to a base. -/
def resolve (base p : Path) : Except ResolutionError Path :=
  if p.chars.all Text.isBlank then .error .empty
  else if p.chars.contains '\x00' then .error .nul
  else (normalize [] (base.join p).components).map ofComponents

example : resolve (ofString "/work/a") (ofString "../b/.") = .ok (ofString "/work/b") := by cbv

end SourceGauge.Path
