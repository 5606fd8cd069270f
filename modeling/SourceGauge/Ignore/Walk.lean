import SourceGauge.Ignore.Layer

/-! The files below a path that no rule leaves out. Symbolic links on the way are passed over. -/
namespace SourceGauge.Ignore

mutual

/-- The files at an entry, which stands at a place and is spelled as a path. -/
def filesAt (t : FileTree) (s : Surroundings) (place : Place) (path : Path) : Entry → List Path
  | .file _ => [path]
  | .link _ => []
  | .directory entries => filesIn t (s.enter (Layer.ofPlace t place) path) place path entries

/-- The files at those of the entries that no rule skips. -/
def filesIn (t : FileTree) (s : Surroundings) (place : Place) (path : Path) :
    List (List Char × Entry) → List Path
  | [] => []
  | (name, e) :: rest =>
    let child := path.join ⟨name⟩
    let here :=
      if s.skips child e.isDirectory then []
      else filesAt t s (place ++ [name]) child e
    here ++ filesIn t s place path rest

end

/-- All files at or below `root`, spelled below it as it is given. A root that is a link is
followed. A hyphen is no root. -/
def files (t : FileTree) (home root : Path) : List Path :=
  if root.components = [.name ['-']] then []
  else
    match t.locate? root with
    | none => []
    | some place =>
      (t.get? place).elim [] (filesAt t (.ofPlace t home place root) place root)

end SourceGauge.Ignore
