import SourceGauge.Config.Merge
import SourceGauge.FileTree.Basic

/-! Loading a configuration: the file of the user first, then the file of the project, or one
chosen file alone. -/
namespace SourceGauge.Config

/-- Merges a file that may be missing. -/
def mergeFile (t : FileTree) (c : Config) (file : Path) : Logged Config :=
  match t.readText? file with
  | none => pure c
  | some text => c.mergeText text

def load (t : FileTree) (home root : Path) : Logged Config := do
  let c ← mergeFile t default (home.join (.ofString fileName))
  mergeFile t c (root.join (.ofString fileName))

/-- The configuration of one file. If it cannot be read, that is logged. -/
def loadFrom (t : FileTree) (file : Path) : Logged Config :=
  match t.readText? file with
  | some text => mergeText default text
  | none => do
    Logged.warn s!"Could not read config file {file.text}"
    return default

end SourceGauge.Config
