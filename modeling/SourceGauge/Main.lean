import SourceGauge.Command.Run
import SourceGauge.FileTree.Build

/-! The program. It reads from disk what a command line can be about, runs the command on that
and prints. -/
namespace SourceGauge.Survey

/-- The parts with which a path begins, shortest first. -/
def leadingParts (path : String) : List String :=
  let pieces := Path.segments path.toList
  (List.range pieces.length).filterMap fun n =>
    match Path.joinSegments (pieces.take (n + 1)) with
    | [] => none
    | cs => some (String.ofList cs)

/-- The files whose contents a command may look at. -/
def isRead (path : String) : Bool :=
  let p := Path.ofString path
  p.isScala || p.extension? = some "xml".toList ||
    p.fileName?.any fun name => [".scalasense", ".ignore", ".gitignore", ".git"].contains (String.ofList name)

/-- The path without links and detours, if something stands there. -/
def realPath? (path : String) : IO (Option String) := do
  match ← (IO.FS.realPath ((← IO.currentDir) / path)).toBaseIO with
  | .error _ => return none
  | .ok real => return some real.toString

mutual

/-- Adds what stands at a path. Below it, `deep` adds everything else. -/
partial def entry (deep whole : Bool) (t : FileTree) (path : String) : IO FileTree := do
  let file := (← IO.currentDir) / path
  match ← file.symlinkMetadata.toBaseIO with
  | .error _ => return t
  | .ok data =>
    match data.type with
    | .dir =>
      let t := t.add (.ofString path) (.directory [])
      if !deep then return t
      let children ← file.readDir
      children.foldlM (fun t child => entry deep false t (path ++ "/" ++ child.fileName)) t
    | .file =>
      if !(whole || isRead path) then return t.add (.ofString path) (.file [])
      let isKnown := t.isFile (.ofString path)
      match ← (IO.FS.readBinFile file).toBaseIO with
      | .error _ => return t
      | .ok bytes =>
        let t := t.add (.ofString path) (.file bytes.toList)
        let isGit := (Path.ofString path).fileName? = some ".git".toList
        if isGit && !isKnown then repository t path else return t
    | .symlink =>
      match ← realPath? path with
      | none => return t
      | some target =>
        let t := t.add (.ofString path) (.link (.ofString target))
        (leadingParts target).foldlM (entry false whole) t
    | .other => return t

/-- Adds what stands at a path and on the way to it. -/
partial def path (deep : Bool) (t : FileTree) (p : String) : IO FileTree := do
  let t ← (leadingParts p).foldlM (entry false true) t
  if !deep then return t
  match ← realPath? p with
  | none => return t
  | some real => entry true true t real

/-- Adds the exclude file of the repository to which a file `.git` leads. -/
partial def repository (t : FileTree) (git : String) : IO FileTree := do
  let line := Ignore.Repository.firstLine? t (.ofString git)
  match line.bind Ignore.Repository.linked? with
  | none => return t
  | some linked =>
    let t ← path false t (linked.join (.ofString "commondir")).text
    match Ignore.Repository.common? t linked with
    | none => return t
    | some shared => path false t (shared.join (.ofString "info/exclude")).text

end

/-- Adds the ignore files of a directory, and what makes it a repository. -/
def ignoreFiles (t : FileTree) (dir : String) : IO FileTree :=
  let names := [".ignore", ".gitignore", ".git", ".git/info/exclude", ".jj"]
  names.foldlM (fun t name => path false t (dir ++ "/" ++ name)) t

/-- Adds all that a command looks at. -/
def environment (args : List String) : IO Command.Environment := do
  let here := (← IO.currentDir).toString
  let home := (← IO.getEnv "HOME").getD "/"
  let logLevel ← IO.getEnv "SCALASENSE_LOG"
  let place := (Path.segments here.toList).filter fun piece => !piece.isEmpty
  let env (t : FileTree) : Command.Environment := ⟨t, .ofString home, logLevel⟩
  match Command.Arguments.read args with
  | .error _ => return env (.empty place)
  | .ok arguments =>
    let w := arguments.words
    let root := w.root.text
    let t ← path true (.empty place) root
    let around := leadingParts ((← realPath? root).getD "")
    let t ← ("" :: around).foldlM ignoreFiles t
    let known := [".scalasense", ".gitconfig", ".config/git/config"].map (home ++ "/" ++ ·)
    let t ← (known ++ (w.config.map (·.text)).toList).foldlM (path false) t
    let t ← path false t (Ignore.UserRules.file t (.ofString home)).text
    let settled := (Command.settle (env t) w w.root).value
    return env (← path true t (ReportsDir.locate settled.settings w.root).value.text)

end SourceGauge.Survey

open SourceGauge in
def main (args : List String) : IO UInt32 := do
  let outcome := Command.run (← Survey.environment args) args
  for message in outcome.messages do
    match message with
    | .event e => IO.eprintln s!"{e.level.name} {e.message}"
    | .notice text => IO.eprintln text
  IO.print outcome.output
  return outcome.exitCode.toUInt32
