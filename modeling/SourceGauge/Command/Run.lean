import SourceGauge.Command.Arguments
import SourceGauge.Config.Load
import SourceGauge.Measure.Report
import SourceGauge.Project.Discovery
import SourceGauge.Sensor.Schedule
import SourceGauge.Sensor.Standard

/-! Running a command on a file tree: what it prints, what it tells on the side, and its exit
code. -/
namespace SourceGauge.Command

/-- What a command finds around it. -/
structure Environment where
  tree : FileTree
  home : Path
  /-- The level of logging that the user has set, if any. -/
  logLevel : Option String

/-- What a command tells apart from its result. -/
inductive Message
  | event (e : Event)
  | notice (text : String)
  deriving DecidableEq, Repr

structure Outcome where
  exitCode : Nat
  output : String
  messages : List Message
  deriving DecidableEq, Repr

def versionText : String := "scalasense 0.1.0\n"

def helpText : String :=
  "Usage: scalasense [OPTIONS] [PATH] [COMMAND]\n\nCommands:\n" ++
    "  analyze   Measure sources and import test reports\n" ++
    "  metrics   Measure sources only\n" ++
    "  tests     Import test reports only\n" ++
    "  defaults  Print the default configuration\n\nOptions:\n" ++
    "  --config <FILE>       Use this configuration file alone\n" ++
    "  --format <FORMAT>     text or json\n" ++
    "  --encoding <NAME>     Encoding of the sources\n" ++
    "  --reports-path <DIR>  Directory of the test reports\n" ++
    "  -v, --verbose         More logging\n"

/-- The levels that are logged, by how often more logging was asked for. -/
def levelsFor (verbosity : Nat) : List Level :=
  match verbosity with
  | 0 => [.error, .warn]
  | 1 => [.error, .warn, .info]
  | _ => [.error, .warn, .info, .debug]

/-- The levels that are logged under a setting by name; no other name turns on any. -/
def levelsNamed (name : String) : List Level :=
  match name.toLower with
  | "error" | "" => [.error]
  | "warn" => levelsFor 0
  | "info" => levelsFor 1
  | "debug" | "trace" => levelsFor 2
  | _ => []

/-- The levels that are logged. What the user has set in the environment wins. -/
def levels (logLevel : Option String) (verbosity : Nat) : List Level :=
  logLevel.elim (levelsFor verbosity) levelsNamed

/-- The messages that pass a filter of levels. Notices always do. -/
def keepMessages (levels : List Level) (messages : List Message) : List Message :=
  messages.filter fun
    | .event e => levels.contains e.level
    | .notice _ => true

/-- The sensors that a command runs. -/
def sensorsOf (t : FileTree) : Option Name → Schedule
  | some .metrics => [.baseMetrics t]
  | some .tests => [.testResults t]
  | _ => [.baseMetrics t, .testResults t]

/-- The configuration that holds for a project after what the command line sets. -/
def settle (env : Environment) (w : Words) (root : Path) : Logged Config := do
  let c ← match w.config with
    | some file => Config.loadFrom env.tree file
    | none => Config.load env.tree env.home root
  return { c with
    encoding := w.encoding.getD c.encoding
    settings := w.reportsPath.elim c.settings (c.settings.set ReportsDir.settingKey) }

/-- The report of measures in the format asked for. -/
def report (format : Format) (ms : List Measure) : String :=
  match format with
  | .text => Measure.textReport ms
  | .json => Measure.jsonReport ms ++ "\n"

/-- Analyses the project in a directory. -/
def analyse (env : Environment) (name : Option Name) (w : Words) (root : Path) : Outcome :=
  let config := settle env w root
  let files := Project.discover env.tree env.home root config.value.testDirs
  let project : Project := ⟨root, files, config.value⟩
  let nothing :=
    if name ≠ some .tests && !project.hasSources then
      [.notice s!"No Scala files in {root.text}"]
    else []
  let before := config.log.map .event ++ nothing
  match (sensorsOf env.tree name).run project .empty with
  | .error e => ⟨2, "", before ++ [.notice s!"Error: {e.message}"]⟩
  | .ok result =>
    let measures := Measure.reportOrder root result.value.1.measures
    ⟨0, report (w.format.getD .text) measures, before ++ result.log.map .event⟩

/-- The directory that a command is about. -/
def Words.root (w : Words) : Path := w.path.getD (.ofString ".")

/-- Runs a command line. -/
def run (env : Environment) (args : List String) : Outcome :=
  match Arguments.read args with
  | .error .usage => ⟨2, "", []⟩
  | .error .help => ⟨0, helpText, []⟩
  | .error .version => ⟨0, versionText, []⟩
  | .ok ⟨some .defaults, _⟩ => ⟨0, Config.defaultToml, []⟩
  | .ok ⟨name, w⟩ =>
    if !env.tree.isDir w.root then
      ⟨1, "", [.notice s!"Error: {w.root.text} is not a directory"]⟩
    else
      let outcome := analyse env name w w.root
      { outcome with
        messages := keepMessages (levels env.logLevel w.verbosity) outcome.messages }

end SourceGauge.Command
