import SourceGauge.Config.Settings
import SourceGauge.Log
import SourceGauge.Path.Normal

/-! Where the test reports of a project lie. -/
namespace SourceGauge.ReportsDir

/-- The setting that names the directory of the test reports. -/
def settingKey : String := "sonar.junit.reportsPath"

/-- The directory that holds the test reports by convention, below the project. -/
def conventional : String := "target/surefire-reports"

def default (base : Path) : Path := base.join (Path.ofString conventional)

/-- A way to find a file that is given relative to a base. -/
abbrev Resolver := Path → Path → Except Path.ResolutionError Path

/-- The configured directory without blank characters around it, unless nothing is left. -/
def configured? (settings : Settings) : Option Path :=
  (settings.get? settingKey).bind fun value =>
    let chars := Text.trim value.toList
    if chars.isEmpty then none else some ⟨chars⟩

/-- The configured directory if it is set and can be resolved, else the conventional one. -/
def locateWith (resolver : Resolver) (settings : Settings) (base : Path) : Logged Path :=
  match configured? settings with
  | none => pure (default base)
  | some path =>
    match resolver base path with
    | .ok dir => pure dir
    | .error e => do
      Logged.warn <| s!"Unable to resolve reports path '{path.text}' against " ++
        s!"{base.text}: {e.message}; using default"
      return default base

def locate (settings : Settings) (base : Path) : Logged Path :=
  locateWith Path.resolve settings base

end SourceGauge.ReportsDir
