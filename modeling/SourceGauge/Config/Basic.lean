import SourceGauge.Config.Settings
import SourceGauge.Project.ReportsDir
import SourceGauge.Scala.FileMetrics
import SourceGauge.Text.Encoding

/-! The configuration of an analysis run, and what holds without any configuration. -/
namespace SourceGauge

structure Config where
  encoding : Text.Encoding
  testDirs : List String
  functionLimits : List Nat
  settings : Settings
  deriving DecidableEq, Repr

namespace Config

/-- The directory names that mark test code when none are configured. -/
def defaultTestDirs : List String := ["test", "tests", "it"]

def default : Config :=
  { encoding := .utf8
    testDirs := defaultTestDirs
    functionLimits := Scala.defaultLimits
    settings := .empty }

/-- The name of the configuration file, in the home directory and in a project. -/
def fileName : String := ".scalasense"

/-- The configuration file that spells out the default configuration. -/
def defaultToml : String :=
  let dirs := ", ".intercalate (default.testDirs.map fun d => s!"\"{d}\"")
  let limits := ", ".intercalate (default.functionLimits.map toString)
  s!"[sources]\nencoding = \"{default.encoding.name}\"\ntest_dirs = [{dirs}]\n\n" ++
    s!"[complexity]\nfunction_limits = [{limits}]\n\n" ++
    s!"[settings]\n# \"{ReportsDir.settingKey}\" = \"{ReportsDir.conventional}\"\n"

end Config
end SourceGauge
