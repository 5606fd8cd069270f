import SourceGauge.Config.Basic
import SourceGauge.Measure.Store
import SourceGauge.Project.Source

/-! Sensors: what a run over a project is made of. Each sensor says what it provides and what it
depends on, and adds measures to a store. -/
namespace SourceGauge

inductive Capability
  | coverage
  | baseMetrics
  | testResults
  deriving DecidableEq, Repr

/-- What sensors know of a project. -/
structure Project where
  base : Path
  files : List SourceFile
  config : Config
  deriving DecidableEq, Repr

namespace Project

/-- The files that the source metrics measure. -/
def eligible (p : Project) : List SourceFile := p.files.filter (·.isEligible)

def hasSources (p : Project) : Bool := !p.files.isEmpty

end Project

structure Sensor where
  name : String
  provides : List Capability := []
  dependsOn : List Capability := []
  shouldExecute : Project → Bool := fun _ => true
  analyse : Project → Store → Logged Store := fun _ store => pure store

namespace Sensor

/-- One sensor provides what the other depends on. -/
def feeds (provider dependent : Sensor) : Bool :=
  dependent.dependsOn.any provider.provides.contains

end Sensor
end SourceGauge
