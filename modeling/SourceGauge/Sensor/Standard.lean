import SourceGauge.Measure.Sources
import SourceGauge.Sensor.Basic
import SourceGauge.Tests.Results

/-! The two sensors that every analysis has: one measures the sources, the other imports test
results once coverage is known. -/
namespace SourceGauge.Sensor

/-- Measures the eligible files of the project. -/
def baseMetrics (t : FileTree) : Sensor where
  name := "base-metrics"
  provides := [.baseMetrics]
  analyse project store := do
    let read (path : Path) := sourceText project.config.encoding (t.read? path)
    let paths := project.eligible.map (·.path)
    let (store, summary) ← measureSources project.config.functionLimits read paths store
    Logged.info s!"Measured {summary.files} files ({summary.unreadable} unreadable)"
    return store

/-- Imports the test reports of a project that has sources. -/
def testResults (t : FileTree) : Sensor where
  name := "surefire"
  provides := [.testResults]
  dependsOn := [.coverage]
  shouldExecute := Project.hasSources
  analyse project store := do
    let dir ← ReportsDir.locate project.config.settings project.base
    Logged.info s!"Parsing test reports in {dir.text}"
    let (store, results) ← TestResults.collectIn t dir store
    Logged.info <|
      s!"Imported {results.reports.length} reports ({results.failed.length} unparseable): " ++
        s!"{results.counts.tests} tests, {results.counts.failures} failures"
    return store

end SourceGauge.Sensor
