import SourceGauge.Measure.Store
import SourceGauge.Tests.Listing
import SourceGauge.Tests.Report

/-! Test results: the sum of all reports that could be read, published once for the project. -/
namespace SourceGauge

structure TestResults where
  counts : TestCounts := .zero
  reports : List TestReport := []
  failed : List Path := []
  deriving DecidableEq, Repr

namespace TestResults
open TestReports (ListingError)

def hasResults (r : TestResults) : Bool := !r.reports.isEmpty

def add (r : TestResults) (report : TestReport) : TestResults :=
  { r with counts := r.counts.add report.counts, reports := r.reports ++ [report] }

/-- A listed file, with what reading it as a report gave. -/
structure Reading where
  file : Path
  outcome : Except ReportError TestReport

/-- Adds the report of a file. A file without a valid report is logged and adds nothing. -/
def addReading (r : TestResults) (reading : Reading) : Logged TestResults :=
  match reading.outcome with
  | .ok report => pure (r.add report)
  | .error e => do
    Logged.warn s!"Skipping report {reading.file.text}: {e.message}"
    return { r with failed := r.failed ++ [reading.file] }

def measures (c : TestCounts) : List Measure :=
  let counts : List (Metric × Nat) :=
    [(.testsRun, c.tests), (.testsFailed, c.failures), (.testsErrored, c.errors),
      (.testsSkipped, c.skipped), (.testsDuration, c.millis)]
  counts.map fun (metric, n) => ⟨.project, metric, .ofNat n⟩

/-- Collects the reports of a directory, and publishes what they sum up to into a sink. Nothing is
published unless some report was read. -/
def collect {Sink : Type} (publish : Sink → Measure → Logged Sink) (dir : Path)
    (readings : Except ListingError (List Reading)) (sink : Sink) : Logged (Sink × TestResults) :=
  match readings with
  | .error .notFound => do
    Logged.info s!"Reports directory {dir.text} not found, no test results to import"
    return (sink, {})
  | .error .unreadable => do
    Logged.warn s!"Unable to list reports in {dir.text}"
    return (sink, {})
  | .ok [] => do
    Logged.info s!"No test reports in {dir.text}"
    return (sink, {})
  | .ok readings => do
    let results ← readings.foldlM addReading {}
    if results.hasResults then
      return (← (measures results.counts).foldlM publish sink, results)
    else return (sink, results)

/-- Reads the report in a file. -/
def readReport (t : FileTree) (file : Path) : Except ReportError TestReport :=
  match t.readText? file with
  | none => .error .unreadable
  | some text => (parseSuites text).map (⟨file, ·⟩)

/-- Collects the reports of a directory of a file tree into a store. -/
def collectIn (t : FileTree) (dir : Path) (store : Store) : Logged (Store × TestResults) :=
  let readings := (TestReports.listing t dir).map fun files =>
    files.map fun file => ⟨file, readReport t file⟩
  collect Store.publish dir readings store

end TestResults
end SourceGauge
