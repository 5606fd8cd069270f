import Mathlib
import SourceGauge.Proofs.Number.Nearest
import SourceGauge.Tests.Results

/-! What collecting test reports gives. Each reading adds its report or its file to the results, so
the results are those of the reports alone, whichever files failed between them. -/
namespace SourceGauge
open TestReports (ListingError)

/-- A sum that stops at a limit on the way is the whole sum, stopped at the limit. -/
theorem foldl_addUpTo {limit start : Nat} (h : start ≤ limit) (xs : List Nat) :
    xs.foldl (addUpTo limit) start = min limit (start + xs.sum) := by
  induction xs generalizing start with
  | nil => simp [h]
  | cons x xs ih =>
    have hnext : addUpTo limit start x ≤ limit := Nat.min_le_left _ _
    rw [List.foldl_cons, ih hnext, List.sum_cons, addUpTo]
    omega

namespace TestCounts

theorem foldl_add (start : TestCounts) (counts : List TestCounts) :
    counts.foldl add start =
      { tests := (counts.map (·.tests)).foldl (addUpTo maxCount) start.tests
        failures := (counts.map (·.failures)).foldl (addUpTo maxCount) start.failures
        errors := (counts.map (·.errors)).foldl (addUpTo maxCount) start.errors
        skipped := (counts.map (·.skipped)).foldl (addUpTo maxCount) start.skipped
        duration := (counts.map (·.duration)).foldl (addUpTo maxDuration) start.duration } := by
  induction counts generalizing start with
  | nil => rfl
  | cons c counts ih => exact ih (start.add c)

/-- Each field of a sum is the sum of that field, as far as it can be kept. -/
theorem sum_eq (counts : List TestCounts) :
    sum counts =
      { tests := min maxCount (counts.map (·.tests)).sum
        failures := min maxCount (counts.map (·.failures)).sum
        errors := min maxCount (counts.map (·.errors)).sum
        skipped := min maxCount (counts.map (·.skipped)).sum
        duration := min maxDuration (counts.map (·.duration)).sum } := by
  simp [sum, foldl_add, foldl_addUpTo, zero]

theorem sum_append_singleton (counts : List TestCounts) (c : TestCounts) :
    sum (counts ++ [c]) = (sum counts).add c :=
  List.foldl_concat add zero c counts

end TestCounts

namespace TestResults

/-- The report that was read, if one was. -/
def Reading.report? (reading : Reading) : Option TestReport := reading.outcome.toOption

/-- What is logged of one reading. -/
def Reading.warnings (reading : Reading) : List Event :=
  match reading.outcome with
  | .ok _ => []
  | .error e => [⟨.warn, s!"Skipping report {reading.file.text}: {e.message}"⟩]

/-- The reports that were read, in order. -/
def reportsOf (readings : List Reading) : List TestReport := readings.filterMap (·.report?)

/-- The files that gave no report, in order. -/
def failedOf (readings : List Reading) : List Path :=
  (readings.filter (·.report?.isNone)).map (·.file)

/-- What some readings add up to. -/
def ofReadings (readings : List Reading) : TestResults :=
  { counts := .sum ((reportsOf readings).map (·.counts))
    reports := reportsOf readings
    failed := failedOf readings }

theorem length_reportsOf_add_length_failedOf (readings : List Reading) :
    (reportsOf readings).length + (failedOf readings).length = readings.length := by
  have hnone : (fun reading : Reading => decide (¬ reading.report?.isSome = true)) =
      (·.report?.isNone) := by
    funext reading
    cases reading.report? <;> rfl
  rw [reportsOf, List.length_filterMap_eq_countP, failedOf, List.length_map,
    ← List.countP_eq_length_filter, ← hnone, ← List.length_eq_countP_add_countP]

/-- One more reading. -/
theorem addReading_ofReadings (done : List Reading) (reading : Reading) :
    addReading (ofReadings done) reading =
      ⟨ofReadings (done ++ [reading]), reading.warnings⟩ := by
  obtain ⟨file, outcome⟩ := reading
  cases outcome with
  | ok report =>
    have hadd : (ofReadings done).add report = ofReadings (done ++ [⟨file, .ok report⟩]) := by
      simp [add, ofReadings, reportsOf, failedOf, Reading.report?, Except.toOption,
        TestCounts.sum_append_singleton]
    rw [← hadd]
    rfl
  | error e =>
    have hskip : { ofReadings done with failed := (ofReadings done).failed ++ [file] } =
        ofReadings (done ++ [⟨file, .error e⟩]) := by
      simp [ofReadings, reportsOf, failedOf, Reading.report?, Except.toOption]
    rw [← hskip]
    rfl

/-- Any number of further readings. -/
theorem foldlM_addReading (done readings : List Reading) :
    readings.foldlM addReading (ofReadings done) =
      ⟨ofReadings (done ++ readings), readings.flatMap Reading.warnings⟩ := by
  induction readings generalizing done with
  | nil => simp [pure]
  | cons reading readings ih =>
    rw [List.foldlM_cons, addReading_ofReadings]
    simp only [bind, ih, List.append_assoc, List.singleton_append, List.flatMap_cons]

/-- What is logged of the readings of a directory. -/
def notices (dir : Path) : List Reading → List Event
  | [] => [⟨.info, s!"No test reports in {dir.text}"⟩]
  | readings => readings.flatMap Reading.warnings

section Collect
variable {Sink : Type} (publish : Sink → Measure → Logged Sink) (dir : Path) (sink : Sink)

theorem collect_error (e : ListingError) : ∃ notice,
    collect publish dir (.error e) sink = ⟨(sink, {}), [notice]⟩ := by
  cases e <;> exact ⟨_, rfl⟩

theorem collect_ok (readings : List Reading) :
    collect publish dir (.ok readings) sink =
      let saved : Logged Sink :=
        if reportsOf readings = [] then pure sink
        else (measures (ofReadings readings).counts).foldlM publish sink
      ⟨(saved.value, ofReadings readings), notices dir readings ++ saved.log⟩ := by
  cases readings with
  | nil => rfl
  | cons reading readings =>
    have hrun : (reading :: readings).foldlM addReading {} = _ :=
      foldlM_addReading [] (reading :: readings)
    have hresults : (ofReadings (reading :: readings)).hasResults =
        !(reportsOf (reading :: readings)).isEmpty := rfl
    rw [collect, hrun]
    · by_cases hnone : reportsOf (reading :: readings) = []
      · simp [bind, hresults, hnone, notices, pure]
      · simp [bind, hresults, hnone, notices, pure]
    · intro h
      cases h

/-- Collecting the reports of a directory. Without a listing there are no results, and the sink is
left as it is. Otherwise the results are the reports that were read and the files that gave none,
both in the order of the listing, and the counts of the reports add up, each as far as it can be
kept. If some report was read, the sink takes each of the five measures of the project once, with
the counts of all reports as doubles and their time in whole milliseconds. A file that gives no
report takes only its own report away. -/
theorem collect_readings : ∃ double : Nat → Float,
    (∀ n : Nat, Number.IsNearest false n (.ofFloat (double n))) ∧
    (∀ e, ∃ notice, collect publish dir (.error e) sink = ⟨(sink, {}), [notice]⟩) ∧
    (∀ readings : List Reading, ∃ results,
      collect publish dir (.ok readings) sink =
        (let saved : Logged Sink :=
          if results.reports = [] then pure sink
          else
            [⟨.project, .testsRun, .count (double results.counts.tests)⟩,
              ⟨.project, .testsFailed, .count (double results.counts.failures)⟩,
              ⟨.project, .testsErrored, .count (double results.counts.errors)⟩,
              ⟨.project, .testsSkipped, .count (double results.counts.skipped)⟩,
              ⟨.project, .testsDuration,
                .count (double (results.counts.duration / 10 ^ 6))⟩].foldlM publish sink
        ⟨(saved.value, results), notices dir readings ++ saved.log⟩) ∧
      results.reports = readings.filterMap (·.outcome.toOption) ∧
      results.failed = (readings.filter (·.outcome.toOption.isNone)).map (·.file) ∧
      results.reports.length + results.failed.length = readings.length ∧
      results.counts = .sum (results.reports.map (·.counts)) ∧
      results.counts =
        { tests := min maxCount (results.reports.map (·.counts.tests)).sum
          failures := min maxCount (results.reports.map (·.counts.failures)).sum
          errors := min maxCount (results.reports.map (·.counts.errors)).sum
          skipped := min maxCount (results.reports.map (·.counts.skipped)).sum
          duration := min maxDuration (results.reports.map (·.counts.duration)).sum }) ∧
    ∀ (before : List Reading) (file report e) (after : List Reading) (other : Sink),
      let front := before.filterMap (·.outcome.toOption)
      let back := after.filterMap (·.outcome.toOption)
      let first := (collect publish dir (.ok (before ++ ⟨file, .ok report⟩ :: after)) sink).value.2
      let second := (collect publish dir (.ok (before ++ ⟨file, .error e⟩ :: after)) other).value.2
      first.reports = front ++ report :: back ∧ second.reports = front ++ back ∧
        second.counts = .sum ((front ++ back).map (·.counts)) := by
  refine ⟨Number.ofNat, Number.isNearest_ofNat, collect_error publish dir sink, fun readings => ?_,
    fun before file report e after other => ?_⟩
  · refine ⟨ofReadings readings, collect_ok publish dir sink readings, rfl, rfl,
      length_reportsOf_add_length_failedOf readings, rfl, ?_⟩
    rw [ofReadings, TestCounts.sum_eq, List.map_map, List.map_map, List.map_map, List.map_map,
      List.map_map]
    rfl
  · simp [collect_ok, ofReadings, reportsOf, Reading.report?, Except.toOption]

/-- Of a report of two suites and one that is no markup, the sink takes the five sums of the one
that was read, its 1.2345678 seconds as 1234 milliseconds. -/
theorem collect_readings_parsed_and_failed :
    let first : TestCounts := ⟨3, 1, 0, 1, 1000000000⟩
    let second : TestCounts := ⟨2, 0, 1, 0, 234567800⟩
    let report : TestReport := ⟨.ofString "TEST-a.xml", [⟨"a", first, []⟩, ⟨"b", second, []⟩]⟩
    let readings : List Reading :=
      [⟨.ofString "TEST-a.xml", .ok report⟩, ⟨.ofString "TEST-b.xml", .error .malformed⟩]
    let run := collect (fun (sink : List Measure) m => pure (sink ++ [m])) (.ofString "reports")
      (.ok readings) []
    run.value.2 = ⟨⟨5, 1, 1, 1, 1234567800⟩, [report], [.ofString "TEST-b.xml"]⟩ ∧
      run.value.1.map (fun m => (m.metric.key, m.value.text)) =
        [("tests-run", "5"), ("tests-failed", "1"), ("tests-errored", "1"), ("tests-skipped", "1"),
          ("tests-duration", "1234")] := by
  intro first second report readings run
  obtain ⟨double, hdouble, -, hall, -⟩ := collect_readings
    (fun (sink : List Measure) m => pure (sink ++ [m])) (.ofString "reports") []
  obtain rfl := Number.eq_ofNat_of_isNearest hdouble
  obtain ⟨⟨counts, reports, failed⟩, hrun, hreports, hfailed, -, hcounts, -⟩ := hall readings
  obtain rfl : reports = [report] := hreports
  obtain rfl : failed = [.ofString "TEST-b.xml"] := hfailed
  have hsum : TestCounts.sum (([report] : List TestReport).map (·.counts)) =
      ⟨5, 1, 1, 1, 1234567800⟩ := by decide
  obtain rfl : counts = ⟨5, 1, 1, 1, 1234567800⟩ := hcounts.trans hsum
  have hvalue : run.value = _ := congrArg Logged.value hrun
  rw [hvalue]
  refine ⟨rfl, ?_⟩
  decide +kernel

end Collect

end TestResults
end SourceGauge
