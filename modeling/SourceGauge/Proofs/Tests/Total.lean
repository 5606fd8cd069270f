import Mathlib
import SourceGauge.Proofs.Tests.Results

/-! Totals of test reports. A total is kept from suite to suite in a report and from report to
report, and stops at its maximum on the way. It is the exact sum over all suites, stopped there, so
neither the order of the suites nor the reports they stand in matter. The same holds of durations
that are kept in seconds and nanoseconds, with a carry between the two. -/
namespace SourceGauge

/-- A duration in whole seconds and the nanoseconds behind them. -/
structure Span where
  seconds : Nat
  nanos : Nat
  seconds_lt : seconds < 2 ^ 64
  nanos_lt : nanos < 10 ^ 9
  deriving DecidableEq

namespace Span

def zero : Span := ⟨0, 0, by decide, by decide⟩

/-- The longest span. -/
def longest : Span := ⟨2 ^ 64 - 1, 10 ^ 9 - 1, by decide, by decide⟩

/-- The nanoseconds of both spans, less a second that is carried if they fill one. The longest span
stands for every longer one. -/
def add (a b : Span) : Span :=
  let nanos := a.nanos + b.nanos
  let carry := nanos / 10 ^ 9
  let seconds := a.seconds + b.seconds + carry
  if h : seconds < 2 ^ 64 then
    ⟨seconds, nanos % 10 ^ 9, h, Nat.mod_lt _ (by decide)⟩
  else longest

/-- The whole span in nanoseconds. -/
def total (s : Span) : Nat := s.seconds * 10 ^ 9 + s.nanos

/-- The span of so many nanoseconds, or the longest one if they are too many. -/
def ofNanos (n : Nat) : Span :=
  if h : n / 10 ^ 9 < 2 ^ 64 then ⟨n / 10 ^ 9, n % 10 ^ 9, h, Nat.mod_lt _ (by decide)⟩
  else longest

@[ext] theorem ext {a b : Span} (hseconds : a.seconds = b.seconds) (hnanos : a.nanos = b.nanos) :
    a = b := by
  cases a
  cases b
  simp_all

theorem total_injective : Function.Injective total := by
  intro a b h
  have ha := a.nanos_lt
  have hb := b.nanos_lt
  simp only [total] at h
  ext <;> omega

theorem total_ofNanos (n : Nat) : (ofNanos n).total = min maxDuration n := by
  unfold ofNanos maxDuration
  split
  case isTrue h =>
    simp only [total]
    omega
  case isFalse h =>
    simp only [total, longest]
    omega

/-- Adding with a carry adds the nanoseconds of the spans, as far as they can be kept. -/
theorem total_add (a b : Span) : (a.add b).total = addUpTo maxDuration a.total b.total := by
  have ha := a.nanos_lt
  have hb := b.nanos_lt
  unfold addUpTo maxDuration
  simp only [add]
  split
  case isTrue h =>
    simp only [total]
    omega
  case isFalse h =>
    simp only [total, longest]
    omega

theorem ofNanos_add (m n : Nat) : ofNanos (m + n) = (ofNanos m).add (ofNanos n) := by
  apply total_injective
  rw [total_add, total_ofNanos, total_ofNanos, total_ofNanos, addUpTo]
  omega

theorem ofNanos_min (n : Nat) : ofNanos (min maxDuration n) = ofNanos n := by
  apply total_injective
  rw [total_ofNanos, total_ofNanos]
  omega

theorem foldl_add_ofNanos (durations : List Nat) :
    (durations.map ofNanos).foldl add zero = ofNanos durations.sum := by
  induction durations using List.reverseRecOn with
  | nil => rfl
  | append_singleton durations n ih =>
    rw [List.map_append, List.foldl_append, ih, List.sum_append, List.sum_singleton, ofNanos_add]
    rfl

end Span

theorem addUpTo_min (limit a b : Nat) :
    addUpTo limit (min limit a) (min limit b) = min limit (a + b) := by
  unfold addUpTo
  omega

/-- A sum that has come to its limit stays there. -/
theorem foldl_addUpTo_of_full {limit start : Nat} (h : start = limit) (xs : List Nat) :
    xs.foldl (addUpTo limit) start = limit := by
  rw [foldl_addUpTo h.le, h]
  exact Nat.min_eq_left (Nat.le_add_right _ _)

namespace TestCounts

theorem sum_append (first second : List TestCounts) :
    sum (first ++ second) = (sum first).add (sum second) := by
  simp only [sum_eq, add, addUpTo_min, List.map_append, List.sum_append]

/-- Summing group by group gives the sum of all. -/
theorem sum_flatten (groups : List (List TestCounts)) :
    sum groups.flatten = sum (groups.map sum) := by
  induction groups using List.reverseRecOn with
  | nil => rfl
  | append_singleton groups group ih =>
    rw [List.flatten_concat, sum_append, ih, List.map_append, List.map_singleton,
      sum_append_singleton]

theorem sum_perm {first second : List TestCounts} (h : first.Perm second) :
    sum first = sum second := by
  simp only [sum_eq, (h.map _).sum_eq]

end TestCounts

namespace TestResults

theorem counts_foldl_add (results : TestResults) (reports : List TestReport) :
    (reports.foldl add results).counts =
      (reports.map (·.counts)).foldl TestCounts.add results.counts := by
  induction reports generalizing results with
  | nil => rfl
  | cons report reports ih => exact ih (results.add report)

/-- The counts of some reports are those of their suites. -/
theorem counts_foldl_add_empty (reports : List TestReport) :
    (reports.foldl add {}).counts = .sum ((reports.flatMap (·.suites)).map (·.counts)) := by
  have hgroups : reports.map (·.counts) =
      (reports.map fun report => report.suites.map (·.counts)).map .sum := by
    rw [List.map_map]
    rfl
  rw [counts_foldl_add, hgroups, List.map_flatMap, List.flatMap_def,
    TestCounts.sum_flatten]
  rfl

/-- The counts of any reports, added up one after the other. Every field is the exact sum over all
suites of all reports, or the maximum where that is less, and the duration is what adding seconds
and nanoseconds with a carry comes to, inside each report and then over the reports. So neither the
order of the suites nor their reports matter, and a field at its maximum stays there. -/
theorem foldl_add_counts (reports : List TestReport) :
    let suites := reports.flatMap (·.suites)
    let results : TestResults := reports.foldl add {}
    results.counts =
        { tests := min (2 ^ 64 - 1) (suites.map (·.counts.tests)).sum
          failures := min (2 ^ 64 - 1) (suites.map (·.counts.failures)).sum
          errors := min (2 ^ 64 - 1) (suites.map (·.counts.errors)).sum
          skipped := min (2 ^ 64 - 1) (suites.map (·.counts.skipped)).sum
          duration :=
            min ((2 ^ 64 - 1) * 10 ^ 9 + 999999999) (suites.map (·.counts.duration)).sum } ∧
      Span.ofNanos results.counts.duration =
        (reports.map fun report =>
          (report.suites.map fun suite => Span.ofNanos suite.counts.duration).foldl Span.add
            .zero).foldl Span.add .zero ∧
      (∀ others : List TestReport, (others.flatMap (·.suites)).Perm suites →
        (others.foldl add {}).counts = results.counts) ∧
      ∀ more : List TestReport,
        let after := (more.foldl add results).counts
        (results.counts.tests = 2 ^ 64 - 1 → after.tests = 2 ^ 64 - 1) ∧
          (results.counts.failures = 2 ^ 64 - 1 → after.failures = 2 ^ 64 - 1) ∧
          (results.counts.errors = 2 ^ 64 - 1 → after.errors = 2 ^ 64 - 1) ∧
          (results.counts.skipped = 2 ^ 64 - 1 → after.skipped = 2 ^ 64 - 1) ∧
          (results.counts.duration = (2 ^ 64 - 1) * 10 ^ 9 + 999999999 →
            after.duration = (2 ^ 64 - 1) * 10 ^ 9 + 999999999) := by
  intro suites results
  have hresults : results.counts = .sum (suites.map (·.counts)) := counts_foldl_add_empty reports
  have hcounts : results.counts =
      { tests := min maxCount (suites.map (·.counts.tests)).sum
        failures := min maxCount (suites.map (·.counts.failures)).sum
        errors := min maxCount (suites.map (·.counts.errors)).sum
        skipped := min maxCount (suites.map (·.counts.skipped)).sum
        duration := min maxDuration (suites.map (·.counts.duration)).sum } := by
    simp only [hresults, TestCounts.sum_eq, List.map_map]
    rfl
  refine ⟨hcounts, ?_, fun others hothers => ?_, fun more => ?_⟩
  · have hreport (report : TestReport) :
        (report.suites.map fun suite => Span.ofNanos suite.counts.duration).foldl Span.add .zero =
          Span.ofNanos (report.suites.map (·.counts.duration)).sum := by
      rw [← Span.foldl_add_ofNanos, List.map_map]
      rfl
    have hall : (suites.map (·.counts.duration)).sum =
        (reports.map fun report => (report.suites.map (·.counts.duration)).sum).sum := by
      rw [List.map_flatMap, List.flatMap_def, List.sum_flatten, List.map_map]
      rfl
    simp only [hreport]
    rw [hcounts, Span.ofNanos_min, hall, ← Span.foldl_add_ofNanos, List.map_map]
    rfl
  · rw [counts_foldl_add_empty, hresults]
    exact TestCounts.sum_perm (hothers.map _)
  · have hafter : (more.foldl add results).counts =
        (more.map (·.counts)).foldl TestCounts.add results.counts := counts_foldl_add results more
    simp only [hafter, TestCounts.foldl_add]
    refine ⟨?_, ?_, ?_, ?_, ?_⟩ <;> exact fun hfull => foldl_addUpTo_of_full hfull _

/-- Durations that carry inside a report and then leave the range, and tests that are full. -/
theorem foldl_add_counts_full :
    let suite (tests duration : Nat) : TestSuite := ⟨"", { tests, duration }, []⟩
    let first : TestReport := ⟨⟨[]⟩, [suite (2 ^ 64 - 2) 600000000, suite 3 700000000]⟩
    let second : TestReport := ⟨⟨[]⟩, [suite 1 ((2 ^ 64 - 1) * 10 ^ 9 + 5), suite 0 1]⟩
    let results : TestResults := [first].foldl add {}
    results.counts.tests = 2 ^ 64 - 1 ∧ results.counts.duration = 1300000000 ∧
      ([second].foldl add results).counts.tests = 2 ^ 64 - 1 ∧
      ([second, first].foldl add {}).counts.duration = (2 ^ 64 - 1) * 10 ^ 9 + 999999999 := by
  intro suite first second results
  obtain ⟨hcounts, -, -, hmore⟩ := foldl_add_counts [first]
  have htests : results.counts.tests = 2 ^ 64 - 1 := congrArg TestCounts.tests hcounts
  refine ⟨htests, ?_, (hmore [second]).1 htests, ?_⟩
  · exact (congrArg TestCounts.duration hcounts).trans (by decide)
  · exact (congrArg TestCounts.duration (foldl_add_counts [second, first]).1).trans (by decide)

end TestResults
end SourceGauge
