import SourceGauge.Number.Power

/-! Test counts that stay at their maximum instead of overflowing. -/
namespace SourceGauge

/-- The greatest count that is kept. -/
def maxCount : Nat := 2 ^ 64 - 1

/-- The longest duration that is kept, in nanoseconds. -/
def maxDuration : Nat := 2 ^ 64 * 10 ^ 9 - 1

/-- Addition that stops at `limit`. -/
def addUpTo (limit a b : Nat) : Nat := min limit (a + b)

/-- The counts of a test run. The tests include the skipped ones, and the duration is in
nanoseconds. -/
structure TestCounts where
  tests : Nat := 0
  failures : Nat := 0
  errors : Nat := 0
  skipped : Nat := 0
  duration : Nat := 0
  deriving DecidableEq, Repr

namespace TestCounts

def zero : TestCounts := {}

def add (a b : TestCounts) : TestCounts :=
  { tests := addUpTo maxCount a.tests b.tests
    failures := addUpTo maxCount a.failures b.failures
    errors := addUpTo maxCount a.errors b.errors
    skipped := addUpTo maxCount a.skipped b.skipped
    duration := addUpTo maxDuration a.duration b.duration }

/-- The sum of a list of counts, from zero and in order. -/
def sum (counts : List TestCounts) : TestCounts := counts.foldl add zero

/-- Whole milliseconds; a started one does not count. -/
def millis (c : TestCounts) : Nat := c.duration / 10 ^ 6

end TestCounts
end SourceGauge
