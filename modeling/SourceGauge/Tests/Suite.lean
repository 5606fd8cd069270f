import SourceGauge.Number.Reader
import SourceGauge.Tests.Counts
import SourceGauge.Text.Blank

/-! Test suites: their attributes as written in a report, and the counts that follow from
them. -/
namespace SourceGauge

inductive TestStatus
  | passed
  | failed
  | errored
  | skipped
  deriving DecidableEq, Repr

/-- A test case as a report gives it. -/
structure WrittenCase where
  name : Option String
  className : Option String
  time : Option String
  failure : Bool
  error : Bool
  skipped : Bool
  deriving DecidableEq, Repr

/-- A test suite as a report gives it. -/
structure WrittenSuite where
  name : Option String
  tests : Option String
  failures : Option String
  errors : Option String
  skipped : Option String
  time : Option String
  cases : List WrittenCase
  deriving DecidableEq, Repr

structure TestCase where
  name : String
  className : String
  duration : Nat
  status : TestStatus
  deriving DecidableEq, Repr

structure TestSuite where
  name : String
  counts : TestCounts
  cases : List TestCase
  deriving DecidableEq, Repr

/-- An attribute whose value, as written, is no valid number. -/
structure BadNumber where
  attr : String
  value : String
  deriving DecidableEq, Repr

/-- The number in a value: blank characters around it and all commas do not count. -/
def bareNumber (value : String) : List Char :=
  (Text.trim value.toList).filter (· ≠ ',')

/-- A duration in nanoseconds, for a number of seconds that is neither negative nor too
large. -/
def nanosOf? (seconds : Number.Binary64) : Option Nat :=
  match seconds with
  | .finite negative mantissa exponent =>
    let up := 2 ^ exponent.toNat
    let down := 2 ^ (-exponent).toNat
    if (negative && mantissa ≠ 0) || 2 ^ 64 * down ≤ mantissa * up then none
    else some (Number.divRound (mantissa * up * 10 ^ 9) down)
  | _ => none

def count? (value : String) : Option Nat := Number.natBelow? (2 ^ 64) (bareNumber value)

def duration? (value : String) : Option Nat :=
  (Number.float? (bareNumber value)).bind fun x => nanosOf? (.ofFloat x)

/-- Reads the value of an attribute if it is there. -/
def numberOr (read : String → Option Nat) (attr : String) (value : Option String)
    (missing : Nat) : Except BadNumber Nat :=
  match value with
  | none => .ok missing
  | some value =>
    match read value with
    | some n => .ok n
    | none => .error ⟨attr, value⟩

namespace WrittenCase

/-- An error outweighs a failure, and a failure outweighs a skip. -/
def status (c : WrittenCase) : TestStatus :=
  if c.error then .errored else if c.failure then .failed else if c.skipped then .skipped
  else .passed

def toCase (c : WrittenCase) : Except BadNumber TestCase := do
  let duration ← numberOr duration? "time" c.time 0
  return ⟨c.name.getD "", c.className.getD "", duration, c.status⟩

end WrittenCase

namespace WrittenSuite

/-- The sum of the durations of cases. -/
def casesDuration (cases : List TestCase) : Nat :=
  cases.foldl (fun total c => addUpTo maxDuration total c.duration) 0

/-- The suite with its counts. A count that is not written is taken from the cases. -/
def toSuite (s : WrittenSuite) : Except BadNumber TestSuite := do
  let cases ← s.cases.mapM WrittenCase.toCase
  let withStatus (status : TestStatus) : Nat := cases.countP (·.status = status)
  let tests ← numberOr count? "tests" s.tests cases.length
  let failures ← numberOr count? "failures" s.failures (withStatus .failed)
  let errors ← numberOr count? "errors" s.errors (withStatus .errored)
  let skipped ← numberOr count? "skipped" s.skipped (withStatus .skipped)
  let duration ← numberOr duration? "time" s.time (casesDuration cases)
  return ⟨s.name.getD "", ⟨tests, failures, errors, skipped, duration⟩, cases⟩

/-- All suites of a report, or the first number that is not valid. -/
def toSuites (suites : List WrittenSuite) : Except BadNumber (List TestSuite) :=
  suites.mapM toSuite

end WrittenSuite
end SourceGauge
