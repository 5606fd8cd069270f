import SourceGauge.Distribution
import SourceGauge.Number.Form
import SourceGauge.Path.Basic

/-! Measures: a value of a metric, for the whole project or for one file. -/
namespace SourceGauge

inductive Metric
  | fileCount
  | totalLines
  | linesOfCode
  | commentLines
  | classCount
  | statementCount
  | functionCount
  | complexityScore
  | complexityDistribution
  | publicApiCount
  | undocumentedPublicApiCount
  | testsRun
  | testsFailed
  | testsErrored
  | testsSkipped
  /-- In milliseconds. -/
  | testsDuration
  deriving DecidableEq, Repr, Hashable

namespace Metric

def key : Metric → String
  | .fileCount => "file-count"
  | .totalLines => "total-lines"
  | .linesOfCode => "lines-of-code"
  | .commentLines => "comment-lines"
  | .classCount => "class-count"
  | .statementCount => "statement-count"
  | .functionCount => "function-count"
  | .complexityScore => "complexity-score"
  | .complexityDistribution => "complexity-distribution"
  | .publicApiCount => "public-api-count"
  | .undocumentedPublicApiCount => "undocumented-public-api-count"
  | .testsRun => "tests-run"
  | .testsFailed => "tests-failed"
  | .testsErrored => "tests-errored"
  | .testsSkipped => "tests-skipped"
  | .testsDuration => "tests-duration"

/-- Every metric, in the order in which they are listed. -/
def all : List Metric :=
  [.fileCount, .totalLines, .linesOfCode, .commentLines, .classCount, .statementCount,
    .functionCount, .complexityScore, .complexityDistribution, .publicApiCount,
    .undocumentedPublicApiCount, .testsRun, .testsFailed, .testsErrored, .testsSkipped,
    .testsDuration]

theorem mem_all (m : Metric) : m ∈ all := by cases m <;> decide

def ofKey? (key : String) : Option Metric := all.find? (·.key = key)

end Metric

/-- What a measure is about. -/
inductive Scope
  | project
  | file (path : Path)
  deriving DecidableEq, Repr

namespace Scope

def text : Scope → String
  | .project => "<project>"
  | .file path => path.text

/-- Two files are the same when their paths have the same components. -/
def same : Scope → Scope → Bool
  | .project, .project => true
  | .file p, .file q => p.same q
  | _, _ => false

/-- All spellings of a file have the same hash. -/
instance : Hashable Scope where
  hash
    | .project => 0
    | .file path => hash path.components

theorem same_iff {a b : Scope} :
    a.same b = true ↔
      a = .project ∧ b = .project ∨
        ∃ p q, a = .file p ∧ b = .file q ∧ p.components = q.components := by
  cases a <;> cases b <;> simp [same, Path.same]

theorem same_self (a : Scope) : a.same a = true := by
  cases a <;> simp [same, Path.same]

theorem same_symm {a b : Scope} (h : a.same b = true) : b.same a = true := by
  rcases same_iff.1 h with ⟨rfl, rfl⟩ | ⟨p, q, rfl, rfl, hpq⟩
  · rfl
  · simp [same, Path.same, hpq]

theorem same_trans {a b c : Scope} (hab : a.same b = true) (hbc : b.same c = true) :
    a.same c = true := by
  rcases same_iff.1 hab with ⟨rfl, rfl⟩ | ⟨p, q, rfl, rfl, hpq⟩
  · exact hbc
  · rcases same_iff.1 hbc with ⟨hq, -⟩ | ⟨q', r, hq, rfl, hqr⟩
    · cases hq
    · cases hq
      simp [same, Path.same, hpq, hqr]

theorem hash_eq_of_same {a b : Scope} (h : a.same b = true) : hash a = hash b := by
  rcases same_iff.1 h with ⟨rfl, rfl⟩ | ⟨p, q, rfl, rfl, hpq⟩
  · rfl
  · exact congrArg (hash : List Component → UInt64) hpq

end Scope

inductive MeasureValue
  | count (x : Float)
  | distribution (d : Distribution)

namespace MeasureValue

def ofNat (n : Nat) : MeasureValue := .count (Number.ofNat n)

def text : MeasureValue → String
  | .count x => String.ofList (Number.plainText x)
  | .distribution d => d.text

def count? : MeasureValue → Option Float
  | .count x => some x
  | .distribution _ => none

def distribution? : MeasureValue → Option Distribution
  | .count _ => none
  | .distribution d => some d

end MeasureValue

structure Measure where
  scope : Scope
  metric : Metric
  value : MeasureValue

namespace Measure

/-- What a measure is saved under. -/
structure Key where
  scope : Scope
  metric : Metric

/-- Keys are compared by the files that they name, however these are spelled. -/
instance : BEq Key where
  beq j k := j.scope.same k.scope && j.metric = k.metric

instance : Hashable Key where
  hash k := mixHash (hash k.scope) (hash k.metric)

theorem Key.beq_iff {j k : Key} :
    (j == k) = true ↔ j.scope.same k.scope = true ∧ j.metric = k.metric := by
  simp only [BEq.beq, Bool.and_eq_true, decide_eq_true_eq]

instance : EquivBEq Key where
  rfl := Key.beq_iff.2 ⟨Scope.same_self _, rfl⟩
  symm h :=
    have ⟨hscope, hmetric⟩ := Key.beq_iff.1 h
    Key.beq_iff.2 ⟨Scope.same_symm hscope, hmetric.symm⟩
  trans hjk hkl :=
    have ⟨hscope, hmetric⟩ := Key.beq_iff.1 hjk
    have ⟨hscope', hmetric'⟩ := Key.beq_iff.1 hkl
    Key.beq_iff.2 ⟨Scope.same_trans hscope hscope', hmetric.trans hmetric'⟩

instance : LawfulHashable Key where
  hash_eq j k h := by
    obtain ⟨hscope, hmetric⟩ := Key.beq_iff.1 h
    simp only [hash, hmetric]
    exact congrArg (mixHash · _) (Scope.hash_eq_of_same hscope)

def key (m : Measure) : Key := ⟨m.scope, m.metric⟩

/-- The two measures answer the same question. -/
def sameKey (m n : Measure) : Bool := m.scope.same n.scope && m.metric = n.metric

end Measure
end SourceGauge
