import Std.Data.HashMap
import SourceGauge.Log
import SourceGauge.Measure.Basic

/-! The store of measures: a list in save order, and an index that finds the measure of a key in
it. Each scope and metric is saved at most once. -/
namespace SourceGauge

structure Store where
  measures : List Measure
  /-- Where the measure of a key stands in the list. -/
  index : Std.HashMap Measure.Key Nat

/-- A measure was saved for this scope and metric before. -/
structure Duplicate where
  scope : Scope
  metric : Metric
  deriving DecidableEq, Repr

def Duplicate.message (d : Duplicate) : String :=
  s!"measure {d.metric.key} already saved for {d.scope.text}"

namespace Store

def empty : Store := ⟨[], ∅⟩

def size (s : Store) : Nat := s.measures.length

def isEmpty (s : Store) : Bool := s.measures.isEmpty

def get? (s : Store) (scope : Scope) (metric : Metric) : Option MeasureValue := do
  let place ← s.index[Measure.Key.mk scope metric]?
  let m ← s.measures[place]?
  return m.value

/-- The store after a save, or the reason for which it is refused. -/
def save (s : Store) (m : Measure) : Except Duplicate Store :=
  if s.index.contains m.key then .error ⟨m.scope, m.metric⟩
  else .ok ⟨s.measures ++ [m], s.index.insert m.key s.measures.length⟩

/-- Saves a measure; a refused one is logged and leaves the store as it is. -/
def publish (s : Store) (m : Measure) : Logged Store :=
  match s.save m with
  | .ok s => pure s
  | .error e => do
    Logged.warn e.message
    return s

def publishAll (s : Store) (ms : List Measure) : Logged Store := ms.foldlM publish s

/-- The counts of a metric over all files, added in save order to negative zero. -/
def sumOverFiles (s : Store) (metric : Metric) : Float :=
  (s.measures.filterMap fun m =>
    match m.scope with
    | .file _ => if m.metric = metric then m.value.count? else none
    | .project => none).foldl (· + ·) (-0.0)

end Store
end SourceGauge
