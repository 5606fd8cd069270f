import SourceGauge.Json
import SourceGauge.Measure.Basic
import SourceGauge.Path.Relative

/-! Reports of measures: their order, the text report and the JSON report. -/
namespace SourceGauge

def Distribution.toJson (d : Distribution) : Json :=
  .object (d.buckets.map fun (bound, count) => (toString bound, .number (toString count)))

def MeasureValue.toJson : MeasureValue → Json
  | .count x => .number (String.ofList (Number.jsonText x))
  | .distribution d => d.toJson

namespace Measure

def isProject (m : Measure) : Bool :=
  match m.scope with
  | .project => true
  | .file _ => false

/-- Shows the path of a file below `root` without it. -/
def relativeTo (root : Path) (m : Measure) : Measure :=
  match m.scope with
  | .project => m
  | .file path => { m with scope := .file ((path.below? root).getD path) }

/-- Project measures first, then file measures, each group in its own order. -/
def reportOrder (root : Path) (ms : List Measure) : List Measure :=
  (ms.filter isProject ++ ms.filter (!·.isProject)).map (relativeTo root)

def line (m : Measure) : String :=
  match m.scope with
  | .project => s!"PROJECT {m.metric.key} {m.value.text}\n"
  | .file path => s!"FILE {path.text} {m.metric.key} {m.value.text}\n"

def textReport (ms : List Measure) : String :=
  if ms.isEmpty then "NO MEASURES\n" else String.join (ms.map line)

def toJson (m : Measure) : Json :=
  let scope : List (String × Json) :=
    match m.scope with
    | .project => [("scope", .string "project")]
    | .file path => [("scope", .string "file"), ("path", .string path.text)]
  .object (scope ++ [("metric", .string m.metric.key), ("value", m.value.toJson)])

def jsonReport (ms : List Measure) : String := (Json.array (ms.map toJson)).pretty

end Measure
end SourceGauge
