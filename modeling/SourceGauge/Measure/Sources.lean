import SourceGauge.Measure.Store
import SourceGauge.Scala.FileMetrics
import SourceGauge.Text.Encoding

/-! Measuring source files: nine counts for each file that can be read, and one distribution of
function complexities for all of them. -/
namespace SourceGauge

/-- Why there is no text of a file. -/
inductive SourceError
  | unreadable
  | undecodable (encoding : Text.Encoding) (offset : Nat)
  deriving DecidableEq, Repr

def SourceError.message (path : Path) : SourceError → String
  | .unreadable => s!"could not read {path.text}"
  | .undecodable encoding offset =>
    s!"{path.text} is not valid {encoding.name} (invalid byte at offset {offset})"

/-- The text in the bytes of a file, or the reason why there is none. -/
def sourceText (encoding : Text.Encoding) (bytes : Option (List UInt8)) :
    Except SourceError (List Char) :=
  match bytes with
  | none => .error .unreadable
  | some bytes => (encoding.decode bytes).mapError (.undecodable encoding ·)

/-- What a run over source files has met. -/
structure SourceSummary where
  files : Nat := 0
  unreadable : Nat := 0
  /-- The function complexities of all files that were read, if there are any. -/
  functionComplexity : Option Distribution := none
  deriving Repr

namespace Measure

/-- The measures of a file that was read. -/
def ofFileMetrics (path : Path) (m : Scala.FileMetrics) : List Measure :=
  let counts : List (Metric × Nat) :=
    [(.totalLines, m.lines), (.linesOfCode, m.linesOfCode), (.commentLines, m.commentLines),
      (.classCount, m.classes), (.statementCount, m.statements), (.functionCount, m.functions),
      (.complexityScore, m.complexity), (.publicApiCount, m.publicApi),
      (.undocumentedPublicApiCount, m.undocumentedPublicApi)]
  counts.map fun (metric, n) => ⟨.file path, metric, .ofNat n⟩

end Measure

/-- Measures one more file. A file that cannot be read is logged and counts as a file still. -/
def measureSource (limits : List Nat) (read : Path → Except SourceError (List Char))
    (state : Store × SourceSummary) (path : Path) : Logged (Store × SourceSummary) := do
  let (store, summary) := state
  let summary := { summary with files := summary.files + 1 }
  let store ← store.publish ⟨.file path, .fileCount, .ofNat 1⟩
  match read path with
  | .error e =>
    Logged.error s!"Unable to analyse file {path.text}: {e.message path}"
    return (store, { summary with unreadable := summary.unreadable + 1 })
  | .ok text =>
    let m := Scala.analyze .code limits text
    Logged.debug <|
      s!"{path.text}: {m.lines} lines, {m.linesOfCode} loc, complexity {m.complexity}"
    let store ← store.publishAll (Measure.ofFileMetrics path m)
    let merged := Distribution.mergeInto summary.functionComplexity m.functionComplexity
    return (store, { summary with functionComplexity := some merged })

/-- Measures files in their order. The distribution of the whole project comes last. -/
def measureSources (limits : List Nat) (read : Path → Except SourceError (List Char))
    (paths : List Path) (store : Store) : Logged (Store × SourceSummary) := do
  let (store, summary) ← paths.foldlM (measureSource limits read) (store, {})
  match summary.functionComplexity with
  | none => return (store, summary)
  | some d =>
    return (← store.publish ⟨.project, .complexityDistribution, .distribution d⟩, summary)

end SourceGauge
