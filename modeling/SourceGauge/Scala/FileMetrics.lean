import SourceGauge.Distribution
import SourceGauge.Scala.CodeLine
import SourceGauge.Scala.CodeMetrics

/-! All the metrics of one source file, counted from a single token list. -/
namespace SourceGauge.Scala

structure FileMetrics where
  lines : Nat
  linesOfCode : Nat
  commentLines : Nat
  classes : Nat
  statements : Nat
  functions : Nat
  complexity : Nat
  publicApi : Nat
  undocumentedPublicApi : Nat
  functionComplexity : Distribution
  deriving DecidableEq, Repr

/-- The bucket bounds for function complexities that apply when none are configured. -/
def defaultLimits : List Nat := [1, 2, 4, 6, 8, 10, 12]

/-- The metrics of a source text under a line policy, with the given bucket bounds. -/
def analyze (policy : LinePolicy) (limits : List Nat) (source : List Char) : FileMetrics :=
  let tokens := tokenize source
  let comments := Comment.ofTokens tokens
  let lines := Text.splitLines source
  let code := CodeMetrics.ofTokens tokens
  { lines := lines.length
    linesOfCode := countCode policy comments lines
    commentLines := countCommentLines comments
    classes := code.types
    statements := code.statements
    functions := code.functions
    complexity := code.complexity
    publicApi := code.publicApi
    undocumentedPublicApi := code.undocumentedPublicApi
    functionComplexity := .ofValues limits code.functionComplexities }

end SourceGauge.Scala
