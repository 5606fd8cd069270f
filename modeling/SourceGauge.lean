import SourceGauge.Command.Arguments
import SourceGauge.Command.Run
import SourceGauge.Config.Basic
import SourceGauge.Config.Load
import SourceGauge.Config.Merge
import SourceGauge.Config.Settings
import SourceGauge.Distribution
import SourceGauge.FileTree.Basic
import SourceGauge.FileTree.Build
import SourceGauge.Ignore.Glob
import SourceGauge.Ignore.Layer
import SourceGauge.Ignore.Pattern
import SourceGauge.Ignore.Rule
import SourceGauge.Ignore.Walk
import SourceGauge.Json
import SourceGauge.Log
import SourceGauge.Main
import SourceGauge.Markup.Attribute
import SourceGauge.Markup.Cursor
import SourceGauge.Markup.Event
import SourceGauge.Markup.Item
import SourceGauge.Markup.Layout
import SourceGauge.Markup.Reference
import SourceGauge.Markup.Scope
import SourceGauge.Measure.Basic
import SourceGauge.Measure.Report
import SourceGauge.Measure.Sources
import SourceGauge.Measure.Store
import SourceGauge.Number.Binary64
import SourceGauge.Number.Form
import SourceGauge.Number.Reader
import SourceGauge.Number.Shortest
import SourceGauge.Path.Basic
import SourceGauge.Path.Normal
import SourceGauge.Path.Relative
import SourceGauge.Project.Discovery
import SourceGauge.Project.ReportsDir
import SourceGauge.Project.Source
import SourceGauge.Proofs.Config.Warning
import SourceGauge.Proofs.Distribution.Count
import SourceGauge.Proofs.Distribution.Fold
import SourceGauge.Proofs.Distribution.Merge
import SourceGauge.Proofs.FileTree.Follow
import SourceGauge.Proofs.Measure.History
import SourceGauge.Proofs.Measure.Report
import SourceGauge.Proofs.Measure.Sources
import SourceGauge.Proofs.Measure.TextReport
import SourceGauge.Proofs.Number.Binary64
import SourceGauge.Proofs.Number.Decimal
import SourceGauge.Proofs.Number.Natural
import SourceGauge.Proofs.Number.Nearest
import SourceGauge.Proofs.Path.Normal
import SourceGauge.Proofs.Path.Resolve
import SourceGauge.Proofs.Project.Discovery
import SourceGauge.Proofs.Project.ReportsDir
import SourceGauge.Proofs.Scala.Additive
import SourceGauge.Proofs.Scala.Arrow
import SourceGauge.Proofs.Scala.BlockComment
import SourceGauge.Proofs.Scala.BreakStyle
import SourceGauge.Proofs.Scala.CodeLine
import SourceGauge.Proofs.Scala.Comment
import SourceGauge.Proofs.Scala.Complexity
import SourceGauge.Proofs.Scala.DocComment
import SourceGauge.Proofs.Scala.Documented
import SourceGauge.Proofs.Scala.Follow
import SourceGauge.Proofs.Scala.FunctionOrder
import SourceGauge.Proofs.Scala.Indent
import SourceGauge.Proofs.Scala.Layout
import SourceGauge.Proofs.Scala.Lexer
import SourceGauge.Proofs.Scala.LineBreak
import SourceGauge.Proofs.Scala.Member
import SourceGauge.Proofs.Scala.PlainComment
import SourceGauge.Proofs.Scala.Reprint
import SourceGauge.Proofs.Scala.TokenIndex
import SourceGauge.Proofs.Sensor.Arrange
import SourceGauge.Proofs.Sensor.Countdown
import SourceGauge.Proofs.Sensor.Cycle
import SourceGauge.Proofs.Sensor.Interference
import SourceGauge.Proofs.Sensor.Schedule
import SourceGauge.Proofs.Tests.Count
import SourceGauge.Proofs.Tests.Directory
import SourceGauge.Proofs.Tests.Listing
import SourceGauge.Proofs.Tests.Results
import SourceGauge.Proofs.Tests.Suite
import SourceGauge.Proofs.Tests.Time
import SourceGauge.Proofs.Tests.Total
import SourceGauge.Proofs.Text.Encoding
import SourceGauge.Proofs.Text.Split
import SourceGauge.Proofs.Text.Trim
import SourceGauge.Scala.CodeLine
import SourceGauge.Scala.CodeMetrics
import SourceGauge.Scala.Comment
import SourceGauge.Scala.FileMetrics
import SourceGauge.Scala.Item
import SourceGauge.Scala.Lexeme
import SourceGauge.Scala.Lexer
import SourceGauge.Scala.Position
import SourceGauge.Scala.Token
import SourceGauge.Sensor.Basic
import SourceGauge.Sensor.Order
import SourceGauge.Sensor.Schedule
import SourceGauge.Sensor.Standard
import SourceGauge.Tests.Counts
import SourceGauge.Tests.Listing
import SourceGauge.Tests.Report
import SourceGauge.Tests.Results
import SourceGauge.Tests.Suite
import SourceGauge.Text.Blank
import SourceGauge.Text.Encoding
import SourceGauge.Text.Line
import SourceGauge.Text.Utf8
import SourceGauge.Toml.Datetime
import SourceGauge.Toml.Document
import SourceGauge.Toml.Node
import SourceGauge.Toml.Number
import SourceGauge.Toml.Text
import SourceGauge.Toml.Value
