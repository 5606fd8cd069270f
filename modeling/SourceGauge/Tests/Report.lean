import SourceGauge.Markup.Layout
import SourceGauge.Path.Basic
import SourceGauge.Tests.Suite

/-! Test reports: markup documents that hold one suite or several. -/
namespace SourceGauge
open Markup (Cursor Layout Tag Texts)

inductive ReportError
  | unreadable
  | malformed
  | empty
  | unexpectedRoot (name : String)
  | invalidNumber (bad : BadNumber)
  deriving DecidableEq, Repr

def ReportError.message : ReportError → String
  | .unreadable => "could not read report"
  | .malformed => "malformed XML"
  | .empty => "no root element"
  | .unexpectedRoot name => s!"unexpected root element <{name}>"
  | .invalidNumber bad => s!"attribute {bad.attr}=\"{bad.value}\" is not a valid number"

namespace ReportMarkup

/-- An outcome of a test. Its texts may say more, but only its presence counts. -/
def outcome : Layout Unit where
  texts := ["message"]
  child _ _ s c := c.skip?.map fun c => (s, c)

/-- The names of outcomes that have been read, and whether they are there. -/
abbrev Outcomes := List (String × Bool)

/-- Reads an outcome of a test case, of which there is at most one with a name. -/
def addOutcome? (name : String) (element child : Tag) (seen : Outcomes) (c : Cursor) :
    Option (Outcomes × Cursor) := do
  if seen.any (·.1 = name) then none
  else if c.isAbsent element child then return ((name, false) :: seen, ← c.skip?)
  else
    let (_, _, c) ← outcome.read? child () c
    return ((name, true) :: seen, c)

/-- A test case, with the outcomes that have been read of it. -/
def testCase : Layout Outcomes where
  texts := ["name", "classname", "time"]
  child element child seen c :=
    let name := String.ofList (Markup.localName child.name)
    if ["failure", "error", "skipped"].contains name then addOutcome? name element child seen c
    else c.skip?.map fun c => (seen, c)

/-- A text that has been read, if it has content. -/
def textOf (texts : Texts) (name : String) : Option String := (texts.lookup name).join

def readCase? (tag : Tag) (c : Cursor) : Option (WrittenCase × Cursor) := do
  let (texts, outcomes, c) ← testCase.read? tag [] c
  let isThere (name : String) : Bool := (outcomes.lookup name).getD false
  return ({
    name := textOf texts "name"
    className := textOf texts "classname"
    time := textOf texts "time"
    failure := isThere "failure"
    error := isThere "error"
    skipped := isThere "skipped" }, c)

/-- An element with these texts and one list of elements with the local name `item`, which may
come only once. -/
def listing {α : Type} (texts : List String) (item : String)
    (read : Tag → Cursor → Option (α × Cursor)) : Layout (Option (List α)) where
  texts := texts
  child _ child found c :=
    if Markup.localName child.name = item.toList then
      if found.isSome then none
      else (c.list? read child).map fun (all, c) => (some all, c)
    else c.skip?.map fun c => (found, c)

def readSuite? (tag : Tag) (c : Cursor) : Option (WrittenSuite × Cursor) := do
  let names := ["name", "tests", "failures", "errors", "skipped", "time"]
  let (texts, cases, c) ← (listing names "testcase" readCase?).read? tag none c
  return ({
    name := textOf texts "name"
    tests := textOf texts "tests"
    failures := textOf texts "failures"
    errors := textOf texts "errors"
    skipped := textOf texts "skipped"
    time := textOf texts "time"
    cases := cases.getD [] }, c)

def readSuites? (tag : Tag) (c : Cursor) : Option (List WrittenSuite × Cursor) := do
  let (_, suites, c) ← (listing [] "testsuite" readSuite?).read? tag none c
  return (suites.getD [], c)

/-- Reads the root element, before which no text may stand. What follows it is not looked at. -/
def root? {α : Type} (read : Tag → Cursor → Option (α × Cursor)) (events : List Markup.Event) :
    Option α := do
  match ← (Cursor.start (Markup.items events)).next? with
  | (.opening tag, c) => (read tag c).map (·.1)
  | _ => none

/-- The suites of a document as written. The whole name of the first tag decides how the
document is read. -/
def read (events : List Markup.Event) : Except ReportError (List WrittenSuite) :=
  match Markup.firstTag events with
  | .missing => .error .empty
  | .fault => .error .malformed
  | .found tag =>
    let name := String.ofList tag.name
    let found :=
      match name with
      | "testsuite" => some ((root? readSuite? events).map ([·]))
      | "testsuites" => some (root? readSuites? events)
      | _ => none
    match found with
    | some (some suites) => .ok suites
    | some none => .error .malformed
    | none => .error (.unexpectedRoot name)

end ReportMarkup

/-- The suites of a report. -/
def parseSuites (text : List Char) : Except ReportError (List TestSuite) := do
  let written ← ReportMarkup.read (Markup.events text)
  match WrittenSuite.toSuites written with
  | .ok suites => return suites
  | .error bad => throw (.invalidNumber bad)

/-- One report file that could be read. -/
structure TestReport where
  path : Path
  suites : List TestSuite
  deriving DecidableEq, Repr

def TestReport.counts (r : TestReport) : TestCounts := .sum (r.suites.map (·.counts))

end SourceGauge
