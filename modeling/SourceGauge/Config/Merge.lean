import SourceGauge.Config.Basic
import SourceGauge.Log
import SourceGauge.Number.Power
import SourceGauge.Toml.Document

/-! Merging a configuration file into a configuration. A value that does not fit is logged and
leaves what was there. -/
namespace SourceGauge.Config
open Toml (Table Value)

/-- Logs each key that a section does not know. -/
def checkKeys (table : Table) (known : List String) (place : String) : Logged Unit :=
  table.forM fun (key, _) =>
    if known.contains key then pure ()
    else Logged.warn s!"Unknown config key '{key}' in {place}"

/-- The text under a key. Any other value is logged. -/
def getString (table : Table) (key : String) : Logged (Option String) :=
  match table.lookup key with
  | none => pure none
  | some (.string s) => pure (some s)
  | some v => do
    Logged.warn s!"Config key '{key}' expected string, got {v.typeName}"
    return none

/-- The list under a key, each item read by `item`. Any other value is logged. -/
def getList {α : Type} (item : Value → Option α) (kind : String) (table : Table)
    (key : String) : Logged (Option (List α)) :=
  match table.lookup key with
  | none => pure none
  | some v =>
    match v.array?.bind (·.mapM item) with
    | some xs => pure (some xs)
    | none => do
      Logged.warn s!"Config key '{key}' expected array of {kind}"
      return none

/-- A bound of 32 bits without a sign. -/
def bound? (v : Value) : Option Nat :=
  v.integer?.bind fun n => if 0 ≤ n ∧ n < 2 ^ 32 then some n.toNat else none

def strictlyIncreasing : List Nat → Bool
  | a :: b :: rest => a < b && strictlyIncreasing (b :: rest)
  | _ => true

def applySources (c : Config) (table : Table) : Logged Config := do
  checkKeys table ["encoding", "test_dirs"] "sources"
  let c ←
    match ← getString table "encoding" with
    | none => pure c
    | some name =>
      match Text.Encoding.ofName? name with
      | some e => pure { c with encoding := e }
      | none => do
        Logged.warn s!"{Text.Encoding.unsupportedMessage name}; keeping {c.encoding.name}"
        pure c
  match ← getList Value.string? "strings" table "test_dirs" with
  | none => return c
  | some dirs => return { c with testDirs := dirs }

def applyComplexity (c : Config) (table : Table) : Logged Config := do
  checkKeys table ["function_limits"] "complexity"
  match ← getList bound? "non-negative integers" table "function_limits" with
  | none => return c
  | some limits =>
    if limits.isEmpty || !strictlyIncreasing limits then
      Logged.warn "Config key 'function_limits' must be non-empty and strictly increasing"
      return c
    else return { c with functionLimits := limits }

def applySetting (c : Config) (key : String) (v : Value) : Logged Config :=
  match v with
  | .string s => pure { c with settings := c.settings.set key s }
  | v => do
    Logged.warn s!"Setting '{key}' expected string, got {v.typeName}"
    return c

def applySettings (c : Config) (table : Table) : Logged Config :=
  table.foldlM (fun c (key, v) => c.applySetting key v) c

/-- Applies a section if the document holds a table of that name. -/
def applySection (document : Table) (name : String)
    (apply : Config → Table → Logged Config) (c : Config) : Logged Config :=
  match (document.lookup name).bind Value.table? with
  | none => pure c
  | some table => apply c table

/-- The configuration after the values of a document. -/
def mergeTable (c : Config) (document : Table) : Logged Config := do
  checkKeys document ["sources", "complexity", "settings"] "top level"
  let c ← applySection document "sources" applySources c
  let c ← applySection document "complexity" applyComplexity c
  applySection document "settings" applySettings c

/-- The configuration after the text of a file. A malformed one changes nothing. -/
def mergeText (c : Config) (text : List Char) : Logged Config :=
  match Toml.parse? text with
  | some document => c.mergeTable document
  | none => do
    Logged.warn "Ignoring malformed config"
    return c

end SourceGauge.Config
