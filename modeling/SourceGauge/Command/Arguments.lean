import SourceGauge.Path.Basic
import SourceGauge.Text.Encoding

/-! Command line arguments. Options for all commands may stand before or after the name of a
command, and the later place wins. -/
namespace SourceGauge.Command

inductive Format
  | text
  | json
  deriving DecidableEq, Repr

def Format.ofName? : String → Option Format
  | "text" => some .text
  | "json" => some .json
  | _ => none

inductive Name
  | analyze
  | metrics
  | tests
  | defaults
  | help
  deriving DecidableEq, Repr

def Name.ofWord? : String → Option Name
  | "analyze" => some .analyze
  | "metrics" => some .metrics
  | "tests" => some .tests
  | "defaults" => some .defaults
  | "help" => some .help
  | _ => none

/-- Why the reading of arguments ends before a command can run. -/
inductive Stop
  | usage
  | help
  | version
  deriving DecidableEq, Repr

/-- The words that one level of the command line has set. -/
structure Words where
  path : Option Path := none
  config : Option Path := none
  format : Option Format := none
  encoding : Option Text.Encoding := none
  reportsPath : Option String := none
  verbosity : Nat := 0
  deriving DecidableEq, Repr

namespace Words

/-- The new value of something that may be given once only. -/
def once {α : Type} (old new : Option α) : Except Stop (Option α) :=
  if old.isSome || new.isNone then .error .usage else .ok new

/-- A path that is not empty. -/
def path? (word : String) : Option Path := if word.isEmpty then none else some (.ofString word)

/-- Sets an option that takes a value, where the command knows it. -/
def set (level : Option Name) (w : Words) (option value : String) : Except Stop Words :=
  let sources := level = some .analyze || level = some .metrics
  let reports := level = some .analyze || level = some .tests
  match option with
  | "config" => do return { w with config := ← once w.config (path? value) }
  | "format" => do return { w with format := ← once w.format (Format.ofName? value) }
  | "encoding" =>
    if sources then do
      return { w with encoding := ← once w.encoding (Text.Encoding.ofName? value) }
    else .error .usage
  | "reports-path" =>
    if reports then do return { w with reportsPath := ← once w.reportsPath (some value) }
    else .error .usage
  | _ => .error .usage

/-- Sets the path, where the command takes one. -/
def setPath (level : Option Name) (w : Words) (word : String) : Except Stop Words :=
  if level = some .defaults then .error .usage
  else do return { w with path := ← once w.path (path? word) }

/-- Sets a flag, which takes no value. -/
def setFlag (level : Option Name) (w : Words) (flag : String) : Except Stop Words :=
  match flag with
  | "verbose" | "v" => .ok { w with verbosity := w.verbosity + 1 }
  | "help" | "h" => .error .help
  | "version" | "V" => .error (if level.isNone then .version else .usage)
  | _ => .error .usage

/-- The options that take a value. -/
def valued : List String := ["config", "format", "encoding", "reports-path"]

end Words

/-- How a word looks. -/
inductive Shape
  | stop
  | long (name : String)
  | longWith (name value : String)
  | short (flags : List Char)
  | plain
  deriving DecidableEq, Repr

def Shape.ofWord (word : String) : Shape :=
  match word.toList with
  | ['-', '-'] => .stop
  | '-' :: '-' :: rest =>
    let name := rest.takeWhile (· ≠ '=')
    match rest.drop name.length with
    | [] => .long (String.ofList name)
    | _ :: value => .longWith (String.ofList name) (String.ofList value)
  | '-' :: c :: rest => .short (c :: rest)
  | _ => .plain

/-- Reads the words of one level. At the top level, the name of a command ends it; what follows
that name is left over. After a stop word all words are plain. -/
def readWords (level : Option Name) (w : Words) (stopped : Bool) :
    List String → Except Stop (Words × Option (Name × List String))
  | [] => .ok (w, none)
  | word :: rest =>
    if stopped then do readWords level (← w.setPath level word) true rest
    else
      match if level.isNone then Name.ofWord? word else none with
      | some name => .ok (w, some (name, rest))
      | none =>
        match Shape.ofWord word with
        | .stop => readWords level w true rest
        | .plain => do readWords level (← w.setPath level word) false rest
        | .short flags => do
          let set (w : Words) (c : Char) := w.setFlag level (String.ofList [c])
          readWords level (← flags.foldlM set w) false rest
        | .longWith name value => do readWords level (← w.set level name value) false rest
        | .long name =>
          if Words.valued.contains name then
            match rest with
            | [] => .error .usage
            | value :: rest =>
              if Shape.ofWord value = .plain then do
                readWords level (← w.set level name value) false rest
              else .error .usage
          else if 1 < name.length then do
            readWords level (← w.setFlag level name) false rest
          else .error .usage

/-- What a command line asks for. -/
structure Arguments where
  name : Option Name
  words : Words
  deriving DecidableEq, Repr

/-- The words of a command with what was set before its name. -/
def Words.below (w top : Words) : Words :=
  { w with
    config := w.config.or top.config
    format := w.format.or top.format
    verbosity := if w.verbosity = 0 then top.verbosity else w.verbosity }

def Arguments.read (args : List String) : Except Stop Arguments := do
  match ← readWords none {} false args with
  | (top, none) => return ⟨none, top⟩
  | (_, some (.help, topics)) =>
    let known := topics.length ≤ 1 && topics.all fun topic => (Name.ofWord? topic).isSome
    throw (if known then .help else .usage)
  | (top, some (name, rest)) =>
    let (words, _) ← readWords (some name) {} false rest
    return ⟨some name, words.below top⟩

end SourceGauge.Command
