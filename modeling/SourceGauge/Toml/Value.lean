/-! TOML values. The entries of a table stand in the order of their keys. -/
namespace SourceGauge.Toml

inductive Value
  | string (s : String)
  | integer (n : Int)
  | float (x : Float)
  | boolean (b : Bool)
  | datetime (text : String)
  | array (items : List Value)
  | table (entries : List (String × Value))

/-- The entries of a table. -/
abbrev Table := List (String × Value)

namespace Value

def typeName : Value → String
  | .string _ => "string"
  | .integer _ => "integer"
  | .float _ => "float"
  | .boolean _ => "boolean"
  | .datetime _ => "datetime"
  | .array _ => "array"
  | .table _ => "table"

def string? : Value → Option String
  | .string s => some s
  | _ => none

def integer? : Value → Option Int
  | .integer n => some n
  | _ => none

def array? : Value → Option (List Value)
  | .array items => some items
  | _ => none

def table? : Value → Option Table
  | .table entries => some entries
  | _ => none

end Value

/-- Reads something from the front of a text and returns the rest, or fails. -/
abbrev Reader (α : Type) := List Char → Option (α × List Char)

/-- Drops blanks and tabs. -/
def skipBlanks (cs : List Char) : List Char := cs.dropWhile fun c => c = ' ' || c = '\t'

/-- Drops one line break, which is LF or CRLF. -/
def newline? : List Char → Option (List Char)
  | '\n' :: rest => some rest
  | '\r' :: '\n' :: rest => some rest
  | _ => none

/-- A character that text on one line may hold: a tab, or anything but a control character. -/
def isPlain (c : Char) : Bool := c = '\t' || (0x20 ≤ c.toNat && c.toNat ≠ 0x7F)

/-- Drops a comment, up to the end of its line. -/
def skipComment : List Char → List Char
  | '#' :: rest => rest.dropWhile isPlain
  | cs => cs

/-- Drops what may end a line: blanks, a comment, and the break unless the text ends. -/
def endLine? (cs : List Char) : Option (List Char) :=
  match skipComment (skipBlanks cs) with
  | [] => some []
  | rest => newline? rest

end SourceGauge.Toml
