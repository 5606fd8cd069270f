/-! Writing JSON: documents, their compact form and their indented form. -/
namespace SourceGauge

/-- A document. A number is given by its text. -/
inductive Json
  | number (text : String)
  | string (s : String)
  | array (items : List Json)
  | object (fields : List (String × Json))

namespace Json

def hexDigit (n : Nat) : Char := Char.ofNat (if n < 10 then 48 + n else 87 + n)

/-- Quotes, backslashes and control characters below the blank are escaped. -/
def escape (c : Char) : List Char :=
  if c = '"' then ['\\', '"']
  else if c = '\\' then ['\\', '\\']
  else if c = '\n' then ['\\', 'n']
  else if c = '\r' then ['\\', 'r']
  else if c = '\t' then ['\\', 't']
  else if c = '\x08' then ['\\', 'b']
  else if c = '\x0c' then ['\\', 'f']
  else if c.toNat < 32 then
    ['\\', 'u', '0', '0', hexDigit (c.toNat / 16), hexDigit (c.toNat % 16)]
  else [c]

def quote (s : String) : String := "\"" ++ String.ofList (s.toList.flatMap escape) ++ "\""

mutual

/-- The form without any blank characters. -/
def compact : Json → String
  | .number text => text
  | .string s => quote s
  | .array items => "[" ++ ",".intercalate (compactItems items) ++ "]"
  | .object fields => "\x7b" ++ ",".intercalate (compactFields fields) ++ "\x7d"

def compactItems : List Json → List String
  | [] => []
  | x :: rest => compact x :: compactItems rest

def compactFields : List (String × Json) → List String
  | [] => []
  | (key, x) :: rest => (quote key ++ ":" ++ compact x) :: compactFields rest

end

/-- Two blanks for each level of nesting. -/
def indent (depth : Nat) : String := String.ofList (List.replicate (2 * depth) ' ')

/-- Puts the lines of a nested value between its brackets. -/
def block (depth : Nat) (opening closing : String) (lines : List String) : String :=
  if lines.isEmpty then opening ++ closing
  else
    let inner := lines.map fun line => "\n" ++ indent (depth + 1) ++ line
    opening ++ ",".intercalate inner ++ "\n" ++ indent depth ++ closing

mutual

/-- The form with one item or field a line, inside `depth` other values. -/
def prettyAt (depth : Nat) : Json → String
  | .number text => text
  | .string s => quote s
  | .array items => block depth "[" "]" (prettyItems (depth + 1) items)
  | .object fields => block depth "\x7b" "\x7d" (prettyFields (depth + 1) fields)

def prettyItems (depth : Nat) : List Json → List String
  | [] => []
  | x :: rest => prettyAt depth x :: prettyItems depth rest

def prettyFields (depth : Nat) : List (String × Json) → List String
  | [] => []
  | (key, x) :: rest => (quote key ++ ": " ++ prettyAt depth x) :: prettyFields depth rest

end

def pretty (j : Json) : String := prettyAt 0 j

end Json
end SourceGauge
