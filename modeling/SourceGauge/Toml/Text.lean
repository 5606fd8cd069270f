import SourceGauge.Toml.Number

/-! Strings and keys of TOML. -/
namespace SourceGauge.Toml

/-- The character of a code point that is written with hexadecimal digits. -/
def codePoint? (ds : List Char) (count : Nat) : Option Char :=
  let n := ofBase 16 ds
  if ds.length = count && ds.all isHexDigit && n.isValidChar then some (Char.ofNat n) else none

/-- The character that an escape stands for, after its backslash. -/
def escaped : Reader Char
  | 'b' :: rest => some ('\x08', rest)
  | 'f' :: rest => some ('\x0c', rest)
  | 'n' :: rest => some ('\n', rest)
  | 'r' :: rest => some ('\r', rest)
  | 't' :: rest => some ('\t', rest)
  | '"' :: rest => some ('"', rest)
  | '\\' :: rest => some ('\\', rest)
  | 'u' :: rest => (codePoint? (rest.take 4) 4).map (·, rest.drop 4)
  | 'U' :: rest => (codePoint? (rest.take 8) 8).map (·, rest.drop 8)
  | _ => none

/-- Drops blanks, tabs and line breaks. -/
def skipSpace (fuel : Nat) (cs : List Char) : List Char :=
  match fuel with
  | 0 => cs
  | fuel + 1 =>
    match newline? (skipBlanks cs) with
    | some rest => skipSpace fuel rest
    | none => skipBlanks cs

/-- A backslash at the end of a line takes the line break and all space after it away. -/
def continued? (cs : List Char) : Option (List Char) :=
  (newline? (skipBlanks cs)).map fun rest => skipSpace rest.length rest

/-- The characters of a string on one line, up to its closing quote. Only a string in double
quotes has escapes. -/
def oneLine (quote : Char) (fuel : Nat) (acc : List Char) (cs : List Char) :
    Option (String × List Char) :=
  match fuel, cs with
  | _, [] => none
  | 0, _ => none
  | fuel + 1, c :: rest =>
    if c = quote then some (String.ofList acc.reverse, rest)
    else if c = '\\' && quote = '"' then do
      let (d, rest) ← escaped rest
      oneLine quote fuel (d :: acc) rest
    else if isPlain c then oneLine quote fuel (c :: acc) rest
    else none

/-- The characters of a string over several lines, up to its three closing quotes. Up to two
more quotes before these belong to the string, and each line break counts as LF. -/
def manyLines (quote : Char) (fuel : Nat) (acc : List Char) (cs : List Char) :
    Option (String × List Char) :=
  match fuel, cs with
  | _, [] => none
  | 0, _ => none
  | fuel + 1, c :: rest =>
    if c = quote then
      let run := 1 + (rest.takeWhile (· = quote)).length
      if run < 3 then manyLines quote fuel (c :: acc) rest
      else
        let inner := min (run - 3) 2
        some (String.ofList (acc.reverse ++ List.replicate inner quote), cs.drop (inner + 3))
    else if c = '\\' && quote = '"' then
      match continued? rest with
      | some rest => manyLines quote fuel acc rest
      | none => do
        let (d, rest) ← escaped rest
        manyLines quote fuel (d :: acc) rest
    else
      match newline? cs with
      | some rest => manyLines quote fuel ('\n' :: acc) rest
      | none => if isPlain c then manyLines quote fuel (c :: acc) rest else none

/-- A string of any of the four forms. A line break right after three opening quotes is
dropped. -/
def string (cs : List Char) : Option (String × List Char) :=
  match cs with
  | c :: rest =>
    if c = '"' || c = '\'' then
      if rest.take 2 = [c, c] then
        let body := rest.drop 2
        let body := (newline? body).getD body
        manyLines c body.length [] body
      else oneLine c rest.length [] rest
    else none
  | [] => none

def isBareKeyChar (c : Char) : Bool := c.isAlphanum || c = '-' || c = '_'

/-- One part of a key: bare, or a string on one line. -/
def keyPart (cs : List Char) : Option (String × List Char) :=
  match cs with
  | [] => none
  | c :: rest =>
    if c = '"' || c = '\'' then oneLine c rest.length [] rest
    else if isBareKeyChar c then
      some (String.ofList (cs.takeWhile isBareKeyChar), cs.dropWhile isBareKeyChar)
    else none

/-- The number of parts, and of nested values, from which on a document is refused. -/
def depthLimit : Nat := 80

/-- The parts of a dotted key, with blanks around each. -/
def keyParts (fuel : Nat) (cs : List Char) : Option (List String × List Char) :=
  match fuel with
  | 0 => none
  | fuel + 1 => do
    let (part, rest) ← keyPart (skipBlanks cs)
    match skipBlanks rest with
    | '.' :: rest =>
      let (parts, rest) ← keyParts fuel rest
      return (part :: parts, rest)
    | rest => return ([part], rest)

def key (cs : List Char) : Option (List String × List Char) := keyParts (depthLimit - 1) cs

end SourceGauge.Toml
