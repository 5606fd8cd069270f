import SourceGauge.Toml.Node
import SourceGauge.Toml.Text

/-! TOML documents: values, key lines and headers. A document with any fault is refused as a
whole. -/
namespace SourceGauge.Toml

/-- Drops blanks, line breaks and comments with their line breaks. -/
def skipFiller (fuel : Nat) (cs : List Char) : List Char :=
  match fuel with
  | 0 => cs
  | fuel + 1 =>
    let cs := skipBlanks cs
    match newline? (skipComment cs) with
    | some rest => skipFiller fuel rest
    | none => cs

/-- What stands where a list of values or of key lines may go on. -/
inductive ListMark
  | more
  | done

/-- After an element: a comma, or the bracket that closes the list. -/
def listMark (closing : Char) : Reader ListMark
  | c :: rest => if c = ',' then some (.more, rest)
    else if c = closing then some (.done, rest) else none
  | [] => none

def skipFill (cs : List Char) : List Char := skipFiller cs.length cs

/-- The table that is written with these pairs in braces. -/
def bracedTable (pairs : List (List String × Node)) : Option Node :=
  (pairs.foldlM (fun entries (path, v) => Entries.define path v entries) []).map .braced

mutual

/-- A value, inside `depthLimit - depth` other ones. -/
def value (fuel depth : Nat) (cs : List Char) : Option (Node × List Char) :=
  match fuel with
  | 0 => none
  | fuel + 1 =>
    match cs with
    | [] => none
    | c :: rest =>
      if c = '"' || c = '\'' then (string cs).map fun (s, rest) => (.value (.string s), rest)
      else if c = '[' then
        match depth with
        | 0 => none
        | depth + 1 =>
          match skipFill rest with
          | ']' :: rest => some (.array [], rest)
          | rest => (arrayItems fuel depth rest).map fun (vs, rest) => (.array vs, rest)
      else if c = '\x7b' then
        match depth with
        | 0 => none
        | depth + 1 =>
          match skipBlanks rest with
          | '\x7d' :: rest => some (.braced [], rest)
          | rest => do
            let (pairs, rest) ← inlinePairs fuel depth rest
            return (← bracedTable pairs, rest)
      else if cs.take 4 = "true".toList then some (.value (.boolean true), cs.drop 4)
      else if cs.take 5 = "false".toList then some (.value (.boolean false), cs.drop 5)
      else ((datetime cs).or (number cs)).map fun (v, rest) => (.value v, rest)

/-- The values of an array after its bracket. A comma may stand after the last one. -/
def arrayItems (fuel depth : Nat) (cs : List Char) : Option (List Node × List Char) :=
  match fuel with
  | 0 => none
  | fuel + 1 => do
    let (v, rest) ← value fuel depth (skipFill cs)
    match ← listMark ']' (skipFill rest) with
    | (.done, rest) => return ([v], rest)
    | (.more, rest) =>
      match skipFill rest with
      | ']' :: rest => return ([v], rest)
      | rest =>
        let (vs, rest) ← arrayItems fuel depth rest
        return (v :: vs, rest)

/-- The keys and values of an inline table after its brace, on one line. -/
def inlinePairs (fuel depth : Nat) (cs : List Char) :
    Option (List (List String × Node) × List Char) :=
  match fuel with
  | 0 => none
  | fuel + 1 => do
    let (path, rest) ← key cs
    let (v, rest) ← value fuel depth (skipBlanks (← mark '=' rest))
    match ← listMark '\x7d' (skipBlanks rest) with
    | (.done, rest) => return ([(path, v)], rest)
    | (.more, rest) =>
      let (pairs, rest) ← inlinePairs fuel depth rest
      return ((path, v) :: pairs, rest)

end

/-- A line of a document. -/
inductive Line
  | blank
  | pair (path : List String) (v : Node)
  | table (path : List String)
  | array (path : List String)

/-- A key, its value, and the end of the line. -/
def pairLine (cs : List Char) : Option (Line × List Char) := do
  let (path, rest) ← key cs
  let rest := skipBlanks (← mark '=' rest)
  let (v, rest) ← value (2 * rest.length + 2) (depthLimit - 1) rest
  return (.pair path v, ← endLine? rest)

/-- One line, or several if a value goes on over them. -/
def line (cs : List Char) : Option (Line × List Char) :=
  let cs := skipBlanks cs
  match cs with
  | [] => some (.blank, [])
  | '[' :: '[' :: rest => do
    let (path, rest) ← key rest
    let rest ← mark ']' (← mark ']' rest)
    return (.array path, ← endLine? rest)
  | '[' :: rest => do
    let (path, rest) ← key rest
    return (.table path, ← endLine? (← mark ']' rest))
  | c :: _ =>
    if c = '#' || c = '\n' || c = '\r' then (endLine? cs).map (.blank, ·) else pairLine cs

/-- Reads the lines of a document into its tables; `header` names the table that is open. -/
def lines (fuel : Nat) (header : List String) (entries : Entries) (cs : List Char) :
    Option Entries :=
  match fuel, cs with
  | _, [] => some entries
  | 0, _ => none
  | fuel + 1, cs => do
    match ← line cs with
    | (.blank, rest) => lines fuel header entries rest
    | (.pair path v, rest) => lines fuel header (← entries.defineIn header path v) rest
    | (.table path, rest) => lines fuel path (← entries.openTable path) rest
    | (.array path, rest) => lines fuel path (← entries.openArray path) rest

/-- The table of a document, if it has no fault. A byte order mark at the front is dropped. -/
def parse? (cs : List Char) : Option Table :=
  let body := if cs.head? = some '\ufeff' then cs.tail else cs
  (lines (body.length + 1) [] [] body).bind Entries.finish?

end SourceGauge.Toml
