import SourceGauge.Toml.Datetime

/-! Tables under construction. A table remembers whether a header has named it and whether
dotted keys have made it, since both forbid later extensions. -/
namespace SourceGauge.Toml

/-- What a key holds while a document is read. -/
inductive Node
  | value (v : Value)
  | array (items : List Node)
  /-- A table that is written as a value. -/
  | braced (entries : List (String × Node))
  | table (implicit dotted : Bool) (entries : List (String × Node))
  /-- An array of tables; the latest stands last and is the one that headers extend. -/
  | tables (items : List (List (String × Node)))

abbrev Entries := List (String × Node)

namespace Entries

/-- Replaces what a key holds, or adds the key. -/
def put (key : String) (node : Node) : Entries → Entries
  | [] => [(key, node)]
  | (k, old) :: rest => if k = key then (k, node) :: rest else (k, old) :: put key node rest

/-- Changes the table at a path below a table, where `own` says whether dotted keys have made
that table. Missing tables are made; `byKey` says that the path is part of a dotted key, which
may not enter a table that has a header or a body of its own. -/
def change (byKey : Bool) (f : Bool → Entries → Option Entries) (own : Bool) :
    List String → Entries → Option Entries
  | [], entries => f own entries
  | key :: path, entries =>
    match entries.lookup key with
    | none => do
      let inner ← change byKey f byKey path []
      return put key (.table true byKey inner) entries
    | some (.tables items) => do
      let inner ← change byKey f false path (items.getLast?.getD [])
      return put key (.tables (items.dropLast ++ [inner])) entries
    | some (.table implicit dotted inner) =>
      if byKey && !implicit then none
      else do
        let inner ← change byKey f dotted path inner
        return put key (.table implicit dotted inner) entries
    | some _ => none

/-- Adds a value under a dotted key. No key is given twice, and a table made by headers takes no
dotted keys. -/
def define (path : List String) (v : Node) (entries : Entries) : Option Entries :=
  change true (fun own entries => do
    let key ← path.getLast?
    if own == path.dropLast.isEmpty then none
    else if (entries.lookup key).isSome then none
    else return put key v entries) false path.dropLast entries

/-- Opens the table of a header. Only a table that other headers have implied may be there; it
moves to the end of the table around it. -/
def openTable (path : List String) (entries : Entries) : Option Entries :=
  change false (fun _ entries => do
    let key ← path.getLast?
    match entries.lookup key with
    | none => return put key (.table false false []) entries
    | some (.table true false inner) =>
      return entries.filter (·.1 ≠ key) ++ [(key, .table false false inner)]
    | some _ => none) false path.dropLast entries

/-- Opens a further table of the array of tables that a header names. -/
def openArray (path : List String) (entries : Entries) : Option Entries :=
  change false (fun _ entries => do
    let key ← path.getLast?
    match entries.lookup key with
    | none => return put key (.tables [[]]) entries
    | some (.tables items) => return put key (.tables (items ++ [[]])) entries
    | some _ => none) false path.dropLast entries

/-- Adds a value under a dotted key to the table that the latest header has opened. -/
def defineIn (header path : List String) (v : Node) (entries : Entries) : Option Entries :=
  change false (fun _ inner => define path v inner) false header entries

end Entries

def sortEntries (entries : Table) : Table := entries.mergeSort fun a b => a.1 ≤ b.1

/-- The reserved key: a table that begins with it is the date or time which it holds. -/
def datetimeKey : String := "$__toml_private_datetime"

mutual

/-- The finished value of a node. Only a date or a time may stand under a reserved key that
begins a table, and what stands after it does not count. -/
def Node.toValue? : Node → Option Value
  | .value v => some v
  | .array items => (valuesOf? items).map .array
  | .braced entries => tableValue? entries
  | .table _ _ entries => tableValue? entries
  | .tables items => (tableValues? items).map .array

/-- The value that a table with these entries stands for. -/
def tableValue? : List (String × Node) → Option Value
  | [] => some (.table [])
  | (key, node) :: rest =>
    if key = datetimeKey then
      match node with
      | .value (.string s) => datetimeOf? s
      | _ => none
    else do
      let v ← node.toValue?
      return .table (sortEntries ((key, v) :: (← tableOf? rest)))

/-- The finished values of a table's entries. -/
def tableOf? : List (String × Node) → Option Table
  | [] => some []
  | (key, node) :: rest => do
    let v ← node.toValue?
    return (key, v) :: (← tableOf? rest)

def valuesOf? : List Node → Option (List Value)
  | [] => some []
  | node :: rest => do
    let v ← node.toValue?
    return v :: (← valuesOf? rest)

def tableValues? : List (List (String × Node)) → Option (List Value)
  | [] => some []
  | entries :: rest => do
    let v ← tableValue? entries
    return v :: (← tableValues? rest)

end

/-- The finished table of a document, in the order of its keys. It is never a date or a time. -/
def Entries.finish? (entries : Entries) : Option Table := (tableOf? entries).map sortEntries

end SourceGauge.Toml
