import SourceGauge.Number.Reader
import SourceGauge.Toml.Value

/-! Dates and times of TOML. -/
namespace SourceGauge.Toml

/-- Exactly `n` digits with a value from `low` to `high`. -/
def field (n low high : Nat) (cs : List Char) : Option (Nat × List Char) :=
  let ds := cs.take n
  let value := Number.ofDigits ds
  if ds.length = n && ds.all Char.isDigit && low ≤ value && value ≤ high then
    some (value, cs.drop n)
  else none

/-- Drops a given character. -/
def mark (c : Char) : List Char → Option (List Char)
  | d :: rest => if d = c then some rest else none
  | [] => none

def isLeap (year : Nat) : Bool := year % 4 = 0 && (year % 100 ≠ 0 || year % 400 = 0)

def daysIn (year month : Nat) : Nat :=
  if month = 2 then (if isLeap year then 29 else 28)
  else if [4, 6, 9, 11].contains month then 30
  else 31

/-- A day of the calendar. -/
def skipDate (cs : List Char) : Option (List Char) := do
  let (year, rest) ← field 4 0 9999 cs
  let (month, rest) ← field 2 1 12 (← mark '-' rest)
  let (_, rest) ← field 2 1 (daysIn year month) (← mark '-' rest)
  return rest

/-- The part of a second, if a point and a digit come next. -/
def skipFraction : List Char → List Char
  | '.' :: d :: rest => if d.isDigit then rest.dropWhile Char.isDigit else '.' :: d :: rest
  | cs => cs

/-- A time of day. A minute may have a leap second. -/
def skipTime (cs : List Char) : Option (List Char) := do
  let (_, rest) ← field 2 0 23 cs
  let (_, rest) ← field 2 0 59 (← mark ':' rest)
  let (_, rest) ← field 2 0 60 (← mark ':' rest)
  return skipFraction rest

/-- The distance from universal time, if there is one. -/
def skipOffset (cs : List Char) : Option (List Char) :=
  match cs with
  | c :: rest =>
    if c = 'Z' || c = 'z' then some rest
    else if c = '+' || c = '-' then do
      let (_, rest) ← field 2 0 23 rest
      let (_, rest) ← field 2 0 59 (← mark ':' rest)
      return rest
    else some cs
  | [] => some []

/-- The time after a date, if there is one. -/
def skipTimePart (cs : List Char) : Option (List Char) :=
  match cs with
  | c :: rest =>
    if c = 'T' || c = 't' || c = ' ' then
      match skipTime rest with
      | some rest => skipOffset rest
      | none => some cs
    else some cs
  | [] => some []

/-- A date, a time, or both. -/
def datetime (cs : List Char) : Option (Value × List Char) := do
  let rest ← ((skipDate cs).bind skipTimePart).or (skipTime cs)
  return (.datetime (String.ofList (cs.take (cs.length - rest.length))), rest)

/-- The date or time that all of a string writes. -/
def datetimeOf? (s : String) : Option Value :=
  match datetime s.toList with
  | some (v, []) => some v
  | _ => none

end SourceGauge.Toml
