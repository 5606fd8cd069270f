import SourceGauge.Number.Reader
import SourceGauge.Toml.Value

/-! Numbers of TOML. -/
namespace SourceGauge.Toml

/-- Digits after the first one, where an underscore may stand before each. -/
def moreDigits (p : Char → Bool) : List Char → List Char × List Char
  | '_' :: d :: rest =>
    if p d then
      let (digits, rest) := moreDigits p rest
      (d :: digits, rest)
    else ([], '_' :: d :: rest)
  | c :: rest =>
    if p c then
      let (digits, rest) := moreDigits p rest
      (c :: digits, rest)
    else ([], c :: rest)
  | [] => ([], [])

/-- At least one digit. -/
def digits (p : Char → Bool) : Reader (List Char)
  | c :: rest =>
    if p c then
      let (more, rest) := moreDigits p rest
      some (c :: more, rest)
    else none
  | [] => none

/-- Decimal digits, of which only a lone one may be zero at the front. -/
def wholeDigits : Reader (List Char)
  | '0' :: rest => some (['0'], rest)
  | cs => digits Char.isDigit cs

def digitOf (c : Char) : Nat :=
  if c.isDigit then c.toNat - 48 else if 'a' ≤ c then c.toNat - 87 else c.toNat - 55

def ofBase (base : Nat) (ds : List Char) : Nat := ds.foldl (fun n c => base * n + digitOf c) 0

def isHexDigit (c : Char) : Bool := c.isDigit || ('a' ≤ c && c ≤ 'f') || ('A' ≤ c && c ≤ 'F')

/-- An integer of 64 bits with a sign. -/
def inRange (n : Int) : Option Value :=
  if -(2 ^ 63) ≤ n ∧ n < 2 ^ 63 then some (.integer n) else none

/-- The digits after the mark of a base. -/
def based (base : Nat) (p : Char → Bool) (cs : List Char) : Option (Value × List Char) := do
  let (ds, rest) ← digits p cs
  let v ← inRange (ofBase base ds)
  return (v, rest)

def integer : Reader Value
  | '0' :: 'x' :: rest => based 16 isHexDigit rest
  | '0' :: 'o' :: rest => based 8 (fun c => '0' ≤ c && c ≤ '7') rest
  | '0' :: 'b' :: rest => based 2 (fun c => c = '0' || c = '1') rest
  | cs => do
    let (negative, body) := Number.splitSign cs
    let (ds, rest) ← wholeDigits body
    let n : Int := Number.ofDigits ds
    let v ← inRange (if negative then -n else n)
    return (v, rest)

/-- A point and the digits after it. -/
def fraction? : Reader (List Char)
  | '.' :: rest => digits Char.isDigit rest
  | _ => none

/-- The exponent of a number, with its sign. -/
def exponent? : Reader Int
  | e :: rest =>
    if e = 'e' || e = 'E' then do
      let (negative, body) := Number.splitSign rest
      let (ds, rest) ← digits Char.isDigit body
      let n : Int := Number.ofDigits ds
      return (if negative then -n else n, rest)
    else none
  | [] => none

/-- A number with a fraction or an exponent. One that is too large for a double is refused. -/
def decimal (cs : List Char) : Option (Value × List Char) := do
  let (negative, body) := Number.splitSign cs
  let (whole, rest) ← wholeDigits body
  let (fraction, exponent, rest) ←
    match fraction? rest with
    | some (fraction, rest) =>
      match exponent? rest with
      | some (e, rest) => some (fraction, e, rest)
      | none => some (fraction, 0, rest)
    | none => (exponent? rest).map fun (e, rest) => ([], e, rest)
  let x := Number.ofDecimal negative (Number.ofDigits (whole ++ fraction))
    (exponent - fraction.length)
  if x == 1.0 / 0.0 then none else return (.float x, rest)

/-- The names of the values that are not finite. -/
def special (cs : List Char) : Option (Value × List Char) :=
  let (negative, body) := Number.splitSign cs
  match body with
  | 'i' :: 'n' :: 'f' :: rest =>
    some (.float (if negative then -(1.0 / 0.0) else 1.0 / 0.0), rest)
  | 'n' :: 'a' :: 'n' :: rest => some (.float (0.0 / 0.0), rest)
  | _ => none

def number (cs : List Char) : Option (Value × List Char) :=
  (decimal cs).or ((special cs).or (integer cs))

end SourceGauge.Toml
