import SourceGauge.Number.Binary64

/-! Numbers read from text: naturals below a bound, and doubles in decimal form. -/
namespace SourceGauge.Number

def digitValue (c : Char) : Nat := c.toNat - '0'.toNat

/-- The value of a digit sequence, read from its front. -/
def ofDigits (digits : List Char) : Nat := digits.foldl (fun n c => 10 * n + digitValue c) 0

/-- A sequence of at least one digit. -/
def digits? (cs : List Char) : Option Nat :=
  if !cs.isEmpty && cs.all Char.isDigit then some (ofDigits cs) else none

/-- A natural number below `bound`: digits, with at most one plus sign before them. -/
def natBelow? (bound : Nat) (cs : List Char) : Option Nat :=
  let digits := if cs.head? = some '+' then cs.tail else cs
  (digits? digits).filter (· < bound)

/-- Splits off a sign. The first part says whether it was a minus. -/
def splitSign : List Char → Bool × List Char
  | '-' :: rest => (true, rest)
  | '+' :: rest => (false, rest)
  | cs => (false, cs)

/-- The exponent after a mark `e` of either case; no text at all is the exponent zero. -/
def exponent? : List Char → Option Int
  | [] => some 0
  | e :: rest =>
    if e = 'e' || e = 'E' then
      let (negative, digits) := splitSign rest
      (digits? digits).map fun n => if negative then -(n : Int) else n
    else none

/-- The nearest double to `digits * 10 ^ exponent`. Beyond four hundred places to either side of
the point it is infinite or zero. -/
def ofDecimal (negative : Bool) (digits : Nat) (exponent : Int) : Float :=
  let places : Int := (Nat.toDigits 10 digits).length + exponent
  if digits = 0 || places < -400 then ofQuotient negative 0 1
  else if 400 < places then ofQuotient negative (2 ^ 1024) 1
  else ofQuotient negative (digits * 10 ^ exponent.toNat) (10 ^ (-exponent).toNat)

/-- A decimal number with a digit before or after its point, and an optional exponent. -/
def decimal? (negative : Bool) (cs : List Char) : Option Float :=
  let whole := cs.takeWhile Char.isDigit
  let rest := cs.dropWhile Char.isDigit
  let (fraction, rest) :=
    match rest with
    | '.' :: rest => (rest.takeWhile Char.isDigit, rest.dropWhile Char.isDigit)
    | rest => ([], rest)
  if whole.isEmpty && fraction.isEmpty then none
  else (exponent? rest).map fun e =>
    ofDecimal negative (ofDigits (whole ++ fraction)) (e - fraction.length)

/-- A double: a decimal number or the name of a special value in any case, after an optional
sign. -/
def float? (cs : List Char) : Option Float :=
  let (negative, body) := splitSign cs
  let word := String.ofList (body.map Char.toLower)
  if word = "inf" || word = "infinity" then
    some (if negative then -(1.0 / 0.0) else 1.0 / 0.0)
  else if word = "nan" then some (0.0 / 0.0)
  else decimal? negative body

end SourceGauge.Number
