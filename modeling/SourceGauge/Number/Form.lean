import SourceGauge.Number.Shortest

/-! The two written forms of a double: positional text, and the number form of JSON. -/
namespace SourceGauge.Number

def natText (n : Nat) : List Char := Nat.toDigits 10 n

/-- Writes a decimal without an exponent. -/
def Decimal.positional (d : Decimal) : List Char :=
  let digits := natText d.digits
  if 0 ≤ d.exponent then digits ++ List.replicate d.exponent.toNat '0'
  else
    let places := (-d.exponent).toNat
    let padded := List.replicate (places + 1 - digits.length) '0' ++ digits
    let whole := padded.length - places
    padded.take whole ++ '.' :: padded.drop whole

def signed (negative : Bool) (cs : List Char) : List Char := if negative then '-' :: cs else cs

/-- Two to the exponent divides the mantissa, so that the number is whole. -/
def isWhole (mantissa : Nat) (exponent : Int) : Bool := mantissa % 2 ^ (-exponent).toNat = 0

/-- Whole values are written in full, all others with the fewest digits that read back. -/
def plainText (x : Float) : List Char :=
  match Binary64.ofFloat x with
  | .nan => "NaN".toList
  | .infinite negative => signed negative "inf".toList
  | .finite negative mantissa exponent =>
    signed negative <|
      if isWhole mantissa exponent then
        natText (mantissa * 2 ^ exponent.toNat / 2 ^ (-exponent).toNat)
      else (shortest .up mantissa exponent).positional

/-- One digit, the others after a point, and the exponent with its sign. -/
def Decimal.scientific (d : Decimal) : List Char :=
  let digits := natText d.digits
  let exponent := d.exponent + (digits.length - 1 : Nat)
  digits.take 1 ++ (if digits.length = 1 then [] else '.' :: digits.drop 1) ++
    'e' :: (if exponent < 0 then '-' else '+') :: natText exponent.natAbs

/-- The fewest digits that read back, and a point in every number. From `10 ^ 16` up and below
`10 ^ (-5)` the number has an exponent. JSON has no word for the values that are not finite. -/
def jsonText (x : Float) : List Char :=
  match Binary64.ofFloat x with
  | .nan | .infinite _ => "null".toList
  | .finite negative mantissa exponent =>
    signed negative <|
      if mantissa = 0 then "0.0".toList
      else
        let d := shortest .even mantissa exponent
        let top := d.exponent + (natText d.digits).length - 1
        if top < -5 || 16 ≤ top then d.scientific
        else if d.exponent < 0 then d.positional
        else d.positional ++ ".0".toList

end SourceGauge.Number
