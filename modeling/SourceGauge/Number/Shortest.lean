import SourceGauge.Number.Binary64

/-! The fewest decimal digits that read back as a given double. -/
namespace SourceGauge.Number

/-- The number `digits` times ten to the `exponent`. -/
structure Decimal where
  digits : Nat
  exponent : Int
  deriving DecidableEq, Repr

/-- Which of two equally near decimals is taken. -/
inductive Tie
  | even
  | up
  deriving DecidableEq, Repr

/-- A positive number with the numbers around it that round to it: the value is `num / den`,
and the interval reaches `below / den` down and `above / den` up. -/
structure Rounding where
  num : Nat
  den : Nat
  below : Nat
  above : Nat
  closed : Bool
  deriving DecidableEq, Repr

namespace Rounding

/-- The interval of a positive double. Just above a power of two the next double is twice as far
as the one before. -/
def ofMantissa (mantissa : Nat) (exponent : Int) : Rounding :=
  let scale := 2 ^ (exponent - 2).toNat
  { num := 4 * mantissa * scale
    den := 2 ^ (2 - exponent).toNat
    below := (if mantissa = 2 ^ 52 ∧ -1074 < exponent then 1 else 2) * scale
    above := 2 * scale
    closed := mantissa % 2 = 0 }

/-- The decimal with last digit at `10 ^ k` that lies in the interval, the nearer one if both
neighbours of the value do. -/
def onGrid? (r : Rounding) (tie : Tie) (k : Int) : Option Decimal :=
  let widen := 10 ^ (-k).toNat
  let unit := r.den * 10 ^ k.toNat
  let num := r.num * widen
  let lower := num / unit
  let down := num % unit
  let up := unit - down
  let fits (distance reach : Nat) : Bool :=
    distance < reach * widen || (r.closed && distance = reach * widen)
  match fits down r.below, fits up r.above with
  | false, false => none
  | true, false => some ⟨lower, k⟩
  | false, true => some ⟨lower + 1, k⟩
  | true, true =>
    if down < up || (down = up && tie = .even && lower % 2 = 0) then some ⟨lower, k⟩
    else some ⟨lower + 1, k⟩

end Rounding

def decimalLog (n : Nat) : Nat := (Nat.toDigits 10 n).length - 1

/-- Drops zeros at the end of the digits. -/
def Decimal.normal (fuel : Nat) (d : Decimal) : Decimal :=
  match fuel with
  | 0 => d
  | fuel + 1 =>
    if d.digits ≠ 0 ∧ d.digits % 10 = 0 then
      Decimal.normal fuel ⟨d.digits / 10, d.exponent + 1⟩
    else d

/-- The shortest decimal that rounds to the positive double. Seventeen digits always do. -/
def shortest (tie : Tie) (mantissa : Nat) (exponent : Int) : Decimal :=
  let r := Rounding.ofMantissa mantissa exponent
  let top := quotientLog 10 decimalLog r.num r.den
  let found := (List.range 17).findSome? fun n : Nat => r.onGrid? tie (top - n)
  (found.getD ⟨mantissa, 0⟩).normal 20

example : shortest .even 1 (-1074) = ⟨5, -324⟩ := by decide +kernel
example : shortest .even 0x1999999999999A (-56) = ⟨1, -1⟩ := by decide +kernel
example : shortest .even (2 ^ 52) 1 = ⟨9007199254740992, 0⟩ := by decide +kernel

end SourceGauge.Number
