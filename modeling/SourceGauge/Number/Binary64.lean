import SourceGauge.Number.Power

/-! Doubles as exact numbers: reading one as an integer times a power of two, and rounding a
quotient of naturals to the nearest double. -/
namespace SourceGauge.Number

/-- What a double stands for. A finite one is the mantissa times two to the exponent. -/
inductive Binary64
  | nan
  | infinite (negative : Bool)
  | finite (negative : Bool) (mantissa : Nat) (exponent : Int)
  deriving DecidableEq, Repr

namespace Binary64

def ofBits (bits : Nat) : Binary64 :=
  let negative := bits / 2 ^ 63 % 2 = 1
  let exponent : Nat := bits / 2 ^ 52 % 2 ^ 11
  let fraction := bits % 2 ^ 52
  if exponent = 2047 then (if fraction = 0 then .infinite negative else .nan)
  else if exponent = 0 then .finite negative fraction (-1074)
  else .finite negative (fraction + 2 ^ 52) ((exponent : Int) - 1075)

def ofFloat (x : Float) : Binary64 := ofBits x.toBits.toNat

end Binary64

/-- The quotient rounded to the nearest natural, a half to the even one. -/
def divRound (num den : Nat) : Nat :=
  let q := num / den
  let r := num % den
  if 2 * r < den then q else if den < 2 * r then q + 1 else q + q % 2

/-- The exponent of the greatest power of `base` that is not above the positive quotient, given
`log`, the same for naturals. -/
def quotientLog (base : Nat) (log : Nat → Nat) (num den : Nat) : Int :=
  let e : Int := (log num : Int) - log den
  if den * base ^ e.toNat ≤ num * base ^ (-e).toNat then e else e - 1

/-- The bits of the double nearest to a quotient, a tie going to the even mantissa. What is too
large becomes infinity. -/
def quotientBits (num den : Nat) : Nat :=
  if num = 0 then 0
  else
    let q : Int := max (quotientLog 2 Nat.log2 num den - 52) (-1074)
    let mantissa := divRound (num * 2 ^ (-q).toNat) (den * 2 ^ q.toNat)
    let bits :=
      if mantissa < 2 ^ 52 then mantissa
      else (q + 1075).toNat * 2 ^ 52 + (mantissa - 2 ^ 52)
    min bits (2047 * 2 ^ 52)

def ofQuotient (negative : Bool) (num den : Nat) : Float :=
  Float.ofBits (UInt64.ofNat (quotientBits num den + if negative then 2 ^ 63 else 0))

/-- The double nearest to a natural number. -/
def ofNat (n : Nat) : Float := ofQuotient false n 1

example : quotientBits 1 3 = 0x3FD5555555555555 := by decide
example : quotientBits (2 ^ 53 + 1) 1 = quotientBits (2 ^ 53) 1 := by decide
example : (Binary64.ofBits (quotientBits 5 2)) = .finite false (5 * 2 ^ 50) (-51) := by decide

end SourceGauge.Number
