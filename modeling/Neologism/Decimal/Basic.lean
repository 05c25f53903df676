/-! # Decimal numbers

A decimal number is a count of units of a power of ten. Its value as a weight is the nearest
double. The exponent is compared with the range of doubles first, so that a short text such
as `1e999999999` never asks for a power of ten of that size. -/

namespace Neologism

/-- The number `digits * 10 ^ exponent`. -/
structure Decimal where
  digits : Nat
  exponent : Int
deriving DecidableEq, Repr

namespace Decimal

/-- How many decimal digits `n` has; zero has none. -/
def digitCount (n : Nat) : Nat :=
  if n = 0 then 0 else (Nat.toDigits 10 n).length

/-- The double without a finite value above all others. -/
def infinity : Float :=
  Float.ofBits 0x7FF0000000000000

/-- The nearest double, a tie going to the even one. Values of 10^400 and more overflow and
values below 10^-400 vanish whatever their digits are. -/
def toFloat (d : Decimal) : Float :=
  let top := (digitCount d.digits : Int) + d.exponent
  if d.digits = 0 ∨ top < -400 then 0.0
  else if 400 < top then infinity
  else Float.ofScientific d.digits (decide (d.exponent < 0)) d.exponent.natAbs

end Decimal

end Neologism
