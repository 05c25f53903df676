import Neologism.Decimal.Basic

/-! # The fewest digits that read back

`shortest x` is a decimal with as few digits as any that reads back as the positive finite
double `x`; of two such decimals on one grid it is the nearer, and the upper one on a tie.

A grid is the set of multiples of one power of ten. If some point of a grid reads back as `x`
then one of the two neighbours of `x` on that grid does, so the search looks at those two only. -/

namespace Neologism.Decimal

/-- The binary form of a finite double without its sign: the value is `significand * 2 ^ scale`. -/
structure Binary where
  significand : Nat
  scale : Int
deriving DecidableEq, Repr

/-- One more than the greatest fraction of a double, which has 52 bits. -/
def fractionSize : Nat :=
  0x10000000000000

/-- Read the significand and the scale off the bits; the sign bit is left out. -/
def Binary.ofFloat (x : Float) : Binary :=
  let bits := x.toBits.toNat
  let fraction : Nat := bits % fractionSize
  let field : Nat := bits / fractionSize % 0x800
  if field = 0 then ⟨fraction, -1074⟩ else ⟨fraction + fractionSize, (field : Int) - 1075⟩

/-- Numerator and denominator of `significand * 2 ^ scale`. -/
def Binary.ratio (b : Binary) : Nat × Nat :=
  if 0 ≤ b.scale then (b.significand * Nat.pow 2 b.scale.toNat, 1)
  else (b.significand, Nat.pow 2 (-b.scale).toNat)

/-- The decimal that is equal to `significand * 2 ^ scale`. -/
def Binary.exact (b : Binary) : Decimal :=
  if 0 ≤ b.scale then ⟨b.significand * Nat.pow 2 b.scale.toNat, 0⟩
  else ⟨b.significand * Nat.pow 5 (-b.scale).toNat, b.scale⟩

/-- The `t` for which the positive `num / den` lies in `[10 ^ (t - 1), 10 ^ t)`. -/
def decade (num den : Nat) : Int :=
  if den ≤ num then digitCount (num / den) else 1 - digitCount ((den - 1) / num)

/-- Numerator and denominator of `num / den` counted in units of `10 ^ exponent`. -/
def scaled (num den : Nat) (exponent : Int) : Nat × Nat :=
  if 0 ≤ exponent then (num, den * Nat.pow 10 exponent.toNat)
  else (num * Nat.pow 10 (-exponent).toNat, den)

/-- The neighbour of `x` with `n` digits that reads back, the nearer one if both do. -/
def onGrid (x : Float) (n : Nat) : Option Decimal :=
  let (num, den) := (Binary.ofFloat x).ratio
  let exponent := decade num den - n
  let (p, q) := scaled num den exponent
  let below : Decimal := ⟨p / q, exponent⟩
  let above : Decimal := ⟨p / q + 1, exponent⟩
  let reads (d : Decimal) : Bool := d.toFloat.toBits == x.toBits
  match reads below, reads above with
  | true, true => some (if 2 * (p % q) < q then below else above)
  | true, false => some below
  | false, true => some above
  | false, false => none

/-- Move the zeros at the end of the digits into the exponent, `fuel` of them at most. -/
def trim : Nat → Decimal → Decimal
  | 0, d => d
  | fuel + 1, d =>
      if d.digits ≠ 0 ∧ d.digits % 10 = 0 then trim fuel ⟨d.digits / 10, d.exponent + 1⟩ else d

/-- The decimal with the fewest digits that reads back as the positive finite double `x`.
Seventeen digits are enough for every double; the exact value stands behind them. -/
def shortest (x : Float) : Decimal :=
  let d := ((List.range 17).findSome? fun i => onGrid x (i + 1)).getD (Binary.ofFloat x).exact
  trim (digitCount d.digits) d

end Neologism.Decimal
