import Neologism.Decimal.Shortest

/-! # Decimal text of a weight

`text` writes the shortest digits positionally, never with an exponent and without a point on
whole numbers. `read?` takes an optional sign, digits with an optional point, and an optional
exponent. -/

namespace Neologism.Decimal

/-- The digits with the point where the exponent puts it, and zeros up to there. -/
def positional (d : Decimal) : String :=
  let ds := Nat.toDigits 10 d.digits
  if 0 ≤ d.exponent then
    String.ofList (ds ++ List.replicate d.exponent.toNat '0')
  else
    let places := (-d.exponent).toNat
    let padded := List.replicate (places + 1 - ds.length) '0' ++ ds
    let whole := padded.length - places
    String.ofList (padded.take whole ++ '.' :: padded.drop whole)

/-- Whether the sign bit is set. -/
def isNegative (x : Float) : Bool :=
  x.toBits ≥ 0x8000000000000000

/-- The text of a weight: the shortest digits that read back, in positional notation. -/
def text (x : Float) : String :=
  if x.isNaN then "NaN"
  else
    let sign := if isNegative x then "-" else ""
    let magnitude := Float.ofBits (x.toBits &&& 0x7FFFFFFFFFFFFFFF)
    if x.isInf then sign ++ "inf"
    else if magnitude.toBits = 0 then sign ++ "0"
    else sign ++ positional (shortest magnitude)

/-- The value of a list of decimal digits. -/
def digitsValue (ds : List Char) : Nat :=
  ds.foldl (fun n c => 10 * n + (c.toNat - '0'.toNat)) 0

/-- An optional sign, with whether it is a minus, and what follows it. -/
def signed : List Char → Bool × List Char
  | '-' :: cs => (true, cs)
  | '+' :: cs => (false, cs)
  | cs => (false, cs)

/-- The exponent that ends a number: nothing at all, or `e` with an optional sign and at
least one digit. -/
def exponent? : List Char → Option Int
  | [] => some 0
  | c :: cs =>
      if c = 'e' ∨ c = 'E' then
        let (negative, ds) := signed cs
        if ds.isEmpty ∨ ¬ ds.all Char.isDigit then none
        else some (if negative then -(digitsValue ds : Int) else digitsValue ds)
      else none

/-- Read a number: an optional sign, digits with an optional point among them, and an
optional exponent. There must be a digit before the exponent. -/
def read? (cs : List Char) : Option Float :=
  let (negative, cs) := signed cs
  let whole := cs.takeWhile Char.isDigit
  let rest := cs.dropWhile Char.isDigit
  let (places, rest) :=
    match rest with
    | '.' :: r => (r.takeWhile Char.isDigit, r.dropWhile Char.isDigit)
    | r => ([], r)
  if whole.isEmpty ∧ places.isEmpty then none
  else
    (exponent? rest).map fun e =>
      let x := toFloat ⟨digitsValue (whole ++ places), e - places.length⟩
      if negative then -x else x

end Neologism.Decimal
