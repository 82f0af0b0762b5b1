/-!
Numbers and their text. A numeral is written positionally and read in exactly two forms. It reads as
the nearest binary64 number, and a number is written as a sign and the shortest decimal that reads
back.
-/
namespace BlockScript.Number

/-- A power of ten. -/
def tenTo (exponent : Nat) : Nat := Nat.pow 10 exponent

/-- The decimal `digits / 10 ^ places`. -/
structure Numeral where
  digits : Nat
  places : Nat
deriving DecidableEq, Repr

namespace Numeral

/-- The positional text: a numeral without places has no point, and one with places has all of
them written, zeros included. -/
def toChars (d : Numeral) : List Char :=
  if d.places = 0 then
    Nat.toDigits 10 d.digits
  else
    Nat.toDigits 10 (d.digits / tenTo d.places) ++
      '.' :: (Nat.toDigits 10 (d.digits % tenTo d.places)).leftpad d.places '0'

/-- Reads `digits` or `digits.digits`; nothing else is a numeral. -/
def ofChars? (text : List Char) : Option Numeral :=
  match text.takeWhile Char.isDigit, text.dropWhile Char.isDigit with
  | [], _ => none
  | whole, [] => some ⟨Nat.ofDigitChars 10 whole 0, 0⟩
  | whole, mark :: fraction =>
    if mark = '.' ∧ fraction ≠ [] ∧ fraction.all Char.isDigit then
      some ⟨Nat.ofDigitChars 10 (whole ++ fraction) 0, fraction.length⟩
    else
      none

end Numeral

/-!
Magnitudes of binary64 numbers as codes: the 63 bits below the sign, as a natural number.
A finite magnitude is a whole number of units of `2 ^ -1074`, and codes are in the order of
the magnitudes, so rounding to the nearest magnitude is rounding to the nearest code.
-/
namespace Binary64

/-- The reciprocal of the least positive magnitude. -/
def unitsInOne : Nat := Nat.pow 2 1074

/-- The number of codes with the same exponent, which is also the leading bit of a normal
significand. -/
def binadeSize : Nat := Nat.pow 2 52

/-- The code of the infinite magnitude. Finite codes are below it, NaN codes above. -/
def infinity : Nat := 2047 * binadeSize

/-- The finite magnitude with a code, in units of `2 ^ -1074`. -/
def units (code : Nat) : Nat :=
  if code < binadeSize then code
  else (binadeSize + code % binadeSize) * Nat.pow 2 (code / binadeSize - 1)

/-- The quotient rounded to the nearest integer, a half to the even neighbour. -/
def divToEven (numerator denominator : Nat) : Nat :=
  let quotient := numerator / denominator
  let twice := 2 * (numerator % denominator)
  if denominator < twice ∨ (twice = denominator ∧ quotient % 2 = 1) then quotient + 1
  else quotient

/-- The code of the magnitude nearest to `numerator / denominator`, a tie going to the even
significand. The exponent is the least for which the significand has at most 53 bits; a
significand that rounds up to `2 ^ 53` carries into the exponent, and every code past the
finite ones is infinity. -/
def nearest (numerator denominator : Nat) : Nat :=
  let scaled := numerator * unitsInOne
  let exponent := (scaled / denominator).log2 - 52
  min infinity (exponent * binadeSize + divToEven scaled (denominator * Nat.pow 2 exponent))

end Binary64

namespace Numeral

/-- The code of the magnitude nearest to a decimal. -/
def toCode (d : Numeral) : Nat :=
  Binary64.nearest d.digits (tenTo d.places)

/-!
The shortest decimal that reads back as a given magnitude. If any multiple of a power of ten reads
back, one of the magnitude's two neighbours among them does, so only these are tried, from coarse
grids to fine ones; the first grid with a hit gives the fewest digits.
-/

/-- The decimal `count * 10 ^ exponent`. -/
def onGrid (exponent : Int) (count : Nat) : Numeral :=
  if 0 ≤ exponent then ⟨count * tenTo exponent.toNat, 0⟩ else ⟨count, (-exponent).toNat⟩

/-- The magnitude with a code as a fraction of `10 ^ exponent`. -/
def stepsOf (exponent : Int) (code : Nat) : Nat × Nat :=
  if 0 ≤ exponent then (Binary64.units code, Binary64.unitsInOne * tenTo exponent.toNat)
  else (Binary64.units code * tenTo (-exponent).toNat, Binary64.unitsInOne)

/-- The neighbour of the magnitude on the grid of `10 ^ exponent` that reads back. When both do,
it is the nearer one, and the upper one of two equally near. -/
def hit? (code : Nat) (exponent : Int) : Option Numeral :=
  let steps := stepsOf exponent code
  let lower := onGrid exponent (steps.1 / steps.2)
  let upper := onGrid exponent (steps.1 / steps.2 + 1)
  if lower.toCode = code then
    if upper.toCode = code ∧ steps.2 ≤ 2 * (steps.1 % steps.2) then some upper else some lower
  else if upper.toCode = code then some upper
  else none

/-- An exponent whose power of ten is above the magnitude: `30103 / 100000` is `log 2` in base ten
to five places. -/
def topExponent (code : Nat) : Int :=
  (((Binary64.units code).log2 : Int) - 1073) * 30103 / 100000 + 2

/-- All digits of the magnitude. -/
def exact (code : Nat) : Numeral := ⟨Binary64.units code * Nat.pow 5 1074, 1074⟩

/-- The decimal with the fewest digits that reads back as a finite magnitude. Seventeen digits
always do, so the grids tried are enough and the exact decimal is only a safeguard. -/
def shortest (code : Nat) : Numeral :=
  if code = 0 then ⟨0, 0⟩
  else
    ((List.range 22).findSome? fun (step : Nat) => hit? code (topExponent code - step)).getD
      (exact code)

end Numeral

/-- The bit above every magnitude code. -/
def signBit : Nat := Nat.pow 2 63

/-- The number with a sign and a magnitude code. -/
def ofCode (negative : Bool) (code : Nat) : Float :=
  Float.ofBits (UInt64.ofNat (if negative then signBit + code else code))

/-- The number nearest to the decimal that a numeral's text denotes. -/
def ofChars? (text : List Char) : Option Float :=
  (Numeral.ofChars? text).map fun d => ofCode false d.toCode

/-- The text of a sign and a magnitude code; NaN has no sign. -/
def textOfCode (negative : Bool) (code : Nat) : String :=
  if Binary64.infinity < code then "NaN"
  else
    let magnitude :=
      if code = Binary64.infinity then "Infinity"
      else String.ofList (Numeral.shortest code).toChars
    if negative then "-" ++ magnitude else magnitude

/-- The text of a number, which reads back as the same number when it is finite. -/
def text (x : Float) : String :=
  let bits := x.toBits.toNat
  textOfCode (signBit ≤ bits) (bits % signBit)

end BlockScript.Number
