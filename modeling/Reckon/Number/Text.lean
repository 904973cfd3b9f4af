import Reckon.Number.Shortest

/-!
# Number text

Numbers are written positionally, with the fewest digits that read back and no
exponent. Whole numbers have no fraction. Numerals are digits with an optional
fraction and are read to the nearest number.
-/
namespace Reckon.Number
open Decimal

/-- The digits of a fraction given in steps, without trailing zeros. -/
def fractionDigits (steps : Nat) : List Char :=
  let digits := Nat.toDigits 10 steps
  let padded := List.replicate (places - digits.length) '0' ++ digits
  (padded.reverse.dropWhile (· == '0')).reverse

/-- The positional text of a decimal given in steps. -/
def decimalText (steps : Nat) : List Char :=
  let whole := Nat.toDigits 10 (steps / Nat.pow 10 places)
  match fractionDigits (steps % Nat.pow 10 places) with
  | [] => whole
  | fraction => whole ++ '.' :: fraction

/-- The text of a magnitude given by its rank. Ranks above that of infinity are not
numbers. -/
def magnitudeText (rank : Nat) : List Char :=
  if rank = Ladder.top then "inf".toList else decimalText (shortest rank)

/-- The weight of the sign in a bit pattern. -/
def signBit : Nat := Nat.pow 2 63

/-- The text of a number. What is not a number has no sign. -/
def text (x : Float) : String :=
  let bits := x.toBits.toNat
  let rank := bits % signBit
  if Ladder.top < rank then "NaN"
  else if bits < signBit then String.ofList (magnitudeText rank)
  else String.ofList ('-' :: magnitudeText rank)

/-- The rank nearest to the numeral with these digits before and after the point. -/
def rankOfNumeral (whole fraction : List Char) : Nat :=
  Ladder.nearest (Nat.ofDigitChars 10 (whole ++ fraction) 0 * Ladder.unitsPerOne)
    (Nat.pow 10 fraction.length)

/-- The number nearest to the numeral with these digits before and after the point. -/
def ofNumeral (whole fraction : List Char) : Float :=
  Float.ofBits (UInt64.ofNat (rankOfNumeral whole fraction))

end Reckon.Number
