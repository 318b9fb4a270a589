/-!
# Binary64 values

The numbers that a 64-bit binary float can hold, as exact values `significand · 2 ^ exponent`. A
decimal number is rounded to the nearest of them, and of two equally near ones to the one with the
even significand. All arithmetic is on whole numbers.
-/

namespace TildeMarkup

/-- A binary64 value. A finite one is `± significand · 2 ^ exponent`, with a significand below
`2 ^ 53` and the least exponent from `-1074` on that allows it. -/
inductive Binary64 where
  | finite (negative : Bool) (significand : Nat) (exponent : Int)
  | infinite (negative : Bool)
  | nan
  deriving DecidableEq, Repr

namespace Binary64

/-- The least exponent of a value. Values with it and a smaller significand lie closer to zero than all
others. -/
def leastExponent : Int := -1074

/-- The greatest exponent of a value. Beyond it a number is taken for infinite. -/
def greatestExponent : Int := 971

/-- `num / den` rounded to a whole number, a half to the even one. -/
def roundDiv (num den : Nat) : Nat :=
  let quotient := num / den
  let twice := 2 * (num % den)
  if twice < den then quotient
  else if den < twice then quotient + 1
  else quotient + quotient % 2

/-- `num / (den · 2 ^ exponent)` as a quotient of whole numbers. -/
def scale (num den : Nat) (exponent : Int) : Nat × Nat :=
  let power := Nat.pow 2 exponent.natAbs
  if exponent < 0 then (num * power, den) else (num, den * power)

/-- The value nearest to `± num / den`, for a positive `den`. Zero keeps its sign. -/
def ofRatio (negative : Bool) (num den : Nat) : Binary64 :=
  if num = 0 then .finite negative 0 leastExponent
  else
    -- Two logarithms tell the exponent but for one, and the quotient tells which of both it is.
    let guess : Int := max ((num.log2 : Int) - den.log2 - 53) leastExponent
    let (scaledNum, scaledDen) := scale num den guess
    let exponent := if Nat.pow 2 53 ≤ scaledNum / scaledDen then guess + 1 else guess
    let (scaledNum, scaledDen) := scale num den exponent
    let significand := roundDiv scaledNum scaledDen
    -- Rounding up may leave the range of significands, by one value and no more.
    let (significand, exponent) :=
      if significand = Nat.pow 2 53 then (Nat.pow 2 52, exponent + 1) else (significand, exponent)
    if greatestExponent < exponent then .infinite negative
    else .finite negative significand exponent

/-- The value nearest to `± digits · 10 ^ power`. Numbers far outside the range are settled by their
size alone. -/
def ofDecimal (negative : Bool) (digits : Nat) (power : Int) : Binary64 :=
  let magnitude : Int := (Nat.toDigits 10 digits).length + power
  if digits = 0 || magnitude < -330 then .finite negative 0 leastExponent
  else if 330 < magnitude then .infinite negative
  else if power < 0 then ofRatio negative digits (Nat.pow 10 power.natAbs)
  else ofRatio negative (digits * Nat.pow 10 power.natAbs) 1

end Binary64

end TildeMarkup
