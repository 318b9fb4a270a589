import TildeMarkup.Number.Binary64

/-!
# Shortest decimals

The decimal text of a binary64 value: the fewest digits that are rounded to the value when they are
read back, and of those the nearest to it. A number of digits is possible when one of the two
neighbours of the value on the grid of that many digits is rounded to the value.
-/

namespace TildeMarkup

namespace Shortest

/-- A positive quotient of whole numbers. -/
structure Ratio where
  num : Nat
  den : Nat

namespace Ratio

/-- The quotient `n · 2 ^ exponent`, for an exponent of either sign. -/
def ofBinary (n : Nat) (exponent : Int) : Ratio :=
  if exponent < 0 then ⟨n, Nat.pow 2 exponent.natAbs⟩ else ⟨n * Nat.pow 2 exponent.natAbs, 1⟩

/-- The quotient `n · 10 ^ power`, for a power of either sign. -/
def ofDecimal (n : Nat) (power : Int) : Ratio :=
  if power < 0 then ⟨n, Nat.pow 10 power.natAbs⟩ else ⟨n * Nat.pow 10 power.natAbs, 1⟩

/-- The order of two quotients, by multiplying out. Denominators are positive. -/
def lt (r s : Ratio) : Bool := r.num * s.den < s.num * r.den

/-- The distance of two quotients. -/
def distance (r s : Ratio) : Ratio :=
  let left := r.num * s.den
  let right := s.num * r.den
  ⟨(left - right) + (right - left), r.den * s.den⟩

/-- The power of ten of the leading digit. No binary64 value is so small that 400 places are not enough to
find it. -/
def magnitude (r : Ratio) : Int :=
  if r.den ≤ r.num then (Nat.toDigits 10 (r.num / r.den)).length - 1
  else
    let leads (k : Nat) : Bool := r.den ≤ r.num * Nat.pow 10 k
    match (List.range 400).find? leads with
    | some k => -(k : Int)
    | none => -400

end Ratio

/-- The numbers that are rounded to `significand · 2 ^ exponent`: those between the middles to both
neighbours. -/
structure Basin where
  value : Ratio
  low : Ratio
  high : Ratio
  /-- The ends are rounded to the value too. -/
  closed : Bool

/-- The basin of a value. Below a power of two the next value is only half as far. -/
def basin (significand : Nat) (exponent : Int) : Basin :=
  { value := .ofBinary significand exponent
    low :=
      if significand = Nat.pow 2 52 && Binary64.leastExponent < exponent then
        .ofBinary (4 * significand - 1) (exponent - 2)
      else .ofBinary (2 * significand - 1) (exponent - 1)
    high := .ofBinary (2 * significand + 1) (exponent - 1)
    closed := significand % 2 == 0 }

/-- The number is rounded to the value of the basin. A number in the middle goes to the even
significand. -/
def Basin.contains (b : Basin) (r : Ratio) : Bool :=
  if b.closed then !r.lt b.low && !b.high.lt r else b.low.lt r && r.lt b.high

/-- The nearest number to the value that has `count` digits and is rounded to it, as digits and a
power of ten. Of two equally near ones it is the even one. -/
def atCount (b : Basin) (count : Nat) : Option (Nat × Int) :=
  let power := b.value.magnitude - count + 1
  let unit := Ratio.ofDecimal 1 power
  -- The two neighbours of the value on the grid are the whole multiples of its unit around it.
  let below := (b.value.num * unit.den) / (b.value.den * unit.num)
  let lower := Ratio.ofDecimal below power
  let upper := Ratio.ofDecimal (below + 1) power
  match b.contains lower, b.contains upper with
  | false, false => none
  | true, false => some (below, power)
  | false, true => some (below + 1, power)
  | true, true =>
    let down := b.value.distance lower
    let up := upper.distance b.value
    if down.lt up then some (below, power)
    else if up.lt down then some (below + 1, power)
    else some (below + below % 2, power)

/-- The shortest digits of a positive value, and their power of ten. Seventeen digits are always
enough. -/
def digits (significand : Nat) (exponent : Int) : Nat × Int :=
  let b := basin significand exponent
  ((List.range 17).findSome? fun count => atCount b (count + 1)).getD (0, 0)

/-- Digits without the zeros at their end, which say nothing once the point has its place. -/
def trimZeros (ds : List Char) : List Char :=
  (ds.reverse.dropWhile (· == '0')).reverse

/-- The text of digits whose decimal point is after the first `point` of them. From `10 ^ -4` up to
`10 ^ 16` it is positional, with at least one digit on each side of the point. Outside it has an
exponent of at least two digits. -/
def write (ds : List Char) (point : Int) : List Char :=
  if -4 < point && point ≤ 16 then
    if point ≤ 0 then '0' :: '.' :: (List.replicate point.natAbs '0' ++ ds)
    else if (ds.length : Int) ≤ point then
      ds ++ List.replicate (point.natAbs - ds.length) '0' ++ ['.', '0']
    else ds.take point.natAbs ++ '.' :: ds.drop point.natAbs
  else
    let mantissa :=
      match ds with
      | first :: second :: rest => first :: '.' :: second :: rest
      | short => short
    let power := point - 1
    let powerDigits := Nat.toDigits 10 power.natAbs
    mantissa ++ 'e' :: (if power < 0 then '-' else '+')
      :: (List.replicate (2 - powerDigits.length) '0' ++ powerDigits)

end Shortest

/-- The shortest decimal text that reads back as the value. -/
def Binary64.toText : Binary64 → String
  | .nan => "nan"
  | .infinite negative => if negative then "-inf" else "inf"
  | .finite negative significand exponent =>
    let body :=
      if significand = 0 then ['0', '.', '0']
      else
        let (n, power) := Shortest.digits significand exponent
        let ds := Nat.toDigits 10 n
        Shortest.write (Shortest.trimZeros ds) (ds.length + power)
    String.ofList (if negative then '-' :: body else body)

end TildeMarkup
