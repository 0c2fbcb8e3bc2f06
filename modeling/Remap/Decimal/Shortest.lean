import Remap.Decimal.Binary64

/-!
The shortest decimal of a double.  Among the decimals that round to the double, those with the
fewest digits are taken, and of them the nearest; a tie goes to the even digit.
-/

namespace Remap

/-- The number `digits · 10^exponent`. -/
structure Decimal where
  digits : Nat
  exponent : Int
deriving Repr, DecidableEq

/-- Multiply a fraction by a power of ten. -/
def scaleByTen (num den : Nat) (exponent : Int) : Nat × Nat :=
  match exponent with
  | .ofNat n => (num * Nat.pow 10 n, den)
  | .negSucc n => (num, den * Nat.pow 10 (n + 1))

/-- The number of decimal digits of `n`; zero has one. -/
def digitCount (n : Nat) : Nat :=
  (Nat.toDigits 10 n).length

/-- The exponent of the leading digit of `num / den`. -/
def leadingExponent (num den : Nat) : Int :=
  if den ≤ num then (digitCount (num / den) : Int) - 1
  else -(digitCount ((den + num - 1) / num - 1) : Int)

/-- The reals that round to `num / den`, in units of `1 / den`: the bounds belong to them when
`closed` holds. -/
structure RoundingInterval where
  num : Nat
  den : Nat
  below : Nat
  above : Nat
  closed : Bool

/-- Doubles are equally spaced but at powers of two, below which the spacing halves. -/
def Binary64.interval (x : Binary64) : RoundingInterval :=
  let atPower := x.significand = Binary64.normalBound ∧ x.exponent ≠ -1074
  let (num, den) := Binary64.shift (4 * x.significand) 1 (x.exponent - 2)
  let (unit, _) := Binary64.shift 1 1 (x.exponent - 2)
  { num
    den
    below := num - (if atPower then unit else 2 * unit)
    above := num + 2 * unit
    closed := x.significand % 2 == 0 }

/-- Whether the fraction `num / den` rounds to the double. -/
def RoundingInterval.contains (interval : RoundingInterval) (num den : Nat) : Bool :=
  let scaled := num * interval.den
  let low := interval.below * den
  let high := interval.above * den
  if interval.closed then low ≤ scaled && scaled ≤ high else low < scaled && scaled < high

/-- The decimal in the interval whose last digit stands for `10^exponent`, if there is one. -/
def RoundingInterval.onGrid (interval : RoundingInterval) (exponent : Int) : Option Decimal :=
  let (num, den) := scaleByTen interval.num interval.den (-exponent)
  let floor := num / den
  let inside (digits : Nat) : Bool :=
    let (n, d) := scaleByTen digits 1 exponent
    interval.contains n d
  match inside floor, inside (floor + 1) with
  | true, true => some ⟨Binary64.roundHalfEven num den, exponent⟩
  | true, false => some ⟨floor, exponent⟩
  | false, true => some ⟨floor + 1, exponent⟩
  | false, false => none

/-- The shortest decimal of a nonzero magnitude.  Seventeen digits always suffice. -/
def Binary64.shortest (x : Binary64) : Decimal :=
  let interval := x.interval
  let lead := leadingExponent interval.num interval.den
  ((List.range 17).findSome? fun (n : Nat) => interval.onGrid (lead - (n : Int))).getD
    ⟨x.significand, x.exponent⟩

/-- The digits of a decimal without the zeros at its end. -/
def Decimal.significantDigits (d : Decimal) : List Char :=
  ((Nat.toDigits 10 d.digits).reverse.dropWhile (· = '0')).reverse

/-- The exponent of the leading digit. -/
def Decimal.lead (d : Decimal) : Int :=
  d.exponent + (digitCount d.digits : Int) - 1

end Remap
