import Remap.Document.Value
import Remap.Decimal.Shortest

/-!
Numbers in JSON text.  An integer that fits in 64 bits is kept exactly.  Any other numeral becomes a
double by one scaling step: its leading digits, as many as fit in 64 bits, times or divided by a
power of ten, so that the result is near the written number but not always the nearest double.
-/

namespace Remap

namespace Json

/-- The parts of a numeral as written.  The exponent is its sign and its digits. -/
structure Numeral where
  negative : Bool
  whole : List Char
  fraction : Option (List Char)
  exponent : Option (Bool × List Char)
deriving Repr, DecidableEq

/-- Append digits to a significand while it stays below 2^64; the digits left over come back too. -/
def fill (significand : Nat) : List Char → Nat × List Char
  | [] => (significand, [])
  | c :: rest =>
      let next := significand * 10 + (c.toNat - '0'.toNat)
      if next < wordBound then fill next rest else (significand, c :: rest)

/-- The greatest power of ten among the doubles. -/
def greatestPower : Nat := 308

/-- Divide by a power of ten, in steps of at most the greatest one. -/
def scaleDown (x : Binary64) (power : Nat) : Option Binary64 :=
  if power ≤ greatestPower then
    (Binary64.powerOfTen power).bind x.div?
  else if x.isZero then some x
  else ((Binary64.powerOfTen greatestPower).bind x.div?).bind (scaleDown · (power - greatestPower))
termination_by power
decreasing_by simp only [greatestPower] at *; omega

/-- `±significand · 10^exponent` as a double, or `none` when it is too large for one. -/
def scale (negative : Bool) (significand : Nat) (exponent : Int) : Option Binary64 := do
  let x ← Binary64.ofNat significand
  let magnitude ←
    match exponent with
    | .ofNat power =>
        if power ≤ greatestPower then (Binary64.powerOfTen power).bind x.mul?
        else if x.isZero then some x
        else none
    | .negSucc power => scaleDown x (power + 1)
  return if negative then magnitude.neg else magnitude

/-- A written exponent above 2^31 - 1 is not added up: the number is zero or too large. -/
def greatestExponent : Nat := 2147483647

/-- The number that a numeral writes, or `none` when it is too large for a double. -/
def Numeral.number? (numeral : Numeral) : Option Number :=
  let (significand, dropped) := fill 0 numeral.whole
  match numeral.fraction, numeral.exponent with
  | none, none =>
      if dropped ≠ [] then
        (scale numeral.negative significand dropped.length).map .real
      else if numeral.negative then
        -- a negative zero is not an integer, nor is what lies below -2^63
        if significand = 0 ∨ signBound < significand then (scale true significand 0).map .real
        else Number.ofInt? (-(significand : Int))
      else Number.ofInt? significand
  | fraction, exponent =>
      let places := fraction.getD []
      let (significand, ignored) := fill significand places
      let point : Int := (dropped.length : Int) - ((places.length : Int) - (ignored.length : Int))
      match exponent with
      | none => (scale numeral.negative significand point).map .real
      | some (below, digits) =>
          let power := Nat.ofDigitChars 10 digits 0
          if greatestExponent < power then
            if significand = 0 ∨ below then some (.real (Binary64.zero numeral.negative))
            else none
          else
            (scale numeral.negative significand
              (if below then point - (power : Int) else point + (power : Int))).map .real

/-- The least and the greatest exponent of the leading digit of a double that is written without
an exponent. -/
def plainExponents : Int × Int := (-5, 15)

/-- A decimal with its digits before and after the point, never without a digit after it. -/
def plainDecimal (digits : List Char) (lead : Int) : List Char :=
  match lead with
  | .ofNat n =>
      let whole := digits.take (n + 1)
      let padding := List.replicate (n + 1 - digits.length) '0'
      let fraction := digits.drop (n + 1)
      whole ++ padding ++ '.' :: (if fraction.isEmpty then ['0'] else fraction)
  | .negSucc n => '0' :: '.' :: (List.replicate n '0' ++ digits)

/-- A decimal with one digit before the point and a signed exponent. -/
def scientificDecimal (digits : List Char) (lead : Int) : List Char :=
  let point := match digits with
    | [] => []
    | [digit] => [digit]
    | digit :: rest => digit :: '.' :: rest
  let sign := if lead < 0 then '-' else '+'
  point ++ 'e' :: sign :: Nat.toDigits 10 lead.natAbs

/-- The text of a double: the fewest digits that read back, always marked as not an integer. -/
def realText (x : Binary64) : List Char :=
  let sign := if x.negative then ['-'] else []
  if x.isZero then sign ++ ['0', '.', '0']
  else
    let decimal := x.shortest
    let digits := decimal.significantDigits
    let lead := decimal.lead
    if plainExponents.1 ≤ lead ∧ lead ≤ plainExponents.2 then sign ++ plainDecimal digits lead
    else sign ++ scientificDecimal digits lead

def integerText (value : Int) : List Char :=
  if value < 0 then '-' :: Nat.toDigits 10 value.natAbs else Nat.toDigits 10 value.natAbs

/-- The text of a number. -/
def numberText : Number → List Char
  | .integer value _ _ => integerText value
  | .real x => realText x

end Json

end Remap
