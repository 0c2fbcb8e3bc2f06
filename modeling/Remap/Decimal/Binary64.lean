/-!
Finite doubles as exact values.  A `Binary64` is a sign, a significand below 2^53 and a power of
two; every operation works on the exact quotient and rounds once, to nearest with ties to the even
significand, so that an overflow is `none` and never an infinity.
-/

namespace Remap

/-- Significands have at most 53 bits. -/
abbrev Binary64.significandBound : Nat := 9007199254740992

/-- Normal significands have all 53 bits. -/
abbrev Binary64.normalBound : Nat := 4503599627370496

/-- Significands are normal wherever the exponent allows it, so each double has one form. -/
def Binary64.Canonical (significand : Nat) (exponent : Int) : Prop :=
  significand < significandBound ∧ -1074 ≤ exponent ∧ exponent ≤ 971 ∧
    (normalBound ≤ significand ∨ exponent = -1074)

instance (significand : Nat) (exponent : Int) :
    Decidable (Binary64.Canonical significand exponent) := by
  unfold Binary64.Canonical
  infer_instance

/-- The number `±significand · 2^exponent`; zero keeps its sign. -/
structure Binary64 where
  negative : Bool
  significand : Nat
  exponent : Int
  canonical : Binary64.Canonical significand exponent
deriving DecidableEq

namespace Binary64

def zero (negative : Bool) : Binary64 :=
  ⟨negative, 0, -1074, by decide⟩

def isZero (x : Binary64) : Bool :=
  x.significand == 0

/-- Multiply a fraction by a power of two. -/
def shift (num den : Nat) (exponent : Int) : Nat × Nat :=
  match exponent with
  | .ofNat n => (num * Nat.pow 2 n, den)
  | .negSucc n => (num, den * Nat.pow 2 (n + 1))

/-- The integer nearest to a fraction, a tie going to the even one. -/
def roundHalfEven (num den : Nat) : Nat :=
  let quotient := num / den
  let twice := 2 * (num % den)
  if twice < den then quotient
  else if den < twice then quotient + 1
  else quotient + quotient % 2

/-- The least exponent at which the significand of `num / den` fits in 53 bits. -/
def exponentFor (num den : Nat) : Int :=
  let guess : Int := (Nat.log2 num : Int) - (Nat.log2 den : Int) - 52
  let (scaled, unit) := shift num den (-guess)
  max (-1074) (if scaled < unit * normalBound then guess - 1 else guess)

/-- The double nearest to `±num / den`, or `none` when that is beyond the largest one. -/
def ofRatio (negative : Bool) (num den : Nat) : Option Binary64 :=
  if num = 0 then some (zero negative)
  else
    let exponent := exponentFor num den
    let (scaled, unit) := shift num den (-exponent)
    let significand := roundHalfEven scaled unit
    -- rounding up may carry into a 54th bit
    let (significand, exponent) :=
      if significand = significandBound then (normalBound, exponent + 1)
      else (significand, exponent)
    if h : Canonical significand exponent then some ⟨negative, significand, exponent, h⟩
    else none

def ofNat (n : Nat) : Option Binary64 :=
  ofRatio false n 1

/-- The magnitude as a fraction. -/
def ratio (x : Binary64) : Nat × Nat :=
  shift x.significand 1 x.exponent

def neg (x : Binary64) : Binary64 :=
  { x with negative := !x.negative }

/-- The rounded product. -/
def mul? (x y : Binary64) : Option Binary64 :=
  let (xn, xd) := x.ratio
  let (yn, yd) := y.ratio
  ofRatio (x.negative != y.negative) (xn * yn) (xd * yd)

/-- The rounded quotient; `none` also for a division by zero. -/
def div? (x y : Binary64) : Option Binary64 :=
  let (xn, xd) := x.ratio
  let (yn, yd) := y.ratio
  if yn = 0 then none else ofRatio (x.negative != y.negative) (xn * yd) (xd * yn)

/-- The double nearest to a power of ten, for exponents up to 308. -/
def powerOfTen (exponent : Nat) : Option Binary64 :=
  ofNat (Nat.pow 10 exponent)

@[simp]
theorem neg_neg (x : Binary64) : x.neg.neg = x := by
  cases x
  simp [neg]

end Binary64

end Remap
