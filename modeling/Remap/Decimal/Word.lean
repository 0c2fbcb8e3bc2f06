/-!
The limits of 64-bit integers, which bound the integers of documents, the indexes of arrays and time
limits, and the reading of an unsigned one.
-/

namespace Remap

/-- The unsigned integers of 64 bits lie below 2^64. -/
abbrev wordBound : Nat := 18446744073709551616

/-- The signed integers of 64 bits lie from -2^63 up to below 2^63. -/
abbrev signBound : Nat := 9223372036854775808

example : wordBound = Nat.pow 2 64 ∧ signBound = Nat.pow 2 63 := by decide

def dropPlus : List Char → List Char
  | '+' :: text => text
  | text => text

/-- The number that a text writes in decimal digits, with or without a plus sign before them, if it
fits in 64 bits.  Leading zeros do no harm. -/
def word? (text : List Char) : Option Nat :=
  let digits := dropPlus text
  if digits ≠ [] ∧ digits.all Char.isDigit then
    let value := Nat.ofDigitChars 10 digits 0
    if value < wordBound then some value else none
  else none

theorem word?_lt {text : List Char} {value : Nat} (h : word? text = some value) :
    value < wordBound := by
  simp only [word?, Option.ite_none_right_eq_some, Option.some.injEq] at h
  exact h.2.2 ▸ h.2.1

end Remap
