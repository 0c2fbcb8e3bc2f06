import Remap.Decimal.Word

/-!
Scalars of a YAML text.  A scalar keeps whether it was quoted, because only a plain one can stand
for a number, a truth value or nothing.
-/

namespace Remap.Yaml

/-- A scalar as it was meant, quotes and line breaks already resolved. -/
inductive Scalar
  | plain (text : String)
  | quoted (text : String)
deriving Repr, DecidableEq

/-- The value of a digit in a base up to 16. -/
def digitIn? (base : Nat) (c : Char) : Option Nat :=
  let value :=
    if c.isDigit then c.toNat - '0'.toNat
    else if 'a' ≤ c ∧ c ≤ 'f' then c.toNat - 'a'.toNat + 10
    else if 'A' ≤ c ∧ c ≤ 'F' then c.toNat - 'A'.toNat + 10
    else base
  if value < base then some value else none

/-- The value of one or more digits in a base. -/
def digitsIn? (base : Nat) (digits : List Char) : Option Nat :=
  if digits.isEmpty then none
  else digits.foldlM (fun value c => (digitIn? base c).map (value * base + ·)) 0

namespace Scalar

/-- The scalar where none is written. -/
def absent : Scalar := .plain ""

def text : Scalar → String
  | .plain text => text
  | .quoted text => text

/-- A plain scalar that means nothing. -/
def isNull : Scalar → Bool
  | .plain text => text ∈ ["", "~", "null", "Null", "NULL"]
  | .quoted _ => false

/-- The truth value that a plain scalar means. -/
def bool? : Scalar → Option Bool
  | .plain text =>
      if text ∈ ["true", "True", "TRUE"] then some true
      else if text ∈ ["false", "False", "FALSE"] then some false
      else none
  | .quoted _ => none

/-- The unsigned integer of 64 bits that a plain scalar means.  More than one digit with a zero in
front is no number. -/
def natural? : Scalar → Option Nat
  | .plain text =>
      let value := match dropPlus text.toList with
        | '0' :: 'x' :: rest => digitsIn? 16 rest
        | '0' :: 'o' :: rest => digitsIn? 8 rest
        | '0' :: 'b' :: rest => digitsIn? 2 rest
        | '0' :: _ :: _ => none
        | digits => digitsIn? 10 digits
      value.filter (· < wordBound)
  | .quoted _ => none

theorem natural?_lt {scalar : Scalar} {value : Nat} (h : scalar.natural? = some value) :
    value < wordBound := by
  cases scalar with
  | plain text => simpa using (Option.filter_eq_some_iff.1 h).2
  | quoted text => cases h

end Scalar

end Remap.Yaml
