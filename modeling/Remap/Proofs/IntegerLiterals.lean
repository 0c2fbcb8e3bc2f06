import Mathlib.Data.Nat.Digits.Defs
import Remap.Proofs.ExprForms

/-!
Integer literals.  A literal of any length is the integer that its digits write by position, if that
integer is one of 64 bits with a sign; otherwise it is refused where it begins, and no other form is
tried.  A point that no digit follows is not part of it.
-/

namespace Remap

open Remap.Parser Remap.Expr.Grammar

/-- What decimal digits write by position: the last of them counts ones, the one before it tens, and
so on. -/
def positional (digits : List Char) : Nat :=
  Nat.ofDigits 10 (digits.map fun c => c.toNat - '0'.toNat).reverse

/-- Multiplying by ten and adding the next digit comes to the value by position. -/
theorem ofDigitChars_eq_positional (digits : List Char) :
    Nat.ofDigitChars 10 digits 0 = positional digits := by
  induction digits with
  | nil => rfl
  | cons c rest ih =>
      calc Nat.ofDigitChars 10 (c :: rest) 0
          = Nat.ofDigitChars 10 rest (c.toNat - '0'.toNat) := by
            rw [Nat.ofDigitChars_cons, Nat.mul_zero, Nat.zero_add]
        _ = 10 ^ rest.length * (c.toNat - '0'.toNat) + positional rest := by
            rw [Nat.ofDigitChars_eq_ofDigitChars_zero, ih]
        _ = positional (c :: rest) := by
            rw [positional, positional, List.map_cons, Nat.ofDigits_reverse_cons, List.length_map,
              Nat.add_comm]

/-- An integer as it is written: with a minus sign or without, in one or more digits. -/
structure WrittenInteger where
  negative : Bool
  digits : TextOf Char.isDigit
  nonempty : digits.chars ≠ []

namespace WrittenInteger

def text (written : WrittenInteger) : List Char :=
  (if written.negative then ['-'] else []) ++ written.digits.chars

def value (written : WrittenInteger) : Int :=
  if written.negative then -(positional written.digits.chars : Int)
  else positional written.digits.chars

def numeral (written : WrittenInteger) : Numeral :=
  ⟨written.negative, written.digits.chars, none⟩

variable (written : WrittenInteger)

theorem text_numeral : written.numeral.text = written.text :=
  List.append_nil _

theorem integer_numeral : written.numeral.integer = written.value := by
  rw [Numeral.integer, value, ← ofDigitChars_eq_positional]
  rfl

theorem wellFormed_numeral : written.numeral.WellFormed where
  whole_ne_nil := written.nonempty
  whole_all := written.digits.all
  fraction := fun _ hmem => absurd hmem (Option.not_mem_none _)

variable {rest : List Char}

theorem number_eq_ok (h : written.numeral.EndsBefore rest)
    (hfits : -(2 ^ 63) ≤ written.value ∧ written.value ≤ 2 ^ 63 - 1) :
    ∃ lower upper, number (written.text ++ rest) =
      .ok (.literal (.number (.integer written.value lower upper)), rest) := by
  rw [← integer_numeral] at hfits
  have upper : written.numeral.integer < signBound := Int.lt_of_le_sub_one hfits.2
  have hread := number_of_fits written.wellFormed_numeral h rfl hfits.1 upper
  rw [text_numeral] at hread
  simp only [integer_numeral] at hread
  exact ⟨_, _, hread⟩

theorem number_eq_error (h : written.numeral.EndsBefore rest)
    (hfits : ¬(-(2 ^ 63) ≤ written.value ∧ written.value ≤ 2 ^ 63 - 1)) :
    number (written.text ++ rest) =
      .error ⟨true, written.text ++ rest, .numberOutOfRange (String.ofList written.text)⟩ := by
  rw [← integer_numeral] at hfits
  have hlarge : ¬(-(signBound : Int) ≤ written.numeral.integer ∧
      written.numeral.integer < signBound) :=
    fun hboth => hfits ⟨hboth.1, Int.le_sub_one_of_lt hboth.2⟩
  have hread := number_of_not_fits written.wellFormed_numeral h rfl hlarge
  rwa [text_numeral] at hread

/-- An integer is read as a number and as nothing else, at whatever depth. -/
theorem expression_eq_number (h : written.numeral.EndsBefore rest) (bound : Nat) :
    expression (bound + 1) (written.text ++ rest) = number (written.text ++ rest) := by
  obtain ⟨hne, hopens⟩ := written.wellFormed_numeral.opens_text
  rw [text_numeral] at hne hopens
  have hstart : Opens isNumberStart (written.text ++ rest) := hopens.append_of_ne_nil hne rest
  by_cases hfits : -(2 ^ 63) ≤ written.value ∧ written.value ≤ 2 ^ 63 - 1
  · obtain ⟨lower, upper, hread⟩ := written.number_eq_ok h hfits
    rw [hread]
    exact expression_of_number hstart hread
  · have hrefused := written.number_eq_error h hfits
    rw [hrefused]
    exact expression_of_failed_number hstart hrefused rfl

theorem parse_eq_number (h : written.numeral.EndsBefore rest) :
    Expr.parse (written.text ++ rest) = number (written.text ++ rest) := by
  have hne : written.text ++ rest ≠ [] := by simp [text, written.nonempty]
  obtain ⟨bound, hbound⟩ := Nat.exists_eq_succ_of_ne_zero (List.length_pos_iff.mpr hne).ne'
  rw [Expr.parse, hbound]
  exact written.expression_eq_number h bound

end WrittenInteger

/-- A minus sign or none and one or more digits, before a text that goes on neither with a digit nor
with a point and a digit, are the integer that the digits write by position, and exactly that text is
left, if the integer lies between -2^63 and 2^63 - 1.  Any other integer is refused for good where it
begins, with its text in the message.  It is the same wherever the literal stands in an
expression. -/
theorem Expr.parse_writtenInteger (written : WrittenInteger) (rest : List Char)
    (hdigit : Opens (!Char.isDigit ·) rest)
    (hpoint : ∀ more, rest = '.' :: more → Opens (!Char.isDigit ·) more) :
    (-(2 ^ 63) ≤ written.value ∧ written.value ≤ 2 ^ 63 - 1 →
      ∃ lower upper, Expr.parse (written.text ++ rest) =
        .ok (.literal (.number (.integer written.value lower upper)), rest)) ∧
    (¬(-(2 ^ 63) ≤ written.value ∧ written.value ≤ 2 ^ 63 - 1) →
      Expr.parse (written.text ++ rest) =
        .error ⟨true, written.text ++ rest, .numberOutOfRange (String.ofList written.text)⟩) ∧
    ∀ bound, expression (bound + 1) (written.text ++ rest) =
      Expr.parse (written.text ++ rest) := by
  have hends : written.numeral.EndsBefore rest := ⟨hdigit, fun _ => hpoint⟩
  rw [written.parse_eq_number hends]
  exact ⟨written.number_eq_ok hends, written.number_eq_error hends,
    written.expression_eq_number hends⟩

/-- The least integer, with zeros in front of its digits. -/
def leastInteger : WrittenInteger :=
  ⟨true, ⟨"009223372036854775808".toList, by decide⟩, by decide⟩

/-- One more than the greatest integer. -/
def integerTooLarge : WrittenInteger :=
  ⟨false, ⟨"9223372036854775808".toList, by decide⟩, by decide⟩

/-- The least integer with a point after it, and an integer that is too large by one. -/
theorem Expr.parse_writtenInteger_of_leastInteger :
    leastInteger.value = -(2 ^ 63) ∧ integerTooLarge.value = 2 ^ 63 ∧
    (∃ lower upper, Expr.parse "-009223372036854775808.x".toList =
      .ok (.literal (.number (.integer (-(2 ^ 63)) lower upper)), ['.', 'x'])) ∧
    Expr.parse "9223372036854775808]".toList =
      .error ⟨true, "9223372036854775808]".toList, .numberOutOfRange "9223372036854775808"⟩ := by
  have hleast : leastInteger.value = -(2 ^ 63) := by decide
  have hlarge : integerTooLarge.value = 2 ^ 63 := by decide
  have hpoint : ∀ more, ['.', 'x'] = '.' :: more → Opens (!Char.isDigit ·) more := by
    rintro more ⟨⟩
    simp
  have hread := Expr.parse_writtenInteger leastInteger ['.', 'x'] (by simp) hpoint
  have hrefused := Expr.parse_writtenInteger integerTooLarge [']'] (by simp) nofun
  refine ⟨hleast, hlarge, ?_, ?_⟩
  · rw [hleast] at hread
    exact hread.1 (by decide)
  · exact hrefused.2.1 (by rw [hlarge]; decide)

end Remap
