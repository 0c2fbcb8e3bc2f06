import Mathlib.Data.List.Basic
import Mathlib.Data.List.TakeDrop
import Remap.Json.Printer
import Remap.Json.Reader
import Remap.Proofs.ExprForms

/-!
Printed strings and integers are read back.  A string is read character by character, each as it was
escaped; an integer is read by its digits, which fill a significand that never comes to its bound.
Neither reading goes beyond what was printed.
-/

namespace Remap.Json

open Remap.Parser
open Remap.Expr.Grammar (digitsOf isDigit_of_isDelimiter)

theorem hexValue?_hexDigit (n : Nat) : hexValue? (hexDigit n) = some (n % 16) := by
  have hall : ∀ digit < 16, hexValue? (Nat.digitChar digit) = some digit := by decide
  exact hall (n % 16) (Nat.mod_lt n (by decide))

/-- Two hexadecimal digits are enough for a control character. -/
theorem codeUnit?_of_control {c : Char} (h : c.toNat < 0x20) :
    codeUnit? '0' '0' (hexDigit (c.toNat / 16)) (hexDigit c.toNat) = some c.toNat := by
  have hzero : hexValue? '0' = some 0 := by decide
  have hvalue : c.toNat / 16 % 16 * 16 + c.toNat % 16 = c.toNat := by omega
  simp [codeUnit?, hzero, hexValue?_hexDigit, hvalue]

theorem readChars_letter {letter c : Char} (hescape : simpleEscape? letter = some c)
    (hletter : letter ≠ 'u') (rest : List Char) :
    readChars ('\\' :: letter :: rest) =
      (readChars rest).map fun (tail, rest) => (c :: tail, rest) := by
  rw [readChars]
  · rw [hescape]
    cases readChars rest <;> rfl
  · rintro a b c d more rfl
    exact absurd rfl hletter

/-- The escape of a control character that has no letter. -/
theorem readChars_control {c : Char} (h : c.toNat < 0x20) (rest : List Char) :
    readChars ('\\' :: 'u' :: '0' :: '0' :: hexDigit (c.toNat / 16) :: hexDigit c.toNat :: rest) =
      (readChars rest).map fun (tail, rest) => (c :: tail, rest) := by
  have hlow : isLowSurrogate c.toNat = false := by
    rw [isLowSurrogate, Bool.and_eq_false_iff, decide_eq_false_iff_not]
    omega
  have hhigh : isHighSurrogate c.toNat = false := by
    rw [isHighSurrogate, Bool.and_eq_false_iff, decide_eq_false_iff_not]
    omega
  rw [readChars, codeUnit?_of_control h]
  simp only [Option.bind_eq_bind, Option.bind_some, hlow, hhigh, Bool.false_eq_true, ↓reduceIte,
    Char.ofNat_toNat]
  cases readChars rest <;> rfl

theorem readChars_plain {c : Char} (hquote : c ≠ '"') (hbackslash : c ≠ '\\')
    (hprinted : ¬c.toNat < 0x20) (rest : List Char) :
    readChars (c :: rest) = (readChars rest).map fun (tail, rest) => (c :: tail, rest) := by
  rw [readChars]
  · rw [if_neg (not_or.mpr ⟨hbackslash, hprinted⟩)]
    cases readChars rest <;> rfl
  · rintro rfl
    exact hquote rfl
  · rintro a b d e more rfl
    exact absurd rfl hbackslash
  · rintro letter more rfl
    exact absurd rfl hbackslash

/-- A character of a string is read as it was escaped, whatever follows. -/
theorem readChars_escapeChar (c : Char) (rest : List Char) :
    readChars (escapeChar c ++ rest) =
      (readChars rest).map fun (tail, rest) => (c :: tail, rest) := by
  fun_cases escapeChar c with
  | case8 _ _ _ _ _ _ _ hcontrol => exact readChars_control hcontrol rest
  | case9 hquote hbackslash _ _ _ _ _ hprinted =>
      exact readChars_plain hquote hbackslash hprinted rest
  | _ => 
    subst_vars
    exact readChars_letter (by decide) (by decide) rest

theorem readChars_escaped (text rest : List Char) :
    readChars (text.flatMap escapeChar ++ '"' :: rest) = some (text, rest) := by
  induction text with
  | nil => rw [List.flatMap_nil, List.nil_append, readChars]
  | cons c text ih =>
      rw [List.flatMap_cons, List.append_assoc, readChars_escapeChar, ih]
      rfl

section

variable {rest : List Char}

theorem spanDigits_toDigits (n : Nat) (h : Opens isDelimiter rest) :
    spanDigits (Nat.toDigits 10 n ++ rest) = (Nat.toDigits 10 n, rest) := by
  have hopens : Opens (!Char.isDigit ·) rest := h.apart isDigit_of_isDelimiter
  have htaken : (Nat.toDigits 10 n ++ rest).takeWhile Char.isDigit = Nat.toDigits 10 n :=
    takeWhile_append_of_opens (digitsOf n) hopens
  have hleft : (Nat.toDigits 10 n ++ rest).dropWhile Char.isDigit = rest :=
    dropWhile_append_of_opens (digitsOf n) hopens
  rw [spanDigits, List.span_eq_takeWhile_dropWhile, htaken, hleft]

theorem readFraction_of_opens (h : Opens isDelimiter rest) :
    readFraction rest = some (none, rest) := by
  have hpoint : Opens (· ≠ '.') rest := h.ne (by decide)
  rw [readFraction]
  rintro more rfl
  simp at hpoint

theorem readExponent_of_opens (h : Opens isDelimiter rest) :
    readExponent rest = some (none, rest) := by
  have hlower : Opens (· ≠ 'e') rest := h.ne (by decide)
  have hupper : Opens (· ≠ 'E') rest := h.ne (by decide)
  cases rest with
  | nil => rfl
  | cons c rest =>
      simp at hlower hupper
      rw [readExponent.eq_def]
      simp [hlower, hupper]

/-- No digit of a number that is not zero stands behind a needless zero. -/
theorem head?_toDigits_ne_zero {n : Nat} (h : n ≠ 0) : (Nat.toDigits 10 n).head? ≠ some '0' := by
  induction n using Nat.strongRecOn with
  | ind n ih =>
      by_cases hdigit : n < 10
      · have hall : ∀ digit < 10, digit ≠ 0 → Nat.digitChar digit ≠ '0' := by decide
        rw [Nat.toDigits_of_lt_base hdigit, List.head?_cons, ne_eq, Option.some.injEq]
        exact hall n hdigit h
      · have hle : 10 ≤ n := Nat.le_of_not_lt hdigit
        rw [Nat.toDigits_of_base_le (by decide) hle,
          List.head?_append_of_ne_nil _ Nat.toDigits_ne_nil]
        exact ih (n / 10) (by omega) (by omega)

theorem no_needless_zero (n : Nat) :
    ¬((Nat.toDigits 10 n).isEmpty = true ∨
      ((Nat.toDigits 10 n).head? = some '0' ∧ 1 < (Nat.toDigits 10 n).length)) := by
  rintro (hempty | ⟨hzero, hlength⟩)
  · exact Nat.toDigits_ne_nil (List.isEmpty_iff.mp hempty)
  · by_cases hn : n = 0
    · rw [hn] at hlength
      exact absurd hlength (by decide)
    · exact head?_toDigits_ne_zero hn hzero

/-- The whole digits of a numeral that ends with them. -/
theorem readNumeral_minus (n : Nat) (h : Opens isDelimiter rest) :
    readNumeral ('-' :: (Nat.toDigits 10 n ++ rest)) =
      some (⟨true, Nat.toDigits 10 n, none, none⟩, rest) := by
  simp only [readNumeral, spanDigits_toDigits n h, no_needless_zero, ↓reduceIte,
    Option.bind_eq_bind, Option.pure_def, readFraction_of_opens h, readExponent_of_opens h,
    Option.bind_some]

/-- A digit comes first where a number is printed. -/
theorem opens_toDigits (n : Nat) (rest : List Char) :
    Opens Char.isDigit (Nat.toDigits 10 n ++ rest) :=
  (digitsOf n).opens.append_of_ne_nil Nat.toDigits_ne_nil rest

theorem readNumeral_toDigits (n : Nat) (h : Opens isDelimiter rest) :
    readNumeral (Nat.toDigits 10 n ++ rest) =
      some (⟨false, Nat.toDigits 10 n, none, none⟩, rest) := by
  have hsign : ∀ text, Nat.toDigits 10 n ++ rest = '-' :: text → False := by
    intro text htext
    have hopens := opens_toDigits n rest
    rw [htext, Opens.cons_iff] at hopens
    cases hopens
  simp only [readNumeral, spanDigits_toDigits n h, no_needless_zero, ↓reduceIte,
    Option.bind_eq_bind, Option.pure_def, readFraction_of_opens h, readExponent_of_opens h,
    Option.bind_some]

theorem le_ofDigitChars (digits : List Char) (start : Nat) :
    start ≤ Nat.ofDigitChars 10 digits start := by
  rw [Nat.ofDigitChars_eq_ofDigitChars_zero]
  have hpow : 0 < 10 ^ digits.length := Nat.pow_pos (by decide)
  exact Nat.le_add_right_of_le (Nat.le_mul_of_pos_left start hpow)

theorem fill_eq_of_lt {digits : List Char} {start : Nat}
    (h : Nat.ofDigitChars 10 digits start < wordBound) :
    fill start digits = (Nat.ofDigitChars 10 digits start, []) := by
  induction digits generalizing start with
  | nil => rfl
  | cons c rest ih =>
      rw [Nat.ofDigitChars_cons, Nat.mul_comm] at h ⊢
      have hnext := Nat.lt_of_le_of_lt (le_ofDigitChars rest _) h
      rw [fill]
      simp only [if_pos hnext]
      exact ih h

theorem fill_toDigits {n : Nat} (h : n < wordBound) : fill 0 (Nat.toDigits 10 n) = (n, []) := by
  have hvalue : Nat.ofDigitChars 10 (Nat.toDigits 10 n) 0 = n := Nat.ofDigitChars_ten_toDigits
  rw [fill_eq_of_lt (hvalue.symm ▸ h), hvalue]

theorem number?_toDigits {n : Nat} (h : n < wordBound) :
    Numeral.number? ⟨false, Nat.toDigits 10 n, none, none⟩ = Number.ofInt? n := by
  simp [Numeral.number?, fill_toDigits h]

theorem number?_minus {n : Nat} (hpos : n ≠ 0) (h : n ≤ signBound) :
    Numeral.number? ⟨true, Nat.toDigits 10 n, none, none⟩ = Number.ofInt? (-n) := by
  have hword : n < wordBound := Nat.lt_of_le_of_lt h (by decide)
  have hint : ¬(n = 0 ∨ signBound < n) := by omega
  simp [Numeral.number?, fill_toDigits hword, hint]

/-- An integer is read as it was printed. -/
theorem readNumber_integerText {value : Int} (lower : -(signBound : Int) ≤ value)
    (upper : value < wordBound) (h : Opens isDelimiter rest) :
    readNumber (integerText value ++ rest) = some (.integer value lower upper, rest) := by
  by_cases hsign : value < 0
  · have hnumber : Numeral.number? ⟨true, Nat.toDigits 10 value.natAbs, none, none⟩ =
        some (.integer value lower upper) := by
      rw [number?_minus (by omega) (by omega), Int.ofNat_natAbs_of_nonpos (by omega), Int.neg_neg,
        Number.ofInt?_eq_some lower upper]
    rw [integerText, if_pos hsign, List.cons_append, readNumber, readNumeral_minus _ h]
    simp only [Option.bind_eq_bind, Option.bind_some, hnumber, Option.pure_def]
  · have hnumber : Numeral.number? ⟨false, Nat.toDigits 10 value.natAbs, none, none⟩ =
        some (.integer value lower upper) := by
      rw [number?_toDigits (by omega), Int.natAbs_of_nonneg (by omega),
        Number.ofInt?_eq_some lower upper]
    rw [integerText, if_neg hsign, readNumber, readNumeral_toDigits _ h]
    simp only [Option.bind_eq_bind, Option.bind_some, hnumber, Option.pure_def]

end

end Remap.Json
