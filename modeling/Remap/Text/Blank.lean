/-!
Blank text.  A character is blank when it has the White_Space property of Unicode, which is more
than the ASCII blanks and less than every invisible character: U+200B is not blank.
-/

namespace Remap

/-- The White_Space property. -/
def isBlank (c : Char) : Bool :=
  let n := c.toNat
  (0x09 ≤ n && n ≤ 0x0D) || n == 0x20 || n == 0x85 || n == 0xA0 || n == 0x1680 ||
    (0x2000 ≤ n && n ≤ 0x200A) || n == 0x2028 || n == 0x2029 || n == 0x202F || n == 0x205F ||
    n == 0x3000

/-- A text of blank characters only; the empty one is one of them. -/
def isBlankText (text : List Char) : Bool :=
  text.all isBlank

theorem isBlank_of_isWhitespace {c : Char} (h : c.isWhitespace = true) : isBlank c = true := by
  simp only [Char.isWhitespace, Bool.or_eq_true, decide_eq_true_eq] at h
  rcases h with ((rfl | rfl) | rfl) | rfl <;> decide

example : isBlank '\u200B' = false := by decide

example : isBlank '\u3000' = true := by decide

end Remap
