import Remap.Yaml.Cursor

/-!
Spacing inside a scalar.  Between two words on one line the blanks are kept.  Where a scalar goes on
over a line break, the blanks around the break go and the break is folded: one line feed is a space,
and of several the first is nothing and the others stay.
-/

namespace Remap.Yaml

/-- What stands between two words of a scalar. -/
inductive Spacing
  | blanks (run : List Char)
  /-- The first break, unless a backslash took it away, and the breaks after it. -/
  | breaks (first : Option Char) (more : List Char)
deriving Repr, DecidableEq

namespace Spacing

def empty : Spacing := .blanks []

/-- The spacing of a break that a backslash took away. -/
def joined : Spacing := .breaks none []

/-- The spacing with one more blank or break. -/
def push : Spacing → Char → Spacing
  | .blanks run, c => if isBreak c then .breaks (some c) [] else .blanks (run ++ [c])
  | .breaks first more, c => .breaks first (if isBreak c then more ++ [c] else more)

/-- The scalar has gone on to another line. -/
def isBroken : Spacing → Bool
  | .blanks _ => false
  | .breaks _ _ => true

/-- The text that the spacing stands for. -/
def text : Spacing → List Char
  | .blanks run => run
  | .breaks (some '\n') [] => [' ']
  | .breaks (some '\n') more => more
  | .breaks first more => first.toList ++ more

/-- The spacing that characters write. -/
def ofChars (chars : List Char) : Spacing :=
  chars.foldl push empty

/-- Blanks alone are kept. -/
theorem text_foldl_push_of_blanks {chars : List Char} (h : chars.all (!isBreak ·) = true)
    (run : List Char) : (chars.foldl push (.blanks run)).text = run ++ chars := by
  induction chars generalizing run with
  | nil => simp [text]
  | cons c rest ih =>
      simp only [List.all_cons, Bool.and_eq_true, Bool.not_eq_true'] at h
      simp only [List.foldl_cons, push, h.1, Bool.false_eq_true, ↓reduceIte]
      rw [ih (by simpa using h.2)]
      simp

theorem text_ofChars_of_blanks {chars : List Char} (h : chars.all (!isBreak ·) = true) :
    (ofChars chars).text = chars := by
  simpa [ofChars, empty] using text_foldl_push_of_blanks h []

example : (ofChars "  \n\t ".toList).text = [' '] := by decide

example : (ofChars " \n \n\t\n ".toList).text = ['\n', '\n'] := by decide

example : (ofChars "\u2028\n".toList).text = ['\u2028', '\n'] := by decide

end Spacing

end Remap.Yaml
