/-!
Lines and columns.  A `LineIndex` is built once for a text and then resolves any number of
character offsets; a line ends at a line feed and nowhere else.
-/

namespace Remap

/-- A place in a text: the line counted from 1, the column as the number of characters between the
start of the line and the place. -/
structure Location where
  line : Nat
  column : Nat
deriving Repr, DecidableEq

/-- The offsets, in ascending order, at which the lines after the first begin. -/
structure LineIndex where
  starts : List Nat
deriving Repr, DecidableEq

namespace LineIndex

/-- The offset after each line feed of a text whose first character is at `offset`. -/
def startsFrom (offset : Nat) : List Char → List Nat
  | [] => []
  | c :: rest =>
      if c = '\n' then (offset + 1) :: startsFrom (offset + 1) rest
      else startsFrom (offset + 1) rest

def ofText (text : List Char) : LineIndex :=
  ⟨startsFrom 0 text⟩

/-- A text without a line feed is one line, the empty text too. -/
def lineCount (index : LineIndex) : Nat :=
  index.starts.length + 1

/-- Resolve a character offset.  Past the end the last line goes on. -/
def locate (index : LineIndex) (offset : Nat) : Location :=
  let passed := index.starts.takeWhile (· ≤ offset)
  { line := passed.length + 1, column := offset - passed.getLastD 0 }

end LineIndex

theorem lineCount_ofText (text : List Char) :
    (LineIndex.ofText text).lineCount = text.count '\n' + 1 := by
  suffices h : ∀ offset, (LineIndex.startsFrom offset text).length = text.count '\n' by
    simp [LineIndex.lineCount, LineIndex.ofText, h]
  induction text with
  | nil => intro offset; rfl
  | cons c rest ih =>
      intro offset
      by_cases hc : c = '\n' <;> simp [LineIndex.startsFrom, hc, ih]

/-- The number of line feeds before an offset, plus one. -/
def lineAt (text : List Char) (offset : Nat) : Nat :=
  (text.take offset).count '\n' + 1

/-- The number of characters before an offset that follow the last line feed before it. -/
def columnAt (text : List Char) (offset : Nat) : Nat :=
  ((text.take offset).reverse.takeWhile (· ≠ '\n')).length

example : (LineIndex.ofText "é = 1\nb".toList).locate 6 = ⟨2, 0⟩ := by decide +kernel

end Remap
