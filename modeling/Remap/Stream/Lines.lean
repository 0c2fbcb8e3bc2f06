import Remap.Text.Utf8

/-!
Lines of a byte stream.  A line runs up to and with its line feed; bytes after the last line feed
are a line too, if there are any.  A line loses its line feed, together with one carriage return
before it, before it is read as UTF-8; a carriage return without a line feed stays.
-/

namespace Remap

/-- The byte that ends a line. -/
def lineFeed : UInt8 := 10

def carriageReturn : UInt8 := 13

/-- The lines of a byte text, each with its line feed. -/
def splitLines : Bytes → List Bytes
  | [] => []
  | byte :: rest =>
      if byte = lineFeed then [byte] :: splitLines rest
      else
        match splitLines rest with
        | [] => [[byte]]
        | line :: lines => (byte :: line) :: lines

/-- A line without its line feed and without the carriage return before that. -/
def dropLineEnd : Bytes → Bytes
  | [] => []
  | byte :: rest =>
      if rest = [] then if byte = lineFeed then [] else [byte]
      else if byte = carriageReturn ∧ rest = [lineFeed] then []
      else byte :: dropLineEnd rest

theorem dropLineEnd_of_not_mem {line : Bytes} (h : lineFeed ∉ line) : dropLineEnd line = line := by
  induction line with
  | nil => rfl
  | cons byte rest ih =>
      simp only [List.mem_cons, not_or] at h
      rw [dropLineEnd]
      split
      · rename_i hrest
        simp [Ne.symm h.1, hrest]
      · rw [if_neg fun hpair => h.2 (by simp [hpair.2]), ih h.2]

theorem dropLineEnd_append_lineFeed {line : Bytes} (h : line.getLast? ≠ some carriageReturn) :
    dropLineEnd (line ++ [lineFeed]) = line := by
  induction line with
  | nil => rfl
  | cons byte rest ih =>
      rw [List.cons_append, dropLineEnd, if_neg (by simp)]
      cases rest with
      | nil => simp_all [dropLineEnd]
      | cons second rest =>
          rw [if_neg (by simp), ih (by simpa using h)]

theorem flatten_splitLines (bytes : Bytes) : (splitLines bytes).flatten = bytes := by
  induction bytes with
  | nil => rfl
  | cons byte rest ih =>
      rw [splitLines]
      split
      · simp [ih]
      · split
        · rename_i hnil
          rw [hnil] at ih
          simp [← ih]
        · rename_i line lines hlines
          rw [hlines] at ih
          simp [← ih]

example : dropLineEnd [97, carriageReturn, carriageReturn, lineFeed] = [97, carriageReturn] := by
  decide

example : dropLineEnd [97, carriageReturn] = [97, carriageReturn] := by decide

end Remap
