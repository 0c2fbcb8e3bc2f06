import Remap.Expression.Parser
import Remap.Proofs.Spelling

/-!
Lists in brackets.  Each item has white space around it, and the list is read item by item if every
item is read up to the first character that cannot belong to it.
-/

namespace Remap

open Remap.Parser Remap.Expr.Grammar

variable {α : Type}

/-- The characters that end an expression: none of them goes on with a number, a word, a path or a
call. -/
def isDelimiter (c : Char) : Bool :=
  !isSegmentChar c && c ≠ '.' && c ≠ '('

def isClosing (c : Char) : Bool :=
  c = ']' || c = '}' || c = ')'

/-- White space on both sides of an item. -/
structure Around where
  before : Padding
  after : Padding

/-- An item of a list: its text with the white space around it, and what it means. -/
structure Piece (α : Type) where
  around : Around
  core : List Char
  value : α

namespace Piece

def text (piece : Piece α) : List Char :=
  piece.around.before.chars ++ (piece.core ++ piece.around.after.chars)

/-- The items after the first one, each with its comma. -/
def moreText : List (Piece α) → List Char
  | [] => []
  | piece :: rest => ',' :: (piece.text ++ moreText rest)

/-- The items of a list, or the white space of an empty one. -/
def listText (gap : Padding) : List (Piece α) → List Char
  | [] => gap.chars
  | first :: rest => first.text ++ moreText rest

/-- The item is read to its end if a delimiter follows. -/
structure ReadBy (piece : Piece α) (item : Parser α) : Prop where
  opens : ∀ rest, Opens (!isSpaceTabOrBreak ·) (piece.core ++ rest)
  reads : ∀ {rest}, Opens isDelimiter rest → item (piece.core ++ rest) = .ok (piece.value, rest)

theorem length_le_moreText (pieces : List (Piece α)) :
    pieces.length ≤ (moreText pieces).length := by
  induction pieces with
  | nil => exact Nat.le_refl 0
  | cons piece rest ih =>
      simp only [moreText, List.length_cons, List.length_append]
      omega

theorem length_core_le_moreText {pieces : List (Piece α)} {piece : Piece α} (h : piece ∈ pieces) :
    piece.core.length ≤ (moreText pieces).length := by
  induction pieces with
  | nil => cases h
  | cons first rest ih =>
      simp only [moreText, text, List.length_cons, List.length_append]
      rcases List.mem_cons.mp h with rfl | hrest
      · omega
      · have hlength := ih hrest
        omega

theorem length_core_le_listText (gap : Padding) {pieces : List (Piece α)} {piece : Piece α}
    (h : piece ∈ pieces) : piece.core.length ≤ (listText gap pieces).length := by
  cases pieces with
  | nil => cases h
  | cons first rest =>
      simp only [listText, text, List.length_append]
      rcases List.mem_cons.mp h with rfl | hrest
      · omega
      · have hlength := length_core_le_moreText hrest
        omega

end Piece

namespace Parser

variable {item : Parser α} {rest : List Char}

theorem isDelimiter_of_isSpaceTabOrBreak {c : Char} (h : isSpaceTabOrBreak c = true) :
    isDelimiter c = true := by
  simp only [isSpaceTabOrBreak, Bool.or_eq_true, decide_eq_true_eq] at h
  rcases h with ((rfl | rfl) | rfl) | rfl <;> decide

theorem isDelimiter_of_isClosing {c : Char} (h : isClosing c = true) : isDelimiter c = true := by
  simp only [isClosing, Bool.or_eq_true, decide_eq_true_eq] at h
  rcases h with (rfl | rfl) | rfl <;> decide

theorem comma_read (after before : Padding) (h : Opens (!isSpaceTabOrBreak ·) rest) :
    comma (after.chars ++ ',' :: (before.chars ++ rest)) = .ok ((), rest) := by
  have hopens : Opens (!isSpaceTabOrBreak ·) (',' :: (before.chars ++ rest)) := by
    simp [isSpaceTabOrBreak]
  have hafter := blanksAndBreaks_append after hopens
  have hbefore := blanksAndBreaks_append before h
  rw [comma, bind_of_ok hafter, bind_of_ok (char_cons ',' _), bind_of_ok hbefore]
  rfl

/-- A closing bracket is neither white space nor a comma. -/
theorem opens_closing {closing : Char} (h : isClosing closing = true) (rest : List Char) :
    Opens (!isSpaceTabOrBreak ·) (closing :: rest) ∧ Opens (· ≠ ',') (closing :: rest) := by
  simp only [isClosing, Bool.or_eq_true, decide_eq_true_eq] at h
  rcases h with (rfl | rfl) | rfl <;> simp [isSpaceTabOrBreak]

theorem comma_misses (after : Padding) {closing : Char} (h : isClosing closing = true)
    (rest : List Char) :
    Misses comma (after.chars ++ closing :: rest) := by
  obtain ⟨hblank, hcomma⟩ := opens_closing h rest
  rw [Misses, comma, bind_of_ok (blanksAndBreaks_append after hblank)]
  exact (char_misses hcomma).bind _

/-- A padded closing bracket, or a padded comma and more items, ends the item before. -/
theorem opens_moreText (after : Padding) (pieces : List (Piece α)) {closing : Char}
    (h : isClosing closing = true) (rest : List Char) :
    Opens isDelimiter (after.chars ++ (Piece.moreText pieces ++ closing :: rest)) := by
  refine (after.opens.mono fun c hc => isDelimiter_of_isSpaceTabOrBreak hc).append ?_
  cases pieces with
  | nil => simpa [Piece.moreText] using isDelimiter_of_isClosing h
  | cons piece pieces =>
      rw [Piece.moreText, List.cons_append, Opens.cons_iff]
      decide

theorem separatedUpTo_moreText {pieces : List (Piece α)}
    (hread : ∀ piece ∈ pieces, piece.ReadBy item) {closing : Char} (hclosing : isClosing closing = true) (after : Padding) {bound : Nat}
    (hbound : pieces.length ≤ bound) (rest : List Char) :
    ∃ last : Padding,
      separatedUpTo comma item bound
          (after.chars ++ (Piece.moreText pieces ++ closing :: rest)) =
        .ok (pieces.map Piece.value, last.chars ++ closing :: rest) := by
  induction pieces generalizing after bound with
  | nil =>
      refine ⟨after, ?_⟩
      obtain ⟨failure, herror, hfree⟩ := comma_misses after hclosing rest
      cases bound with
      | zero => rfl
      | succ bound =>
          simp [separatedUpTo, Piece.moreText, herror, hfree]
  | cons piece pieces ih =>
      obtain ⟨bound, rfl⟩ : ∃ smaller, bound = smaller + 1 :=
        ⟨bound - 1, by simp only [List.length_cons] at hbound; omega⟩
      have hpiece : piece.ReadBy item := hread piece List.mem_cons_self
      have hmore : pieces.length ≤ bound := by
        simp only [List.length_cons] at hbound
        omega
      have hrest : ∀ other ∈ pieces, other.ReadBy item := fun other hother =>
        hread other (List.mem_cons_of_mem piece hother)
      obtain ⟨last, hlast⟩ := ih hrest piece.around.after hmore
      have hcomma := comma_read after piece.around.before (hpiece.opens
        (piece.around.after.chars ++ (Piece.moreText pieces ++ closing :: rest)))
      have hitem := hpiece.reads (opens_moreText piece.around.after pieces hclosing rest)
      refine ⟨last, ?_⟩
      simp only [Piece.moreText, Piece.text, List.cons_append, List.append_assoc, separatedUpTo,
        hcomma, hitem, hlast, List.map_cons]

/-- From its first item on, a list is read up to the white space before its closing bracket. -/
theorem separated_moreText {first : Piece α} {pieces : List (Piece α)}
    (hread : ∀ piece ∈ first :: pieces, piece.ReadBy item) {closing : Char}
    (hclosing : isClosing closing = true) (rest : List Char) :
    ∃ last : Padding,
      separated comma item
          (first.core ++ (first.around.after.chars ++ (Piece.moreText pieces ++ closing :: rest))) =
        .ok (first.value :: pieces.map Piece.value, last.chars ++ closing :: rest) := by
  rw [List.forall_mem_cons] at hread
  have hitem := hread.1.reads (opens_moreText first.around.after pieces hclosing rest)
  have hbound : pieces.length ≤
      (first.around.after.chars ++ (Piece.moreText pieces ++ closing :: rest)).length := by
    have hlength := Piece.length_le_moreText pieces
    simp only [List.length_append]
    omega
  obtain ⟨last, hlast⟩ :=
    separatedUpTo_moreText hread.2 hclosing first.around.after hbound rest
  exact ⟨last, by simp only [separated, hitem, hlast]⟩

/-- A list in brackets is read to its end. -/
theorem bracketed_listText {pieces : List (Piece α)} (hread : ∀ piece ∈ pieces, piece.ReadBy item)
    (opening : Char) {closing : Char} (hclosing : isClosing closing = true)
    (hmisses : Misses item (closing :: rest)) (gap : Padding) :
    bracketed opening closing item (opening :: (Piece.listText gap pieces ++ closing :: rest)) =
      .ok (pieces.map Piece.value, rest) := by
  have hblank := (opens_closing hclosing rest).1
  have hclose : commit (char closing) (closing :: rest) = .ok ((), rest) :=
    commit_of_ok (char_cons closing rest)
  rw [bracketed, bind_of_ok (char_cons opening _)]
  cases pieces with
  | nil =>
      obtain ⟨failure, herror, hfree⟩ := hmisses
      have hitems : separated comma item (closing :: rest) = .ok ([], closing :: rest) := by
        simp [separated, herror, hfree]
      have htrail : blanksAndBreaks (closing :: rest) = .ok ([], closing :: rest) :=
        blanksAndBreaks_append ⟨[], rfl⟩ hblank
      rw [Piece.listText, bind_of_ok (blanksAndBreaks_append gap hblank), bind_of_ok hitems,
        bind_of_ok htrail, bind_of_ok hclose]
      rfl
  | cons first pieces =>
      have hfirst : first.ReadBy item := hread first List.mem_cons_self
      have hlead := blanksAndBreaks_append first.around.before (hfirst.opens
        (first.around.after.chars ++ (Piece.moreText pieces ++ closing :: rest)))
      obtain ⟨last, hitems⟩ := separated_moreText hread hclosing rest
      simp only [Piece.listText, Piece.text, List.append_assoc]
      rw [bind_of_ok hlead, bind_of_ok hitems, bind_of_ok (blanksAndBreaks_append last hblank),
        bind_of_ok hclose]
      rfl

end Parser

end Remap
