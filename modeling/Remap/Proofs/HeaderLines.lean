import Remap.Proofs.MovedPlans
import Remap.Proofs.Spacing

/-!
Lines before a mapping.  Blank lines and comments before a mapping are skipped before anything else
is read, so that they only move what is recorded, in a plan or in an error, down by as many lines.
-/

namespace Remap

open Remap.Parser

variable {ε : Type}

namespace Parser

/-- Space is always skipped, however far it goes. -/
theorem exists_skipsTo (text : List Char) : ∃ rest, SkipsTo text rest := by
  have hpiece : Recovers gapPiece :=
    (token_recovers .blanks isSpaceOrTab).orElse (comment_recovers.orElse lineEnd_recovers)
  obtain ⟨pieces, rest, hpieces⟩ := hpiece.exists_many text
  exact ⟨rest, pieces, hpieces⟩

end Parser

/-- The text of lines that hold no statement. -/
def headerText (header : List LineTail) : List Char :=
  header.flatMap LineTail.text

theorem endsLines_headerText (header : List LineTail) : EndsLines (headerText header) := by
  rcases List.eq_nil_or_concat header with rfl | ⟨front, tail, rfl⟩
  · exact nofun
  · intro c hc
    have hend : (headerText (front ++ [tail])).getLast? = some '\n' := by
      obtain ⟨blanks, comment, lineEnd⟩ := tail
      rw [headerText, List.flatMap_append, List.flatMap_singleton, LineTail.text,
        ← List.append_assoc, ← List.append_assoc]
      cases lineEnd <;> simp [LineEnd.text]
    rw [List.concat_eq_append, hend] at hc
    exact (Option.some.inj hc).symm

theorem TextOf.count_lineFeed {inClass : Char → Bool} (text : TextOf inClass)
    (h : inClass '\n' = false) : text.chars.count '\n' = 0 := by
  refine List.count_eq_zero.mpr fun hmem => ?_
  rw [text.of_mem hmem] at h
  cases h

theorem LineTail.count_lineFeed (tail : LineTail) : tail.text.count '\n' = 1 := by
  have hblanks := tail.blanks.count_lineFeed (by decide)
  have hcomment : (commentText tail.comment).count '\n' = 0 := by
    cases tail.comment with
    | none => rfl
    | some comment => simpa [commentText] using comment.count_lineFeed (by decide)
  have hend : tail.lineEnd.text.count '\n' = 1 := by cases tail.lineEnd <;> rfl
  rw [text, List.count_append, List.count_append, hblanks, hcomment, hend]

theorem count_headerText (header : List LineTail) :
    (headerText header).count '\n' = header.length := by
  induction header with
  | nil => rfl
  | cons tail header ih =>
      rw [headerText] at ih
      rw [headerText, List.flatMap_cons, List.count_append, ih, tail.count_lineFeed,
        List.length_cons, Nat.add_comm]

theorem blankLines_headerText (header : List LineTail) (source : List Char) :
    blankLines (headerText header ++ source) = blankLines source := by
  obtain ⟨rest, hrest⟩ := exists_skipsTo source
  rw [blankLines_of_skipsTo hrest]
  refine blankLines_of_skipsTo ?_
  induction header with
  | nil => exact hrest
  | cons line header ih =>
      rw [headerText, List.flatMap_cons, List.append_assoc]
      exact SkipsTo.lineTail line ih

/-- A program is read as if the lines before it were not there. -/
theorem Item.program_headerText (query : Parser ε) (header : List LineTail) (source : List Char) :
    program query (headerText header ++ source) = program query source := by
  rw [program, bind_apply, bind_apply, blankLines_headerText]

namespace Plan

/-- Lines without a statement before a mapping move its plan or its error down. -/
theorem parseWith_headerText {query : Parser ε} (hquery : ∀ limit, Confined limit query)
    (file : Option String) (header : List LineTail) (source : List Char) :
    parseWith query file (headerText header ++ source) =
      ((parseWith query file source).map (Plan.movedDown header.length)).mapError
        (ParseError.movedDown header.length) := by
  have hends := endsLines_headerText header
  have hwithin := Item.program_within (hquery source.length) source (Nat.le_refl _)
  rw [parseWith, parseWith, Item.program_headerText]
  cases hprogram : Item.program query source with
  | ok result =>
      rw [hprogram] at hwithin
      refine congrArg Except.ok (ofItems_movedDown fun place hplace => ?_)
      rw [LineIndex.locateRemaining_append hends source (hwithin.2 place hplace), count_headerText]
  | error failure =>
      rw [hprogram] at hwithin
      simp only [LineIndex.locateRemaining_append hends source hwithin, count_headerText]
      rfl

/-- Lines before a source, each of spaces and tabs and perhaps a comment, change neither whether it
parses nor anything of the plan or the error but the lines, of which all are larger by the number of
the lines before the source. -/
theorem parse_headerText (file : Option String) (header : List LineTail) (source : List Char) :
    parse file (headerText header ++ source) =
      ((parse file source).map (Plan.movedDown header.length)).mapError
        (ParseError.movedDown header.length) :=
  parseWith_headerText Expr.parse_confined file header source

end Plan

end Remap
