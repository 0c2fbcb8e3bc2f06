import Remap.Proofs.QuotedStrings
import Remap.Proofs.StatementForms

/-!
What has been taken.  The text in front of what a parser leaves is known from its value: a token is
in its class, a name is as it was written, and the space between tokens is made of blanks, comments
and line ends.
-/

namespace Remap

open Remap.Parser

namespace Parser

variable {α β : Type} {p q : Parser α} {text rest : List Char} {value : α}

/-- A result is known by the value that it has. -/
theorem eq_ok_of_toOption {ε δ : Type} {result : Except ε δ} {value : δ}
    (h : result.toOption = some value) : result = .ok value := by
  cases result with
  | ok found => exact congrArg Except.ok (Option.some.inj h)
  | error fault => cases h

/-- A result is known by the error that it has. -/
theorem eq_error_of_match {ε δ : Type} {result : Except ε δ} {fault : ε}
    (h : (match result with
      | .ok _ => none
      | .error found => some found) = some fault) : result = .error fault := by
  cases result with
  | ok value => cases h
  | error found => exact congrArg Except.error (Option.some.inj h)

theorem bind_eq_ok {next : α → Parser β} {result : β × List Char}
    (h : (p >>= next) text = .ok result) :
    ∃ value rest, p text = .ok (value, rest) ∧ next value rest = .ok result := by
  rw [bind_apply] at h
  split at h
  · rename_i value rest hvalue
    exact ⟨value, rest, hvalue, h⟩
  · cases h

theorem bind_eq_error {next : α → Parser β} {failure : Failure}
    (h : (p >>= next) text = .error failure) :
    p text = .error failure ∨
      ∃ value rest, p text = .ok (value, rest) ∧ next value rest = .error failure := by
  rw [bind_apply] at h
  split at h
  · rename_i value rest hvalue
    exact .inr ⟨value, rest, hvalue, h⟩
  · rename_i found hfound
    cases h
    exact .inl hfound

/-- What an alternative fails with, its first form fails with, or its second where the first
misses. -/
theorem orElse_eq_error {failure : Failure} (h : (p <|> q) text = .error failure) :
    p text = .error failure ∨ Misses p text ∧ q text = .error failure := by
  change Parser.orElse p q text = _ at h
  rw [Parser.orElse] at h
  split at h
  · cases h
  · rename_i first hfirst
    split at h
    · cases h
      exact .inl hfirst
    · rename_i hfree
      have hmisses : Misses p text := ⟨first, hfirst, by simpa using hfree⟩
      split at h
      · cases h
      · rename_i second hsecond
        rw [Failure.furthest] at h
        split at h
        · cases h
          exact .inr ⟨hmisses, hsecond⟩
        · split at h <;> cases h
          · exact .inr ⟨hmisses, hsecond⟩
          · exact .inl hfirst

theorem commit_eq_error {failure : Failure} (h : commit p text = .error failure) :
    ∃ found, p text = .error found ∧ failure = { found with committed := true } := by
  rw [commit] at h
  split at h
  · cases h
  · rename_i found hfound
    cases h
    exact ⟨found, hfound, rfl⟩

theorem commit_eq_ok {result : α × List Char} (h : commit p text = .ok result) :
    p text = .ok result := by
  rw [commit] at h
  split at h
  · rename_i found hfound
    rw [hfound, h]
  · cases h

theorem expect_eq_ok {label : String} {result : α × List Char}
    (h : expect label p text = .ok result) : p text = .ok result := by
  rw [expect] at h
  split at h
  · rename_i found hfound
    rw [hfound, h]
  · split at h <;> cases h

theorem peek_eq_ok (h : peek p text = .ok (value, rest)) :
    rest = text ∧ ∃ after, p text = .ok (value, after) := by
  rw [peek] at h
  split at h
  · rename_i found after hfound
    cases h
    exact ⟨rfl, after, hfound⟩
  · cases h

theorem optional_eq_ok {found : Option α} (h : optional p text = .ok (found, rest)) :
    (∃ value, found = some value ∧ p text = .ok (value, rest)) ∨
      found = none ∧ rest = text ∧ Misses p text := by
  rw [optional] at h
  split at h
  · rename_i value after hvalue
    cases h
    exact .inl ⟨value, rfl, hvalue⟩
  · rename_i failure hfailure
    split at h
    · cases h
    · rename_i hfree
      cases h
      exact .inr ⟨rfl, rfl, failure, hfailure, by simpa using hfree⟩

theorem keyword_eq_ok {word : String} {u : Unit} (h : keyword word text = .ok (u, rest)) :
    text = word.toList ++ rest := by
  rw [keyword] at h
  split at h
  · rename_i found hfound
    cases h
    exact after?_eq_some.mp hfound
  · cases h

theorem char_eq_ok {c : Char} {u : Unit} (h : char c text = .ok (u, rest)) : text = c :: rest := by
  rw [char.eq_def] at h
  split at h
  · cases h
  · split at h
    · rename_i heq
      cases h
      rw [heq]
    · cases h

section

variable {inClass : Char → Bool} {chars : List Char}

/-- A text is its longest run of a class and a rest that does not go on with it. -/
theorem exists_textOf (inClass : Char → Bool) (text : List Char) :
    ∃ taken : TextOf inClass, taken.chars = text.takeWhile inClass ∧
      text = taken.chars ++ text.dropWhile inClass ∧
      Opens (!inClass ·) (text.dropWhile inClass) := by
  refine ⟨⟨text.takeWhile inClass, List.all_takeWhile⟩, rfl,
    List.takeWhile_append_dropWhile.symm, ?_⟩
  intro c hc
  have hhead := List.head?_dropWhile_not inClass text
  rw [Option.mem_def.mp hc] at hhead
  simpa using hhead

theorem run_eq_ok (h : run inClass text = .ok (chars, rest)) :
    ∃ taken : TextOf inClass, text = taken.chars ++ rest ∧ Opens (!inClass ·) rest := by
  rw [run] at h
  cases h
  obtain ⟨taken, -, htext, hopens⟩ := exists_textOf inClass text
  exact ⟨taken, htext, hopens⟩

theorem token_eq_ok {kind : TokenClass} (h : token kind inClass text = .ok (chars, rest)) :
    ∃ taken : TextOf inClass, taken.chars = chars ∧ taken.chars ≠ [] ∧
      text = taken.chars ++ rest ∧ Opens (!inClass ·) rest := by
  obtain ⟨taken, hchars, htext, hopens⟩ := exists_textOf inClass text
  rw [token] at h
  split at h
  · cases h
  · rename_i c more hmore
    cases h
    rw [hmore] at hchars
    exact ⟨taken, hchars, by simp [hchars], htext, hopens⟩

end

theorem name_eq_ok {string : String} (h : name text = .ok (string, rest)) :
    ∃ written : WrittenName, written.name = string ∧ text = written.text ++ rest ∧
      written.EndsBefore rest := by
  rcases orElse_eq_ok h with hquoted | ⟨-, hbare⟩
  · obtain ⟨chars, rfl, rfl⟩ := quoted_eq_ok hquoted
    refine ⟨.quoted chars, rfl, ?_, trivial⟩
    simp [WrittenName.text]
  · obtain ⟨chars, middle, htoken, hdone⟩ := bind_eq_ok hbare
    obtain ⟨taken, rfl, hne, htext, hopens⟩ := token_eq_ok htoken
    cases hdone
    exact ⟨.bare taken hne, rfl, htext, hopens⟩

theorem comment_eq_ok {taken : List Char} (h : comment text = .ok (taken, rest)) :
    ∃ body : Comment, (∃ lineEnd : LineEnd, text = '#' :: (body.chars ++ (lineEnd.text ++ rest))) ∨
      text = '#' :: body.chars ∧ rest = [] := by
  rw [comment.eq_def] at h
  split at h
  · rename_i body
    obtain ⟨chars, -, htext, -⟩ := exists_textOf isLineText body
    simp only at h
    split at h
    · rename_i hrest
      cases h
      rw [hrest, List.append_nil] at htext
      exact ⟨chars, .inr ⟨by rw [htext], rfl⟩⟩
    · rename_i after hrest
      cases h
      rw [hrest] at htext
      exact ⟨chars, .inl ⟨.feed, by rw [htext]; rfl⟩⟩
    · rename_i after hrest
      cases h
      rw [hrest] at htext
      exact ⟨chars, .inl ⟨.returnFeed, by rw [htext]; rfl⟩⟩
    · cases h
  · cases h

theorem lineEnd_eq_ok {taken : List Char} (h : lineEnd text = .ok (taken, rest)) :
    ∃ lineEnd : LineEnd, text = lineEnd.text ++ rest := by
  rw [lineEnd.eq_def] at h
  split at h
  · cases h
    exact ⟨.feed, rfl⟩
  · cases h
    exact ⟨.returnFeed, rfl⟩
  · cases h

/-- A line break ends its line or, as a comment, the text. -/
theorem lineBreak_eq_ok {taken : List Char} (h : lineBreak text = .ok (taken, rest)) :
    (∃ comment lineEnd, text = commentText comment ++ (LineEnd.text lineEnd ++ rest)) ∨
      ∃ comment, text = commentText (some comment) ∧ rest = [] := by
  rcases orElse_eq_ok h with hcomment | ⟨-, hend⟩
  · obtain ⟨body, ⟨lineEnd, htext⟩ | ⟨htext, hrest⟩⟩ := comment_eq_ok hcomment
    · exact .inl ⟨some body, lineEnd, htext⟩
    · exact .inr ⟨body, htext, hrest⟩
  · obtain ⟨lineEnd, htext⟩ := lineEnd_eq_ok hend
    exact .inl ⟨none, lineEnd, htext⟩

end Parser

/-- Two texts of a class after each other. -/
def TextOf.append {inClass : Char → Bool} (first second : TextOf inClass) : TextOf inClass where
  chars := first.chars ++ second.chars
  all := by rw [List.all_append, first.all, second.all, Bool.and_self]

namespace Gap

/-- A gap after more blanks. -/
def afterBlanks (blanks : Blanks) : Gap → Gap
  | ⟨[], indent⟩ => ⟨[], blanks.append indent⟩
  | ⟨line :: lines, indent⟩ => ⟨{ line with blanks := blanks.append line.blanks } :: lines, indent⟩

theorem text_afterBlanks (blanks : Blanks) (gap : Gap) :
    (gap.afterBlanks blanks).text = blanks.chars ++ gap.text := by
  obtain ⟨lines, indent⟩ := gap
  cases lines with
  | nil => rfl
  | cons line lines => simp [afterBlanks, text, LineTail.text, TextOf.append]

/-- A gap after one more line. -/
def afterLine (tail : LineTail) (gap : Gap) : Gap :=
  { gap with lines := tail :: gap.lines }

theorem text_afterLine (tail : LineTail) (gap : Gap) :
    (gap.afterLine tail).text = tail.text ++ gap.text := by
  simp [afterLine, text]

end Gap

/-- The space that a text has before something is a gap, or the text ends with it. -/
def IsSpace (text rest : List Char) : Prop :=
  (∃ gap : Gap, text = gap.text ++ rest) ∨ ∃ ending : Ending, text = ending.text ∧ rest = []

namespace IsSpace

variable {text rest : List Char}

theorem afterBlanks (h : IsSpace text rest) (blanks : Blanks) :
    IsSpace (blanks.chars ++ text) rest := by
  rcases h with ⟨gap, rfl⟩ | ⟨ending, rfl, rfl⟩
  · exact .inl ⟨gap.afterBlanks blanks, by rw [gap.text_afterBlanks, List.append_assoc]⟩
  · refine .inr ⟨{ ending with gap := ending.gap.afterBlanks blanks }, ?_, rfl⟩
    rw [Ending.text, Ending.text, ending.gap.text_afterBlanks, List.append_assoc]

theorem afterLine (h : IsSpace text rest) (tail : LineTail) : IsSpace (tail.text ++ text) rest := by
  rcases h with ⟨gap, rfl⟩ | ⟨ending, rfl, rfl⟩
  · exact .inl ⟨gap.afterLine tail, by rw [gap.text_afterLine, List.append_assoc]⟩
  · refine .inr ⟨{ ending with gap := ending.gap.afterLine tail }, ?_, rfl⟩
    rw [Ending.text, Ending.text, ending.gap.text_afterLine, List.append_assoc]

/-- Before something there is a gap. -/
theorem exists_gap (h : IsSpace text rest) (hne : rest ≠ []) :
    ∃ gap : Gap, text = gap.text ++ rest :=
  h.resolve_right fun ⟨_, _, hnil⟩ => hne hnil

end IsSpace

namespace Parser

variable {text rest : List Char}

theorem isSpace_of_manyUpTo {bound : Nat} {pieces : List (List Char)}
    (h : manyUpTo gapPiece bound text = .ok (pieces, rest)) : IsSpace text rest := by
  have hdone (text : List Char) : IsSpace text text := .inl ⟨⟨[], .empty⟩, rfl⟩
  induction bound generalizing text pieces with
  | zero =>
      cases h
      exact hdone _
  | succ bound ih =>
      rw [manyUpTo_succ] at h
      obtain ⟨found, middle, hfound, hmore⟩ := bind_eq_ok h
      rcases optional_eq_ok hfound with ⟨piece, rfl, hpiece⟩ | ⟨rfl, rfl, -⟩
      · obtain ⟨others, last, hothers, hlast⟩ := bind_eq_ok hmore
        cases hlast
        have hspace := ih hothers
        rcases orElse_eq_ok hpiece with hblanks | ⟨-, hbreak⟩
        · obtain ⟨blanks, -, -, rfl, -⟩ := token_eq_ok hblanks
          exact hspace.afterBlanks blanks
        · rcases lineBreak_eq_ok hbreak with ⟨comment, lineEnd, rfl⟩ | ⟨comment, rfl, rfl⟩
          · have hline := hspace.afterLine ⟨.empty, comment, lineEnd⟩
            simpa [LineTail.text, TextOf.empty] using hline
          · -- The comment has taken the rest of the text.
            rw [manyUpTo_of_misses gapPiece_repeatable.atEnd] at hothers
            cases hothers
            exact .inr ⟨⟨⟨[], .empty⟩, some comment⟩, rfl, rfl⟩
      · cases hmore
        exact hdone _

/-- What is skipped before the next statement is space. -/
theorem blankLines_eq_ok {u : Unit} (h : blankLines text = .ok (u, rest)) : IsSpace text rest := by
  obtain ⟨pieces, middle, hpieces, hdone⟩ := bind_eq_ok h
  cases hdone
  exact isSpace_of_manyUpTo hpieces

end Parser

end Remap
