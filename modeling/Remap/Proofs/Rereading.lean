import Remap.Proofs.Spellable
import Remap.Proofs.Taken

/-!
Expressions read again.  What an expression was read from is read as the same expression wherever a
delimiter follows it: an expression does not depend on how the text goes on.
-/

namespace Remap.Expr.Grammar

open Remap.Parser

/-- The text is read as an expression wherever a delimiter follows it. -/
structure Rereads (core : List Char) (value : Expr) : Prop where
  nonempty : core ≠ []
  opens : Opens (!isSpaceTabOrBreak ·) core
  reads : ∀ {bound rest}, core.length ≤ bound → Opens isDelimiter rest →
    expression bound (core ++ rest) = .ok (value, rest)

section

variable {α : Type} {item : Parser α} {P : List Char → α → Prop} {text rest : List Char}
  {closing : Char} {values : List α}

/-- The items after the first one, as pieces of the text. -/
theorem separatedUpTo_eq_ok
    (hitem : ∀ {text value rest}, item text = .ok (value, rest) →
      ∃ core, text = core ++ rest ∧ P core value)
    {bound : Nat} {last : Padding}
    (h : separatedUpTo comma item bound text = .ok (values, last.chars ++ closing :: rest)) :
    ∃ (after : Padding) (pieces : List (Piece α)),
      text = after.chars ++ (Piece.moreText pieces ++ closing :: rest) ∧
        pieces.map Piece.value = values ∧ ∀ piece ∈ pieces, P piece.core piece.value := by
  induction bound generalizing text values with
  | zero =>
      cases h
      exact ⟨last, [], rfl, rfl, List.forall_mem_nil _⟩
  | succ bound ih =>
      rw [separatedUpTo_succ] at h
      obtain ⟨found, middle, hfound, hmore⟩ := bind_eq_ok h
      rcases optional_eq_ok hfound with ⟨value, rfl, hvalue⟩ | ⟨rfl, rfl, -⟩
      · obtain ⟨_, afterComma, hcomma, hread⟩ := bind_eq_ok hvalue
        obtain ⟨others, _, hothers, hdone⟩ := bind_eq_ok hmore
        cases hdone
        obtain ⟨_, beforeSign, hbefore, hsign⟩ := bind_eq_ok hcomma
        obtain ⟨_, afterSign, hchar, hpadding⟩ := bind_eq_ok hsign
        obtain ⟨_, _, hpadding, hend⟩ := bind_eq_ok hpadding
        cases hend
        obtain ⟨after, rfl, -⟩ := run_eq_ok hbefore
        obtain ⟨before, hbeforeItem, -⟩ := run_eq_ok hpadding
        obtain ⟨core, hcore, hP⟩ := hitem hread
        obtain ⟨afterItem, pieces, hpieces, hvalues, hall⟩ := ih hothers
        refine ⟨after, ⟨⟨before, afterItem⟩, core, value⟩ :: pieces, ?_, ?_, ?_⟩
        · rw [char_eq_ok hchar, hbeforeItem, hcore, hpieces]
          simp [Piece.moreText, Piece.text]
        · rw [List.map_cons, hvalues]
        · exact List.forall_mem_cons.mpr ⟨hP, hall⟩
      · cases hmore
        exact ⟨last, [], rfl, rfl, List.forall_mem_nil _⟩

/-- A list in brackets, as pieces of the text. -/
theorem bracketed_eq_ok
    (hitem : ∀ {text value rest}, item text = .ok (value, rest) →
      ∃ core, text = core ++ rest ∧ P core value)
    {opening : Char} (h : bracketed opening closing item text = .ok (values, rest)) :
    ∃ (gap : Padding) (pieces : List (Piece α)),
      text = opening :: (Piece.listText gap pieces ++ closing :: rest) ∧
        pieces.map Piece.value = values ∧ ∀ piece ∈ pieces, P piece.core piece.value := by
  obtain ⟨_, afterOpening, hopening, h⟩ := bind_eq_ok h
  obtain ⟨_, first, hgap, h⟩ := bind_eq_ok h
  obtain ⟨items, last, hitems, h⟩ := bind_eq_ok h
  obtain ⟨_, finish, hlast, h⟩ := bind_eq_ok h
  obtain ⟨_, _, hclosing, h⟩ := bind_eq_ok h
  cases h
  obtain ⟨gap, rfl, hopens⟩ := run_eq_ok hgap
  obtain ⟨lastGap, hlastGap, -⟩ := run_eq_ok hlast
  have hend := char_eq_ok (commit_eq_ok hclosing)
  subst hend
  rw [separated_apply] at hitems
  obtain ⟨found, middle, hfound, hmore⟩ := bind_eq_ok hitems
  rw [char_eq_ok hopening]
  rcases optional_eq_ok hfound with ⟨value, rfl, hvalue⟩ | ⟨rfl, rfl, -⟩
  · obtain ⟨_, _, hhere, hmore⟩ := bind_eq_ok hmore
    cases hhere
    obtain ⟨others, _, hothers, hdone⟩ := bind_eq_ok hmore
    cases hdone
    obtain ⟨core, hcore, hP⟩ := hitem hvalue
    rw [hlastGap] at hothers
    obtain ⟨after, pieces, hpieces, hvalues, hall⟩ := separatedUpTo_eq_ok hitem hothers
    refine ⟨gap, ⟨⟨gap, after⟩, core, value⟩ :: pieces, ?_, ?_, ?_⟩
    · rw [hcore, hpieces]
      simp [Piece.listText, Piece.text]
    · rw [List.map_cons, hvalues]
    · exact List.forall_mem_cons.mpr ⟨hP, hall⟩
  · cases hmore
    refine ⟨gap.append lastGap, [], ?_, rfl, List.forall_mem_nil _⟩
    rw [hlastGap, Piece.listText, TextOf.append, List.append_assoc]

end

theorem numeral_eq_ok {text rest : List Char} {value : Numeral}
    (h : numeral text = .ok (value, rest)) : value.WellFormed ∧ text = value.text ++ rest := by
  obtain ⟨sign, afterSign, hsign, h⟩ := bind_eq_ok h
  obtain ⟨whole, afterWhole, hwhole, h⟩ := bind_eq_ok h
  obtain ⟨fraction, _, hfraction, h⟩ := bind_eq_ok h
  cases h
  obtain ⟨digits, rfl, hne, rfl, -⟩ := token_eq_ok hwhole
  have hnegative : text = (if sign.isSome then ['-'] else []) ++ (digits.chars ++ afterWhole) := by
    rcases optional_eq_ok hsign with ⟨_, rfl, hchar⟩ | ⟨rfl, htext, -⟩
    · exact char_eq_ok hchar
    · exact htext.symm
  rcases optional_eq_ok hfraction with ⟨decimals, rfl, hpoint⟩ | ⟨rfl, rfl, -⟩
  · obtain ⟨_, afterPoint, hchar, htoken⟩ := bind_eq_ok hpoint
    obtain ⟨taken, rfl, hne', htaken, -⟩ := token_eq_ok htoken
    refine ⟨⟨hne, digits.all, ?_⟩, ?_⟩
    · rintro _ ⟨⟩
      exact ⟨hne', taken.all⟩
    · rw [hnegative, char_eq_ok hchar, htaken]
      simp [Numeral.text]
  · refine ⟨⟨hne, digits.all, fun _ hmem => absurd hmem (Option.not_mem_none _)⟩, ?_⟩
    rw [hnegative]
    simp [Numeral.text]

/-- The core of some form is one of an expression. -/
theorem Rereads.of_form {core : List Char} {value : Expr} (hne : core ≠ [])
    (hopens : Opens SpelledExpr.isStart core)
    (hreads : ∀ {bound rest}, core.length ≤ bound + 1 → Opens isDelimiter rest →
      expression (bound + 1) (core ++ rest) = .ok (value, rest)) : Rereads core value where
  nonempty := hne
  opens := hopens.apart SpelledExpr.isSpaceTabOrBreak_of_isStart
  reads {bound rest} hbound hrest := by
    cases bound with
    | zero => exact absurd (List.length_eq_zero_iff.mp (Nat.le_zero.mp hbound)) hne
    | succ bound => exact hreads hbound hrest

variable {text rest : List Char} {value : Expr}

theorem string_rereads (h : string text = .ok (value, rest)) :
    ∃ core, text = core ++ rest ∧ Rereads core value := by
  obtain ⟨chars, after, hquoted, hdone⟩ := bind_eq_ok h
  cases hdone
  obtain ⟨written, rfl, rfl⟩ := quoted_eq_ok hquoted
  refine ⟨'"' :: (written.flatMap WrittenChar.text ++ ['"']), by simp,
    .of_form (List.cons_ne_nil _ _) (by simp [SpelledExpr.isStart]) ?_⟩
  intro bound other _ _
  rw [List.cons_append, List.append_assoc]
  exact expression_of_string (bind_of_ok (WrittenChar.quoted_append written other) _)

theorem number_rereads (h : number text = .ok (value, rest)) :
    ∃ core, text = core ++ rest ∧ Rereads core value := by
  rw [number] at h
  split at h
  · cases h
  · rename_i numeral after hnumeral
    obtain ⟨hwell, rfl⟩ := numeral_eq_ok hnumeral
    split at h
    · rename_i n hn
      cases h
      obtain ⟨hne, hopens⟩ := hwell.opens_text
      refine ⟨numeral.text, rfl, .of_form hne (hopens.mono fun c hc => ?_) ?_⟩
      · simp [SpelledExpr.isStart, hc]
      · intro bound other _ hother
        refine expression_of_number (hopens.append_of_ne_nil hne other) ?_
        rw [number_text hwell (numeral.endsBefore_of_delimiter hother), hn]
    · cases h

section

variable {α : Type} {item : Parser α} {P : List Char → α → Prop} {opening closing : Char}

/-- A list whose items are read again is read again. -/
theorem bracketed_rereads {reader : Nat → Parser α} {values : List α}
    (hitem : ∀ {text value rest}, item text = .ok (value, rest) →
      ∃ core, text = core ++ rest ∧ P core value)
    (hreader : ∀ {piece : Piece α} {bound}, P piece.core piece.value → piece.core.length ≤ bound →
      piece.ReadBy (reader bound))
    (hclosing : isClosing closing = true)
    (hmisses : ∀ bound rest, Misses (reader bound) (closing :: rest))
    (h : bracketed opening closing item text = .ok (values, rest)) :
    ∃ core, text = opening :: (core ++ rest) ∧ ∀ {bound} other, core.length ≤ bound →
      bracketed opening closing (reader bound) (opening :: (core ++ other)) =
        .ok (values, other) := by
  obtain ⟨gap, pieces, rfl, rfl, hall⟩ := bracketed_eq_ok hitem h
  refine ⟨Piece.listText gap pieces ++ [closing], by simp, fun {bound} other hbound => ?_⟩
  have hread : ∀ piece ∈ pieces, piece.ReadBy (reader bound) := by
    intro piece hpiece
    have hlength := Piece.length_core_le_listText gap hpiece
    rw [List.length_append] at hbound
    exact hreader (hall piece hpiece) (by omega)
  have hlist := bracketed_listText hread opening hclosing (hmisses bound other) gap
  simpa using hlist

end

theorem Rereads.readBy {core : List Char} (h : Rereads core value) (around : Around) {bound : Nat}
    (hbound : core.length ≤ bound) : Piece.ReadBy ⟨around, core, value⟩ (expression bound) where
  opens rest := h.opens.append_of_ne_nil h.nonempty rest
  reads hrest := h.reads hbound hrest

/-- Whatever the expressions of a bound are read from is read again. -/
def RereadsUpTo (bound : Nat) : Prop :=
  ∀ {text value rest}, expression bound text = .ok (value, rest) →
    ∃ core, text = core ++ rest ∧ Rereads core value

section

variable {bound : Nat} (ih : RereadsUpTo bound)

include ih

theorem array_rereads (h : array (expression bound) text = .ok (value, rest)) :
    ∃ core, text = core ++ rest ∧ Rereads core value := by
  obtain ⟨items, after, hitems, hdone⟩ := bind_eq_ok h
  cases hdone
  obtain ⟨core, rfl, hreads⟩ := bracketed_rereads ih (fun hpiece hbound => hpiece.readBy _ hbound)
    rfl expression_misses_of_closing hitems
  refine ⟨'[' :: core, rfl, .of_form (List.cons_ne_nil _ _) (by simp [SpelledExpr.isStart]) ?_⟩
  intro bound other hbound _
  rw [List.length_cons] at hbound
  rw [List.cons_append]
  exact expression_of_array (bind_of_ok (hreads other (by omega)) _)

/-- A key, a colon with white space around it, and an expression. -/
def RereadsField (core : List Char) (field : String × Expr) : Prop :=
  ∃ (written : List WrittenChar) (layout : FieldLayout) (inner : List Char),
    core = '"' :: (written.flatMap WrittenChar.text ++ ['"']) ++
      (layout.beforeColon.chars ++ ':' :: (layout.afterColon.chars ++ inner)) ∧
    field.1 = String.ofList (written.map WrittenChar.char) ∧ Rereads inner field.2

omit ih in
theorem RereadsField.readBy {piece : Piece (String × Expr)} {bound : Nat}
    (h : RereadsField piece.core piece.value) (hbound : piece.core.length ≤ bound) :
    piece.ReadBy (field (expression bound)) := by
  obtain ⟨around, core, key, value⟩ := piece
  obtain ⟨written, layout, inner, rfl, rfl, hinner⟩ := h
  have hlength : inner.length ≤ bound := by
    simp only [List.length_append, List.length_cons] at hbound
    omega
  refine ⟨fun rest => by simp [isSpaceTabOrBreak], fun {rest} hrest => ?_⟩
  have hkey (after : List Char) :
      quoted ('"' :: (written.flatMap WrittenChar.text ++ ['"']) ++ after) =
        .ok (String.ofList (written.map WrittenChar.char), after) := by
    rw [List.cons_append, List.append_assoc]
    exact WrittenChar.quoted_append written after
  have hopens := hinner.opens.append_of_ne_nil hinner.nonempty rest
  have hread := SpelledExpr.field_read layout hkey hopens (hinner.reads hlength hrest)
  simpa only [List.append_assoc, List.cons_append] using hread

theorem field_rereads {field : String × Expr}
    (h : Grammar.field (expression bound) text = .ok (field, rest)) :
    ∃ core, text = core ++ rest ∧ RereadsField core field := by
  obtain ⟨key, afterKey, hkey, h⟩ := bind_eq_ok h
  obtain ⟨_, afterColon, hcolon, h⟩ := bind_eq_ok h
  obtain ⟨value, _, hvalue, h⟩ := bind_eq_ok h
  cases h
  obtain ⟨_, beforeSign, hbefore, hsign⟩ := bind_eq_ok (commit_eq_ok hcolon)
  obtain ⟨_, afterSign, hchar, hafter⟩ := bind_eq_ok hsign
  obtain ⟨_, _, hafter, hdone⟩ := bind_eq_ok hafter
  cases hdone
  obtain ⟨written, rfl, rfl⟩ := quoted_eq_ok hkey
  obtain ⟨before, rfl, -⟩ := run_eq_ok hbefore
  obtain ⟨after, htext, -⟩ := run_eq_ok hafter
  obtain ⟨inner, hinner, hreads⟩ := ih (commit_eq_ok hvalue)
  refine ⟨_, ?_, written, ⟨Spellable.tight, before, after⟩, inner, rfl, rfl, hreads⟩
  rw [char_eq_ok hchar, htext, hinner]
  simp

theorem object_rereads (h : object (expression bound) text = .ok (value, rest)) :
    ∃ core, text = core ++ rest ∧ Rereads core value := by
  obtain ⟨fields, after, hfields, hdone⟩ := bind_eq_ok h
  cases hdone
  have hmisses (bound : Nat) (rest : List Char) :
      Misses (field (expression bound)) ('}' :: rest) :=
    (Spelling.quoted_misses (by simp)).bind _
  obtain ⟨core, rfl, hreads⟩ := bracketed_rereads (field_rereads ih)
    (fun hpiece hbound => hpiece.readBy hbound) rfl hmisses hfields
  refine ⟨'{' :: core, rfl, .of_form (List.cons_ne_nil _ _) (by simp [SpelledExpr.isStart]) ?_⟩
  intro bound other hbound _
  rw [List.length_cons] at hbound
  rw [List.cons_append]
  exact expression_of_object (bind_of_ok (hreads other (by omega)) _)

end

/-- The segments of a path, as they were written. -/
theorem many_pathSegment_eq_ok {bound : Nat} {segments : List (List Char)}
    (h : manyUpTo pathSegment bound text = .ok (segments, rest)) :
    ∃ written : List (TextOf isSegmentChar), written.map TextOf.chars = segments ∧
      text = segmentsText written ++ rest ∧ ∀ segment ∈ written, segment.chars ≠ [] := by
  induction bound generalizing text segments with
  | zero =>
      cases h
      exact ⟨[], rfl, rfl, List.forall_mem_nil _⟩
  | succ bound ih =>
      rw [manyUpTo_succ] at h
      obtain ⟨found, middle, hfound, hmore⟩ := bind_eq_ok h
      rcases optional_eq_ok hfound with ⟨segment, rfl, hsegment⟩ | ⟨rfl, rfl, -⟩
      · obtain ⟨others, _, hothers, hdone⟩ := bind_eq_ok hmore
        cases hdone
        obtain ⟨_, afterPoint, hpoint, htoken⟩ := bind_eq_ok hsegment
        obtain ⟨first, rfl, hne, rfl, -⟩ := token_eq_ok (expect_eq_ok (commit_eq_ok htoken))
        obtain ⟨written, rfl, rfl, hall⟩ := ih hothers
        refine ⟨first :: written, rfl, ?_, List.forall_mem_cons.mpr ⟨hne, hall⟩⟩
        rw [char_eq_ok hpoint]
        simp [segmentsText]
      · cases hmore
        exact ⟨[], rfl, rfl, List.forall_mem_nil _⟩

/-- The core of a word form is one of an expression. -/
theorem Rereads.of_word {core : List Char} (hne : core ≠ []) (hopens : Opens Char.isAlpha core)
    (hreads : ∀ {rest}, Opens isDelimiter rest → word (core ++ rest) = .ok (value, rest)) :
    Rereads core value := by
  refine .of_form hne (hopens.mono fun c hc => by simp [SpelledExpr.isStart, hc]) ?_
  intro bound other _ hother
  exact expression_of_word (hopens.append_of_ne_nil hne other) (hreads hother)

theorem function_of_ofCall {function : String} {arguments : List String}
    (h : ofCall function arguments = .ok value) :
    function ∈ ["var", "meta", "content", "apply", "throw"] := by
  rw [ofCall.eq_def] at h
  split at h <;> cases h <;> decide

theorem chars_of_ofList {letters : List Char} {name : String} (h : String.ofList letters = name) :
    letters = name.toList := by
  rw [← h, String.toList_ofList]

/-- The name of a function begins with a letter. -/
theorem opens_of_ofCall {letters : List Char} {arguments : List String}
    (h : ofCall (String.ofList letters) arguments = .ok value) : Opens Char.isAlpha letters := by
  have hfunction := function_of_ofCall h
  simp only [List.mem_cons, List.not_mem_nil, or_false] at hfunction
  rcases hfunction with hname | hname | hname | hname | hname <;>
    simp [chars_of_ofList hname]

/-- A string in quotes as an item of a list. -/
def RereadsQuoted (core : List Char) (string : String) : Prop :=
  ∃ written : List WrittenChar, core = '"' :: (written.flatMap WrittenChar.text ++ ['"']) ∧
    string = String.ofList (written.map WrittenChar.char)

theorem RereadsQuoted.readBy {piece : Piece String} (h : RereadsQuoted piece.core piece.value) :
    piece.ReadBy quoted := by
  obtain ⟨around, core, string⟩ := piece
  obtain ⟨written, rfl, rfl⟩ := h
  refine ⟨fun rest => by simp [isSpaceTabOrBreak], fun {rest} _ => ?_⟩
  rw [List.cons_append, List.append_assoc]
  exact WrittenChar.quoted_append written rest

theorem quoted_rereads {string : String} (h : quoted text = .ok (string, rest)) :
    ∃ core, text = core ++ rest ∧ RereadsQuoted core string := by
  obtain ⟨written, rfl, rfl⟩ := quoted_eq_ok h
  exact ⟨_, by simp, written, rfl, rfl⟩

theorem call_rereads {start : List Char} {letters : TextOf isWordChar}
    (hne : letters.chars ≠ [])
    (h : call start (String.ofList letters.chars) text = .ok (value, rest)) :
    ∃ core, letters.chars ++ text = core ++ rest ∧ Rereads core value := by
  obtain ⟨arguments, after, harguments, hjudged⟩ := bind_eq_ok h
  obtain ⟨gap, pieces, rfl, rfl, hall⟩ := bracketed_eq_ok quoted_rereads harguments
  cases hcall : ofCall (String.ofList letters.chars) (pieces.map Piece.value) with
  | error cause =>
      rw [hcall] at hjudged
      cases hjudged
  | ok expr =>
      rw [hcall] at hjudged
      cases hjudged
      have hread : ∀ piece ∈ pieces, piece.ReadBy quoted := fun piece hpiece =>
        (hall piece hpiece).readBy
      refine ⟨letters.chars ++ '(' :: (Piece.listText gap pieces ++ [')']), by simp,
        .of_word (by simp) ((opens_of_ofCall hcall).append_of_ne_nil hne _) fun {other} _ => ?_⟩
      have hword := word_listText letters hne hread hcall gap other
      simpa using hword

theorem documentPath_rereads (h : documentPath text = .ok (value, rest)) :
    ∃ core, "this".toList ++ text = core ++ rest ∧ Rereads core value := by
  obtain ⟨segments, after, hsegments, hdone⟩ := bind_eq_ok h
  cases hdone
  obtain ⟨written, rfl, rfl, hne⟩ := many_pathSegment_eq_ok hsegments
  refine ⟨"this".toList ++ segmentsText written, (List.append_assoc _ _ _).symm,
    .of_word (by simp) (by simp) fun {other} hother => ?_⟩
  rw [List.append_assoc]
  exact word_this (opens_segmentsText written hother)
    (bind_of_ok (many_segmentsText hne hother) _)

theorem word_rereads (h : word text = .ok (value, rest)) :
    ∃ core, text = core ++ rest ∧ Rereads core value := by
  simp only [word] at h
  split at h
  · cases h
  · rename_i chars after hletters
    obtain ⟨letters, rfl, hne, rfl, -⟩ := token_eq_ok hletters
    split at h
    · exact call_rereads hne h
    · split at h
      · rename_i hname
        cases h
        rw [chars_of_ofList hname]
        exact ⟨_, rfl, .of_word (by decide) (by simp) (word_bool true)⟩
      · rename_i hname
        cases h
        rw [chars_of_ofList hname]
        exact ⟨_, rfl, .of_word (by decide) (by simp) (word_bool false)⟩
      · rename_i hname
        cases h
        rw [chars_of_ofList hname]
        exact ⟨_, rfl, .of_word (by decide) (by simp) word_null⟩
      · rename_i hname
        rw [chars_of_ofList hname]
        exact documentPath_rereads h
      · cases h

theorem expression_rereads (bound : Nat) : RereadsUpTo bound := by
  induction bound with
  | zero =>
      intro text value rest h
      cases h
  | succ bound ih =>
      intro text value rest h
      rcases orElse_eq_ok (expect_eq_ok h) with hstring | ⟨-, h⟩
      · exact string_rereads hstring
      rcases orElse_eq_ok h with hnumber | ⟨-, h⟩
      · exact number_rereads hnumber
      rcases orElse_eq_ok h with harray | ⟨-, h⟩
      · exact array_rereads ih harray
      rcases orElse_eq_ok h with hobject | ⟨-, hword⟩
      · exact object_rereads ih hobject
      · exact word_rereads hword

end Remap.Expr.Grammar

namespace Remap

open Remap.Parser

/-- What an expression was read from is read as the same expression before any delimiter. -/
theorem Expr.parse_rereads {text rest : List Char} {value : Expr}
    (h : Expr.parse text = .ok (value, rest)) :
    ∃ core, text = core ++ rest ∧ core ≠ [] ∧ Opens (!isSpaceTabOrBreak ·) core ∧
      ∀ {other}, Opens isDelimiter other → Expr.parse (core ++ other) = .ok (value, other) := by
  obtain ⟨core, htext, hreads⟩ := Grammar.expression_rereads text.length h
  refine ⟨core, htext, hreads.nonempty, hreads.opens, fun hother => hreads.reads ?_ hother⟩
  rw [List.length_append]
  omega

end Remap
