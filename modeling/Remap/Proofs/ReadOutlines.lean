import Remap.Proofs.ProgramReading
import Remap.Proofs.Rereading

/-!
Outlines of what has been read.  Every text from which a program is read is the text of an outline:
its assignments are read again wherever an item can end, since which form a text has is settled
before its equals sign, and its space is made of gaps and line ends.
-/

namespace Remap

open Remap.Parser

variable {ε : Type}

/-- What a parser of queries takes from a text it takes wherever an item can end. -/
def RereadsQueries (query : Parser ε) : Prop :=
  ∀ {text rest value}, query text = .ok (value, rest) →
    ∃ core, text = core ++ rest ∧ core ≠ [] ∧ Opens (!isSpaceOrTab ·) core ∧
      ∀ {other}, Opens isItemEnd other → query (core ++ other) = .ok (value, other)

theorem Expr.parse_rereadsQueries : RereadsQueries Expr.parse := by
  intro text rest value h
  obtain ⟨core, htext, hne, hopens, hreads⟩ := Expr.parse_rereads h
  refine ⟨core, htext, hne, hopens.mono fun c hc => ?_, fun hother =>
    hreads (hother.mono isDelimiter_of_isItemEnd)⟩
  simp only [isSpaceTabOrBreak, Bool.not_eq_true', Bool.or_eq_false_iff] at hc
  simp [isSpaceOrTab, hc]

/-- The first character of a text does not depend on what follows the text. -/
theorem Opens.of_append {inClass : Char → Bool} {front first : List Char}
    (h : Opens inClass (front ++ first)) (hne : front ≠ []) (second : List Char) :
    Opens inClass (front ++ second) := by
  cases front with
  | nil => exact absurd rfl hne
  | cons c front => simpa using h

/-- The text begins with a word and, after it, a character of a class. -/
def BeginsWord (word : String) (inClass : Char → Bool) (text : List Char) : Prop :=
  ∃ c rest, text = word.toList ++ c :: rest ∧ inClass c = true

/-- A character that the word does not have keeps what follows it from being part of the word. -/
theorem BeginsWord.of_append {word : String} {inClass : Char → Bool} {mark : Char}
    {front first : List Char} (h : BeginsWord word inClass (front ++ first)) (hmark : mark ∈ front)
    (hword : mark ∉ word.toList) (second : List Char) :
    BeginsWord word inClass (front ++ second) := by
  obtain ⟨c, rest, htext, hc⟩ := h
  rcases List.append_eq_append_iff.mp htext with ⟨more, hwhole, -⟩ | ⟨more, hfront, hrest⟩
  · rw [hwhole] at hword
    exact absurd (List.mem_append_left more hmark) hword
  · cases more with
    | nil =>
        rw [hfront, List.append_nil] at hmark
        exact absurd hmark hword
    | cons d more =>
        obtain ⟨rfl, -⟩ := List.cons.inj hrest
        exact ⟨c, more ++ second, by rw [hfront]; simp, hc⟩

namespace Parser

variable {β : Type} {inClass : Char → Bool} {text : List Char}

theorem token_misses_iff {kind : TokenClass} :
    Misses (token kind inClass) text ↔ Opens (!inClass ·) text := by
  refine ⟨?_, token_misses kind⟩
  rintro ⟨failure, herror, -⟩ c hc
  cases text with
  | nil => cases hc
  | cons d text =>
      cases hc
      cases hclass : inClass c with
      | false => simp [hclass]
      | true =>
          rw [token, List.takeWhile_cons_of_pos hclass] at herror
          cases herror

/-- After a keyword a form is missed unless it goes on with a character of a class. -/
theorem misses_keyword_iff {word : String} {next : Parser β}
    (hnext : ∀ rest, Misses next rest ↔ Opens (!inClass ·) rest) :
    Misses (do keyword word; next : Parser β) text ↔ ¬BeginsWord word inClass text := by
  constructor
  · rintro hmisses ⟨c, rest, rfl, hc⟩
    rw [Misses, bind_of_ok (keyword_append word (c :: rest))] at hmisses
    have hopens := (hnext (c :: rest)).mp hmisses
    rw [Opens.cons_iff, hc] at hopens
    cases hopens
  · intro hword
    cases hafter : after? word.toList text with
    | none => exact (keyword_misses hafter).bind _
    | some rest =>
        obtain rfl := after?_eq_some.mp hafter
        rw [Misses, bind_of_ok (keyword_append word rest)]
        refine (hnext rest).mpr fun c hc => ?_
        cases hclass : inClass c with
        | false => simp [hclass]
        | true =>
            obtain ⟨more, rfl⟩ : ∃ more, rest = c :: more := by
              cases rest with
              | nil => cases hc
              | cons d more =>
                  cases hc
                  exact ⟨more, rfl⟩
            exact absurd ⟨c, more, rfl, hclass⟩ hword

theorem optional_insists (p : Parser β) : Insists (optional p) := by
  intro text failure h
  rw [optional] at h
  split at h
  · cases h
  · split at h
    · rename_i hcommitted
      cases h
      exact hcommitted
    · cases h

theorem run_insists (inClass : Char → Bool) : Insists (run inClass) := by
  intro text failure h
  cases h

end Parser

namespace Item

variable {query : Parser ε} {text rest : List Char} {item : Item ε}

theorem mapKeyword_misses_iff :
    Misses mapKeyword text ↔ ¬BeginsWord "map" isSpaceOrTab text :=
  misses_keyword_iff fun _ => (misses_bind_iff fun _ => .pure ()).trans token_misses_iff

theorem assigned_insists (query : Parser ε) : Insists (assigned query) :=
  (Insists.commit _).bind fun _ => .commit query

theorem letForm_misses_iff :
    Misses (letForm query) text ↔ ¬BeginsWord "let" isSpaceOrTab text := by
  rw [Misses, letForm, bind_of_ok (here_eq_ok text)]
  refine misses_keyword_iff fun _ => (misses_bind_iff fun _ => ?_).trans token_misses_iff
  exact (Insists.commit _).bind fun name => (assigned_insists query).bind fun _ => .pure _

theorem metaBoundary_misses_iff :
    Misses metaBoundary text ↔ Opens (!SpelledValue.isStart ·) text := by
  have hblanks : Misses (do let _ ← blanks1 : Parser Unit) text ↔ Opens (!isSpaceOrTab ·) text :=
    (misses_bind_iff fun _ => .pure ()).trans token_misses_iff
  rw [metaBoundary, misses_orElse_iff, hblanks]
  constructor
  · rintro ⟨hspace, failure, hsign, -⟩ c hc
    cases text with
    | nil => cases hc
    | cons d text =>
        cases hc
        rw [Opens.cons_iff, Bool.not_eq_true'] at hspace
        have hne : c ≠ '=' := by
          rintro rfl
          rw [show keyword "=" ('=' :: text) = .ok ((), text) from keyword_append "=" text] at hsign
          cases hsign
        simp [SpelledValue.isStart, hspace, hne]
  · intro h
    refine ⟨h.mono fun c hc => ?_, keyword_misses ?_⟩
    · simp only [SpelledValue.isStart, Bool.not_eq_true', Bool.or_eq_false_iff] at hc
      simp [hc]
    · cases text with
      | nil => rfl
      | cons c text =>
          rw [Opens.cons_iff] at h
          simp only [SpelledValue.isStart, Bool.not_eq_true', Bool.or_eq_false_iff,
            decide_eq_false_iff_not] at h
          exact if_neg (Ne.symm h.2)

theorem metaBoundary_recovers : Recovers metaBoundary := by
  have hblanks : Recovers (do let _ ← blanks1 : Parser Unit) := by
    intro text failure h
    rw [bind_apply] at h
    split at h
    · cases h
    · rename_i found hfound
      cases h
      exact token_recovers _ _ _ _ hfound
  refine hblanks.orElse fun text failure h => ?_
  rw [keyword] at h
  split at h <;> cases h
  rfl

theorem metaForm_misses_iff :
    Misses (metaForm query) text ↔ ¬BeginsWord "meta" SpelledValue.isStart text := by
  rw [Misses, metaForm, bind_of_ok (here_eq_ok text)]
  refine misses_keyword_iff fun _ =>
    (misses_bind_iff fun _ => ?_).trans (misses_peek_iff.trans metaBoundary_misses_iff)
  refine (run_insists _).bind fun _ => (optional_insists name).bind fun key => ?_
  exact (assigned_insists query).bind fun _ => .pure _

theorem collide_eq_ok {start : List Char} {name : String} {taken : Prop} [Decidable taken]
    {u : Unit} (h : collide start name taken text = .ok (u, rest)) : rest = text := by
  rw [collide] at h
  split at h <;> cases h
  rfl

/-- What is assigned is read after an equals sign with blanks around it or not. -/
theorem assigned_eq_ok {expr : ε} (h : assigned query text = .ok (expr, rest)) :
    ∃ (before after : Blanks) (source : List Char),
      text = before.chars ++ '=' :: (after.chars ++ source) ∧ query source = .ok (expr, rest) := by
  obtain ⟨_, afterSign, hsign, hexpr⟩ := bind_eq_ok h
  obtain ⟨_, beforeSign, hbefore, hsign⟩ := bind_eq_ok (commit_eq_ok hsign)
  obtain ⟨_, afterChar, hchar, hafter⟩ := bind_eq_ok hsign
  obtain ⟨_, _, hafter, hdone⟩ := bind_eq_ok hafter
  cases hdone
  obtain ⟨before, rfl, -⟩ := run_eq_ok hbefore
  obtain ⟨after, htext, -⟩ := run_eq_ok hafter
  exact ⟨before, after, afterSign, by rw [char_eq_ok hchar, htext], commit_eq_ok hexpr⟩

/-- An equals sign and an expression, read wherever an item can end. -/
structure RereadsAssigned (query : Parser ε) (core : List Char) (expr : ε) : Prop where
  mark : '=' ∈ core
  opens : Opens SpelledValue.isStart core
  reads : ∀ {rest}, Opens isItemEnd rest → assigned query (core ++ rest) = .ok (expr, rest)

theorem RereadsAssigned.opens_append {core : List Char} {expr : ε}
    (h : RereadsAssigned query core expr) (rest : List Char) :
    Opens SpelledValue.isStart (core ++ rest) :=
  h.opens.append_of_ne_nil (List.ne_nil_of_mem h.mark) rest

/-- A form that was read is read again wherever an item can end. -/
structure RereadsForm (form : Parser (Item ε)) (core : List Char) (target : Target) (expr : ε) :
    Prop where
  mark : '=' ∈ core
  reads : ∀ {rest}, Opens isItemEnd rest →
    form (core ++ rest) = .ok (.assign (core ++ rest).length target expr, rest)

/-- Whatever was read by the form is read again. -/
def RereadsItem (form : Parser (Item ε)) : Prop :=
  ∀ {text rest item}, form text = .ok (item, rest) →
    ∃ core target expr, text = core ++ rest ∧ RereadsForm form core target expr

section

variable (hquery : RereadsQueries query)

include hquery

theorem assigned_rereads {expr : ε} (h : assigned query text = .ok (expr, rest)) :
    ∃ core, text = core ++ rest ∧ RereadsAssigned query core expr := by
  obtain ⟨before, after, source, rfl, hexpr⟩ := assigned_eq_ok h
  obtain ⟨inner, rfl, hne, hopens, hreads⟩ := hquery hexpr
  refine ⟨before.chars ++ '=' :: (after.chars ++ inner), ?_, by simp, ?_, fun {other} hother => ?_⟩
  · simp
  · refine (before.opens.mono fun c hc => ?_).append (by simp [SpelledValue.isStart])
    simp [SpelledValue.isStart, hc]
  · have hinner := hopens.append_of_ne_nil hne other
    simp only [List.append_assoc, List.cons_append]
    exact assigned_append before after hinner (hreads hother)

theorem letForm_rereads : RereadsItem (letForm query) := by
  intro text rest item h
  obtain ⟨start, _, hstart, h⟩ := bind_eq_ok h
  cases hstart
  obtain ⟨_, afterLet, hlet, h⟩ := bind_eq_ok h
  obtain ⟨_, afterGap, hgap, h⟩ := bind_eq_ok h
  obtain ⟨string, afterName, hname, h⟩ := bind_eq_ok h
  obtain ⟨expr, _, hassigned, hdone⟩ := bind_eq_ok h
  cases hdone
  obtain rfl := keyword_eq_ok hlet
  obtain ⟨gap, -, hne, rfl, -⟩ := token_eq_ok hgap
  obtain ⟨name, rfl, rfl, -⟩ := name_eq_ok (expect_eq_ok (commit_eq_ok hname))
  obtain ⟨value, rfl, hvalue⟩ := assigned_rereads hquery hassigned
  refine ⟨"let".toList ++ (gap.chars ++ (name.text ++ value)), .var name.name, expr, by simp,
    by simp [hvalue.mark], fun {other} hother => ?_⟩
  have hblank := (name.opens_text (value ++ other)).apart SpelledName.isSpaceOrTab_of_isStart
  have hend := (hvalue.opens_append other).apart SpelledValue.isBareNameChar_of_isStart
  have hkeyword := keyword_append "let" (gap.chars ++ (name.text ++ (value ++ other)))
  have hread := commit_of_ok (expect_of_ok (name.name_append hend) "variable-name")
  simp only [List.append_assoc]
  rw [letForm, bind_of_ok (here_eq_ok _), bind_of_ok hkeyword,
    bind_of_ok (blanks1_append ⟨gap, hne⟩ hblank), bind_of_ok hread,
    bind_of_ok (hvalue.reads hother)]
  rfl

omit hquery in
/-- The key of a metadata statement, if it has one, is read again. -/
theorem optionalName_rereads {value : List Char} {expr : ε} {key : Option String}
    (hvalue : RereadsAssigned query value expr)
    (h : optional name text = .ok (key, value ++ rest)) :
    ∃ written, text = written ++ (value ++ rest) ∧
      ∀ other, optional name (written ++ (value ++ other)) = .ok (key, value ++ other) := by
  rcases optional_eq_ok h with ⟨string, rfl, hname⟩ | ⟨rfl, rfl, -⟩
  · obtain ⟨name, rfl, rfl, -⟩ := name_eq_ok hname
    refine ⟨name.text, rfl, fun other => optional_of_ok (name.name_append ?_)⟩
    exact (hvalue.opens_append other).apart SpelledValue.isBareNameChar_of_isStart
  · refine ⟨[], rfl, fun other => optional_of_misses (name_misses ?_)⟩
    refine (hvalue.opens_append other).apart fun c hc => ?_
    simp only [SpelledValue.isStart, isSpaceOrTab, Bool.or_eq_true, decide_eq_true_eq] at hc
    rcases hc with (rfl | rfl) | rfl <;> decide

theorem metaForm_rereads : RereadsItem (metaForm query) := by
  intro text rest item h
  obtain ⟨start, _, hstart, h⟩ := bind_eq_ok h
  cases hstart
  obtain ⟨_, afterMeta, hmeta, h⟩ := bind_eq_ok h
  obtain ⟨_, _, hboundary, h⟩ := bind_eq_ok h
  obtain ⟨_, afterBlanks, hblanks, h⟩ := bind_eq_ok h
  obtain ⟨key, afterKey, hkey, h⟩ := bind_eq_ok h
  obtain ⟨expr, _, hassigned, hdone⟩ := bind_eq_ok h
  cases hdone
  obtain rfl := keyword_eq_ok hmeta
  obtain ⟨rfl, after, hboundary⟩ := peek_eq_ok hboundary
  obtain ⟨gap, rfl, hopens⟩ := run_eq_ok hblanks
  obtain ⟨value, rfl, hvalue⟩ := assigned_rereads hquery hassigned
  obtain ⟨written, rfl, hread⟩ := optionalName_rereads hvalue hkey
  have hne : value ≠ [] := List.ne_nil_of_mem hvalue.mark
  refine ⟨"meta".toList ++ (gap.chars ++ (written ++ value)), .metadata key, expr, by simp,
    by simp [hvalue.mark], fun {other} hother => ?_⟩
  have hkeyword := keyword_append "meta" (gap.chars ++ (written ++ (value ++ other)))
  have hgap : Opens (!isSpaceOrTab ·) (written ++ (value ++ other)) := by
    rw [← List.append_assoc] at hopens ⊢
    exact hopens.of_append (by simp [hne]) other
  -- What begins a metadata statement stands before its equals sign.
  have hmeets : ¬Misses metaBoundary (gap.chars ++ (written ++ (value ++ other))) := by
    intro hmisses
    rw [metaBoundary_misses_iff, ← List.append_assoc, ← List.append_assoc] at hmisses
    have hopened := hmisses.of_append (by simp [hne]) rest
    rw [List.append_assoc, List.append_assoc, ← metaBoundary_misses_iff] at hopened
    obtain ⟨failure, herror, -⟩ := hopened
    rw [hboundary] at herror
    cases herror
  obtain ⟨⟨_, left⟩, hmeets⟩ := metaBoundary_recovers.exists_ok hmeets
  simp only [List.append_assoc]
  rw [metaForm, bind_of_ok (here_eq_ok _), bind_of_ok hkeyword, bind_of_ok (peek_of_ok hmeets),
    bind_of_ok (blanks_append gap hgap), bind_of_ok (hread other), bind_of_ok (hvalue.reads hother)]
  rfl

omit hquery in
/-- A path form is a name without empty parts and what is assigned after it. -/
theorem pathForm_eq_ok (h : pathForm query text = .ok (item, rest)) :
    ∃ (name : WrittenName) (after : List Char) (expr : ε), text = name.text ++ after ∧
      name.EndsBefore after ∧ DotPath.firstEmptyPart name.name.toList = none ∧
      item = .assign text.length (.path (targetSegments name.name)) expr ∧
      assigned query after = .ok (expr, rest) := by
  obtain ⟨start, _, hstart, h⟩ := bind_eq_ok h
  cases hstart
  obtain ⟨segments, after, htarget, h⟩ := bind_eq_ok h
  obtain ⟨expr, _, hassigned, hdone⟩ := bind_eq_ok h
  cases hdone
  obtain ⟨_, _, hstart, htarget⟩ := bind_eq_ok htarget
  cases hstart
  obtain ⟨path, afterPath, hpath, htarget⟩ := bind_eq_ok htarget
  obtain ⟨name, rfl, rfl, hends⟩ := name_eq_ok (expect_eq_ok hpath)
  cases hparts : DotPath.firstEmptyPart name.name.toList with
  | some offset =>
      rw [hparts] at htarget
      cases htarget
  | none =>
      rw [hparts] at htarget
      cases htarget
      exact ⟨name, after, expr, rfl, hends, hparts, rfl, hassigned⟩

theorem pathForm_rereads : RereadsItem (pathForm query) := by
  intro text rest item h
  obtain ⟨name, _, expr, rfl, -, hparts, rfl, hassigned⟩ := pathForm_eq_ok h
  obtain ⟨value, rfl, hvalue⟩ := assigned_rereads hquery hassigned
  refine ⟨name.text ++ value, .path (targetSegments name.name), expr, by simp,
    by simp [hvalue.mark], fun {other} hother => ?_⟩
  have hend := (hvalue.opens_append other).apart SpelledValue.isBareNameChar_of_isStart
  have hpath := expect_of_ok (name.name_append hend) "target-path"
  have hread : targetPath (name.text ++ (value ++ other)) =
      .ok (targetSegments name.name, value ++ other) := by
    rw [targetPath, bind_of_ok (here_eq_ok _), bind_of_ok hpath, hparts]
    rfl
  rw [List.append_assoc]
  exact pathForm_of_ok hread (hvalue.reads hother)

end

section

variable {core : List Char}

theorem mapKeyword_misses_append (hmark : '=' ∈ core) (h : Misses mapKeyword (core ++ rest))
    (other : List Char) : Misses mapKeyword (core ++ other) := by
  rw [mapKeyword_misses_iff] at h ⊢
  exact fun hword => h (hword.of_append hmark (by decide) rest)

theorem letForm_misses_append (hmark : '=' ∈ core) (h : Misses (letForm query) (core ++ rest))
    (other : List Char) : Misses (letForm query) (core ++ other) := by
  rw [letForm_misses_iff] at h ⊢
  exact fun hword => h (hword.of_append hmark (by decide) rest)

theorem metaForm_misses_append (hmark : '=' ∈ core) (h : Misses (metaForm query) (core ++ rest))
    (other : List Char) : Misses (metaForm query) (core ++ other) := by
  rw [metaForm_misses_iff] at h ⊢
  exact fun hword => h (hword.of_append hmark (by decide) rest)

end

theorem assignment_rereads (hquery : RereadsQueries query) : RereadsItem (assignment query) := by
  intro text rest item h
  rcases orElse_eq_ok h with hlet | ⟨hnoLet, h⟩
  · obtain ⟨core, target, expr, rfl, hmark, hreads⟩ := letForm_rereads hquery hlet
    exact ⟨core, target, expr, rfl, hmark, fun hother => orElse_of_ok (hreads hother) _⟩
  · rcases orElse_eq_ok h with hmeta | ⟨hnoMeta, hpath⟩
    · obtain ⟨core, target, expr, rfl, hmark, hreads⟩ := metaForm_rereads hquery hmeta
      refine ⟨core, target, expr, rfl, hmark, fun {other} hother => ?_⟩
      exact orElse_of_misses (letForm_misses_append hmark hnoLet other)
        (orElse_of_ok (hreads hother) _)
    · obtain ⟨core, target, expr, rfl, hmark, hreads⟩ := pathForm_rereads hquery hpath
      refine ⟨core, target, expr, rfl, hmark, fun {other} hother => ?_⟩
      exact orElse_of_misses (letForm_misses_append hmark hnoLet other)
        (orElse_of_misses (metaForm_misses_append hmark hnoMeta other) (hreads hother))

/-- What is read as an assignment is the text of one. -/
theorem exists_assignmentText (hquery : RereadsQueries query) (hmap : Misses mapKeyword text)
    (h : assignment query text = .ok (item, rest)) :
    ∃ assignment : AssignmentText query, text = assignment.text ++ rest := by
  obtain ⟨core, target, expr, rfl, hmark, hreads⟩ := assignment_rereads hquery h
  refine ⟨⟨core, target, expr, fun other hother => ?_⟩, rfl⟩
  have hne : core ++ other ≠ [] := by simp [List.ne_nil_of_mem hmark]
  exact parse_of_assignment hne (mapKeyword_misses_append hmark hmap other) (hreads hother) .empty

/-- The end of a line and the space after it. -/
theorem break_or_ending {indent taken afterBlanks middle : List Char}
    (hblanks : blanks text = .ok (indent, afterBlanks))
    (hbreak : lineBreak afterBlanks = .ok (taken, middle)) (hspace : IsSpace middle rest) :
    (∃ between : Break, text = between.text ++ rest) ∨
      ∃ ending : Ending, text = ending.text ∧ rest = [] := by
  obtain ⟨blanks, rfl, -⟩ := run_eq_ok hblanks
  rcases lineBreak_eq_ok hbreak with ⟨comment, lineEnd, rfl⟩ | ⟨comment, rfl, rfl⟩
  · rcases hspace with ⟨gap, rfl⟩ | ⟨ending, rfl, rfl⟩
    · exact .inl ⟨⟨⟨blanks, comment, lineEnd⟩, gap⟩, by simp [Break.text, LineTail.text]⟩
    · refine .inr ⟨{ ending with gap := ending.gap.afterLine ⟨blanks, comment, lineEnd⟩ }, ?_, rfl⟩
      simp [Ending.text, Gap.text_afterLine, LineTail.text]
  · -- The comment has taken the rest of the text.
    refine .inr ⟨⟨⟨[], blanks⟩, some comment⟩, rfl, ?_⟩
    rcases hspace with ⟨gap, hnil⟩ | ⟨_, -, hnil⟩
    · exact (List.append_eq_nil_iff.mp hnil.symm).2
    · exact hnil

/-- Before something there is a break. -/
theorem exists_break
    (h : (∃ between : Break, text = between.text ++ rest) ∨
      ∃ ending : Ending, text = ending.text ∧ rest = [])
    (hne : rest ≠ []) : ∃ between : Break, text = between.text ++ rest := by
  rcases h with hbreak | ⟨_, -, hnil⟩
  · exact hbreak
  · exact absurd hnil hne

theorem exists_ending_of_break
    (h : (∃ between : Break, text = between.text ++ []) ∨
      ∃ ending : Ending, text = ending.text ∧ ([] : List Char) = []) :
    ∃ ending : Ending, text = ending.text := by
  rcases h with ⟨between, rfl⟩ | ⟨ending, htext, -⟩
  · refine ⟨⟨between.gap.afterLine between.tail, none⟩, ?_⟩
    rw [Ending.text, Gap.text_afterLine, ← Break.text]
    rfl
  · exact ⟨ending, htext⟩

/-- The items of a block after one of its items, up to its brace. -/
def ContinuesBlock (query : Parser ε) (text rest : List Char) : Prop :=
  ∀ first : OutlineItem query, ∃ (body : OutlineBody query) (tail : Gap),
    first.text ++ text = body.text ++ (tail.text ++ '}' :: rest)

/-- What items of a bound are read from is the text of an outline. -/
def OutlinesItems (query : Parser ε) (item : Scoped (Item ε)) : Prop :=
  ∀ {registry text result rest}, item registry text = .ok (result, rest) →
    ∃ outline : OutlineItem query, text = outline.text ++ rest

section

variable {read : Scoped (Item ε)} {registry : Registry}

theorem continuesBlock_tail (tail : Gap) (rest : List Char) :
    ContinuesBlock query (tail.text ++ '}' :: rest) rest :=
  fun first => ⟨.last first, tail, rfl⟩

/-- The loop stops before the brace of the block, and then no space is left. -/
theorem eq_brace_of_blankLines {left : List Char} (hstops : left = [] ∨ left.head? = some '}')
    (h : blankLines left = .ok ((), '}' :: rest)) : left = '}' :: rest := by
  cases left with
  | nil =>
      rw [show blankLines [] = .ok ((), []) from blankLines_ending ⟨⟨[], .empty⟩, none⟩] at h
      cases h
  | cons c left =>
      have hc : c = '}' := by simpa using hstops
      have hopens : Opens (!isGapStart ·) (c :: left) := by
        rw [hc, Opens.cons_iff]
        decide
      rw [show blankLines (c :: left) = .ok ((), c :: left) from
        blankLines_gap ⟨[], .empty⟩ hopens] at h
      cases h
      rfl

theorem continuesBlock_of_moreInBlock (hread : OutlinesItems query read) {bound : Nat}
    {others : List (Item ε) × Registry} {left : List Char}
    (h : moreInBlock read bound registry text = .ok (others, left))
    (hleft : blankLines left = .ok ((), '}' :: rest)) : ContinuesBlock query text rest := by
  have hlast {text : List Char} (htext : IsSpace text ('}' :: rest)) :
      ContinuesBlock query text rest := by
    obtain ⟨tail, rfl⟩ := htext.exists_gap (List.cons_ne_nil _ _)
    exact continuesBlock_tail tail rest
  induction bound generalizing registry text others with
  | zero =>
      cases h
      exact hlast (blankLines_eq_ok hleft)
  | succ bound ih =>
      rw [moreInBlock] at h
      obtain ⟨found, middle, hfound, hmore⟩ := bind_eq_ok h
      rcases optional_eq_ok hfound with ⟨_, rfl, hend⟩ | ⟨rfl, rfl, -⟩
      · obtain ⟨_, next, hskip, hnext⟩ := bind_eq_ok hmore
        obtain ⟨_, _, hhere, hnext⟩ := bind_eq_ok hnext
        cases hhere
        obtain ⟨_, _, hblanks, hbreak⟩ := bind_eq_ok hend
        have hspace := break_or_ending hblanks hbreak (blankLines_eq_ok hskip)
        split at hnext
        · rename_i hstops
          cases hnext
          obtain rfl := eq_brace_of_blankLines hstops hleft
          obtain ⟨between, rfl⟩ := exists_break hspace (List.cons_ne_nil _ _)
          have htail : ContinuesBlock query _ rest :=
            continuesBlock_tail (between.gap.afterLine between.tail) rest
          rwa [Gap.text_afterLine, ← Break.text] at htail
        · obtain ⟨⟨first, begun⟩, more, hfirst, hnext⟩ := bind_eq_ok hnext
          obtain ⟨_, _, hothers, hdone⟩ := bind_eq_ok hnext
          cases hdone
          obtain ⟨outline, rfl⟩ := hread hfirst
          have hne : outline.text ++ more ≠ [] := by simp [outline.beginsItem.nonempty]
          obtain ⟨between, rfl⟩ := exists_break hspace hne
          intro item
          obtain ⟨body, tail, hbody⟩ := ih hothers outline
          exact ⟨.cons item between body, tail, by rw [OutlineBody.text, hbody]; simp⟩
      · cases hmore
        exact hlast (blankLines_eq_ok hleft)

theorem exists_body_of_block (hread : OutlinesItems query read)
    {items : List (Item ε) × Registry} (h : block read registry text = .ok (items, rest)) :
    ∃ (lead : Gap) (body : OutlineBody query) (tail : Gap),
      text = '{' :: (lead.text ++ (body.text ++ (tail.text ++ '}' :: rest))) := by
  obtain ⟨_, afterBrace, hbrace, h⟩ := bind_eq_ok h
  obtain ⟨_, source, hlead, h⟩ := bind_eq_ok h
  obtain ⟨⟨first, begun⟩, more, hfirst, h⟩ := bind_eq_ok h
  obtain ⟨_, _, hhere, h⟩ := bind_eq_ok h
  obtain ⟨others, left, hothers, h⟩ := bind_eq_ok h
  obtain ⟨_, closing, htail, h⟩ := bind_eq_ok h
  obtain ⟨_, _, hclosing, hdone⟩ := bind_eq_ok h
  cases hdone
  cases hhere
  obtain rfl := char_eq_ok hclosing
  obtain ⟨outline, rfl⟩ := hread hfirst
  have hne : outline.text ++ more ≠ [] := by simp [outline.beginsItem.nonempty]
  obtain ⟨lead, rfl⟩ := (blankLines_eq_ok hlead).exists_gap hne
  obtain ⟨body, tail, hbody⟩ := continuesBlock_of_moreInBlock hread hothers htail outline
  exact ⟨lead, body, tail, by rw [char_eq_ok hbrace, hbody]⟩

theorem exists_outline_of_mapForm (hread : OutlinesItems query read)
    {result : Item ε × Registry} (h : mapForm read registry text = .ok (result, rest)) :
    ∃ outline : OutlineItem query, text = outline.text ++ rest := by
  obtain ⟨start, _, hstart, h⟩ := bind_eq_ok h
  obtain ⟨_, afterKeyword, hkeyword, h⟩ := bind_eq_ok h
  obtain ⟨string, afterName, hname, h⟩ := bind_eq_ok h
  obtain ⟨_, _, hnew, h⟩ := bind_eq_ok h
  obtain ⟨_, afterBlanks, hblanks, h⟩ := bind_eq_ok h
  obtain ⟨⟨body, inner⟩, afterBlock, hblock, h⟩ := bind_eq_ok h
  obtain ⟨_, _, hstill, hdone⟩ := bind_eq_ok h
  cases hstart
  cases hdone
  obtain rfl := collide_eq_ok hnew
  obtain rfl := collide_eq_ok hstill
  obtain ⟨_, afterMap, hmap, hgap⟩ := bind_eq_ok hkeyword
  obtain ⟨_, _, hgap, hdone⟩ := bind_eq_ok hgap
  cases hdone
  obtain ⟨gap, -, hne, htext, -⟩ := token_eq_ok hgap
  obtain ⟨name, rfl, rfl, -⟩ := name_eq_ok (expect_eq_ok (commit_eq_ok hname))
  obtain ⟨beforeBrace, rfl, -⟩ := run_eq_ok hblanks
  obtain ⟨lead, items, tail, rfl⟩ := exists_body_of_block hread (commit_eq_ok hblock)
  refine ⟨.map ⟨gap, hne⟩ name beforeBrace lead items tail, ?_⟩
  rw [keyword_eq_ok hmap, htext]
  simp [OutlineItem.text]

end

section

variable (hquery : RereadsQueries query)

include hquery

/-- Items that are read are the texts of outlines, however deep they nest. -/
theorem itemUpTo_outlinesItems (bound : Nat) : OutlinesItems query (itemUpTo query bound) := by
  induction bound with
  | zero =>
      intro registry text result rest h
      cases h
  | succ bound ih =>
      intro registry text result rest h
      rcases orElse_eq_ok h with hmap | ⟨hmisses, hassign⟩
      · exact exists_outline_of_mapForm ih hmap
      · obtain ⟨item, _, hassign, hdone⟩ := bind_eq_ok hassign
        cases hdone
        obtain ⟨assignment, rfl⟩ :=
          exists_assignmentText hquery (mapForm_misses_iff.mp hmisses) hassign
        exact ⟨.assign assignment, rfl⟩

theorem exists_body_of_programUpTo {bound : Nat} {registry : Registry} {items : List (Item ε)}
    (h : programUpTo query bound registry text = .ok (items, rest)) :
    ∃ (body : OutlineBody query) (ending : Ending), text = body.text ++ ending.text := by
  induction bound generalizing registry text rest items with
  | zero => cases h
  | succ bound ih =>
      rw [programUpTo] at h
      obtain ⟨⟨first, begun⟩, more, hfirst, hmore⟩ := bind_eq_ok h
      obtain ⟨outline, rfl⟩ := itemUpTo_outlinesItems hquery _ hfirst
      obtain ⟨_, afterBlanks, hblanks, hmore⟩ := bind_eq_ok hmore
      obtain ⟨ended, _, hended, hmore⟩ := bind_eq_ok hmore
      cases hended
      split at hmore
      · rename_i hnil
        obtain ⟨indent, rfl, -⟩ := run_eq_ok hblanks
        obtain rfl := List.isEmpty_iff.mp hnil
        refine ⟨.last outline, ⟨⟨[], indent⟩, none⟩, ?_⟩
        simp [OutlineBody.text, Ending.text, Gap.text, commentText]
      · obtain ⟨_, afterBreak, hbreak, hmore⟩ := bind_eq_ok hmore
        obtain ⟨_, next, hskip, hmore⟩ := bind_eq_ok hmore
        obtain ⟨ended, _, hended, hmore⟩ := bind_eq_ok hmore
        cases hended
        have hspace := break_or_ending hblanks (expect_eq_ok hbreak) (blankLines_eq_ok hskip)
        split at hmore
        · rename_i hnil
          obtain rfl := List.isEmpty_iff.mp hnil
          obtain ⟨ending, rfl⟩ := exists_ending_of_break hspace
          exact ⟨.last outline, ending, rfl⟩
        · obtain ⟨_, _, hothers, -⟩ := bind_eq_ok hmore
          obtain ⟨body, ending, rfl⟩ := ih hothers
          have hne : body.text ++ ending.text ≠ [] := by simp [body.beginsItem.nonempty]
          obtain ⟨between, rfl⟩ := exists_break hspace hne
          exact ⟨.cons outline between body, ending, by simp [OutlineBody.text]⟩

/-- Every text that is read as a program is the text of an outline. -/
theorem exists_outline_of_program {items : List (Item ε)}
    (h : program query text = .ok (items, rest)) :
    ∃ outline : Outline query, outline.text = text := by
  obtain ⟨_, source, hlead, hprogram⟩ := bind_eq_ok h
  obtain ⟨_, _, hhere, hprogram⟩ := bind_eq_ok hprogram
  cases hhere
  obtain ⟨body, ending, rfl⟩ := exists_body_of_programUpTo hquery hprogram
  have hne : body.text ++ ending.text ≠ [] := by simp [body.beginsItem.nonempty]
  obtain ⟨lead, rfl⟩ := (blankLines_eq_ok hlead).exists_gap hne
  exact ⟨⟨lead, body, ending⟩, rfl⟩

end

end Item

end Remap
