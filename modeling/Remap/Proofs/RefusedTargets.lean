import Remap.Proofs.Attempts

/-!
Refused targets.  Nothing but a target path is refused for an empty segment, so that a parse which
reports one has asked for an item whose target path it is.
-/

namespace Remap.Item

open Remap.Parser

variable {ε : Type}

/-- Below statements nothing is reported as an empty segment. -/
def belowStatements : Region where
  Place _ := True
  Fault _ cause := ∀ path, cause ≠ .emptyPathSegment path
  place_of_suffix _ _ := trivial
  missing _ _ := nofun
  plain _ hplain := by
    rintro path rfl
    exact hplain

theorem not_emptySegment {α : Type} {p : Parser α} {P : α → Prop} {text : List Char}
    {failure : Failure} {path : String} (h : belowStatements.Keeps p P)
    (hcause : failure.cause = .emptyPathSegment path) : p text ≠ .error failure := by
  intro herror
  have hends := h text trivial
  rw [herror] at hends
  exact hends path hcause

section

variable {item : Scoped (Item ε)} {query : Parser ε} {registry : Registry} {text : List Char}
  {failure : Failure} {path : String} (hcause : failure.cause = .emptyPathSegment path)

include hcause

/-- The target path that is refused is the one at the beginning of the text. -/
theorem targetPath_eq_emptySegment (h : targetPath text = .error failure) :
    ∃ (target : WrittenName) (rest : List Char), text = target.text ++ rest ∧
      target.EndsBefore rest ∧ target.name = path ∧ target.EmptySegmentAt rest failure.rest := by
  have hname : belowStatements.Admits (expect "target-path" name) :=
    (belowStatements.name_admitted).expect _
  have hread := h
  rw [targetPath, bind_of_ok (here_eq_ok text)] at h
  rcases bind_eq_error h with herror | ⟨string, rest, hok, -⟩
  · exact absurd herror (not_emptySegment hname hcause)
  · obtain ⟨target, rfl, rfl, hends⟩ := name_eq_ok (expect_eq_ok hok)
    refine ⟨target, rest, rfl, hends, ?_⟩
    by_cases hempty : [] ∈ DotPath.split '.' target.name.toList
    · obtain ⟨place, hplace, hfails⟩ := targetPath_of_emptySegment hends hempty
      rw [hread] at hfails
      cases hfails
      exact ⟨Cause.emptyPathSegment.inj hcause, hplace⟩
    · rw [targetPath_of_segments hends hempty] at hread
      cases hread

theorem exists_asksInLoop {bound : Nat} (h : moreInBlock item bound registry text = .error failure) :
    ∃ asked place, AsksInLoop item bound registry text asked place ∧
      item asked place = .error failure := by
  induction bound generalizing registry text with
  | zero => cases h
  | succ bound ih =>
      have hend : belowStatements.Keeps (optional (do let _ ← blanks; lineBreak)) _ :=
        ((belowStatements.run_admitted isSpaceOrTab).bind fun _ _ =>
          belowStatements.lineBreak_admitted).optional
      rw [moreInBlock] at h
      rcases bind_eq_error h with herror | ⟨found, middle, hfound, hmore⟩
      · exact absurd herror (not_emptySegment hend hcause)
      rcases optional_eq_ok hfound with ⟨taken, rfl, hline⟩ | ⟨rfl, -, -⟩
      · rcases bind_eq_error hmore with herror | ⟨_, next, hskip, hmore⟩
        · exact absurd herror (not_emptySegment belowStatements.blankLines_admitted hcause)
        rw [bind_of_ok (here_eq_ok next)] at hmore
        split at hmore
        · cases hmore
        · rename_i hopen
          have hnext : NextLine text next := ⟨taken, middle, hline, hskip⟩
          rcases bind_eq_error hmore with herror | ⟨⟨first, begun⟩, more, hfirst, hmore⟩
          · exact ⟨registry, next, .next hnext hopen, herror⟩
          rcases bind_eq_error hmore with herror | ⟨_, _, _, hdone⟩
          · obtain ⟨asked, place, hasks, hfails⟩ := ih herror
            exact ⟨asked, place, .later hnext hopen hfirst hasks, hfails⟩
          · cases hdone
      · cases hmore

theorem exists_asksInBlock (h : block item registry text = .error failure) :
    ∃ asked place, AsksInBlock item registry text asked place ∧
      item asked place = .error failure := by
  rw [block] at h
  rcases bind_eq_error h with herror | ⟨_, inner, hbrace, hlead⟩
  · exact absurd herror (not_emptySegment (belowStatements.char_admitted '{') hcause)
  rw [char_eq_ok hbrace]
  rcases bind_eq_error hlead with herror | ⟨_, next, hskip, hitems⟩
  · exact absurd herror (not_emptySegment belowStatements.blankLines_admitted hcause)
  rcases bind_eq_error hitems with herror | ⟨⟨first, begun⟩, more, hfirst, hmore⟩
  · exact ⟨registry, next, .first hskip, herror⟩
  rcases bind_eq_error hmore with herror | ⟨_, _, hhere, hloop⟩
  · cases herror
  cases hhere
  rcases bind_eq_error hloop with herror | ⟨_, left, -, htail⟩
  · obtain ⟨asked, place, hasks, hfails⟩ := exists_asksInLoop hcause herror
    exact ⟨asked, place, .later hskip hfirst hasks, hfails⟩
  rcases bind_eq_error htail with herror | ⟨_, _, -, hclosing⟩
  · exact absurd herror (not_emptySegment belowStatements.blankLines_admitted hcause)
  rcases bind_eq_error hclosing with herror | ⟨_, _, -, hdone⟩
  · exact absurd herror (not_emptySegment (belowStatements.char_admitted '}') hcause)
  · cases hdone

theorem collide_not_emptySegment {start : List Char} {name : String} {taken : Prop}
    [Decidable taken] : collide start name taken text ≠ .error failure := by
  intro h
  rw [collide] at h
  split at h <;> cases h
  cases hcause

/-- An empty segment in a definition is one in its block. -/
theorem exists_block_of_mapForm (h : mapForm item registry text = .error failure) :
    ∃ name afterKeyword afterName gap inner found, mapKeyword text = .ok ((), afterKeyword) ∧
      Parser.name afterKeyword = .ok (name, afterName) ∧ ¬registry.Knows name ∧
      blanks afterName = .ok (gap, inner) ∧
      block item (registry.enter name) inner = .error found ∧
      found.rest = failure.rest ∧ found.cause = failure.cause := by
  have hexpect : belowStatements.Admits (commit (expect "map-name" name)) :=
    (belowStatements.name_admitted.expect _).commit
  rw [mapForm, bind_of_ok (here_eq_ok text)] at h
  rcases bind_eq_error h with herror | ⟨_, afterKeyword, hkeyword, hnamed⟩
  · exact absurd herror (not_emptySegment mapKeyword_admitted hcause)
  rcases bind_eq_error hnamed with herror | ⟨name, afterName, hname, hnew⟩
  · exact absurd herror (not_emptySegment hexpect hcause)
  have hread := expect_eq_ok (commit_eq_ok hname)
  rcases bind_eq_error hnew with herror | ⟨_, _, hcollide, hspaced⟩
  · exact absurd herror (collide_not_emptySegment hcause)
  have hfresh := collide_yields _ _ _ _ _ _ hcollide
  obtain rfl := collide_eq_ok hcollide
  rcases bind_eq_error hspaced with herror | ⟨gap, inner, hgap, hbody⟩
  · cases herror
  rcases bind_eq_error hbody with herror | ⟨_, _, -, hstill⟩
  · obtain ⟨found, hblock, rfl⟩ := commit_eq_error herror
    exact ⟨name, afterKeyword, _, gap, inner, found, hkeyword, hread, hfresh, hgap, hblock, rfl, rfl⟩
  rcases bind_eq_error hstill with herror | ⟨_, _, -, hdone⟩
  · exact absurd herror (collide_not_emptySegment hcause)
  · cases hdone

end

section

variable {query : Parser ε} (hquery : belowStatements.Admits query) {path : String}

include hquery

/-- An empty segment in an assignment is one of the target path that begins there. -/
theorem targetPath_of_assignment {text : List Char} {failure : Failure}
    (hcause : failure.cause = .emptyPathSegment path)
    (h : assignment query text = .error failure) :
    Misses (letForm query) text ∧ Misses (metaForm query) text ∧
      targetPath text = .error failure := by
  rcases orElse_eq_error h with herror | ⟨hlet, herror⟩
  · exact absurd herror (not_emptySegment (letForm_keeps hquery) hcause)
  rcases orElse_eq_error herror with herror | ⟨hmeta, herror⟩
  · exact absurd herror (not_emptySegment (metaForm_keeps hquery) hcause)
  refine ⟨hlet, hmeta, ?_⟩
  rw [pathForm, bind_of_ok (here_eq_ok text)] at herror
  rcases bind_eq_error herror with herror | ⟨_, _, -, hvalue⟩
  · exact herror
  rcases bind_eq_error hvalue with herror | ⟨_, _, -, hdone⟩
  · exact absurd herror (not_emptySegment (assigned_admitted hquery) hcause)
  · cases hdone

/-- An empty segment in an item is one of a target path that the parse of the item asks for. -/
theorem exists_asks {bound : Nat} {registry : Registry} {text : List Char} {failure : Failure}
    (hcause : failure.cause = .emptyPathSegment path)
    (h : itemUpTo query bound registry text = .error failure) :
    ∃ asks : Attempt, Asks query ⟨bound, registry, text⟩ asks ∧
      Form.path.Announced asks.text ∧
      ∃ refused : Failure, targetPath asks.text = .error refused ∧ refused.rest = failure.rest ∧
        refused.cause = failure.cause := by
  induction bound generalizing registry text failure with
  | zero =>
      cases h
      cases hcause
  | succ bound ih =>
      rcases orElse_eq_error h with hmap | ⟨hnoMap, hassign⟩
      · obtain ⟨name, afterKeyword, afterName, gap, inner, found, hkeyword, hname, hnew, hgap, hblock,
          hrest, hfound⟩ := exists_block_of_mapForm hcause hmap
        rw [← hfound] at hcause
        obtain ⟨asked, place, hinside, hfails⟩ := exists_asksInBlock hcause hblock
        obtain ⟨asks, hasks, hpath, refused, htarget, hplace, hsame⟩ := ih hcause hfails
        exact ⟨asks, .inside hkeyword hname hnew hgap hinside hasks, hpath, refused, htarget,
          hplace.trans hrest, hsame.trans hfound⟩
      · rcases bind_eq_error hassign with hassign | ⟨_, _, -, hdone⟩
        · obtain ⟨hlet, hmeta, htarget⟩ := targetPath_of_assignment hquery hcause hassign
          have hpath : Form.path.Announced text := (announced_path_iff query).mpr
            ⟨mapForm_misses_iff.mp hnoMap, hlet, hmeta⟩
          exact ⟨_, .itself _, hpath, failure, htarget, rfl, rfl⟩
        · cases hdone

theorem exists_asksInProgram {bound : Nat} {registry : Registry} {text : List Char}
    {failure : Failure} (hcause : failure.cause = .emptyPathSegment path)
    (h : programUpTo query bound registry text = .error failure) :
    ∃ asks : Attempt, AsksInProgram query bound registry text asks ∧
      Form.path.Announced asks.text ∧
      ∃ refused : Failure, targetPath asks.text = .error refused ∧ refused.rest = failure.rest ∧
        refused.cause = failure.cause := by
  induction bound generalizing registry text with
  | zero =>
      cases h
      cases hcause
  | succ bound ih =>
      rw [programUpTo] at h
      rcases bind_eq_error h with herror | ⟨⟨first, begun⟩, more, hfirst, hmore⟩
      · obtain ⟨asks, hasks, hrefused⟩ := exists_asks hquery hcause herror
        exact ⟨asks, .first hasks, hrefused⟩
      rcases bind_eq_error hmore with herror | ⟨indent, afterBlanks, hblanks, hended⟩
      · cases herror
      rcases bind_eq_error hended with herror | ⟨ended, _, hatEnd, hline⟩
      · cases herror
      cases hatEnd
      split at hline
      · cases hline
      have hexpect : belowStatements.Admits (expect "end of statement" lineBreak) :=
        belowStatements.lineBreak_admitted.expect _
      rcases bind_eq_error hline with herror | ⟨taken, middle, hbreak, hspace⟩
      · exact absurd herror (not_emptySegment hexpect hcause)
      rcases bind_eq_error hspace with herror | ⟨_, next, hskip, hended⟩
      · exact absurd herror (not_emptySegment belowStatements.blankLines_admitted hcause)
      rcases bind_eq_error hended with herror | ⟨ended, _, hatEnd, hothers⟩
      · cases herror
      cases hatEnd
      split at hothers
      · cases hothers
      rename_i hopen
      have hend : (do let _ ← blanks; lineBreak : Parser (List Char)) more = .ok (taken, middle) :=
        (bind_of_ok hblanks _).trans (expect_eq_ok hbreak)
      rcases bind_eq_error hothers with herror | ⟨_, _, -, hdone⟩
      · obtain ⟨asks, hasks, hrefused⟩ := ih herror
        exact ⟨asks, .later hfirst ⟨taken, middle, hend, hskip⟩ (by simpa using hopen) hasks, hrefused⟩
      · cases hdone

/-- An empty segment is reported where the target path of an item that the parse asks for has it. -/
theorem exists_askedIn {source : List Char} {failure : Failure}
    (hcause : failure.cause = .emptyPathSegment path) (h : program query source = .error failure) :
    ∃ asks : Attempt, AskedIn query source asks ∧ Form.path.Announced asks.text ∧
      ∃ (target : WrittenName) (rest : List Char), asks.text = target.text ++ rest ∧
        target.EndsBefore rest ∧ target.name = path ∧ target.EmptySegmentAt rest failure.rest := by
  rw [program] at h
  rcases bind_eq_error h with herror | ⟨_, text, hskip, hitems⟩
  · exact absurd herror (not_emptySegment belowStatements.blankLines_admitted hcause)
  rw [bind_of_ok (here_eq_ok text)] at hitems
  obtain ⟨asks, hasks, hpath, refused, htarget, hrest, hsame⟩ :=
    exists_asksInProgram hquery hcause hitems
  obtain ⟨target, rest, htext, hends, hname, hplace⟩ :=
    targetPath_eq_emptySegment (hsame.trans hcause) htarget
  rw [hrest] at hplace
  exact ⟨asks, ⟨text, hskip, hasks⟩, hpath, target, rest, htext, hends, hname, hplace⟩

end

end Remap.Item
