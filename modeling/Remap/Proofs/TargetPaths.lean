import Remap.Proofs.Attempts
import Remap.Proofs.CopiedFields
import Remap.Proofs.EveryStatement

/-!
Target paths.  A path text whose segments have characters is a target with these segments, written
in quotes or bare, with one `root` before it or none.  A path text with an empty segment is refused,
so that no target of a plan has one.
-/

namespace Remap

open Remap.Parser

namespace DotPath

/-- No escape stands for a character of a word without dots and tildes, so the word is written as it
is. -/
theorem eq_of_unescape_eq {part word : List Char} (hdot : '.' ∉ word) (htilde : '~' ∉ word)
    (h : unescape part = word) : part = word := by
  fun_induction unescape part generalizing word with
  | case1 rest ih =>
      subst h
      exact absurd List.mem_cons_self hdot
  | case2 rest ih =>
      subst h
      exact absurd List.mem_cons_self htilde
  | case3 c rest _ _ ih =>
      subst h
      simp only [List.mem_cons, not_or] at hdot htilde
      exact congrArg (c :: ·) (ih hdot.2 htilde.2 rfl)
  | case4 => exact h

/-- The first key is `root` only if the first segment is written so. -/
theorem head?_split_of_keys {path : String} {rest : List String} (h : keys path = "root" :: rest) :
    (split '.' path.toList).head? = some "root".toList := by
  cases hsplit : split '.' path.toList with
  | nil => exact absurd hsplit (split_ne_nil '.' _)
  | cons part parts =>
      rw [keys, hsplit, List.map_cons] at h
      have hroot : unescape part = "root".toList := by
        rw [← (List.cons.inj h).1, String.toList_ofList]
      rw [eq_of_unescape_eq (by decide) (by decide) hroot]
      rfl

theorem not_mem_split_root {path : String} (h : [] ∉ split '.' path.toList) :
    [] ∉ split '.' ("root." ++ path).toList := by
  rw [split_root, List.mem_cons, not_or]
  exact ⟨by decide, h⟩

end DotPath

namespace WrittenName

/-- A bare name that is the keyword of a form. -/
def IsKeyword : WrittenName → Prop
  | .quoted _ => False
  | .bare text _ => String.ofList text.chars ∈ ["map", "let", "meta"]

variable {target : WrittenName} {rest : List Char}

/-- A text begins with a keyword and something after it only if the keyword is its first name. -/
theorem isKeyword_of_beginsWord {word : String} {inClass : Char → Bool}
    (hmem : word ∈ ["map", "let", "meta"])
    (hclass : ∀ c, inClass c = true → isBareNameChar c = false) (hends : target.EndsBefore rest)
    (h : BeginsWord word inClass (target.text ++ rest)) : target.IsKeyword := by
  have hbare : ∀ word ∈ ["map", "let", "meta"], word.toList.all isBareNameChar = true := by decide
  have hhead : ∀ word ∈ ["map", "let", "meta"], word.toList.head?.any (· ≠ '"') = true := by decide
  obtain ⟨c, left, htext, hc⟩ := h
  cases target with
  | quoted chars =>
      have hfirst := hhead word hmem
      cases hword : word.toList with
      | nil =>
          rw [hword] at hfirst
          cases hfirst
      | cons d front =>
          rw [hword] at htext hfirst
          obtain rfl : '"' = d := (List.cons.inj htext).1
          cases hfirst
  | bare text nonempty =>
      have hstop : Opens (!isBareNameChar ·) (c :: left) := by
        simp [hclass c hc]
      have hname := takeWhile_append_of_opens text hends
      have hword := takeWhile_append_of_opens ⟨word.toList, hbare word hmem⟩ hstop
      rw [← htext] at hword
      have hchars : text.chars = word.toList := hname.symm.trans hword
      rw [IsKeyword, hchars, String.ofList_toList]
      exact hmem

theorem announced_path (hends : target.EndsBefore rest) (h : ¬target.IsKeyword) :
    Item.Form.path.Announced (target.text ++ rest) := by
  have hblank (c : Char) (hc : isSpaceOrTab c = true) : isBareNameChar c = false :=
    SpelledValue.isBareNameChar_of_isStart c (by simp [SpelledValue.isStart, hc])
  refine ⟨fun hmap => h ?_, fun hlet => h ?_, fun hmeta => h ?_⟩
  · exact isKeyword_of_beginsWord (by decide) hblank hends hmap
  · exact isKeyword_of_beginsWord (by decide) hblank hends hlet
  · exact isKeyword_of_beginsWord (by decide) SpelledValue.isBareNameChar_of_isStart hends hmeta

theorem name_mem_of_isKeyword (h : target.IsKeyword) : target.name ∈ ["map", "let", "meta"] := by
  cases target with
  | quoted chars => cases h
  | bare text nonempty => exact h

theorem not_isKeyword_of_emptySegment (h : [] ∈ DotPath.split '.' target.name.toList) :
    ¬target.IsKeyword := by
  intro hkeyword
  have hnone : ∀ word ∈ ["map", "let", "meta"], [] ∉ DotPath.split '.' word.toList := by decide
  exact hnone _ (name_mem_of_isKeyword hkeyword) h

theorem not_isKeyword_of_root {path : String} (h : target.name = "root." ++ path) :
    ¬target.IsKeyword := by
  intro hkeyword
  have hnone : ∀ word ∈ ["map", "let", "meta"], word.toList.head? ≠ some 'r' := by decide
  refine hnone _ (name_mem_of_isKeyword hkeyword) ?_
  rw [h, String.toList_append]
  rfl

theorem text_ne_nil (target : WrittenName) : target.text ≠ [] := by
  cases target with
  | quoted chars => exact List.cons_ne_nil _ _
  | bare text nonempty => exact nonempty

/-- Every path text can be written in quotes, and bare if it has characters and all of them may
stand in a bare path. -/
theorem exists_written (path : String) :
    (∃ chars, (WrittenName.quoted chars).name = path) ∧
      (path ≠ "" → path.toList.all isBareNameChar = true →
        ∃ text nonempty, (WrittenName.bare text nonempty).name = path) := by
  constructor
  · obtain ⟨chars, -, hchars⟩ := Spelling.exists_written_chars path.toList
    exact ⟨chars, by rw [name, hchars, String.ofList_toList]⟩
  · intro hne hall
    exact ⟨⟨path.toList, hall⟩, by simpa using hne, String.ofList_toList⟩

end WrittenName

namespace Item

variable {ε : Type} {query : Parser ε} {target : WrittenName} {path : String}
  {text after rest : List Char} {value : ε}

/-- Whatever value it is assigned, and however deep in a block, the target is read as a path with
these segments. -/
def ReadsPath (query : Parser ε) (target : WrittenName) (segments : List String) : Prop :=
  ∀ (bound : Nat) (registry : Registry) (after rest : List Char) (value : ε),
    assigned query after = .ok (value, rest) →
      itemUpTo query (bound + 1) registry (target.text ++ after) =
        .ok ((.assign (target.text ++ after).length (.path segments) value, registry), rest)

theorem opens_of_assigned (h : assigned query after = .ok (value, rest)) :
    Opens SpelledValue.isStart after := by
  obtain ⟨before, _, _, rfl, -⟩ := assigned_eq_ok h
  refine (before.opens.mono fun c hc => ?_).append (by simp [SpelledValue.isStart])
  simp [SpelledValue.isStart, hc]

theorem readsPath_of_segments (hkeyword : ¬target.IsKeyword)
    (hparts : [] ∉ DotPath.split '.' target.name.toList) :
    ReadsPath query target (targetSegments target.name) := by
  intro bound registry after rest value hvalue
  have hends := target.endsBefore_of_opens
    ((opens_of_assigned hvalue).apart SpelledValue.isBareNameChar_of_isStart)
  have hform := pathForm_of_ok (targetPath_of_segments hends hparts) hvalue
  obtain ⟨hmap, hlet, hmeta⟩ :=
    (announced_path_iff query).mp (WrittenName.announced_path hends hkeyword)
  have hassign := orElse_of_misses hlet (orElse_of_misses hmeta hform)
  exact itemUpTo_of_assignment hmap hassign bound registry

theorem targetSegments_of_ne_root
    (h : (DotPath.split '.' path.toList).head? ≠ some "root".toList) :
    targetSegments path = DotPath.keys path := by
  rw [targetSegments]
  split
  · rename_i rest hkeys
    exact absurd (DotPath.head?_split_of_keys hkeys) h
  · rfl

/-- With a `root` before its path a target is what it is without. -/
theorem readsPath_root (hparts : [] ∉ DotPath.split '.' path.toList)
    (hname : target.name = "root." ++ path) : ReadsPath query target (DotPath.keys path) := by
  have hroot : [] ∉ DotPath.split '.' target.name.toList :=
    hname ▸ DotPath.not_mem_split_root hparts
  have hreads : ReadsPath query target (targetSegments target.name) :=
    readsPath_of_segments (WrittenName.not_isKeyword_of_root hname) hroot
  rwa [hname, targetSegments_root] at hreads

theorem itemUpTo_of_emptySegment (query : Parser ε) (hends : target.EndsBefore rest)
    (hempty : [] ∈ DotPath.split '.' target.name.toList) :
    ∃ place, target.EmptySegmentAt rest place ∧
      ∀ (bound : Nat) (registry : Registry),
        itemUpTo query (bound + 1) registry (target.text ++ rest) =
          .error ⟨true, place, .emptyPathSegment target.name⟩ := by
  obtain ⟨place, hplace, hfails⟩ := targetPath_of_emptySegment hends hempty
  refine ⟨place, hplace, fun bound registry => ?_⟩
  have hpath : Form.path.Announced (target.text ++ rest) :=
    WrittenName.announced_path hends (WrittenName.not_isKeyword_of_emptySegment hempty)
  obtain ⟨hmap, hlet, hmeta⟩ := (announced_path_iff query).mp hpath
  have hform : pathForm query (target.text ++ rest) =
      .error ⟨true, place, .emptyPathSegment target.name⟩ := by
    rw [pathForm, bind_of_ok (here_eq_ok _)]
    exact bind_of_error hfails _
  have hassign : assignment query (target.text ++ rest) =
      .error ⟨true, place, .emptyPathSegment target.name⟩ :=
    orElse_of_misses_committed hlet (orElse_of_misses_committed hmeta hform rfl) rfl
  exact orElse_of_misses_committed (mapForm_misses_iff.mpr hmap) (bind_of_error hassign _) rfl

theorem assignment_noEmptySegment (query : Parser ε) :
    Yields (assignment query) (Leaves fun statement => statement.target.NoEmptySegment) := by
  refine (assignment_assigns query).mono ?_
  rintro _ ⟨remaining, target, value, rfl, htarget⟩
  exact .assign fun _ => htarget

/-- Where the parse of a mapping asks for an item whose target has an empty segment, it fails. -/
theorem parseWith_of_emptySegment (hquery : ∀ limit, Confined limit query) {source : List Char}
    {asks : Attempt} {failure : Failure} (hasks : AskedIn query source asks)
    (htext : asks.text = target.text ++ rest)
    (hfails : ∀ (bound : Nat) (registry : Registry),
      itemUpTo query (bound + 1) registry (target.text ++ rest) = .error failure)
    (file : Option String) :
    Plan.parseWith query file source =
      .error ⟨file, lineAt source (source.length - failure.rest.length),
        columnAt source (source.length - failure.rest.length) + 1, failure.cause⟩ := by
  refine hasks.parseWith_of_refused hquery ?_ ?_ file
  · rw [htext]
    exact List.append_ne_nil_of_left_ne_nil target.text_ne_nil rest
  · rw [htext]
    exact hfails

/-- Every path text can be written in quotes and, if its characters allow it, bare.  If all its
segments have characters, then with `root` before it, and without if it does not begin with `root`
itself and is no bare keyword, it is a target with its keys as segments; of two `root`s before it
one is removed.  If it has an empty segment, the item fails for good where the target has the first
one, for a quoted target at the opening quote, and so does the parse that asked for the item.  So no
target of a plan has an empty segment. -/
theorem target_path_law (query : Parser ε) :
    (∀ path : String, (∃ chars, (WrittenName.quoted chars).name = path) ∧
      (path ≠ "" → path.toList.all isBareNameChar = true →
        ∃ text nonempty, (WrittenName.bare text nonempty).name = path)) ∧
    (∀ (path : String) (target : WrittenName), [] ∉ DotPath.split '.' path.toList →
      (target.name = "root." ++ path ∨ target.name = path ∧ ¬target.IsKeyword ∧
        (DotPath.split '.' path.toList).head? ≠ some "root".toList) →
      ReadsPath query target (DotPath.keys path)) ∧
    (∀ (path : String) (target : WrittenName), [] ∉ DotPath.split '.' path.toList →
      target.name = "root.root." ++ path → ReadsPath query target ("root" :: DotPath.keys path)) ∧
    (∀ (target : WrittenName) (rest : List Char), [] ∈ DotPath.split '.' target.name.toList →
      target.EndsBefore rest →
      ∃ place, target.EmptySegmentAt rest place ∧
        (∀ (bound : Nat) (registry : Registry),
          itemUpTo query (bound + 1) registry (target.text ++ rest) =
            .error ⟨true, place, .emptyPathSegment target.name⟩) ∧
        ((∀ limit, Confined limit query) →
          ∀ (file : Option String) (source : List Char) (asks : Attempt),
            AskedIn query source asks → asks.text = target.text ++ rest →
              Plan.parseWith query file source =
                .error ⟨file, lineAt source (source.length - place.length),
                  columnAt source (source.length - place.length) + 1,
                  .emptyPathSegment target.name⟩)) ∧
    ∀ (file : Option String) (source : List Char) (plan : Plan ε),
      Plan.parseWith query file source = .ok plan →
        (∀ statement ∈ plan.statements, statement.target.NoEmptySegment) ∧
          ∀ name body, plan.maps.get? name = some body →
            ∀ statement ∈ body, statement.target.NoEmptySegment := by
  refine ⟨WrittenName.exists_written, fun path target hparts hname => ?_,
    fun path target hparts hname => ?_, fun target rest hempty hends => ?_,
    fun file source plan => Plan.forall_statement_of_parseWith (assignment_noEmptySegment query)⟩
  · rcases hname with hroot | ⟨rfl, hkeyword, hfirst⟩
    · exact readsPath_root hparts hroot
    · rw [← targetSegments_of_ne_root hfirst]
      exact readsPath_of_segments hkeyword hparts
  · rw [← DotPath.keys_root]
    refine readsPath_root (DotPath.not_mem_split_root hparts) ?_
    rw [hname, ← String.append_assoc]
    rfl
  · obtain ⟨place, hplace, hfails⟩ := itemUpTo_of_emptySegment query hends hempty
    exact ⟨place, hplace, hfails, fun hquery file source asks hasks htext =>
      parseWith_of_emptySegment hquery hasks htext hfails file⟩

/-- A bare path with two empty segments. -/
def doubledDots : WrittenName :=
  .bare ⟨"b..c.".toList, by decide⟩ (by decide)

theorem target_path_law_of_rootTwice :
    itemUpTo Expr.parse 1 .empty "root.root.a~1b = null".toList =
        .ok ((.assign 21 (.path ["root", "a.b"]) (.literal .null), .empty), []) ∧
      itemUpTo Expr.parse 1 .empty "\"map\"= null".toList =
        .ok ((.assign 11 (.path ["map"]) (.literal .null), .empty), []) ∧
      Plan.parse none "# é\n b..c. = 2".toList =
        .error ⟨none, 2, 4, .emptyPathSegment "b..c."⟩ ∧
      ∃ plan, Plan.parse none "root.root.a~1b = null".toList = .ok plan ∧
        ∀ statement ∈ plan.statements, statement.target.NoEmptySegment := by
  obtain ⟨-, hpath, htwice, hempty, hplan⟩ := target_path_law Expr.parse
  refine ⟨?_, ?_, ?_, ?_⟩
  · let target : WrittenName := .bare ⟨"root.root.a~1b".toList, by decide⟩ (by decide)
    have hvalue : assigned Expr.parse " = null".toList = .ok (.literal .null, []) :=
      assigned_text ⟨⟨[' '], rfl⟩, ⟨[' '], rfl⟩, .null⟩ .nil
    have hkeys : DotPath.keys "a~1b" = ["a.b"] := by decide +kernel
    have hreads := htwice "a~1b" target (by decide) (by decide)
    rw [hkeys] at hreads
    exact hreads 0 .empty _ _ _ hvalue
  · let target : WrittenName :=
      .quoted [.plain 'm' (by decide), .plain 'a' (by decide), .plain 'p' (by decide)]
    have hvalue : assigned Expr.parse "= null".toList = .ok (.literal .null, []) :=
      assigned_text ⟨.empty, ⟨[' '], rfl⟩, .null⟩ .nil
    have hkeys : DotPath.keys "map" = ["map"] := by decide +kernel
    have hreads := hpath "map" target (by decide) (.inr ⟨rfl, id, by decide⟩)
    rw [hkeys] at hreads
    exact hreads 0 .empty _ _ _ hvalue
  · obtain ⟨place, -, hitem, hfails⟩ := hempty doubledDots " = 2".toList (by decide)
      (Opens.cons_iff.mpr (by decide))
    have hplace : itemUpTo Expr.parse 1 .empty "b..c. = 2".toList =
        .error ⟨true, ".c. = 2".toList, .emptyPathSegment "b..c."⟩ :=
      eq_error_of_match (by decide +kernel)
    obtain rfl : place = ".c. = 2".toList :=
      congrArg Failure.rest (Except.error.inj ((hitem 0 .empty).symm.trans hplace))
    have hskip : blankLines "# é\n b..c. = 2".toList = .ok ((), "b..c. = 2".toList) :=
      eq_ok_of_toOption (by decide +kernel)
    have hasks : AskedIn Expr.parse "# é\n b..c. = 2".toList ⟨9, .empty, "b..c. = 2".toList⟩ :=
      ⟨_, hskip, .first (.itself _)⟩
    have herror := hfails Expr.parse_confined none _ _ hasks rfl
    rw [Plan.parse, herror]
    exact congrArg Except.error (by decide +kernel)
  · have hsome : (Plan.parse none "root.root.a~1b = null".toList).toOption.map Plan.mapNames =
        some [] := by
      decide +kernel
    obtain ⟨plan, hparse, -⟩ := Option.map_eq_some_iff.mp hsome
    have hok := eq_ok_of_toOption hparse
    exact ⟨plan, hok, (hplan none _ plan hok).1⟩

end Item

end Remap
