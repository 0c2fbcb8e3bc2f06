import Remap.Proofs.CommittedForms
import Remap.Proofs.StatementLines
import Remap.Proofs.TargetPaths

/-!
Keywords as targets.  A bare `meta` is never a target path: with an equals sign after it, blanks
before that or not, it assigns to all metadata.  A bare `map` or `let` with blanks after it must
have a name.  But directly before an equals sign neither of the two is recognised, and the path
form, which comes last, takes the keyword for the name of a field.
-/

namespace Remap

open Remap.Parser

theorem BeginsWord.mark {word : String} {inClass : Char → Bool} {c : Char} {text : List Char}
    (h : BeginsWord word inClass (word.toList ++ c :: text)) : inClass c = true := by
  obtain ⟨d, rest, htext, hd⟩ := h
  obtain ⟨rfl, -⟩ := List.cons.inj (List.append_cancel_left htext)
  exact hd

/-- A text begins with one keyword at most. -/
theorem BeginsWord.keyword_unique {word other : String} {inClass otherClass : Char → Bool}
    {text : List Char} (h : BeginsWord word inClass text)
    (hword : word ∈ ["map", "let", "meta"]) (hother : other ∈ ["map", "let", "meta"])
    (h' : BeginsWord other otherClass text) : word = other := by
  have hkeywords : ∀ word ∈ ["map", "let", "meta"], ∀ other ∈ ["map", "let", "meta"],
      word.toList <+: other.toList ∨ other.toList <+: word.toList → word = other := by
    decide
  exact hkeywords word hword other hother (h.comparable h')

/-- A keyword that is to be a path is one of two, with an equals sign directly after it. -/
theorem WrittenName.sign_of_announced_path {target : WrittenName} {after : List Char}
    (hpath : Item.Form.path.Announced (target.text ++ after))
    (hopens : Opens SpelledValue.isStart after) (hne : after ≠ []) (hkeyword : target.IsKeyword) :
    target.name ∈ ["map", "let"] ∧ after.head? = some '=' := by
  cases target with
  | quoted chars => exact hkeyword.elim
  | bare text nonempty =>
      obtain ⟨hnoMap, hnoLet, hnoMeta⟩ := hpath
      obtain ⟨c, after, rfl⟩ := List.exists_cons_of_ne_nil hne
      have hstart : SpelledValue.isStart c = true := Opens.cons_iff.mp hopens
      have hbegins (word : String) (hword : String.ofList text.chars = word)
          (inClass : Char → Bool) (hc : inClass c = true) :
          BeginsWord word inClass (text.chars ++ c :: after) :=
        ⟨c, after, by rw [← hword, String.toList_ofList], hc⟩
      have hsign (hblank : ¬isSpaceOrTab c = true) : c = '=' := by
        simpa [SpelledValue.isStart, hblank] using hstart
      have hchars := hkeyword
      simp only [IsKeyword, List.mem_cons, List.not_mem_nil, or_false] at hchars
      rcases hchars with hmap | hlet | hmeta
      · rw [hsign fun hblank => hnoMap (hbegins "map" hmap _ hblank)]
        exact ⟨by simp [name, hmap], rfl⟩
      · rw [hsign fun hblank => hnoLet (hbegins "let" hlet _ hblank)]
        exact ⟨by simp [name, hlet], rfl⟩
      · exact absurd (hbegins "meta" hmeta _ hstart) hnoMeta

namespace Item

variable {ε : Type} {query : Parser ε} {text rest : List Char}

/-- What is read as an assignment to a path begins with a target of these segments, and if that is a
keyword, with an equals sign directly after it. -/
theorem exists_target_of_parse {registry later : Registry} {remaining : Nat}
    {segments : List String} {value : ε}
    (h : parse query registry text = .ok ((.assign remaining (.path segments) value, later), rest)) :
    ∃ (target : WrittenName) (after : List Char), text = target.text ++ after ∧
      target.EndsBefore after ∧ segments = targetSegments target.name ∧
      (target.IsKeyword → target.name ∈ ["map", "let"] ∧ after.head? = some '=') := by
  obtain ⟨-, hnoMap, hassign⟩ := assignment_of_parse h
  rcases orElse_eq_ok hassign with hlet | ⟨hnoLet, hassign⟩
  · obtain ⟨_, _, _, hvar⟩ := letForm_yields query _ _ _ hlet
    cases hvar
  rcases orElse_eq_ok hassign with hmeta | ⟨hnoMeta, hpath⟩
  · obtain ⟨_, _, _, hmetadata⟩ := metaForm_yields query _ _ _ hmeta
    cases hmetadata
  obtain ⟨target, after, found, rfl, hends, -, hitem, hvalue⟩ := pathForm_eq_ok hpath
  cases hitem
  have hannounced := (announced_path_iff query).mpr ⟨hnoMap, hnoLet, hnoMeta⟩
  have hne : after ≠ [] := by
    obtain ⟨before, _, _, rfl, -⟩ := assigned_eq_ok hvalue
    simp
  exact ⟨target, after, rfl, hends, rfl,
    target.sign_of_announced_path hannounced (opens_of_assigned hvalue) hne⟩

/-- However deep in a block the text stands, it is read as an assignment to the target, of what is
assigned after it; if nothing can be, the failure is that of the item. -/
def ReadsAs (query : Parser ε) (text : List Char) (target : Target) (after : List Char) : Prop :=
  ∀ (bound : Nat) (registry : Registry), itemUpTo query (bound + 1) registry text =
    (assigned query after).map fun read =>
      ((.assign text.length target read.1, registry), read.2)

theorem bind_pure_eq_map {α β : Type} (p : Parser α) (f : α → β) (text : List Char) :
    (do return f (← p) : Parser β) text = (p text).map fun read => (f read.1, read.2) := by
  rw [bind_apply]
  cases p text <;> rfl

theorem readsAs_of_assignment {target : Target} {after : List Char}
    (hnoMap : Misses mapKeyword text)
    (h : assignment query text =
      (assigned query after).map fun read => (.assign text.length target read.1, read.2)) :
    ReadsAs query text target after := by
  intro bound registry
  cases hassigned : assigned query after with
  | ok read =>
      rw [hassigned] at h
      exact itemUpTo_of_assignment hnoMap h bound registry
  | error failure =>
      rw [hassigned] at h
      exact orElse_of_misses_committed (mapForm_misses_iff.mpr hnoMap) (bind_of_error h _)
        (assigned_insists query _ _ hassigned)

/-- A text that announces a path is read as an assignment to the target at its beginning. -/
theorem readsAs_path {target : WrittenName} {after : List Char}
    (hpath : Form.path.Announced (target.text ++ after)) (hends : target.EndsBefore after)
    (hparts : [] ∉ DotPath.split '.' target.name.toList) :
    ReadsAs query (target.text ++ after) (.path (targetSegments target.name)) after := by
  obtain ⟨hnoMap, hnoLet, hnoMeta⟩ := (announced_path_iff query).mp hpath
  have hform : ¬Misses (pathForm query) (target.text ++ after) := by
    rw [pathForm_misses_iff]
    exact (target.opens_text after).not_opens
      (List.append_ne_nil_of_left_ne_nil target.text_ne_nil after)
  refine readsAs_of_assignment hnoMap ?_
  rw [assignment, orElse_of_misses_not_misses hnoLet fun h => hform (misses_orElse_iff.mp h).2,
    orElse_of_misses_not_misses hnoMeta hform, pathForm, bind_of_ok (here_eq_ok _),
    bind_of_ok (targetPath_of_segments hends hparts)]
  exact bind_pure_eq_map _ _ _

/-- A keyword directly before an equals sign is a path of one segment, unless it is `meta`. -/
theorem readsAs_keyword {keyword : String} (hkeyword : keyword ∈ ["map", "let"])
    (after : List Char) :
    ReadsAs query (keyword.toList ++ '=' :: after) (.path [keyword]) ('=' :: after) := by
  have hwords : ∀ word ∈ ["map", "let"], word ∈ ["map", "let", "meta"] ∧
      word.toList.all isBareNameChar = true ∧ word.toList ≠ [] ∧
      [] ∉ DotPath.split '.' word.toList ∧ targetSegments word = [word] := by
    decide +kernel
  obtain ⟨hmem, hbare, hne, hparts, hsegments⟩ := hwords keyword hkeyword
  let target : WrittenName := .bare ⟨keyword.toList, hbare⟩ hne
  have hname : target.name = keyword := String.ofList_toList
  have hbegins : BeginsWord keyword (· = '=') (target.text ++ '=' :: after) :=
    ⟨'=', after, rfl, by decide⟩
  have hblank (word : String) (hword : word ∈ ["map", "let", "meta"]) :
      ¬BeginsWord word isSpaceOrTab (target.text ++ '=' :: after) := by
    intro h
    obtain rfl := hbegins.keyword_unique hmem hword h
    exact absurd h.mark (by decide)
  have hpath : Form.path.Announced (target.text ++ '=' :: after) := by
    refine ⟨hblank "map" (by decide), hblank "let" (by decide), fun hmeta => ?_⟩
    rw [hbegins.keyword_unique hmem (by decide) hmeta] at hkeyword
    exact absurd hkeyword (by decide)
  have hreads : ReadsAs query (target.text ++ '=' :: after) (.path (targetSegments target.name))
      ('=' :: after) :=
    readsAs_path hpath (Opens.cons_iff.mpr (by decide)) (by rwa [hname])
  rwa [hname, hsegments] at hreads

theorem readsAs_metadata (gap : Blanks) (after : List Char) :
    ReadsAs query ("meta".toList ++ (gap.chars ++ '=' :: after)) (.metadata none)
      ('=' :: after) := by
  have hopens : Opens SpelledValue.isStart (gap.chars ++ '=' :: after) := by
    refine (gap.opens.mono fun c hc => ?_).append (by simp [SpelledValue.isStart])
    simp [SpelledValue.isStart, hc]
  have hne : gap.chars ++ '=' :: after ≠ [] := by simp
  have hmeta : Form.metadata.Announced ("meta".toList ++ (gap.chars ++ '=' :: after)) := by
    obtain ⟨c, more, hmore⟩ := List.exists_cons_of_ne_nil hne
    rw [hmore] at hopens ⊢
    exact ⟨c, more, rfl, Opens.cons_iff.mp hopens⟩
  have hnoMap := mapKeyword_misses_iff.mpr (hmeta.not_announced (by decide : Form.map ≠ _))
  have hnoLet : Misses (letForm query) ("meta".toList ++ (gap.chars ++ '=' :: after)) :=
    letForm_misses_iff.mpr (hmeta.not_announced (by decide : Form.var ≠ _))
  have hform : ¬Misses (metaForm query) ("meta".toList ++ (gap.chars ++ '=' :: after)) := by
    rw [metaForm_misses_iff, Classical.not_not]
    exact hmeta
  have hboundary : ¬Misses metaBoundary (gap.chars ++ '=' :: after) := by
    rw [metaBoundary_misses_iff]
    exact hopens.not_opens hne
  obtain ⟨⟨_, left⟩, hmeets⟩ := metaBoundary_recovers.exists_ok hboundary
  have hsign : Opens (!isSpaceOrTab ·) ('=' :: after) := Opens.cons_iff.mpr (by decide)
  have hnoName : Misses name ('=' :: after) := name_misses (Opens.cons_iff.mpr (by decide))
  refine readsAs_of_assignment hnoMap ?_
  rw [assignment, orElse_of_misses_not_misses hnoLet fun h => hform (misses_orElse_iff.mp h).1,
    orElse_of_not_misses hform, metaForm, bind_of_ok (here_eq_ok _),
    bind_of_ok (keyword_append "meta" _), bind_of_ok (peek_of_ok hmeets),
    bind_of_ok (blanks_append gap hsign), bind_of_ok (optional_of_misses hnoName)]
  exact bind_pure_eq_map _ _ _

/-- A definition or a variable without a name is refused where the name is missing. -/
theorem itemUpTo_of_missingName {keyword label : String}
    (hkeyword : (keyword, label) ∈ [("map", "map-name"), ("let", "variable-name")]) (gap : Blanks1)
    (hname : Opens (!SpelledName.isStart ·) rest) (hgap : Opens (!isSpaceOrTab ·) rest)
    (bound : Nat) (registry : Registry) :
    itemUpTo query (bound + 1) registry (keyword.toList ++ (gap.chars ++ rest)) =
      .error ⟨true, rest, .expected label⟩ := by
  have hmissing (label : String) : commit (expect label name) rest =
      .error ⟨true, rest, .expected label⟩ :=
    commit_of_failed (expect_of_missed (name_of_opens hname) rfl rfl label)
  have hblanks := blanks1_append gap hgap
  simp only [List.mem_cons, Prod.mk.injEq, List.not_mem_nil, or_false] at hkeyword
  rcases hkeyword with ⟨rfl, rfl⟩ | ⟨rfl, rfl⟩
  · have hmap : mapKeyword ("map".toList ++ (gap.chars ++ rest)) = .ok ((), rest) := by
      rw [mapKeyword, bind_of_ok (keyword_append "map" _), bind_of_ok hblanks]
      rfl
    refine orElse_of_committed ?_ rfl _
    rw [mapForm, bind_of_ok (here_eq_ok _), bind_of_ok hmap]
    exact bind_of_error (hmissing "map-name") _
  · have hvar : Form.var.Announced ("let".toList ++ (gap.chars ++ rest)) := by
      obtain ⟨c, more, hmore⟩ := List.exists_cons_of_ne_nil gap.nonempty
      have hc := gap.of_mem (hmore ▸ List.mem_cons_self)
      exact ⟨c, more ++ rest, by rw [hmore, List.cons_append], hc⟩
    have hnoMap := mapKeyword_misses_iff.mpr (hvar.not_announced (by decide : Form.map ≠ _))
    have hlet : letForm query ("let".toList ++ (gap.chars ++ rest)) =
        .error ⟨true, rest, .expected "variable-name"⟩ := by
      rw [letForm, bind_of_ok (here_eq_ok _), bind_of_ok (keyword_append "let" _),
        bind_of_ok hblanks]
      exact bind_of_error (hmissing "variable-name") _
    have hassign : assignment query ("let".toList ++ (gap.chars ++ rest)) =
        .error ⟨true, rest, .expected "variable-name"⟩ := orElse_of_committed hlet rfl _
    exact orElse_of_misses_committed (mapForm_misses_iff.mpr hnoMap) (bind_of_error hassign _) rfl

end Item

namespace Plan

/-- What a keyword without a name is.  A path statement of an accepted source, at the top level or in
a map, was read from a target that, bare and spelled as a keyword, is `map` or `let` with an equals
sign directly after it.  These two are read as paths of one segment, whereas `meta` before an equals
sign, with blanks between them or not, assigns to all metadata.  With blanks after them `map` and
`let` must have a name: where a parse comes to one without, it fails at the place of the name. -/
theorem keyword_targets (file : Option String) (source : List Char) :
    (∀ plan : Plan Expr, parse file source = .ok plan →
      ∀ statements, plan.HasList statements →
        ∃ placed : List (Placed Expr), placed.map Placed.statement = statements ∧
          ∀ one ∈ placed, one.IsRead Expr.parse source ∧
            ∀ segments, one.statement.target = .path segments →
              ∃ (target : WrittenName) (after : List Char),
                source.drop one.start = target.text ++ after ∧ target.EndsBefore after ∧
                  segments = Item.targetSegments target.name ∧
                  (target.IsKeyword → target.name ∈ ["map", "let"] ∧ after.head? = some '=')) ∧
    (∀ keyword ∈ ["map", "let"], ∀ after,
      Item.ReadsAs Expr.parse (keyword.toList ++ '=' :: after) (.path [keyword]) ('=' :: after)) ∧
    (∀ (gap : Blanks) (after : List Char),
      Item.ReadsAs Expr.parse ("meta".toList ++ (gap.chars ++ '=' :: after)) (.metadata none)
        ('=' :: after)) ∧
    ∀ keyword label, (keyword, label) ∈ [("map", "map-name"), ("let", "variable-name")] →
      ∀ (gap : Blanks1) (rest : List Char), Opens (!SpelledName.isStart ·) rest →
        Opens (!isSpaceOrTab ·) rest →
          (∀ (bound : Nat) (registry : Item.Registry),
            Item.itemUpTo Expr.parse (bound + 1) registry (keyword.toList ++ (gap.chars ++ rest)) =
              .error ⟨true, rest, .expected label⟩) ∧
          ∀ asks, Item.AskedIn Expr.parse source asks →
            asks.text = keyword.toList ++ (gap.chars ++ rest) →
              parse file source =
                .error ⟨file, lineAt source (source.length - rest.length),
                  columnAt source (source.length - rest.length) + 1, .expected label⟩ := by
  refine ⟨?_, fun keyword hkeyword after => Item.readsAs_keyword hkeyword after,
    Item.readsAs_metadata, ?_⟩
  · intro plan hplan statements hlist
    obtain ⟨start, placed, hlisting⟩ :=
      exists_listing_of_parseWith Expr.parse_rereadsQueries hplan hlist
    refine ⟨placed, hlisting.statements, fun one hone => ⟨hlisting.read one hone, ?_⟩⟩
    intro segments htarget
    have hread := (hlisting.read one hone).reads .empty
    rw [htarget] at hread
    exact Item.exists_target_of_parse hread
  · intro keyword label hkeyword gap rest hname hgap
    have hrefused : ∀ (bound : Nat) (registry : Item.Registry),
        Item.itemUpTo Expr.parse (bound + 1) registry (keyword.toList ++ (gap.chars ++ rest)) =
          .error ⟨true, rest, .expected label⟩ :=
      Item.itemUpTo_of_missingName hkeyword gap hname hgap
    refine ⟨hrefused, fun asks hasks htext => ?_⟩
    have hne : asks.text ≠ [] := by simp [htext, gap.nonempty]
    exact hasks.parseWith_of_refused Expr.parse_confined hne (htext ▸ hrefused) file

/-- The two keywords as targets, one of them in quotes, and `meta` with blanks after it. -/
def keywordLines : List Char :=
  "map=1\n\"let\" = 2\nmeta \t= \x7b\x7d".toList

theorem keyword_targets_of_keywordLines :
    (∃ plan, parse none keywordLines = .ok plan ∧
      plan.statements.map Statement.target = [.path ["map"], .path ["let"], .metadata none] ∧
      ∃ placed : List (Placed Expr), placed.map Placed.statement = plan.statements ∧
        ∀ one ∈ placed, ∀ segments, one.statement.target = .path segments →
          ∃ (target : WrittenName) (after : List Char),
            keywordLines.drop one.start = target.text ++ after ∧
              segments = Item.targetSegments target.name ∧
              (target.IsKeyword → after.head? = some '=')) ∧
    Item.itemUpTo Expr.parse 1 .empty "map=1".toList =
      .ok ((.assign 5 (.path ["map"]) (.literal (.number (.integer 1 (by decide) (by decide)))),
        .empty), []) ∧
    Item.itemUpTo Expr.parse 1 .empty "meta \t= \x7b\x7d".toList =
      .ok ((.assign 10 (.metadata none) (.object []), .empty), []) ∧
    parse none Item.namelessVariable = .error ⟨none, 3, 7, .expected "variable-name"⟩ := by
  obtain ⟨hpaths, hkeyword, hmetadata, -⟩ := keyword_targets none keywordLines
  refine ⟨?_, ?_, ?_, ?_⟩
  · have hsome : (parse none keywordLines).toOption.map
        (fun plan => plan.statements.map Statement.target) =
          some [.path ["map"], .path ["let"], .metadata none] := by
      decide +kernel
    obtain ⟨plan, hplan, htargets⟩ := Option.map_eq_some_iff.mp hsome
    have hparse := eq_ok_of_toOption hplan
    obtain ⟨placed, hplaced, hread⟩ := hpaths plan hparse plan.statements (.inl rfl)
    refine ⟨plan, hparse, htargets, placed, hplaced, fun one hone segments htarget => ?_⟩
    obtain ⟨target, after, htext, -, hsegments, hsign⟩ := (hread one hone).2 segments htarget
    exact ⟨target, after, htext, hsegments, fun h => (hsign h).2⟩
  · exact (hkeyword "map" (by decide) ['1'] 0 .empty).trans rfl
  · exact (hmetadata ⟨[' ', '\t'], by decide⟩ " \x7b\x7d".toList 0 .empty).trans rfl
  · obtain ⟨-, -, -, hmissing⟩ := keyword_targets none Item.namelessVariable
    obtain ⟨-, hfails⟩ := hmissing "let" "variable-name" (by decide) ⟨⟨[' '], by decide⟩, by decide⟩
      ('=' :: Item.namelessVariable.drop 23) (Opens.cons_iff.mpr (by decide))
      (Opens.cons_iff.mpr (by decide))
    have herror := hfails _ Item.askedIn_namelessVariable rfl
    rw [herror]
    exact congrArg Except.error (by decide +kernel)

/-- So a plan can assign to a field that is called as the keyword of a variable without a name. -/
theorem exists_path_of_keyword :
    ∃ plan, parse none "let=5".toList = .ok plan ∧
      plan.statements.map Statement.target = [.path ["let"]] := by
  have hsome : (parse none "let=5".toList).toOption.map
      (fun plan => plan.statements.map Statement.target) = some [.path ["let"]] := by
    decide +kernel
  obtain ⟨plan, hplan, htargets⟩ := Option.map_eq_some_iff.mp hsome
  exact ⟨plan, eq_ok_of_toOption hplan, htargets⟩

end Plan

end Remap
