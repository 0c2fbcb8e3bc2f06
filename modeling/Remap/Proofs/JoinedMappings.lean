import Remap.Proofs.JoinedOutlines
import Remap.Proofs.ReadOutlines

/-!
Mappings joined.  Every mapping that parses is the text of an outline, and the outlines of two
mappings with a line feed between them are joined into one.  So the joined mapping has the
statements and the maps of both, the second one further down, unless both define a map of one name.
-/

namespace Remap

open Remap.Parser

variable {ε : Type} {query : Parser ε}

namespace Plan

variable (lineOf : Nat → Nat) (first second : List (Item ε))

theorem statements_ofItems_append : (ofItems lineOf (first ++ second)).statements =
    (ofItems lineOf first).statements ++ (ofItems lineOf second).statements :=
  Item.statements_append lineOf first second

theorem get?_maps_ofItems_append
    (h : ((Item.definitionsIn lineOf (first ++ second)).map (·.1)).Nodup) (name : String) :
    (ofItems lineOf (first ++ second)).maps.get? name =
      ((ofItems lineOf first).maps.get? name).or ((ofItems lineOf second).maps.get? name) := by
  rw [Item.definitionsIn_append] at h
  rw [ofItems, Item.definitionsIn_append]
  exact Dictionary.get?_ofList_append h name

end Plan

mutual

/-- The places of the items are within their text and what follows it. -/
theorem OutlineItem.placedWithin : (item : OutlineItem query) → (after : Nat) →
    Item.PlacedWithin (item.text.length + after) [item.item after]
  | .assign assignment, after => .assign (Nat.le_refl _) _ _
  | .map gap name beforeBrace lead body tail, after => by
    refine .map fun place hplace => ?_
    have hle := body.placedWithin (tail.text.length + (after + 1)) place hplace
    simp only [OutlineItem.text, List.length_append, List.length_cons]
    omega

theorem OutlineBody.placedWithin : (body : OutlineBody query) → (after : Nat) →
    Item.PlacedWithin (body.text.length + after) (body.items after)
  | .last item, after => item.placedWithin after
  | .cons item between rest, after => by
    have hitem := item.placedWithin (between.text.length + (rest.text.length + after))
    have hrest := rest.placedWithin after
    rw [OutlineBody.items, OutlineBody.text, List.length_append, List.length_append]
    refine .cons (fun place hplace => ?_) fun place hplace => ?_
    · have hle := hitem place hplace
      omega
    · have hle := hrest place hplace
      omega

end

namespace Outline

variable (outline first second : Outline query)

/-- The plan of the items. -/
def plan : Plan ε :=
  .ofItems (lineOfRemaining outline.text) outline.items

theorem placedWithin : Item.PlacedWithin outline.text.length outline.items := by
  intro place hplace
  have hle := outline.body.placedWithin outline.ending.text.length place hplace
  rw [text, List.length_append, List.length_append]
  omega

theorem parseWith_eq_ok_iff {outline : Outline query} {file : Option String} {plan : Plan ε} :
    Plan.parseWith query file outline.text = .ok plan ↔
      outline.names.Nodup ∧ outline.plan = plan := by
  by_cases hnames : outline.names.Nodup
  · have hread := outline.program_settles.reads (outline.collision?_eq_none_iff.mpr hnames)
    have hparse : Plan.parseWith query file outline.text = .ok outline.plan := by
      rw [Plan.parseWith, hread]
      rfl
    rw [hparse, Except.ok.injEq]
    exact (and_iff_right hnames).symm
  · obtain ⟨_, _, _, _, -, -, -, -, herror⟩ :=
      Plan.exists_collision_of_not_nodup outline file hnames
    simp [herror, hnames]

theorem mem_mapNames_plan {name : String} : name ∈ outline.plan.mapNames ↔ name ∈ outline.names := by
  rw [Plan.mapNames, plan, Plan.ofItems, Dictionary.mem_keys_ofList]
  exact (outline.body.names_definitions _ _).mem_iff

/-- The second mapping begins on a line of its own. -/
theorem text_join_line : (first.join second).text = (first.text ++ ['\n']) ++ second.text := by
  simp [text_join]

/-- The items of the first mapping are on the same lines of the joined one. -/
theorem ofItems_join_first :
    Plan.ofItems (lineOfRemaining (first.join second).text)
        (first.body.items (first.ending.text.length + ('\n' :: second.text).length)) =
      first.plan := by
  have hlines (place : Nat) (h : place ∈ Item.placesIn first.items) :
      lineOfRemaining (first.join second).text (place + ('\n' :: second.text).length) =
        lineOfRemaining first.text place + 0 := by
    rw [text_join]
    exact lineOfRemaining_above first.text _ (first.placedWithin place h)
  rw [OutlineBody.ofItems_add]
  exact (Plan.ofItems_movedDown hlines).trans first.plan.movedDown_zero

/-- The items of the second mapping are on lines further down. -/
theorem ofItems_join_second :
    Plan.ofItems (lineOfRemaining (first.join second).text) second.items =
      second.plan.movedDown (first.text.count '\n' + 1) := by
  refine Plan.ofItems_movedDown fun place h => ?_
  rw [text_join_line, lineOfRemaining_below _ (second.placedWithin place h), List.count_append,
    List.count_singleton_self]

theorem statements_join : (first.join second).plan.statements =
    first.plan.statements ++ (second.plan.movedDown (first.text.count '\n' + 1)).statements := by
  rw [plan, items_join, Plan.statements_ofItems_append, ofItems_join_first, ofItems_join_second]

theorem get?_maps_join (h : (first.join second).names.Nodup) (name : String) :
    (first.join second).plan.maps.get? name =
      (first.plan.maps.get? name).or
        ((second.plan.movedDown (first.text.count '\n' + 1)).maps.get? name) := by
  have hnames := ((first.join second).body.names_definitions
    (lineOfRemaining (first.join second).text) (first.join second).ending.text.length).nodup_iff.mpr h
  rw [← items, items_join] at hnames
  rw [plan, items_join, Plan.get?_maps_ofItems_append _ _ _ hnames, ofItems_join_first,
    ofItems_join_second]

/-- A definition of the outline is the first in the order of the text whose name is one of these. -/
structure FirstNamed (outline : Outline query) (names : List String) (start : MapStart) : Prop where
  mem : start ∈ outline.starts
  named : start.name ∈ names
  unnamed_before (other : MapStart) : other ∈ outline.starts → other.Before start →
    other.name ∉ names

/-- If the names of an outline differ, it collides with other names where it has the first of
them. -/
theorem firstNamed_of_collision? {outline : Outline query} {names : List String} {start : MapStart}
    (hnodup : outline.names.Nodup) (h : collision? names outline.starts = some start) :
    outline.FirstNamed names start := by
  obtain ⟨earlier, later, hsplit, hearlier, hname⟩ := exists_split_of_collision? h
  rw [← outline.map_name_starts, hsplit, List.map_append, List.nodup_append] at hnodup
  obtain ⟨-, -, hdiffer⟩ := hnodup
  have hpairwise : (earlier ++ start :: later).Pairwise MapStart.Before :=
    hsplit ▸ outline.body.starts_pairwise outline.ending.text
  refine ⟨by simp [hsplit], hname.resolve_left fun hrepeated => ?_, fun other hother hbefore => ?_⟩
  · exact hdiffer _ hrepeated _ List.mem_cons_self rfl
  · -- What begins before the definition is listed before it.
    rw [hsplit] at hother
    rcases List.mem_append.mp hother with hmem | hmem
    · exact (Remap.collision?_eq_none_iff.mp hearlier).2 _ (List.mem_map_of_mem hmem)
    · have hrest := (List.pairwise_append.mp hpairwise).2.1
      rcases List.mem_cons.mp hmem with rfl | hlater
      · exact absurd hbefore (Nat.lt_irrefl _)
      · exact absurd hbefore (Nat.lt_asymm ((List.pairwise_cons.mp hrest).1 other hlater))

/-- If the names of the first mapping differ, the joined one collides where the second one has a name
of the first. -/
theorem collision?_join (h : first.names.Nodup) :
    collision? Item.Registry.empty.known (first.join second).starts =
      collision? first.names second.starts := by
  have hnames := first.body.map_name_starts (first.ending.text ++ '\n' :: second.text)
  have hnone : collision? Item.Registry.empty.known
      (first.body.starts (first.ending.text ++ '\n' :: second.text)) = none := by
    rw [Remap.collision?_eq_none_iff, hnames]
    exact ⟨h, fun _ _ => List.not_mem_nil⟩
  rw [starts_join, collision?_append, hnone, hnames]
  exact congrArg (collision? · second.starts) (List.append_nil first.names)

variable {first second}

theorem parseWith_join_of_disjoint (file : Option String) (hfirst : first.names.Nodup)
    (hsecond : second.names.Nodup) (hdisjoint : ∀ name ∈ second.names, name ∉ first.names) :
    Plan.parseWith query file (first.text ++ '\n' :: second.text) = .ok (first.join second).plan := by
  rw [← text_join, parseWith_eq_ok_iff, names_join, List.nodup_append]
  refine ⟨⟨hfirst, hsecond, fun name hname other hother heq => ?_⟩, rfl⟩
  exact hdisjoint other hother (heq ▸ hname)

theorem parseWith_join_of_common (file : Option String) (hfirst : first.names.Nodup)
    (hsecond : second.names.Nodup) (hcommon : ∃ name ∈ second.names, name ∈ first.names) :
    ∃ start before, second.FirstNamed first.names start ∧ second.text = before ++ start.place ∧
      Plan.parseWith query file (first.text ++ '\n' :: second.text) =
        .error ⟨file, first.text.count '\n' + 1 + lineAt second.text before.length,
          columnAt second.text before.length + 1, .mapCollision start.name⟩ := by
  have hcollides : collision? first.names second.starts ≠ none := by
    obtain ⟨name, hname, hknown⟩ := hcommon
    rw [Ne, Remap.collision?_eq_none_iff, second.map_name_starts]
    exact fun hnone => hnone.2 name hname hknown
  obtain ⟨start, hstart⟩ := Option.ne_none_iff_exists'.mp hcollides
  have hfirstNamed := firstNamed_of_collision? hsecond hstart
  obtain ⟨before, hbefore⟩ := (second.within_of_mem_starts hfirstNamed.mem).suffix
  refine ⟨start, before, hfirstNamed, hbefore.symm, ?_⟩
  have hplace : (first.join second).text = ((first.text ++ ['\n']) ++ before) ++ start.place := by
    rw [text_join_line, ← hbefore, List.append_assoc _ before]
  have hends : EndsLines (first.text ++ ['\n']) := by
    intro c hc
    simpa [eq_comm] using hc
  have herror := Plan.parseWith_of_collision (first.join second) file
    ((collision?_join first second hfirst).trans hstart) hplace
  rw [text_join_line, List.length_append, lineAt_append, columnAt_append hends, List.count_append,
    List.count_singleton_self, ← text_join_line, text_join] at herror
  exact herror

end Outline

namespace Plan

/-- Every mapping that parses is the text of an outline. -/
theorem exists_outline (hquery : RereadsQueries query) {file : Option String} {source : List Char}
    {plan : Plan ε} (h : parseWith query file source = .ok plan) :
    ∃ outline : Outline query, outline.text = source := by
  rw [parseWith] at h
  cases hprogram : Item.program query source with
  | ok result => exact Item.exists_outline_of_program hquery hprogram
  | error failure =>
      rw [hprogram] at h
      cases h

section

variable {file : Option String} {first second : List Char} {firstPlan secondPlan : Plan ε}

theorem parseWith_join_of_disjoint (hquery : RereadsQueries query)
    (hfirst : parseWith query file first = .ok firstPlan)
    (hsecond : parseWith query file second = .ok secondPlan)
    (hdisjoint : ∀ name ∈ secondPlan.mapNames, name ∉ firstPlan.mapNames) :
    ∃ plan, parseWith query file (first ++ '\n' :: second) = .ok plan ∧
      plan.statements =
        firstPlan.statements ++ (secondPlan.movedDown (first.count '\n' + 1)).statements ∧
      ∀ name, plan.maps.get? name =
        (firstPlan.maps.get? name).or
          ((secondPlan.movedDown (first.count '\n' + 1)).maps.get? name) := by
  obtain ⟨one, rfl⟩ := exists_outline hquery hfirst
  obtain ⟨two, rfl⟩ := exists_outline hquery hsecond
  obtain ⟨hone, rfl⟩ := Outline.parseWith_eq_ok_iff.mp hfirst
  obtain ⟨htwo, rfl⟩ := Outline.parseWith_eq_ok_iff.mp hsecond
  simp only [Outline.mem_mapNames_plan] at hdisjoint
  have hjoined := Outline.parseWith_join_of_disjoint file hone htwo hdisjoint
  have hnames : (one.join two).names.Nodup := by
    rw [← Outline.text_join] at hjoined
    exact (Outline.parseWith_eq_ok_iff.mp hjoined).1
  exact ⟨_, hjoined, one.statements_join two, one.get?_maps_join two hnames⟩

theorem parseWith_join_of_common (hquery : RereadsQueries query)
    (hfirst : parseWith query file first = .ok firstPlan)
    (hsecond : parseWith query file second = .ok secondPlan)
    (hcommon : ∃ name ∈ secondPlan.mapNames, name ∈ firstPlan.mapNames)
    (outline : Outline query) (houtline : outline.text = second) :
    ∃ start before, outline.FirstNamed firstPlan.mapNames start ∧ second = before ++ start.place ∧
      parseWith query file (first ++ '\n' :: second) =
        .error ⟨file, first.count '\n' + 1 + lineAt second before.length,
          columnAt second before.length + 1, .mapCollision start.name⟩ := by
  obtain ⟨one, rfl⟩ := exists_outline hquery hfirst
  subst houtline
  obtain ⟨hone, rfl⟩ := Outline.parseWith_eq_ok_iff.mp hfirst
  obtain ⟨hnames, rfl⟩ := Outline.parseWith_eq_ok_iff.mp hsecond
  simp only [Outline.mem_mapNames_plan] at hcommon
  obtain ⟨start, before, hstart, hplace, herror⟩ :=
    Outline.parseWith_join_of_common file hone hnames hcommon
  refine ⟨start, before, ⟨hstart.mem, ?_, fun other hother hbefore => ?_⟩, hplace, herror⟩
  · exact one.mem_mapNames_plan.mpr hstart.named
  · exact mt one.mem_mapNames_plan.mp (hstart.unnamed_before other hother hbefore)

end

/-- Two mappings that parse, with a line feed between them.  If no map name is in both, they parse
too, the statements are those of the first and then those of the second, the maps are those of
either, and what is of the second mapping is further down by the line feeds of the first and one
more.  If a name is in both, the parse fails at the first definition of the second mapping, in the
order of its text, whose name is in the first one. -/
theorem parse_join {file : Option String} {first second : List Char}
    {firstPlan secondPlan : Plan Expr} (hfirst : parse file first = .ok firstPlan)
    (hsecond : parse file second = .ok secondPlan) :
    ((∀ name ∈ secondPlan.mapNames, name ∉ firstPlan.mapNames) →
      ∃ plan, parse file (first ++ '\n' :: second) = .ok plan ∧
        plan.statements =
          firstPlan.statements ++ (secondPlan.movedDown (first.count '\n' + 1)).statements ∧
        ∀ name, plan.maps.get? name =
          (firstPlan.maps.get? name).or
            ((secondPlan.movedDown (first.count '\n' + 1)).maps.get? name)) ∧
    ((∃ name ∈ secondPlan.mapNames, name ∈ firstPlan.mapNames) →
      (∃ outline : Outline Expr.parse, outline.text = second) ∧
      ∀ outline : Outline Expr.parse, outline.text = second →
        (∀ name, name ∈ secondPlan.mapNames ↔ name ∈ outline.names) ∧
        ∃ start before, outline.FirstNamed firstPlan.mapNames start ∧
          second = before ++ start.place ∧
          parse file (first ++ '\n' :: second) =
            .error ⟨file, first.count '\n' + 1 + lineAt second before.length,
              columnAt second before.length + 1, .mapCollision start.name⟩) := by
  have hquery : RereadsQueries Expr.parse := Expr.parse_rereadsQueries
  refine ⟨parseWith_join_of_disjoint hquery hfirst hsecond,
    fun hcommon => ⟨exists_outline hquery hsecond, fun outline houtline => ⟨?_, ?_⟩⟩⟩
  · subst houtline
    obtain ⟨-, rfl⟩ := Outline.parseWith_eq_ok_iff.mp hsecond
    exact fun _ => outline.mem_mapNames_plan
  · exact parseWith_join_of_common hquery hfirst hsecond hcommon outline houtline

theorem exists_plan_of_mapNames {file : Option String} {source : List Char} {names : List String}
    (h : (parse file source).toOption.map mapNames = some names) :
    ∃ plan, parse file source = .ok plan ∧ plan.mapNames = names := by
  cases hparse : parse file source with
  | ok plan =>
      rw [hparse] at h
      exact ⟨plan, rfl, Option.some.inj h⟩
  | error error =>
      rw [hparse] at h
      cases h

/-- The comment after the last statement ends with the text. -/
def commentAtEnd : List Char :=
  "map a \x7b root = this \x7d\nroot.x = this.y # end".toList

/-- A mapping that begins with a line feed and applies the map of another one. -/
def appliesOther : List Char :=
  "\nlet y = apply(\"a\")\nmap b \x7b root = content() \x7d".toList

/-- In the block of its first definition a map of another mapping is defined. -/
def definesInside : List Char :=
  "map c \x7b\n  map a \x7b root = this \x7d\n  root = this \x7d\nlet z = this.q".toList

theorem parse_join_of_commentAtEnd :
    ∃ firstPlan secondPlan clashing, parse none commentAtEnd = .ok firstPlan ∧
      parse none appliesOther = .ok secondPlan ∧ parse none definesInside = .ok clashing ∧
      firstPlan.mapNames = ["a"] ∧ secondPlan.mapNames = ["b"] ∧ clashing.mapNames = ["a", "c"] ∧
      (∃ plan, parse none (commentAtEnd ++ '\n' :: appliesOther) = .ok plan ∧
        plan.statements = firstPlan.statements ++ (secondPlan.movedDown 2).statements ∧
        ∀ name, plan.maps.get? name =
          (firstPlan.maps.get? name).or ((secondPlan.movedDown 2).maps.get? name)) ∧
      ∃ (outline : Outline Expr.parse) (start : MapStart) (before : List Char),
        outline.text = definesInside ∧ outline.FirstNamed ["a"] start ∧
        definesInside = before ++ start.place ∧
        parse none (commentAtEnd ++ '\n' :: definesInside) =
          .error ⟨none, 2 + lineAt definesInside before.length,
            columnAt definesInside before.length + 1, .mapCollision "a"⟩ := by
  obtain ⟨firstPlan, hfirst, hfirstNames⟩ := exists_plan_of_mapNames
    (show (parse none commentAtEnd).toOption.map mapNames = some ["a"] by decide +kernel)
  obtain ⟨secondPlan, hsecond, hsecondNames⟩ := exists_plan_of_mapNames
    (show (parse none appliesOther).toOption.map mapNames = some ["b"] by decide +kernel)
  obtain ⟨clashing, hclashing, hclashingNames⟩ := exists_plan_of_mapNames
    (show (parse none definesInside).toOption.map mapNames = some ["a", "c"] by decide +kernel)
  obtain ⟨hunion, -⟩ := parse_join hfirst hsecond
  obtain ⟨-, hcollides⟩ := parse_join hfirst hclashing
  rw [hfirstNames, hsecondNames] at hunion
  rw [hfirstNames, hclashingNames] at hcollides
  obtain ⟨⟨outline, houtline⟩, hfails⟩ := hcollides ⟨"a", by decide, by decide⟩
  obtain ⟨-, start, before, hstart, hplace, herror⟩ := hfails outline houtline
  have hcount : commentAtEnd.count '\n' + 1 = 2 := by decide +kernel
  rw [hcount] at hunion herror
  rw [List.mem_singleton.mp hstart.named] at herror
  exact ⟨firstPlan, secondPlan, clashing, hfirst, hsecond, hclashing, hfirstNames, hsecondNames,
    hclashingNames, hunion (by decide), outline, start, before, houtline, hstart, hplace, herror⟩

end Plan

end Remap
