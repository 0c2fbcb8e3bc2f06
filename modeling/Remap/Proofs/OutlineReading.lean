import Remap.Proofs.BlockReading

/-!
Outlines read back.  Closed and open definitions together are the definitions begun so far, so an
item is read to its end if the names of its definitions are new and differ, and otherwise it fails
at the first definition whose name is known, be that one closed or open.
-/

namespace Remap

open Remap.Parser

variable {ε : Type}

namespace Item.Registry

/-- The names of the definitions begun so far. -/
def known (registry : Registry) : List String :=
  registry.closed ++ registry.opened

theorem mem_known {registry : Registry} {name : String} :
    name ∈ registry.known ↔ registry.Knows name :=
  List.mem_append

theorem mem_known_enter {registry : Registry} {name other : String} :
    other ∈ (registry.enter name).known ↔ other ∈ name :: registry.known := by
  simp only [known, enter, List.mem_append, List.mem_cons]
  exact or_left_comm

/-- Definitions of these names have been begun and closed since. -/
structure Grows (before : Registry) (names : List String) (after : Registry) : Prop where
  opened : after.opened = before.opened
  mem_closed (name : String) : name ∈ after.closed ↔ name ∈ names ∨ name ∈ before.closed

namespace Grows

variable {before between after : Registry} {first others names : List String} {name : String}

theorem nil : Grows before [] before where
  opened := rfl
  mem_closed name := by simp

theorem append (hfirst : Grows before first between) (hothers : Grows between others after) :
    Grows before (first ++ others) after where
  opened := hothers.opened.trans hfirst.opened
  mem_closed name := by
    rw [hothers.mem_closed, hfirst.mem_closed, List.mem_append, or_assoc]
    exact or_left_comm

/-- A definition is closed after those in its block. -/
theorem register (h : Grows (before.enter name) names after) :
    Grows before (name :: names) (after.leave.register name) where
  opened := by
    rw [Registry.register, leave, h.opened]
    rfl
  mem_closed other := by
    simp only [Registry.register, leave, List.mem_cons, h.mem_closed, or_assoc, enter]

theorem mem_known (h : Grows before names after) {name : String} :
    name ∈ after.known ↔ name ∈ names ++ before.known := by
  simp only [known, List.mem_append, h.mem_closed, h.opened, or_assoc]

end Grows

end Item.Registry

open Item (Registry)

theorem Item.Registry.Grows.collision?_known {before after : Registry} {first others : List MapStart}
    (h : before.Grows (first.map MapStart.name) after) :
    collision? after.known others =
      collision? (first.map MapStart.name ++ before.known) others :=
  collision?_congr fun _ => h.mem_known

/-- The failure of a definition whose name is known. -/
def MapStart.failure (start : MapStart) : Failure :=
  ⟨true, start.place, .mapCollision start.name⟩

/-- A text in which these definitions begin is read to its end if they do not collide, and fails at
their first collision. -/
structure Settles {α : Type} (registry : Registry) (starts : List MapStart) (value : α)
    (rest : List Char) (result : Except Failure ((α × Registry) × List Char)) : Prop where
  reads : collision? registry.known starts = none →
    ∃ after, registry.Grows (starts.map MapStart.name) after ∧ result = .ok ((value, after), rest)
  collides (start : MapStart) : collision? registry.known starts = some start →
    result = .error start.failure

/-- The same for the items of a block. -/
structure SettlesBlock (item : Item.Scoped (Item ε)) (registry : Registry) (starts : List MapStart)
    (source : List Char) (items : List (Item ε)) (rest : List Char) : Prop where
  reads : collision? registry.known starts = none →
    ∃ after, registry.Grows (starts.map MapStart.name) after ∧
      Item.ReadsBlock item registry source items after rest
  collides (start : MapStart) : collision? registry.known starts = some start →
    Item.FailsBlock item registry source start.failure

section

variable {item : Item.Scoped (Item ε)} {registry : Registry} {first : Item ε}
  {firstStarts otherStarts : List MapStart} {source next rest : List Char}
  {items : List (Item ε)}

theorem settlesBlock_last (tail : Gap)
    (h : Settles registry firstStarts first (tail.text ++ '}' :: rest) (item registry source))
    (hshorter : (tail.text ++ '}' :: rest).length ≤ source.length) :
    SettlesBlock item registry firstStarts source [first] rest where
  reads hnone := by
    obtain ⟨after, hgrows, hread⟩ := h.reads hnone
    exact ⟨after, hgrows, Item.readsBlock_last tail hread hshorter⟩
  collides start hstart := .inl (h.collides start hstart)

theorem settlesBlock_cons (between : Break)
    (h : Settles registry firstStarts first (between.text ++ next) (item registry source))
    (hshorter : (between.text ++ next).length ≤ source.length) (hbegins : BeginsItem next)
    (hothers : ∀ begun, SettlesBlock item begun otherStarts next items rest) :
    SettlesBlock item registry (firstStarts ++ otherStarts) source (first :: items) rest where
  reads hnone := by
    rw [collision?_append, Option.or_eq_none_iff] at hnone
    obtain ⟨begun, hfirst, hread⟩ := h.reads hnone.1
    obtain ⟨after, hgrows, hitems⟩ := (hothers begun).reads (hfirst.collision?_known.trans hnone.2)
    refine ⟨after, ?_, Item.readsBlock_cons between hread hshorter hbegins hitems⟩
    rw [List.map_append]
    exact hfirst.append hgrows
  collides start hstart := by
    rw [collision?_append, Option.or_eq_some_iff] at hstart
    rcases hstart with hfirst | ⟨hnone, hlater⟩
    · exact .inl (h.collides start hfirst)
    · obtain ⟨begun, hgrows, hread⟩ := h.reads hnone
      exact Item.failsBlock_cons between hread hshorter hbegins
        ((hothers begun).collides start (hgrows.collision?_known.trans hlater))

end

variable {query : Parser ε}

namespace AssignmentText

variable (assignment : AssignmentText query)

theorem beginsItem : BeginsItem assignment.text := by
  have hparse := assignment.reads [] .nil
  rw [List.append_nil] at hparse
  obtain ⟨hne, -, hassign⟩ := Item.assignment_of_parse hparse
  refine ⟨hne, ?_⟩
  intro c hc
  cases hstart : SpelledName.isStart c with
  | true => rfl
  | false =>
      -- What does not begin like a name is no assignment.
      have hopens : Opens (!SpelledName.isStart ·) assignment.text := by
        intro d hd
        rw [Option.mem_unique hd hc]
        simp [hstart]
      have hmisses : Misses (Item.assignment query) assignment.text := Item.assignment_misses hopens
      obtain ⟨failure, herror, -⟩ := hmisses
      rw [hassign] at herror
      cases herror

theorem itemUpTo_text (bound : Nat) (registry : Registry) {rest : List Char}
    (h : Opens isItemEnd rest) :
    Item.itemUpTo query (bound + 1) registry (assignment.text ++ rest) =
      .ok (((OutlineItem.assign assignment).item rest.length, registry), rest) := by
  obtain ⟨-, hmap, hassign⟩ := Item.assignment_of_parse (assignment.reads rest h)
  rw [Item.itemUpTo_of_assignment hmap hassign, OutlineItem.item, List.length_append]

end AssignmentText

theorem OutlineItem.beginsItem (item : OutlineItem query) : BeginsItem item.text := by
  cases item with
  | assign assignment => exact assignment.beginsItem
  | map gap name beforeBrace lead body tail =>
      refine ⟨by simp [OutlineItem.text], ?_⟩
      rw [OutlineItem.text]
      exact Opens.append_of_ne_nil (by simp [SpelledName.isStart]; decide) (by decide) _

theorem OutlineBody.beginsItem (body : OutlineBody query) : BeginsItem body.text := by
  cases body with
  | last item => exact item.beginsItem
  | cons item between body => exact item.beginsItem.append _

theorem isItemEnd_of_isSpaceOrTab (c : Char) (h : isSpaceOrTab c = true) :
    isItemEnd c = true := by
  simp only [isSpaceOrTab, Bool.or_eq_true, decide_eq_true_eq] at h
  rcases h with rfl | rfl <;> decide

theorem LineTail.opens_append (tail : LineTail) (rest : List Char) :
    Opens isItemEnd (tail.text ++ rest) := by
  rw [LineTail.text, List.append_assoc]
  refine (tail.blanks.opens.mono isItemEnd_of_isSpaceOrTab).append ?_
  cases tail.comment <;> cases tail.lineEnd <;>
    (simp only [commentText, LineEnd.text, List.nil_append, List.cons_append, Opens.cons_iff]
     decide)

theorem Gap.opens_append (gap : Gap) {rest : List Char} (h : Opens isItemEnd rest) :
    Opens isItemEnd (gap.text ++ rest) := by
  obtain ⟨lines, indent⟩ := gap
  cases lines with
  | nil => exact (indent.opens.mono isItemEnd_of_isSpaceOrTab).append h
  | cons line lines =>
      rw [Gap.text, List.flatMap_cons, List.append_assoc, List.append_assoc]
      exact line.opens_append _

theorem Break.opens_append (between : Break) (rest : List Char) :
    Opens isItemEnd (between.text ++ rest) := by
  rw [Break.text, List.append_assoc]
  exact between.tail.opens_append _

theorem Ending.opens_text (ending : Ending) : Opens isItemEnd ending.text := by
  refine ending.gap.opens_append ?_
  cases ending.comment with
  | none => exact .nil
  | some comment =>
      rw [commentText, Opens.cons_iff]
      decide

theorem OutlineItem.length_text_pos (item : OutlineItem query) : 0 < item.text.length :=
  List.length_pos_iff.mpr item.beginsItem.nonempty

/-- A definition is read if its block is, and fails if its block does or its name is known. -/
theorem Item.mapForm_settles {item : Scoped (Item ε)} {registry : Registry} {gap : Blanks1}
    {name : WrittenName} {beforeBrace : Blanks} {lead : Gap} {inner source rest : List Char}
    {items : List (Item ε)} {starts : List MapStart}
    (hsource : source = "map".toList ++ (gap.chars ++ (name.text ++ (beforeBrace.chars ++
      '{' :: (lead.text ++ inner)))))
    (hbegins : BeginsItem inner)
    (hblock : SettlesBlock item (registry.enter name.name) starts inner items rest) :
    Settles registry (⟨source, name.name⟩ :: starts) (.map name.name items) rest
      (mapForm item registry source) := by
  have hinside : collision? (registry.enter name.name).known starts =
      collision? (name.name :: registry.known) starts :=
    collision?_congr fun _ => Registry.mem_known_enter
  by_cases hknown : registry.Knows name.name
  · have hcollision : collision? registry.known (⟨source, name.name⟩ :: starts) =
        some ⟨source, name.name⟩ := by
      rw [collision?, if_pos (Registry.mem_known.mpr hknown)]
    refine ⟨fun hnone => ?_, fun start hstart => ?_⟩
    · rw [hcollision] at hnone
      cases hnone
    · rw [hcollision] at hstart
      cases hstart
      exact mapForm_of_known hsource hknown
  · have hcollision : collision? registry.known (⟨source, name.name⟩ :: starts) =
        collision? (registry.enter name.name).known starts := by
      rw [collision?, if_neg (mt Registry.mem_known.mp hknown), hinside]
    refine ⟨fun hnone => ?_, fun start hstart => ?_⟩
    · rw [hcollision] at hnone
      obtain ⟨after, hgrows, hread⟩ := hblock.reads hnone
      have hstill : name.name ∉ after.closed := by
        rw [hgrows.mem_closed]
        rintro (hmem | hclosed)
        · rw [hinside, collision?_eq_none_iff] at hnone
          exact hnone.2 _ hmem List.mem_cons_self
        · exact hknown (.inl hclosed)
      exact ⟨_, hgrows.register,
        mapForm_of_block hsource hknown (block_of_readsBlock lead hbegins hread) hstill⟩
    · rw [hcollision] at hstart
      exact mapForm_of_block_error hsource hknown
        (block_of_failsBlock lead hbegins (hblock.collides start hstart)) rfl

mutual

/-- An item is read to its end or fails at its first collision. -/
theorem OutlineItem.itemUpTo_settles : (item : OutlineItem query) → ∀ {bound : Nat}
    (registry : Registry) {rest : List Char}, item.text.length ≤ bound → Opens isItemEnd rest →
      Settles registry (item.starts rest) (item.item rest.length) rest
        (Item.itemUpTo query bound registry (item.text ++ rest))
  | item, 0, _, _, hbound, _ => by
    have hpos := item.length_text_pos
    omega
  | .assign assignment, bound + 1, registry, rest, _, h => by
    refine ⟨fun _ => ⟨registry, .nil, ?_⟩, fun start hstart => ?_⟩
    · rw [OutlineItem.text]
      exact assignment.itemUpTo_text bound registry h
    · cases hstart
  | .map gap name beforeBrace lead body tail, bound + 1, registry, rest, hbound, _ => by
    have hlength : body.text.length ≤ bound := by
      simp only [OutlineItem.text, List.length_append, List.length_cons] at hbound
      omega
    have hsource : (OutlineItem.map gap name beforeBrace lead body tail).text ++ rest =
        "map".toList ++ (gap.chars ++ (name.text ++ (beforeBrace.chars ++
          '{' :: (lead.text ++ (body.text ++ (tail.text ++ '}' :: rest)))))) := by
      simp [OutlineItem.text]
    have hblock := body.settlesBlock (registry.enter name.name) hlength tail rest
    have hmap := Item.mapForm_settles hsource (body.beginsItem.append _) hblock
    refine ⟨fun hnone => ?_, fun start hstart => ?_⟩
    · obtain ⟨after, hgrows, hread⟩ := hmap.reads hnone
      exact ⟨after, hgrows, orElse_of_ok hread _⟩
    · exact orElse_of_committed (hmap.collides start hstart) rfl _

theorem OutlineBody.settlesBlock : (body : OutlineBody query) → ∀ {bound : Nat}
    (registry : Registry), body.text.length ≤ bound → ∀ (tail : Gap) (rest : List Char),
      SettlesBlock (Item.itemUpTo query bound) registry (body.starts (tail.text ++ '}' :: rest))
        (body.text ++ (tail.text ++ '}' :: rest))
        (body.items (tail.text.length + (rest.length + 1))) rest
  | .last item, bound, registry, hbound, tail, rest => by
    have hopens : Opens isItemEnd (tail.text ++ '}' :: rest) :=
      tail.opens_append (by rw [Opens.cons_iff]; decide)
    have hitem := item.itemUpTo_settles registry hbound hopens
    rw [List.length_append, List.length_cons] at hitem
    exact settlesBlock_last tail hitem (List.suffix_append item.text _).length_le
  | .cons item between body, bound, registry, hbound, tail, rest => by
    rw [OutlineBody.text, List.length_append, List.length_append] at hbound
    have hfirst : item.text.length ≤ bound := by omega
    have hothers : body.text.length ≤ bound := by omega
    have hitem := item.itemUpTo_settles registry hfirst
      (between.opens_append (body.text ++ (tail.text ++ '}' :: rest)))
    simp only [List.length_append, List.length_cons] at hitem
    have hall := settlesBlock_cons between hitem (List.suffix_append item.text _).length_le
      (body.beginsItem.append _)
      fun begun => body.settlesBlock begun hothers tail rest
    simpa only [OutlineBody.text, OutlineBody.items, OutlineBody.starts, List.append_assoc]
      using hall

end

end Remap
