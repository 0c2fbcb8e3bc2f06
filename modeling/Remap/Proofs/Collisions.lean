import Remap.Proofs.ItemInvariants
import Remap.Proofs.Lines
import Remap.Proofs.ProgramReading

/-!
Collisions of map names.  Whatever is read, the maps begun before stay as they were and those that
are added were not known, so a name that was new when its definition began is still new when its
block has been read.  A mapping therefore parses exactly if all its map names differ, and otherwise
the first definition in the text that repeats a name is reported where it begins.
-/

namespace Remap

open Remap.Parser

variable {ε : Type}

namespace Item

/-- The open definitions are the same, and what has been closed since was not known. -/
structure Registry.Extends (before after : Registry) : Prop where
  opened : after.opened = before.opened
  closed (name : String) : name ∈ before.closed → name ∈ after.closed
  fresh (name : String) : name ∈ after.closed → name ∈ before.closed ∨ ¬before.Knows name

namespace Registry.Extends

variable {before between after : Registry} {name : String}

theorem refl (registry : Registry) : registry.Extends registry where
  opened := rfl
  closed _ h := h
  fresh _ h := .inl h

theorem trans (hfirst : before.Extends between) (hsecond : between.Extends after) :
    before.Extends after where
  opened := hsecond.opened.trans hfirst.opened
  closed name h := hsecond.closed name (hfirst.closed name h)
  fresh name h := by
    rcases hsecond.fresh name h with hbetween | hnew
    · exact hfirst.fresh name hbetween
    · refine .inr ?_
      rintro (hclosed | hopened)
      · exact hnew (.inl (hfirst.closed name hclosed))
      · exact hnew (.inr (hfirst.opened ▸ hopened))

/-- The name of an open definition is not closed in its own block. -/
theorem not_mem_closed (hnew : ¬before.Knows name) (h : (before.enter name).Extends after) :
    name ∉ after.closed := by
  intro hmem
  rcases h.fresh name hmem with hclosed | hunknown
  · exact hnew (.inl hclosed)
  · exact hunknown (.inr List.mem_cons_self)

theorem register (hnew : ¬before.Knows name) (h : (before.enter name).Extends after) :
    before.Extends (after.leave.register name) where
  opened := by
    rw [Registry.register, leave, h.opened]
    rfl
  closed other hother := List.mem_cons_of_mem name (h.closed other hother)
  fresh other hother := by
    rcases List.mem_cons.mp hother with rfl | hinner
    · exact .inr hnew
    · rcases h.fresh other hinner with hclosed | hunknown
      · exact .inl hclosed
      · exact .inr fun hknown => hunknown (hknown.imp id (List.mem_cons_of_mem name))

end Registry.Extends

/-- Whatever the parser takes, it extends the registry. -/
def Extending {α : Type} (item : Scoped α) : Prop :=
  ∀ registry, Yields (item registry) fun result => registry.Extends result.2

/-- What is read extends the maps that were known before it. -/
def extending (ε : Type) : Invariant ε where
  item registry result := registry.Extends result.2
  items registry result := registry.Extends result.2
  nil registry := .refl registry
  cons hfirst hothers := hfirst.trans hothers
  map hnew hbody := hbody.register hnew

theorem itemUpTo_extending (query : Parser ε) (bound : Nat) : Extending (itemUpTo query bound) :=
  (extending ε).itemUpTo ((Yields.always _).mono fun _ _ registry => .refl registry) bound

theorem block_extending {item : Scoped (Item ε)} (h : Extending item) : Extending (block item) :=
  (extending ε).block h

/-- A name that was new when its definition began is new when its block has been read. -/
theorem not_mem_closed_of_block {query : Parser ε} {bound : Nat} {registry inner : Registry}
    {name : String} {text rest : List Char} {body : List (Item ε)} (hnew : ¬registry.Knows name)
    (h : block (itemUpTo query bound) (registry.enter name) text = .ok ((body, inner), rest)) :
    name ∉ inner.closed := by
  have hextends : (registry.enter name).Extends inner :=
    block_extending (itemUpTo_extending query bound) (registry.enter name) _ _ _ h
  exact hextends.not_mem_closed hnew

end Item

namespace Outline

variable {query : Parser ε}

theorem map_name_starts (outline : Outline query) :
    outline.starts.map MapStart.name = outline.names :=
  outline.body.map_name_starts outline.ending.text

theorem within_of_mem_starts (outline : Outline query) {start : MapStart}
    (h : start ∈ outline.starts) : start.Within outline.text :=
  (outline.body.within_of_mem_starts h).append outline.lead.text

theorem collision?_eq_none_iff (outline : Outline query) :
    collision? Item.Registry.empty.known outline.starts = none ↔ outline.names.Nodup := by
  rw [Remap.collision?_eq_none_iff, outline.map_name_starts]
  exact and_iff_left fun _ _ => List.not_mem_nil

end Outline

namespace Plan

variable {query : Parser ε}

/-- An outline without a collision parses. -/
theorem exists_parseWith_of_nodup (outline : Outline query) (file : Option String)
    (h : outline.names.Nodup) : ∃ plan, parseWith query file outline.text = .ok plan := by
  have hread := outline.program_settles.reads (outline.collision?_eq_none_iff.mpr h)
  rw [parseWith, hread]
  exact ⟨_, rfl⟩

/-- A collision is reported at the line and the column of the definition. -/
theorem parseWith_of_collision (outline : Outline query) (file : Option String) {start : MapStart}
    (h : collision? Item.Registry.empty.known outline.starts = some start) {before : List Char}
    (hplace : outline.text = before ++ start.place) :
    parseWith query file outline.text =
      .error ⟨file, lineAt outline.text before.length, columnAt outline.text before.length + 1,
        .mapCollision start.name⟩ := by
  have hread := outline.program_settles.collides start h
  have hoffset : outline.text.length - start.place.length = before.length := by
    rw [hplace, List.length_append, Nat.add_sub_cancel]
  have hlocate : (LineIndex.ofText outline.text).locateRemaining outline.text.length
      start.place.length =
        ⟨lineAt outline.text before.length, columnAt outline.text before.length⟩ := by
    rw [LineIndex.locateRemaining, hoffset, hplace]
    exact LineIndex.locate_append before start.place
  rw [parseWith, hread]
  simp only [MapStart.failure, hlocate]

/-- An outline with a repeated name has a first definition that repeats one, and its parse fails
there. -/
theorem exists_collision_of_not_nodup (outline : Outline query) (file : Option String)
    (h : ¬outline.names.Nodup) :
    ∃ earlier start later before, outline.starts = earlier ++ start :: later ∧
      (earlier.map MapStart.name).Nodup ∧ start.name ∈ earlier.map MapStart.name ∧
      outline.text = before ++ start.place ∧
      parseWith query file outline.text =
        .error ⟨file, lineAt outline.text before.length,
          columnAt outline.text before.length + 1, .mapCollision start.name⟩ := by
  rw [← outline.collision?_eq_none_iff] at h
  obtain ⟨start, hstart⟩ := Option.ne_none_iff_exists'.mp h
  obtain ⟨earlier, later, hsplit, hearlier, hname⟩ := exists_split_of_collision? hstart
  have hmem : start ∈ outline.starts := by simp [hsplit]
  obtain ⟨before, hbefore⟩ := (outline.within_of_mem_starts hmem).suffix
  refine ⟨earlier, start, later, before, hsplit, (Remap.collision?_eq_none_iff.mp hearlier).1, ?_,
    hbefore.symm, parseWith_of_collision outline file hstart hbefore.symm⟩
  -- Before the text nothing is known, so the name is one of those before it.
  rcases hname with hrepeated | hknown
  · exact hrepeated
  · cases hknown

/-- The text of an outline parses exactly if no two map definitions in it, wherever they stand, have
the same name.  Otherwise the parse fails at the first definition in the order of the text whose
name is that of a definition that begins before it, and the error has the line and the column of its
keyword.  The names of the definitions are listed in that order, each with the text from its keyword
on.  Whatever is parsed, the check after a block never finds that the name has been taken. -/
theorem parseWith_outline (query : Parser ε) (outline : Outline query) (file : Option String) :
    ((∃ plan, parseWith query file outline.text = .ok plan) ↔ outline.names.Nodup) ∧
    (¬outline.names.Nodup →
      ∃ earlier start later before, outline.starts = earlier ++ start :: later ∧
        (earlier.map MapStart.name).Nodup ∧ start.name ∈ earlier.map MapStart.name ∧
        outline.text = before ++ start.place ∧
        parseWith query file outline.text =
          .error ⟨file, lineAt outline.text before.length,
            columnAt outline.text before.length + 1, .mapCollision start.name⟩) ∧
    outline.starts.map MapStart.name = outline.names ∧
    outline.starts.Pairwise MapStart.Before ∧
    (∀ start ∈ outline.starts, start.Within outline.text) ∧
    ∀ (bound : Nat) (registry inner : Item.Registry) (name : String) (text rest : List Char)
      (body : List (Item ε)), ¬registry.Knows name →
      Item.block (Item.itemUpTo query bound) (registry.enter name) text =
        .ok ((body, inner), rest) → name ∉ inner.closed := by
  refine ⟨⟨fun hparses => ?_, exists_parseWith_of_nodup outline file⟩,
    exists_collision_of_not_nodup outline file, outline.map_name_starts,
    outline.body.starts_pairwise _, fun _ => outline.within_of_mem_starts,
    fun _ _ _ _ _ _ _ => Item.not_mem_closed_of_block⟩
  obtain ⟨plan, hplan⟩ := hparses
  refine Decidable.byContradiction fun hrepeated => ?_
  obtain ⟨_, _, _, _, -, -, -, -, herror⟩ := exists_collision_of_not_nodup outline file hrepeated
  rw [hplan] at herror
  cases herror

/-- In the block of a definition another one begins whose name is spelled differently and is the
same. -/
def openAround : Outline Expr.parse :=
  let tab : Blanks := ⟨['\t'], by decide⟩
  let gap : Blanks1 := ⟨tab, by decide⟩
  let feed : LineTail := ⟨.empty, none, .feed⟩
  let first : WrittenName :=
    .quoted [.plain 'a' (by decide), .plain '/' (by decide), .plain 'b' (by decide)]
  let second : WrittenName :=
    .quoted [.plain 'a' (by decide), .escaped '/' '/' (by decide), .plain 'b' (by decide)]
  let define (name : WrittenName) : OutlineItem Expr.parse :=
    .map gap name tab ⟨[], .empty⟩ (.last (.assign (.ofSpelled (.path []) ⟨.empty, .empty, .null⟩)))
      ⟨[], .empty⟩
  { lead := ⟨[feed], .empty⟩
    body := .last (.map gap first .empty ⟨[feed], tab⟩
      (.cons (define (.bare ⟨"x".toList, by decide⟩ (by decide))) ⟨feed, ⟨[], tab⟩⟩
        (.last (define second))) ⟨[feed], .empty⟩)
    ending := ⟨⟨[], .empty⟩, none⟩ }

theorem parseWith_outline_of_openAround :
    openAround.text =
        ("\nmap\t\"a/b\"\x7b\n\tmap\tx\t\x7b\"root\"=null\x7d\n" ++
          "\tmap\t\"a\\/b\"\t\x7b\"root\"=null\x7d\n\x7d").toList ∧
      openAround.names = ["a/b", "x", "a/b"] ∧
      (∃ earlier start later before, openAround.starts = earlier ++ start :: later ∧
        start.name ∈ earlier.map MapStart.name ∧ openAround.text = before ++ start.place ∧
        parse none openAround.text = .error ⟨none, lineAt openAround.text before.length,
          columnAt openAround.text before.length + 1, .mapCollision start.name⟩) ∧
      parse none openAround.text = .error ⟨none, 4, 2, .mapCollision "a/b"⟩ := by
  refine ⟨by decide +kernel, by decide, ?_, by rfl⟩
  obtain ⟨-, hcollides, -⟩ := parseWith_outline Expr.parse openAround none
  obtain ⟨earlier, start, later, before, hstarts, -, hname, htext, herror⟩ :=
    hcollides (by decide)
  exact ⟨earlier, start, later, before, hstarts, hname, htext, herror⟩

end Plan

end Remap
