import Remap.Proofs.Lines
import Remap.Proofs.Places

/-!
Plans moved down.  The lines of a plan are all that depends on where its source stands: a plan is
made from the same items with other lines by moving each of its lines.
-/

namespace Remap

variable {ε : Type} {α β : Type}

namespace Entries

theorem map_insert (f : α → β) (key : String) (value : α) (entries : Entries α) :
    (insert key value entries).map (fun pair => (pair.1, f pair.2)) =
      insert key (f value) (entries.map fun pair => (pair.1, f pair.2)) := by
  induction entries with
  | nil => rfl
  | cons head rest ih =>
      obtain ⟨k, v⟩ := head
      simp only [insert, List.map_cons]
      split
      · rfl
      · split
        · rfl
        · rw [List.map_cons, ih]

end Entries

namespace Dictionary

theorem map_insert (f : α → β) (dictionary : Dictionary α) (key : String) (value : α) :
    (dictionary.insert key value).map f = (dictionary.map f).insert key (f value) :=
  Dictionary.ext (Entries.map_insert f key value dictionary.entries)

theorem map_foldl_insert (f : α → β) (pairs : List (String × α)) (dictionary : Dictionary α) :
    (pairs.foldl (fun dictionary pair => dictionary.insert pair.1 pair.2) dictionary).map f =
      (pairs.map fun pair => (pair.1, f pair.2)).foldl
        (fun dictionary pair => dictionary.insert pair.1 pair.2) (dictionary.map f) := by
  induction pairs generalizing dictionary with
  | nil => rfl
  | cons pair pairs ih => rw [List.foldl_cons, ih, map_insert, List.map_cons, List.foldl_cons]

theorem map_ofList (f : α → β) (pairs : List (String × α)) :
    (ofList pairs).map f = ofList (pairs.map fun pair => (pair.1, f pair.2)) :=
  map_foldl_insert f pairs empty

end Dictionary

/-- The statement so many lines further down. -/
def Statement.movedDown (lines : Nat) (statement : Statement ε) : Statement ε :=
  { statement with line := statement.line + lines }

/-- The plan with every statement, also those of its maps, so many lines further down. -/
def Plan.movedDown (lines : Nat) (plan : Plan ε) : Plan ε where
  maps := plan.maps.map (List.map (Statement.movedDown lines))
  statements := plan.statements.map (Statement.movedDown lines)

theorem Plan.movedDown_zero (plan : Plan ε) : plan.movedDown 0 = plan := by
  have hstatement : (Statement.movedDown 0 : Statement ε → Statement ε) = id := rfl
  obtain ⟨maps, statements⟩ := plan
  rw [movedDown, hstatement, List.map_id, Plan.mk.injEq]
  exact ⟨Dictionary.ext (by simp [Dictionary.map]), rfl⟩

/-- The error so many lines further down. -/
def ParseError.movedDown (lines : Nat) (error : ParseError) : ParseError :=
  { error with line := error.line + lines }

namespace Item

variable {lineOf other : Nat → Nat} {lines : Nat}

/-- Statements whose places are so many lines further down. -/
theorem statements_movedDown : {items : List (Item ε)} →
    (∀ place ∈ placesIn items, lineOf place = other place + lines) →
      statements lineOf items = (statements other items).map (Statement.movedDown lines)
  | [], _ => rfl
  | item :: rest, h => by
    rw [placesIn, List.forall_mem_append] at h
    rw [statements_cons, statements_cons, List.map_append, statements_movedDown h.2]
    cases item with
    | map name body => rfl
    | assign remaining target query =>
        rw [statement?, h.1 remaining (List.mem_singleton.mpr rfl)]
        rfl

mutual

theorem definitions_movedDown : (item : Item ε) →
    (∀ place ∈ item.places, lineOf place = other place + lines) →
      item.definitions lineOf = (item.definitions other).map fun definition =>
        (definition.1, definition.2.map (Statement.movedDown lines))
  | .assign _ _ _, _ => rfl
  | .map name body, h => by
    rw [definitions, definitions, definitionsIn_movedDown body h, statements_movedDown h,
      List.map_append]
    rfl

theorem definitionsIn_movedDown : (items : List (Item ε)) →
    (∀ place ∈ placesIn items, lineOf place = other place + lines) →
      definitionsIn lineOf items = (definitionsIn other items).map fun definition =>
        (definition.1, definition.2.map (Statement.movedDown lines))
  | [], _ => rfl
  | item :: rest, h => by
    rw [placesIn, List.forall_mem_append] at h
    rw [definitionsIn, definitionsIn, definitions_movedDown item h.1,
      definitionsIn_movedDown rest h.2, List.map_append]

end

end Item

/-- A plan is made from the same items further down by moving it. -/
theorem Plan.ofItems_movedDown {lineOf other : Nat → Nat} {lines : Nat} {items : List (Item ε)}
    (h : ∀ place ∈ Item.placesIn items, lineOf place = other place + lines) :
    ofItems lineOf items = (ofItems other items).movedDown lines := by
  rw [ofItems, ofItems, Item.definitionsIn_movedDown items h, Item.statements_movedDown h,
    movedDown, Dictionary.map_ofList]

end Remap
