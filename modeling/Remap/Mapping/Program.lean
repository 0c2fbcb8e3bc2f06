import Remap.Dictionary

/-!
Mappings as written and as run.  A program is the tree of a source text, with map definitions where
they stand; a plan is what a run needs: the top-level statements in order and one table of all maps,
wherever they were defined.
-/

namespace Remap

/-- Where the value of a statement goes. -/
inductive Target
  | var (name : String)
  /-- One metadata entry, or without a key the merging of an object. -/
  | metadata (key : Option String)
  /-- A place in the output document; the empty path is the whole of it. -/
  | path (segments : List String)
deriving Repr, DecidableEq

/-- A target, an expression for it and the source line on which the statement begins. -/
structure Statement (ε : Type) where
  line : Nat
  target : Target
  query : ε
deriving DecidableEq

/-- An item of a program.  An assignment keeps its place as the number of characters from its first
one to the end of the source. -/
inductive Item (ε : Type)
  | map (name : String) (body : List (Item ε))
  | assign (remaining : Nat) (target : Target) (query : ε)

/-- A parsed mapping. -/
structure Plan (ε : Type) where
  maps : Dictionary (List (Statement ε))
  statements : List (Statement ε)

namespace Item

variable {ε : Type}

/-- The statement of an item, if it is no map definition; `lineOf` tells the line of a place. -/
def statement? (lineOf : Nat → Nat) : Item ε → Option (Statement ε)
  | .map _ _ => none
  | .assign remaining target query => some ⟨lineOf remaining, target, query⟩

/-- The statements of a program or a block, map definitions left out. -/
def statements (lineOf : Nat → Nat) (items : List (Item ε)) : List (Statement ε) :=
  items.filterMap (statement? lineOf)

theorem statements_cons (lineOf : Nat → Nat) (item : Item ε) (rest : List (Item ε)) :
    statements lineOf (item :: rest) =
      (item.statement? lineOf).toList ++ statements lineOf rest := by
  rw [statements, List.filterMap_cons, statements]
  cases item.statement? lineOf with
  | none => rfl
  | some statement => rfl

mutual

/-- The definitions in an item, its own last. -/
def definitions (lineOf : Nat → Nat) : Item ε → List (String × List (Statement ε))
  | .assign _ _ _ => []
  | .map name body => definitionsIn lineOf body ++ [(name, statements lineOf body)]

/-- The definitions in a program or a block, those inside others too. -/
def definitionsIn (lineOf : Nat → Nat) : List (Item ε) → List (String × List (Statement ε))
  | [] => []
  | item :: rest => item.definitions lineOf ++ definitionsIn lineOf rest

end

theorem definitionsIn_append (lineOf : Nat → Nat) (first second : List (Item ε)) :
    definitionsIn lineOf (first ++ second) =
      definitionsIn lineOf first ++ definitionsIn lineOf second := by
  induction first with
  | nil => rfl
  | cons item first ih => rw [List.cons_append, definitionsIn, ih, definitionsIn, List.append_assoc]

theorem statements_append (lineOf : Nat → Nat) (first second : List (Item ε)) :
    statements lineOf (first ++ second) = statements lineOf first ++ statements lineOf second :=
  List.filterMap_append

end Item

namespace Plan

variable {ε : Type}

/-- The plan of a program.  Its map names are distinct, so the order of the definitions does not
matter. -/
def ofItems (lineOf : Nat → Nat) (items : List (Item ε)) : Plan ε where
  maps := Dictionary.ofList (Item.definitionsIn lineOf items)
  statements := Item.statements lineOf items

/-- The maps of one plan with the statements of another. -/
def combine (maps statements : Plan ε) : Plan ε :=
  ⟨maps.maps, statements.statements⟩

/-- The names of the maps, sorted. -/
def mapNames (plan : Plan ε) : List String :=
  plan.maps.keys

end Plan

end Remap
