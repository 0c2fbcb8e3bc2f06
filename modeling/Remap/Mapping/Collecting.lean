import Remap.Mapping.Source

/-!
Parsing with one table of maps.  The parse of a mapping fills a single table, in place: a definition
is added when its block has been read, and nothing takes it out again, also not when the form around
it fails and another one is tried where that began.
-/

namespace Remap

open Remap.Parser

variable {ε : Type} {α β : Type}

/-- What a parse has collected: the maps whose blocks have been closed, in that order, and the names
of those whose blocks are open, the innermost first. -/
structure Collected (ε : Type) where
  maps : List (String × List (Statement ε))
  opened : List String

namespace Collected

def empty : Collected ε :=
  ⟨[], []⟩

/-- The definitions begun so far. -/
def registry (collected : Collected ε) : Item.Registry :=
  ⟨(collected.maps.map Prod.fst).reverse, collected.opened⟩

/-- The block of a definition begins. -/
def enter (collected : Collected ε) (name : String) : Collected ε :=
  { collected with opened := name :: collected.opened }

/-- The innermost block has ended, well or not. -/
def leave (collected : Collected ε) : Collected ε :=
  { collected with opened := collected.opened.tail }

/-- A definition is complete. -/
def add (collected : Collected ε) (name : String) (body : List (Statement ε)) : Collected ε :=
  { collected with maps := collected.maps ++ [(name, body)] }

theorem registry_add (collected : Collected ε) (name : String) (body : List (Statement ε)) :
    (collected.add name body).registry = collected.registry.register name := by
  simp [add, registry, Item.Registry.register]

end Collected

/-- Parsers that collect maps on their way.  What they have collected stays when they fail. -/
def Collecting (ε α : Type) : Type :=
  Collected ε → List Char → Except Failure (α × List Char) × Collected ε

namespace Collecting

def bind (p : Collecting ε α) (next : α → Collecting ε β) : Collecting ε β :=
  fun collected text =>
    match p collected text with
    | (.ok (value, rest), collected) => next value collected rest
    | (.error failure, collected) => (.error failure, collected)

instance : Monad (Collecting ε) where
  pure value := fun collected text => (.ok (value, text), collected)
  bind := bind

/-- A parser that collects nothing. -/
def lift (p : Parser α) : Collecting ε α := fun collected text =>
  (p text, collected)

/-- What has been collected so far. -/
def get : Collecting ε (Collected ε) := fun collected text =>
  (.ok (collected, text), collected)

/-- Try the second form where the first fails recoverably, with what the first has collected. -/
def orElse (p q : Collecting ε α) : Collecting ε α := fun collected text =>
  match p collected text with
  | (.ok result, collected) => (.ok result, collected)
  | (.error first, collected) =>
      if first.committed then (.error first, collected)
      else
        match q collected text with
        | (.ok result, collected) => (.ok result, collected)
        | (.error second, collected) =>
            (.error (if second.committed then second else first.furthest second), collected)

/-- Once the form is recognised its failures are final. -/
def commit (p : Collecting ε α) : Collecting ε α := fun collected text =>
  match p collected text with
  | (.ok result, collected) => (.ok result, collected)
  | (.error failure, collected) => (.error { failure with committed := true }, collected)

/-- Read the block of a definition, whose name is open meanwhile. -/
def enclosed (name : String) (p : Collecting ε α) : Collecting ε α := fun collected text =>
  let (result, collected) := p (collected.enter name) text
  (result, collected.leave)

/-- A definition is complete. -/
def add (name : String) (body : List (Statement ε)) : Collecting ε Unit := fun collected text =>
  (.ok ((), text), collected.add name body)

/-- The statements of a block after its first item, at most `bound` items. -/
def moreInBlock (item : Collecting ε (Option (Statement ε))) :
    Nat → Collecting ε (List (Statement ε))
  | 0 => pure []
  | bound + 1 => do
      match ← lift (optional (do let _ ← blanks; lineBreak)) with
      | none => return []
      | some _ =>
          lift blankLines
          let rest ← lift here
          if rest = [] ∨ rest.head? = some '}' then return []
          let first ← item
          let others ← moreInBlock item bound
          return first.toList ++ others

/-- The statements between braces. -/
def block (item : Collecting ε (Option (Statement ε))) : Collecting ε (List (Statement ε)) := do
  lift (char '{')
  lift blankLines
  let first ← item
  let rest ← lift here
  let others ← moreInBlock item rest.length
  lift blankLines
  lift (char '}')
  return first.toList ++ others

/-- A map definition is no statement. -/
def mapForm (item : Collecting ε (Option (Statement ε))) : Collecting ε (Option (Statement ε)) := do
  let start ← lift here
  lift Item.mapKeyword
  let name ← lift (Parser.commit (expect "map-name" name))
  let before ← get
  lift (Item.collide start name (before.registry.Knows name))
  let _ ← lift blanks
  let body ← enclosed name (commit (block item))
  let inner ← get
  lift (Item.collide start name (name ∈ inner.registry.closed))
  add name body
  return none

/-- A definition or a statement; `lineOf` tells the line of a place. -/
def itemUpTo (query : Parser ε) (lineOf : Nat → Nat) : Nat → Collecting ε (Option (Statement ε))
  | 0 => lift (miss (.expected "target-path"))
  | bound + 1 =>
      orElse (mapForm (itemUpTo query lineOf bound))
        (lift do return (← Item.assignment query).statement? lineOf)

/-- The statements of a program up to the end of the text, at most `bound` items. -/
def programUpTo (query : Parser ε) (lineOf : Nat → Nat) : Nat → Collecting ε (List (Statement ε))
  | 0 => lift (miss (.expected "target-path"))
  | bound + 1 => do
      let rest ← lift here
      let first ← itemUpTo query lineOf rest.length
      let _ ← lift blanks
      if ← lift atEnd then return first.toList
      let _ ← lift (expect "end of statement" lineBreak)
      lift blankLines
      if ← lift atEnd then return first.toList
      return first.toList ++ (← programUpTo query lineOf bound)

/-- The statements of a whole mapping. -/
def program (query : Parser ε) (lineOf : Nat → Nat) : Collecting ε (List (Statement ε)) := do
  lift blankLines
  let rest ← lift here
  programUpTo query lineOf rest.length

end Collecting

/-- Parse a mapping with one table of maps, which is the table of the plan if the parse succeeds. -/
def Plan.parseCollecting (query : Parser ε) (file : Option String) (source : List Char) :
    Except ParseError (Plan ε) :=
  let index := LineIndex.ofText source
  let locate := index.locateRemaining source.length
  match Collecting.program query (fun remaining => (locate remaining).line) .empty source with
  | (.ok (statements, _), collected) => .ok ⟨Dictionary.ofList collected.maps, statements⟩
  | (.error failure, _) =>
      let place := locate failure.rest.length
      .error ⟨file, place.line, place.column + 1, failure.cause⟩

end Remap
