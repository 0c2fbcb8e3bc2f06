import Remap.Document.DotPath
import Remap.Mapping.Program
import Remap.Parser.Token

/-!
Statements.  An item of a mapping has one of four forms, told apart by how it begins: a map
definition, `let`, `meta`, or else a target path.  A form that has been recognised is committed.

A registry of the definitions begun so far goes through the parse, so that a second definition of a
name fails where it begins, whether the first one has been closed or is still open around it.
-/

namespace Remap.Item

open Remap.Parser

variable {ε : Type}

/-- The equals sign and the expression after it. -/
def assigned (query : Parser ε) : Parser ε := do
  commit do
    let _ ← blanks
    char '='
    let _ ← blanks
  commit query

/-- `let <name> = <expression>` -/
def letForm (query : Parser ε) : Parser (Item ε) := do
  let start ← here
  keyword "let"
  let _ ← blanks1
  let name ← commit (expect "variable-name" name)
  return .assign start.length (.var name) (← assigned query)

/-- What must follow `meta` for it to be a keyword. -/
def metaBoundary : Parser Unit :=
  (do let _ ← blanks1) <|> keyword "="

/-- `meta [<name>] = <expression>` -/
def metaForm (query : Parser ε) : Parser (Item ε) := do
  let start ← here
  keyword "meta"
  peek metaBoundary
  let _ ← blanks
  let key ← optional name
  return .assign start.length (.metadata key) (← assigned query)

/-- The segments of a path target: a leading `root` is the output document itself. -/
def targetSegments (path : String) : List String :=
  match DotPath.keys path with
  | "root" :: rest => rest
  | keys => keys

/-- A target path, all of whose segments have characters.  An empty segment is reported where it is
in a bare path and at the opening quote of a quoted one. -/
def targetPath : Parser (List String) := do
  let start ← here
  let path ← expect "target-path" name
  match DotPath.firstEmptyPart path.toList with
  | none => return targetSegments path
  | some offset =>
      abort (if start.head? = some '"' then start else start.drop offset) (.emptyPathSegment path)

/-- `<path> = <expression>` -/
def pathForm (query : Parser ε) : Parser (Item ε) := do
  let start ← here
  let segments ← targetPath
  return .assign start.length (.path segments) (← assigned query)

/-- `let`, `meta` or a path, whichever the text has the form of. -/
def assignment (query : Parser ε) : Parser (Item ε) :=
  letForm query <|> metaForm query <|> pathForm query

/-- The names of the maps begun so far: those whose blocks have been closed, and those whose blocks
are open around the place reached, the innermost first. -/
structure Registry where
  closed : List String
  opened : List String
deriving DecidableEq

namespace Registry

def empty : Registry :=
  ⟨[], []⟩

def Knows (registry : Registry) (name : String) : Prop :=
  name ∈ registry.closed ∨ name ∈ registry.opened

instance (registry : Registry) (name : String) : Decidable (registry.Knows name) :=
  inferInstanceAs (Decidable (name ∈ registry.closed ∨ name ∈ registry.opened))

/-- The block of a definition begins. -/
def enter (registry : Registry) (name : String) : Registry :=
  { registry with opened := name :: registry.opened }

/-- The innermost block has ended. -/
def leave (registry : Registry) : Registry :=
  { registry with opened := registry.opened.tail }

/-- A definition is complete. -/
def register (registry : Registry) (name : String) : Registry :=
  { registry with closed := name :: registry.closed }

end Registry

/-- Parsers that know the maps begun so far and add to them. -/
abbrev Scoped (α : Type) := Registry → Parser (α × Registry)

/-- An assignment begins no map. -/
def keeping (form : Parser (Item ε)) : Scoped (Item ε) := fun registry => do
  return (← form, registry)

/-- The items of a block after its first, each on a line of its own, at most `bound` of them. -/
def moreInBlock (item : Scoped (Item ε)) : Nat → Scoped (List (Item ε))
  | 0, registry => pure ([], registry)
  | bound + 1, registry => do
      match ← optional (do let _ ← blanks; lineBreak) with
      | none => return ([], registry)
      | some _ =>
          blankLines
          let rest ← here
          if rest = [] ∨ rest.head? = some '}' then return ([], registry)
          let (first, registry) ← item registry
          let (others, registry) ← moreInBlock item bound registry
          return (first :: others, registry)

/-- Items between braces, at least one. -/
def block (item : Scoped (Item ε)) : Scoped (List (Item ε)) := fun registry => do
  char '{'
  blankLines
  let (first, registry) ← item registry
  let rest ← here
  let (others, registry) ← moreInBlock item rest.length registry
  blankLines
  char '}'
  return (first :: others, registry)

/-- What makes a text a map definition. -/
def mapKeyword : Parser Unit := do
  keyword "map"
  let _ ← blanks1

/-- A definition that begins at a place collides with another one if its name is taken. -/
def collide (start : List Char) (name : String) (taken : Prop) [Decidable taken] : Parser Unit :=
  if taken then abort start (.mapCollision name) else pure ()

/-- `map <name> { ... }`.  The name must be new when the definition begins, and again when its block
has been read. -/
def mapForm (item : Scoped (Item ε)) : Scoped (Item ε) := fun registry => do
  let start ← here
  mapKeyword
  let name ← commit (expect "map-name" name)
  collide start name (registry.Knows name)
  let _ ← blanks
  let (body, inner) ← commit (block item (registry.enter name))
  collide start name (name ∈ inner.closed)
  return (.map name body, inner.leave.register name)

/-- An item whose definitions nest at most `bound` deep.  Each level takes a character, so a bound
equal to the length of the text forbids nothing. -/
def itemUpTo (query : Parser ε) : Nat → Scoped (Item ε)
  | 0, _ => miss (.expected "target-path")
  | bound + 1, registry =>
      mapForm (itemUpTo query bound) registry <|> keeping (assignment query) registry

/-- An item at the front of a text. -/
def parse (query : Parser ε) : Scoped (Item ε) := fun registry text =>
  itemUpTo query text.length registry text

/-- The items of a program up to the end of the text, at least one and at most `bound`. -/
def programUpTo (query : Parser ε) : Nat → Registry → Parser (List (Item ε))
  | 0, _ => miss (.expected "target-path")
  | bound + 1, registry => do
      let (first, registry) ← parse query registry
      let _ ← blanks
      if ← atEnd then return [first]
      let _ ← expect "end of statement" lineBreak
      blankLines
      if ← atEnd then return [first]
      return first :: (← programUpTo query bound registry)

/-- A whole mapping: items on lines of their own, blank lines and comments around them. -/
def program (query : Parser ε) : Parser (List (Item ε)) := do
  blankLines
  let rest ← here
  programUpTo query rest.length .empty

end Remap.Item
