import Remap.Mapping.Program
import Remap.Proofs.SpelledExpr

/-!
Mappings as they are written.  A script is the tree of a mapping with the layout of its source: it
has a text, and it says which statements and definitions the mapping consists of and on which line
each statement begins.
-/

namespace Remap

/-- A segment of a target path; it has at least one character. -/
structure Segment where
  name : String
  nonempty : name ≠ ""

/-- The target of an assignment.  A path is written in quotes and from `root`. -/
inductive SpelledTarget
  | var (gap : Blanks1) (name : SpelledName)
  | metadata (gap : Blanks1) (key : SpelledName)
  | allMetadata
  | path (segments : List Segment)

namespace SpelledTarget

def target : SpelledTarget → Target
  | .var _ name => .var name.name
  | .metadata _ key => .metadata (some key.name)
  | .allMetadata => .metadata none
  | .path segments => .path (segments.map Segment.name)

def text : SpelledTarget → List Char
  | .var gap name => "let".toList ++ (gap.chars ++ name.text)
  | .metadata gap key => "meta".toList ++ (gap.chars ++ key.text)
  | .allMetadata => "meta".toList
  | .path segments => Spelling.quote (DotPath.ofKeys ("root" :: segments.map Segment.name))

end SpelledTarget

/-- The equals sign of an assignment and the expression after it. -/
structure SpelledValue where
  beforeSign : Blanks
  afterSign : Blanks
  expr : SpelledExpr

def SpelledValue.text (value : SpelledValue) : List Char :=
  value.beforeSign.chars ++ '=' :: (value.afterSign.chars ++ value.expr.text)

mutual

/-- An item with its layout. -/
inductive SpelledItem
  | map (gap : Blanks1) (name : SpelledName) (beforeBrace : Blanks) (lead : Gap)
      (body : SpelledBody) (tail : Gap)
  | assign (target : SpelledTarget) (value : SpelledValue)

/-- The items of a block or a program, at least one, each on lines of its own. -/
inductive SpelledBody
  | last (item : SpelledItem)
  | cons (item : SpelledItem) (between : Break) (rest : SpelledBody)

end

/-- A map definition up to the first item of its block. -/
def mapHead (gap : Blanks1) (name : SpelledName) (beforeBrace : Blanks) (lead : Gap) : List Char :=
  "map".toList ++ (gap.chars ++ (name.text ++ (beforeBrace.chars ++ '{' :: lead.text)))

mutual

def SpelledItem.text : SpelledItem → List Char
  | .map gap name beforeBrace lead body tail =>
      mapHead gap name beforeBrace lead ++ (body.text ++ (tail.text ++ ['}']))
  | .assign target value => target.text ++ value.text

def SpelledBody.text : SpelledBody → List Char
  | .last item => item.text
  | .cons item between rest => item.text ++ (between.text ++ rest.text)

end

mutual

/-- The names of the definitions in an item, in the order in which they begin. -/
def SpelledItem.names : SpelledItem → List String
  | .map _ name _ _ body _ => name.name :: body.names
  | .assign _ _ => []

def SpelledBody.names : SpelledBody → List String
  | .last item => item.names
  | .cons item _ rest => item.names ++ rest.names

end

mutual

/-- The item of the syntax tree, when so many characters of the source follow it. -/
def SpelledItem.item (after : Nat) : SpelledItem → Item Expr
  | .map _ name _ _ body tail => .map name.name (body.items (tail.text.length + (after + 1)))
  | .assign target value =>
      .assign (target.text.length + (value.text.length + after)) target.target value.expr.expr

def SpelledBody.items (after : Nat) : SpelledBody → List (Item Expr)
  | .last item => [item.item after]
  | .cons item between rest =>
      item.item (between.text.length + (rest.text.length + after)) :: rest.items after

end

/-- The statement that an item on a given line is, if it is no map definition. -/
def SpelledItem.statement? (line : Nat) : SpelledItem → Option (Statement Expr)
  | .map _ _ _ _ _ _ => none
  | .assign target value => some ⟨line, target.target, value.expr.expr⟩

/-- The statements of a body that begins on a given line. -/
def SpelledBody.statements (line : Nat) : SpelledBody → List (Statement Expr)
  | .last item => (item.statement? line).toList
  | .cons item between rest =>
      (item.statement? line).toList ++
        rest.statements (line + (item.text ++ between.text).count '\n')

mutual

/-- The definitions in an item that begins on a given line, each with the statements of its own
block. -/
def SpelledItem.definitions (line : Nat) : SpelledItem → List (String × List (Statement Expr))
  | .map gap name beforeBrace lead body _ =>
      let first := line + (mapHead gap name beforeBrace lead).count '\n'
      body.definitions first ++ [(name.name, body.statements first)]
  | .assign _ _ => []

def SpelledBody.definitions (line : Nat) : SpelledBody → List (String × List (Statement Expr))
  | .last item => item.definitions line
  | .cons item between rest =>
      item.definitions line ++ rest.definitions (line + (item.text ++ between.text).count '\n')

end

/-- A mapping with its layout. -/
structure Script where
  lead : Gap
  body : SpelledBody
  ending : Ending

namespace Script

def text (script : Script) : List Char :=
  script.lead.text ++ (script.body.text ++ script.ending.text)

def names (script : Script) : List String :=
  script.body.names

/-- The line of the first item. -/
def firstLine (script : Script) : Nat :=
  script.lead.text.count '\n' + 1

def statements (script : Script) : List (Statement Expr) :=
  script.body.statements script.firstLine

def definitions (script : Script) : List (String × List (Statement Expr)) :=
  script.body.definitions script.firstLine

end Script

end Remap
