import Remap.Expression.Parser
import Remap.Mapping.Grammar
import Remap.Text.Location

/-!
From source text to plan.  The grammar keeps places as remaining lengths; here they become lines and
columns of the whole text.
-/

namespace Remap

/-- A syntax error at a place of a source, line and column counted from 1. -/
structure ParseError where
  file : Option String
  line : Nat
  column : Nat
  cause : Cause
deriving Repr, DecidableEq

namespace ParseError

/-- Name the file that the source came from. -/
def inFile (file : String) (error : ParseError) : ParseError :=
  { error with file := some file }

def text (error : ParseError) : String :=
  let place := s!"line {error.line} char {error.column}: {error.cause.message}"
  match error.file with
  | some file => s!"file {file}: {place}"
  | none => place

def message (error : ParseError) : String :=
  s!"failed to parse mapping: {error.text}"

/-- The texts from the error down to what caused it. -/
def chain (error : ParseError) : List String :=
  [error.message, error.text, error.cause.message]

end ParseError

/-- The location of the place at which `remaining` characters of a text of the given length are
left. -/
def LineIndex.locateRemaining (index : LineIndex) (length remaining : Nat) : Location :=
  index.locate (length - remaining)

namespace Plan

variable {ε : Type}

/-- Parse a mapping whose expressions a given parser reads. -/
def parseWith (query : Parser ε) (file : Option String) (source : List Char) :
    Except ParseError (Plan ε) :=
  let index := LineIndex.ofText source
  let locate := index.locateRemaining source.length
  match Item.program query source with
  | .ok (items, _) => .ok (ofItems (fun remaining => (locate remaining).line) items)
  | .error failure =>
      let place := locate failure.rest.length
      .error ⟨file, place.line, place.column + 1, failure.cause⟩

/-- Parse a mapping. -/
def parse (file : Option String) (source : List Char) : Except ParseError (Plan Expr) :=
  parseWith Expr.parse file source

end Plan

end Remap
