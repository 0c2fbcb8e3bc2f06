/-!
Parsers of mapping source.  A parser takes a value from the front of a text or fails; a position is
the text that remains there, so a parser needs no counter and means the same wherever its text
stands.  A failure is recoverable, and then another form may be tried at the same place, or it is
committed and ends the parse.
-/

namespace Remap

/-- The classes of token that a parser may miss. -/
inductive TokenClass
  | keyword
  | blanks
  | digits
  | name
  | lineEnd
deriving Repr, DecidableEq

def TokenClass.label : TokenClass → String
  | .keyword => "Tag"
  | .blanks => "Space"
  | .digits => "Digit"
  | .name => "TakeWhile1"
  | .lineEnd => "CrLf"

/-- Why a parse failed. -/
inductive Cause
  | expected (label : String)
  | missingChar (c : Char)
  | missingToken (token : TokenClass)
  | invalidEscape
  | numberOutOfRange (text : String)
  | unknownFunction (name : String)
  | wrongArity (function : String) (wanted found : Nat)
  | mapCollision (name : String)
  | emptyPathSegment (path : String)
deriving Repr, DecidableEq

def Cause.message : Cause → String
  | .expected label => s!"expected {label}"
  | .missingChar c => s!"expected '{c}'"
  | .missingToken token => s!"unexpected input ({token.label})"
  | .invalidEscape => "invalid escape sequence in quoted string"
  | .numberOutOfRange text => s!"number '{text}' is out of range"
  | .unknownFunction name => s!"unknown function '{name}'"
  | .wrongArity function wanted found =>
      s!"function '{function}' expects {wanted} argument(s), got {found}"
  | .mapCollision name => s!"map name collision: {name}"
  | .emptyPathSegment path => s!"invalid target path '{path}': empty path segment"

/-- A failed parse and the text at which it failed. -/
structure Failure where
  committed : Bool
  rest : List Char
  cause : Cause
deriving Repr, DecidableEq

/-- Of two failures the one that got further; the second, if neither did. -/
def Failure.furthest (first second : Failure) : Failure :=
  if second.rest.length ≤ first.rest.length then second else first

def Parser (α : Type) : Type :=
  List Char → Except Failure (α × List Char)

namespace Parser

variable {α β : Type}

def bind (p : Parser α) (next : α → Parser β) : Parser β := fun text =>
  match p text with
  | .ok (value, rest) => next value rest
  | .error failure => .error failure

instance : Monad Parser where
  pure value := fun text => .ok (value, text)
  bind := bind

/-- Fail here, leaving other forms a chance. -/
def miss (cause : Cause) : Parser α := fun text =>
  .error ⟨false, text, cause⟩

/-- Fail for good, at a given place. -/
def abort (rest : List Char) (cause : Cause) : Parser α := fun _ =>
  .error ⟨true, rest, cause⟩

/-- The text that remains, which is the place reached. -/
def here : Parser (List Char) := fun text =>
  .ok (text, text)

def atEnd : Parser Bool := do
  return (← here).isEmpty

/-- Look for a form without taking it. -/
def peek (p : Parser α) : Parser α := fun text =>
  match p text with
  | .ok (value, _) => .ok (value, text)
  | .error failure => .error failure

/-- Try the second form where the first fails recoverably. -/
def orElse (p q : Parser α) : Parser α := fun text =>
  match p text with
  | .ok result => .ok result
  | .error first =>
      if first.committed then .error first
      else
        match q text with
        | .ok result => .ok result
        | .error second => .error (if second.committed then second else first.furthest second)

instance : OrElse (Parser α) where
  orElse p q := orElse p (q ())

/-- Once the form is recognised its failures are final. -/
def commit (p : Parser α) : Parser α := fun text =>
  match p text with
  | .ok result => .ok result
  | .error failure => .error { failure with committed := true }

/-- Name what was expected, if nothing of it was there. -/
def expect (label : String) (p : Parser α) : Parser α := fun text =>
  match p text with
  | .ok result => .ok result
  | .error failure =>
      if failure.committed = false ∧ failure.rest.length = text.length then
        .error ⟨false, text, .expected label⟩
      else .error failure

def optional (p : Parser α) : Parser (Option α) := fun text =>
  match p text with
  | .ok (value, rest) => .ok (some value, rest)
  | .error failure => if failure.committed then .error failure else .ok (none, text)

/-- Repeat a parser that never succeeds on nothing, at most `bound` times. -/
def manyUpTo (p : Parser α) : Nat → Parser (List α)
  | 0 => pure []
  | bound + 1 => fun text =>
      match p text with
      | .ok (value, rest) =>
          match manyUpTo p bound rest with
          | .ok (values, rest) => .ok (value :: values, rest)
          | .error failure => .error failure
      | .error failure => if failure.committed then .error failure else .ok ([], text)

/-- Repeat a parser that never succeeds on nothing, as often as it succeeds.  The length of the text
bounds the repetitions. -/
def many (p : Parser α) : Parser (List α) := fun text =>
  manyUpTo p text.length text

/-- What follows the first item of a list: separators and items, at most `bound` of them.  A
separator without an item is left unread. -/
def separatedUpTo (separator : Parser β) (item : Parser α) : Nat → Parser (List α)
  | 0 => pure []
  | bound + 1 => fun text =>
      match separator text with
      | .error failure => if failure.committed then .error failure else .ok ([], text)
      | .ok (_, rest) =>
          match item rest with
          | .error failure => if failure.committed then .error failure else .ok ([], text)
          | .ok (value, rest) =>
              match separatedUpTo separator item bound rest with
              | .ok (values, rest) => .ok (value :: values, rest)
              | .error failure => .error failure

/-- A list of items with a separator between them, possibly empty.  The separator is never empty. -/
def separated (separator : Parser β) (item : Parser α) : Parser (List α) := fun text =>
  match item text with
  | .error failure => if failure.committed then .error failure else .ok ([], text)
  | .ok (value, rest) =>
      match separatedUpTo separator item rest.length rest with
      | .ok (values, rest) => .ok (value :: values, rest)
      | .error failure => .error failure

@[simp]
theorem pure_apply (value : α) (text : List Char) :
    (pure value : Parser α) text = .ok (value, text) := rfl

theorem bind_apply (p : Parser α) (next : α → Parser β) (text : List Char) :
    (p >>= next) text =
      match p text with
      | .ok (value, rest) => next value rest
      | .error failure => .error failure := rfl

end Parser

end Remap
