import Remap.Document.DotPath
import Remap.Expression.Basic
import Remap.Parser.Token

/-!
The expression language.  Literals, arrays and objects as in JSON but with plain decimal numbers
only, `this` with a path into the input document, and calls of the built-in functions with quoted
arguments.
-/

namespace Remap.Expr.Grammar

open Remap.Parser

variable {α : Type}

/-- A number as written: its sign, its whole digits and, after a point, more digits. -/
structure Numeral where
  negative : Bool
  whole : List Char
  fraction : Option (List Char)
deriving Repr, DecidableEq

namespace Numeral

def text (numeral : Numeral) : List Char :=
  (if numeral.negative then ['-'] else []) ++ numeral.whole ++
    match numeral.fraction with
    | none => []
    | some digits => '.' :: digits

/-- An integer must fit in 64 bits with its sign; with a point the number is the nearest double. -/
def number? (numeral : Numeral) : Option Number :=
  match numeral.fraction with
  | none =>
      let magnitude : Int := Nat.ofDigitChars 10 numeral.whole 0
      let value := if numeral.negative then -magnitude else magnitude
      if value < signBound then Number.ofInt? value else none
  | some digits =>
      (Binary64.ofRatio numeral.negative (Nat.ofDigitChars 10 (numeral.whole ++ digits) 0)
        (Nat.pow 10 digits.length)).map .real

end Numeral

/-- A point without a digit after it is left unread. -/
def numeral : Parser Numeral := do
  let sign ← optional (char '-')
  let whole ← token .digits Char.isDigit
  let fraction ← optional do
    char '.'
    token .digits Char.isDigit
  return ⟨sign.isSome, whole, fraction⟩

def number : Parser Expr := fun text =>
  match numeral text with
  | .error failure => .error failure
  | .ok (numeral, rest) =>
      match numeral.number? with
      | some n => .ok (.literal (.number n), rest)
      | none => abort text (.numberOutOfRange (String.ofList numeral.text)) text

def string : Parser Expr := do
  return .literal (.string (← quoted))

/-- A comma, blanks and line breaks around it. -/
def comma : Parser Unit := do
  let _ ← blanksAndBreaks
  char ','
  let _ ← blanksAndBreaks

/-- Items between brackets of some kind, committed at the closing one. -/
def bracketed (opening closing : Char) (item : Parser α) : Parser (List α) := do
  char opening
  let _ ← blanksAndBreaks
  let items ← separated comma item
  let _ ← blanksAndBreaks
  commit (char closing)
  return items

def array (item : Parser Expr) : Parser Expr := do
  return .array (← bracketed '[' ']' item)

/-- A quoted key, a colon and an expression. -/
def field (item : Parser Expr) : Parser (String × Expr) := do
  let key ← quoted
  commit do
    let _ ← blanksAndBreaks
    char ':'
    let _ ← blanksAndBreaks
  let value ← commit item
  return (key, value)

def object (item : Parser Expr) : Parser Expr := do
  return .object (← bracketed '{' '}' (field item))

def isWordChar (c : Char) : Bool :=
  isAsciiAlphanum c || c = '_'

def isSegmentChar (c : Char) : Bool :=
  isAsciiAlphanum c || c = '_' || c = '-' || c = '~'

/-- The segments after `this`, each after a point. -/
def documentPath : Parser Expr := do
  let segments ← many do
    char '.'
    commit (expect "path segment" (token .name isSegmentChar))
  return .document (segments.flatMap fun segment => DotPath.keys (String.ofList segment))

/-- The call of a built-in function with these arguments. -/
def ofCall (function : String) (arguments : List String) : Except Cause Expr :=
  match function, arguments with
  | "var", [name] => .ok (.var name)
  | "var", _ => .error (.wrongArity function 1 arguments.length)
  | "meta", [] => .ok (.metadata none)
  | "meta", [key] => .ok (.metadata (some key))
  | "meta", _ => .error (.wrongArity function 1 arguments.length)
  | "content", [] => .ok .content
  | "content", _ => .error (.wrongArity function 0 arguments.length)
  | "apply", [map] => .ok (.apply map)
  | "apply", _ => .error (.wrongArity function 1 arguments.length)
  | "throw", [message] => .ok (.throw message)
  | "throw", _ => .error (.wrongArity function 1 arguments.length)
  | _, _ => .error (.unknownFunction function)

/-- The arguments of a call whose name begins at `start`.  A call is judged once its arguments have
been read. -/
def call (start : List Char) (function : String) : Parser Expr := do
  let arguments ← bracketed '(' ')' quoted
  match ofCall function arguments with
  | .ok expr => return expr
  | .error cause => abort start cause

/-- A call, a named constant or `this`. -/
def word : Parser Expr := fun text =>
  match token .name isWordChar text with
  | .error failure => .error failure
  | .ok (letters, rest) =>
      let name := String.ofList letters
      if rest.head? = some '(' then call text name rest
      else
        match name with
        | "true" => .ok (.literal (.bool true), rest)
        | "false" => .ok (.literal (.bool false), rest)
        | "null" => .ok (.literal .null, rest)
        | "this" => documentPath rest
        | _ => miss (.expected "expression") text

/-- An expression that nests at most `bound` deep.  Each level takes a character, so a bound equal
to the length of the text forbids nothing. -/
def expression : Nat → Parser Expr
  | 0 => miss (.expected "expression")
  | bound + 1 =>
      expect "expression"
        (string <|> number <|> array (expression bound) <|> object (expression bound) <|> word)

end Remap.Expr.Grammar

namespace Remap

/-- An expression at the front of a text. -/
def Expr.parse : Parser Expr := fun text =>
  Expr.Grammar.expression text.length text

end Remap
