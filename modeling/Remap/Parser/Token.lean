import Remap.Parser.Basic

/-!
The tokens that statements and expressions share: blanks, comments, line breaks and names.  A name
is bare or quoted; once a quote has been opened, a name that goes wrong is wrong for good.
-/

namespace Remap.Parser

/-- The text after a given beginning. -/
def after? : (beginning text : List Char) → Option (List Char)
  | [], text => some text
  | _ :: _, [] => none
  | b :: beginning, c :: text => if b = c then after? beginning text else none

/-- Exactly this text. -/
def keyword (word : String) : Parser Unit := fun text =>
  match after? word.toList text with
  | some rest => .ok ((), rest)
  | none => miss (.missingToken .keyword) text

/-- Exactly this character. -/
def char (c : Char) : Parser Unit := fun text =>
  match text with
  | [] => miss (.missingChar c) []
  | d :: rest => if d = c then .ok ((), rest) else miss (.missingChar c) (d :: rest)

/-- The longest run of characters of a class, possibly empty. -/
def run (inClass : Char → Bool) : Parser (List Char) := fun text =>
  .ok (text.takeWhile inClass, text.dropWhile inClass)

/-- The longest run of characters of a class; an empty one is a missing token. -/
def token (kind : TokenClass) (inClass : Char → Bool) : Parser (List Char) := fun text =>
  match text.takeWhile inClass with
  | [] => miss (.missingToken kind) text
  | c :: taken => .ok (c :: taken, text.dropWhile inClass)

def isSpaceOrTab (c : Char) : Bool :=
  c = ' ' || c = '\t'

def isSpaceTabOrBreak (c : Char) : Bool :=
  c = ' ' || c = '\t' || c = '\r' || c = '\n'

/-- One or more spaces and tabs. -/
def blanks1 : Parser (List Char) :=
  token .blanks isSpaceOrTab

/-- Spaces and tabs, if any. -/
def blanks : Parser (List Char) :=
  run isSpaceOrTab

/-- Spaces, tabs, carriage returns and line feeds, if any. -/
def blanksAndBreaks : Parser (List Char) :=
  run isSpaceTabOrBreak

/-- A line feed, alone or after a carriage return. -/
def lineEnd : Parser (List Char)
  | '\n' :: rest => .ok (['\n'], rest)
  | '\r' :: '\n' :: rest => .ok (['\r', '\n'], rest)
  | text => miss (.missingToken .lineEnd) text

def isLineText (c : Char) : Bool :=
  c ≠ '\r' && c ≠ '\n'

/-- A `#` and the rest of its line, with the line end or up to the end of the text.  A carriage
return that ends no line spoils the comment. -/
def comment : Parser (List Char)
  | '#' :: text =>
      let body := text.takeWhile isLineText
      match text.dropWhile isLineText with
      | [] => .ok ('#' :: body, [])
      | '\n' :: rest => .ok ('#' :: body ++ ['\n'], rest)
      | '\r' :: '\n' :: rest => .ok ('#' :: body ++ ['\r', '\n'], rest)
      | _ => miss (.missingToken .keyword) text
  | text => miss (.missingChar '#') text

/-- A line end, a comment before it or not. -/
def lineBreak : Parser (List Char) :=
  comment <|> lineEnd

/-- Everything that separates tokens across lines. -/
def blankLines : Parser Unit := do
  let _ ← many (blanks1 <|> lineBreak)

def isAsciiAlphanum (c : Char) : Bool :=
  c.isAlpha || c.isDigit

def isBareNameChar (c : Char) : Bool :=
  isAsciiAlphanum c || c = '*' || c = '+' || c = ',' || c = '-' || c = '.' || c = '_' || c = '~'

/-- A name without quotes. -/
def bareName : Parser String := do
  return String.ofList (← token .name isBareNameChar)

/-- How the text after an opening quote can fail to be a string: it ends first, or some backslash
starts no escape. -/
inductive QuoteFault
  | unclosed
  | badEscape (rest : List Char)
deriving Repr, DecidableEq

/-- The character that a letter stands for after a backslash. -/
def escaped? : Char → Option Char
  | '"' => some '"'
  | '\\' => some '\\'
  | '/' => some '/'
  | 'n' => some '\n'
  | 'r' => some '\r'
  | 't' => some '\t'
  | _ => none

/-- The characters up to the closing quote, and the text after it. -/
def quotedChars : List Char → Except QuoteFault (List Char × List Char)
  | [] => .error .unclosed
  | '"' :: rest => .ok ([], rest)
  | ['\\'] => .error (.badEscape ['\\'])
  | '\\' :: letter :: rest =>
      match escaped? letter with
      | none => .error (.badEscape ('\\' :: letter :: rest))
      | some c => (quotedChars rest).map fun (chars, rest) => (c :: chars, rest)
  | c :: rest => (quotedChars rest).map fun (chars, rest) => (c :: chars, rest)

/-- A name in double quotes, with escapes. -/
def quoted : Parser String
  | '"' :: text =>
      match quotedChars text with
      | .ok (chars, rest) => .ok (String.ofList chars, rest)
      | .error .unclosed => abort ('"' :: text) (.expected "closing quote of string") text
      | .error (.badEscape rest) => abort rest .invalidEscape text
  | text => miss (.missingChar '"') text

/-- A name, quoted or bare. -/
def name : Parser String :=
  quoted <|> bareName

theorem after?_eq_some {beginning text rest : List Char} :
    after? beginning text = some rest ↔ text = beginning ++ rest := by
  induction beginning generalizing text with
  | nil => simp [after?, eq_comm]
  | cons b beginning ih =>
      cases text with
      | nil => simp [after?]
      | cons c text =>
          by_cases hbc : b = c
          · simp [after?, hbc, ih]
          · simp [after?, hbc, Ne.symm hbc]

end Remap.Parser
