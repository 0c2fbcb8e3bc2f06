import Remap.Json.Numeral

/-!
Compact JSON text.  No blanks, fields in key order; a string escapes the quote, the backslash and
the control characters below U+0020, and nothing else.
-/

namespace Remap

namespace Json

/-- The last hexadecimal digit of a number, in lower case. -/
def hexDigit (n : Nat) : Char :=
  Nat.digitChar (n % 16)

/-- A character as it stands inside a string. -/
def escapeChar (c : Char) : List Char :=
  if c = '"' then ['\\', '"']
  else if c = '\\' then ['\\', '\\']
  else if c = '\n' then ['\\', 'n']
  else if c = '\r' then ['\\', 'r']
  else if c = '\t' then ['\\', 't']
  else if c = '\x08' then ['\\', 'b']
  else if c = '\x0c' then ['\\', 'f']
  else if c.toNat < 0x20 then ['\\', 'u', '0', '0', hexDigit (c.toNat / 16), hexDigit c.toNat]
  else [c]

/-- A string with its quotes. -/
def quote (text : List Char) : List Char :=
  '"' :: (text.flatMap escapeChar ++ ['"'])

mutual

/-- The text of a document. -/
def print : Value → List Char
  | .null => "null".toList
  | .bool true => "true".toList
  | .bool false => "false".toList
  | .number n => numberText n
  | .string s => quote s.toList
  | .array items => '[' :: (printItems items ++ [']'])
  | .object fields => '{' :: (printFields fields ++ ['}'])

def printItems : List Value → List Char
  | [] => []
  | [item] => print item
  | item :: rest => print item ++ ',' :: printItems rest

def printFields : List (String × Value) → List Char
  | [] => []
  | [(key, field)] => quote key.toList ++ ':' :: print field
  | (key, field) :: rest => quote key.toList ++ ':' :: print field ++ ',' :: printFields rest

end

end Json

namespace Value

def jsonText (value : Value) : String :=
  String.ofList (Json.print value)

/-- A string as it is, any other value as JSON. -/
def toText : Value → String
  | .string text => text
  | value => value.jsonText

end Value

end Remap
