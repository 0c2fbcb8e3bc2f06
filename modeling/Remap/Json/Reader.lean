import Remap.Dictionary
import Remap.Json.Numeral
import Remap.Text.Utf8

/-!
Reading JSON text.  The reader is strict: one value, blanks around its tokens and nothing else.
Arrays and objects may nest up to `nestingLimit` deep; of two fields with one key the later one
counts.
-/

namespace Remap

namespace Json

variable {α : Type}

/-- A reader takes a value from the front of a text and hands back the rest. -/
abbrev Reader (α : Type) := List Char → Option (α × List Char)

/-- How deeply arrays and objects may nest in a text that is read. -/
def nestingLimit : Nat := 127

def isBlankChar (c : Char) : Bool :=
  c = ' ' || c = '\t' || c = '\n' || c = '\r'

def skipBlanks (text : List Char) : List Char :=
  text.dropWhile isBlankChar

def hexValue? (c : Char) : Option Nat :=
  if c.isDigit then some (c.toNat - '0'.toNat)
  else if 'a' ≤ c ∧ c ≤ 'f' then some (c.toNat - 'a'.toNat + 10)
  else if 'A' ≤ c ∧ c ≤ 'F' then some (c.toNat - 'A'.toNat + 10)
  else none

/-- The value of four hexadecimal digits. -/
def codeUnit? (a b c d : Char) : Option Nat := do
  return (((← hexValue? a) * 16 + (← hexValue? b)) * 16 + (← hexValue? c)) * 16 + (← hexValue? d)

/-- The character that a one-letter escape stands for. -/
def simpleEscape? : Char → Option Char
  | '"' => some '"'
  | '\\' => some '\\'
  | '/' => some '/'
  | 'b' => some '\x08'
  | 'f' => some '\x0c'
  | 'n' => some '\n'
  | 'r' => some '\r'
  | 't' => some '\t'
  | _ => none

def isHighSurrogate (unit : Nat) : Bool :=
  0xD800 ≤ unit && unit ≤ 0xDBFF

def isLowSurrogate (unit : Nat) : Bool :=
  0xDC00 ≤ unit && unit ≤ 0xDFFF

/-- The rest of a string whose opening quote has been taken. -/
def readChars : Reader (List Char)
  | [] => none
  | '"' :: rest => some ([], rest)
  | '\\' :: 'u' :: a :: b :: c :: d :: rest => do
      let unit ← codeUnit? a b c d
      if isLowSurrogate unit then none
      else if isHighSurrogate unit then
        match rest with
        | '\\' :: 'u' :: e :: f :: g :: h :: rest =>
            let low ← codeUnit? e f g h
            if isLowSurrogate low then
              let (tail, rest) ← readChars rest
              return (Char.ofNat (0x10000 + (unit - 0xD800) * 0x400 + (low - 0xDC00)) :: tail, rest)
            else none
        | _ => none
      else
        let (tail, rest) ← readChars rest
        return (Char.ofNat unit :: tail, rest)
  | '\\' :: letter :: rest => do
      let c ← simpleEscape? letter
      let (tail, rest) ← readChars rest
      return (c :: tail, rest)
  | c :: rest =>
      if c = '\\' ∨ c.toNat < 0x20 then none
      else do
        let (tail, rest) ← readChars rest
        return (c :: tail, rest)

/-- The longest run of digits at the front of a text. -/
def spanDigits (text : List Char) : List Char × List Char :=
  text.span Char.isDigit

/-- A point and at least one digit, if a point comes next. -/
def readFraction : Reader (Option (List Char))
  | '.' :: rest =>
      let (digits, rest) := spanDigits rest
      if digits.isEmpty then none else some (some digits, rest)
  | text => some (none, text)

/-- The letter of an exponent, its sign and at least one digit, if the letter comes next. -/
def readExponent : Reader (Option (Bool × List Char))
  | [] => some (none, [])
  | e :: rest =>
      if e = 'e' ∨ e = 'E' then
        let (below, rest) := match rest with
          | '-' :: rest => (true, rest)
          | '+' :: rest => (false, rest)
          | rest => (false, rest)
        let (digits, rest) := spanDigits rest
        if digits.isEmpty then none else some (some (below, digits), rest)
      else some (none, e :: rest)

/-- A numeral has no needless zero in front. -/
def readNumeral : Reader Numeral := fun text => do
  let (negative, text) := match text with
    | '-' :: rest => (true, rest)
    | text => (false, text)
  let (whole, text) := spanDigits text
  if whole.isEmpty ∨ (whole.head? = some '0' ∧ 1 < whole.length) then none
  let (fraction, text) ← readFraction text
  let (exponent, text) ← readExponent text
  return ({ negative, whole, fraction, exponent }, text)

def readNumber : Reader Number := fun text => do
  let (numeral, rest) ← readNumeral text
  return (← numeral.number?, rest)

/-- The items of an array of which at least one is still to come, up to the closing bracket.  An
item is never empty, so the length of the text bounds their number. -/
def readItems (item : Reader α) : Nat → Reader (List α)
  | 0, _ => none
  | bound + 1, text => do
      let (value, rest) ← item text
      match skipBlanks rest with
      | ',' :: rest =>
          let (values, rest) ← readItems item bound rest
          return (value :: values, rest)
      | ']' :: rest => return ([value], rest)
      | _ => none

/-- A key, a colon and a value. -/
def readField (item : Reader α) : Reader (String × α) := fun text =>
  match skipBlanks text with
  | '"' :: rest => do
      let (key, rest) ← readChars rest
      match skipBlanks rest with
      | ':' :: rest =>
          let (value, rest) ← item rest
          return ((String.ofList key, value), rest)
      | _ => none
  | _ => none

/-- The fields of an object of which at least one is still to come, up to the closing brace. -/
def readFields (item : Reader α) : Nat → Reader (List (String × α))
  | 0, _ => none
  | bound + 1, text => do
      let (field, rest) ← readField item text
      match skipBlanks rest with
      | ',' :: rest =>
          let (fields, rest) ← readFields item bound rest
          return (field :: fields, rest)
      | '}' :: rest => return ([field], rest)
      | _ => none

/-- The items of an array whose opening bracket has been taken. -/
def readArray (item : Reader α) : Reader (List α) := fun text =>
  match skipBlanks text with
  | ']' :: rest => some ([], rest)
  | text => readItems item text.length text

/-- The fields of an object whose opening brace has been taken, as written. -/
def readObject (item : Reader α) : Reader (List (String × α)) := fun text =>
  match skipBlanks text with
  | '}' :: rest => some ([], rest)
  | text => readFields item text.length text

/-- A value that nests at most `levels` deep. -/
def readValue : Nat → Reader Value
  | levels, text =>
      match skipBlanks text with
      | 'n' :: 'u' :: 'l' :: 'l' :: rest => some (.null, rest)
      | 't' :: 'r' :: 'u' :: 'e' :: rest => some (.bool true, rest)
      | 'f' :: 'a' :: 'l' :: 's' :: 'e' :: rest => some (.bool false, rest)
      | '"' :: rest => (readChars rest).map fun (text, rest) => (.string (String.ofList text), rest)
      | '[' :: rest =>
          match levels with
          | 0 => none
          | levels + 1 =>
              (readArray (readValue levels) rest).map fun (items, rest) => (.array items, rest)
      | '{' :: rest =>
          match levels with
          | 0 => none
          | levels + 1 =>
              (readObject (readValue levels) rest).map fun (fields, rest) =>
                (.object (Entries.ofList fields), rest)
      | text => (readNumber text).map fun (n, rest) => (.number n, rest)

/-- A string and nothing else. -/
def readString : Reader String := fun text =>
  match skipBlanks text with
  | '"' :: rest => (readChars rest).map fun (text, rest) => (String.ofList text, rest)
  | _ => none

/-- An object all of whose fields, overwritten ones too, are strings. -/
def readTexts : Reader (List (String × String)) := fun text =>
  match skipBlanks text with
  | '{' :: rest => readObject readString rest
  | _ => none

/-- Read a whole text; only blanks may follow. -/
def whole? (reader : Reader α) (text : List Char) : Option α :=
  match reader text with
  | some (value, rest) => if (skipBlanks rest).isEmpty then some value else none
  | none => none

/-- The document that a text writes, if it is JSON. -/
def read? (text : List Char) : Option Value :=
  whole? (readValue nestingLimit) text

/-- The document that a byte text writes, if it is JSON in UTF-8. -/
def readBytes? (bytes : Bytes) : Option Value :=
  (Utf8.decode? bytes).bind read?

example : read? " \x7b\"b\" : [1, -0] , \"a\": null\x7d\n".toList =
    some (.object [("a", .null), ("b", .array [.number (.integer 1 (by decide) (by decide)),
      .number (.real (Binary64.zero true))])]) := by
  decide +kernel

end Json

end Remap
