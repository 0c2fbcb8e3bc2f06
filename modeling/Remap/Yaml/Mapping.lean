import Remap.Yaml.Plain
import Remap.Yaml.Quoted

/-!
Flat mappings.  A document holds one mapping from names to scalars, in block form with one entry
per line or in braces; what is nested deeper, and every other shape, is refused.  A name must be
written on one line and its colon must stand near, unless a question mark announces it.
-/

namespace Remap.Yaml

/-- A name and its scalar. -/
abbrev Entry := String × Scalar

/-- A scalar, which in a plain one goes on over lines that reach column `floor`. -/
def scalar? (style : Style) (floor : Nat) (cursor : Cursor) : Option (Scalar × Cursor) :=
  if cursor.isAtEnd then none
  else
    match cursor.rest with
    | [] => none
    | c :: rest =>
        if c = '\'' then quoted? .single (cursor.position.after c) rest
        else if c = '"' then quoted? .double (cursor.position.after c) rest
        else if startsPlain style c rest then plain? style floor cursor.position cursor.rest
        else none

/-- The most characters from the start of a name to its colon. -/
def nameReach : Nat := 1024

/-- Whether a colon belongs to the name before it. -/
def isNear (name colon : Position) : Bool :=
  name.line = colon.line && colon.column ≤ name.column + nameReach

/-! ### Block form -/

/-- What an entry holds, with the gap after it: a scalar right of the column of the names, or else
nothing. -/
def blockValue? (column : Nat) (cursor : Cursor) : Option (Scalar × Cursor) :=
  let cursor := cursor.skipGap .block
  if cursor.rest.isEmpty || cursor.position.column ≤ column then some (.absent, cursor)
  else
    (scalar? .block (column + 1) cursor).map fun (value, stop) => (value, stop.skipGap .block)

/-- What follows an announced name: on a line of its own a colon and a value, or nothing. -/
def announcedValue? (column : Nat) (cursor : Cursor) : Option (Scalar × Cursor) :=
  match cursor.rest with
  | ':' :: rest =>
      if cursor.fresh && cursor.position.column = column && endsWord rest then
        blockValue? column ⟨cursor.position.after ':', true, rest⟩
      else some (.absent, cursor)
  | _ => some (.absent, cursor)

/-- An entry of which the name begins here. -/
def namedEntry? (column : Nat) (cursor : Cursor) : Option (Entry × Cursor) := do
  let (name, stop) ← scalar? .block 0 cursor
  let stop := stop.skipGap .block
  match stop.rest with
  | ':' :: rest =>
      if isNear cursor.position stop.position && endsWord rest then
        let (value, stop) ← blockValue? column ⟨stop.position.after ':', false, rest⟩
        return ((name.text, value), stop)
      else none
  | _ => none

/-- An entry at the column of the names, with the gap after it. -/
def blockEntry? (column : Nat) (cursor : Cursor) : Option (Entry × Cursor) :=
  if cursor.fresh then
    match cursor.rest with
    | '?' :: rest =>
        if endsWord rest then do
          let (name, stop) ← blockValue? column ⟨cursor.position.after '?', true, rest⟩
          let (value, stop) ← announcedValue? column stop
          return ((name.text, value), stop)
        else namedEntry? column cursor
    | _ => namedEntry? column cursor
  else none

/-- At most `bound` entries in block form, all at one column. -/
def blockEntriesUpTo (column : Nat) : Nat → Cursor → Option (List Entry × Cursor)
  | 0, _ => none
  | bound + 1, cursor => do
      let (entry, stop) ← blockEntry? column cursor
      if stop.isAtEnd then return ([entry], stop)
      else if stop.position.column = column then
        let (entries, stop) ← blockEntriesUpTo column bound stop
        return (entry :: entries, stop)
      else none

/-! ### Flow form -/

/-- Whether a name or a value is missing here. -/
def isVoid : List Char → Bool
  | [] => false
  | c :: _ => c = ',' || c = '}'

/-- A scalar in braces, with the gap after it. -/
def flowScalar? (cursor : Cursor) : Option (Scalar × Cursor) :=
  (scalar? .flow 0 (cursor.skipGap .flow)).map fun (value, stop) => (value, stop.skipGap .flow)

/-- What follows a name in braces: a colon and a scalar, a colon alone, or nothing. -/
def flowValue? (near : Bool) (cursor : Cursor) : Option (Scalar × Cursor) :=
  match cursor.rest with
  | ':' :: rest =>
      if near then
        let after : Cursor := Cursor.skipGap .flow ⟨cursor.position.after ':', false, rest⟩
        if isVoid after.rest then some (.absent, after) else flowScalar? after
      else none
  | _ => some (.absent, cursor)

/-- An entry in braces, with the gap after it. -/
def flowEntry? (cursor : Cursor) : Option (Entry × Cursor) := do
  let (announced, start) := match cursor.rest with
    | '?' :: rest => (true, ⟨cursor.position.after '?', false, rest⟩)
    | _ => (false, cursor)
  let (name, stop) ← flowScalar? start
  let (value, stop) ← flowValue? (announced || isNear cursor.position stop.position) stop
  return ((name.text, value), stop)

/-- At most `bound` entries after an opening brace or a comma, and the cursor after the closing
brace. -/
def flowEntriesUpTo : Nat → Cursor → Option (List Entry × Cursor)
  | 0, _ => none
  | bound + 1, cursor =>
      let cursor := cursor.skipGap .flow
      match cursor.rest with
      | '}' :: rest => some ([], ⟨cursor.position.after '}', false, rest⟩)
      | _ => do
          let (entry, stop) ← flowEntry? cursor
          match stop.rest with
          | ',' :: rest =>
              let (entries, stop) ← flowEntriesUpTo bound ⟨stop.position.after ',', false, rest⟩
              return (entry :: entries, stop)
          | '}' :: rest => return ([entry], ⟨stop.position.after '}', false, rest⟩)
          | _ => none

/-! ### Documents -/

/-- The entries of a mapping in either form, and the cursor after them.  Each entry takes a
character at least, so the bounds suffice. -/
def mapping? (cursor : Cursor) : Option (List Entry × Cursor) :=
  match cursor.rest with
  | '{' :: rest => flowEntriesUpTo (rest.length + 1) ⟨cursor.position.after '{', false, rest⟩
  | text => blockEntriesUpTo cursor.position.column text.length cursor

/-- Whether nothing but at most `bound` end marks follows. -/
def isClosedUpTo : Nat → Cursor → Bool
  | bound, cursor =>
      let cursor := cursor.skipGap .block
      if cursor.rest.isEmpty then true
      else
        match bound with
        | 0 => false
        | bound + 1 => cursor.isAtMark endMark && isClosedUpTo bound (cursor.afterMark endMark)

/-- The entries of the document of a text.  An empty one has none, and only one document may stand
in a text. -/
def document? (text : List Char) : Option (List Entry) := do
  let start := (Cursor.ofText text).skipGap .block
  let announced := start.isAtMark startMark
  let start := if announced then (start.afterMark startMark).skipGap .block else start
  let (entries, stop) ←
    if start.rest.isEmpty || (announced && start.isAtMark endMark) then some ([], start)
    else mapping? start
  if isClosedUpTo text.length stop then return entries else none

/-- The entries that a text writes. -/
def entries? (text : List Char) : Option (List Entry) :=
  if text.all isPrintable then document? (unifyBreaks text) else none

example : entries? "a: b\n  c # d\ne: 'f'".toList =
    some [("a", .plain "b c"), ("e", .quoted "f")] := by decide +kernel

example : entries? "--- \x7ba: b, c\x7d\n...".toList =
    some [("a", .plain "b"), ("c", .absent)] := by decide +kernel

example : entries? "--- a: b".toList = none := by decide +kernel

example : entries? "a: b: c".toList = none := by decide +kernel

end Remap.Yaml
