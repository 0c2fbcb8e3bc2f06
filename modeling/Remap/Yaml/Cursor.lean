/-!
Places in a YAML text.  A line break may be written in several ways, all but two of which mean a
line feed, so they become line feeds before anything is read.  What stands between the tokens of a
text is its gap: blanks, comments and line breaks.
-/

namespace Remap.Yaml

def isBreak (c : Char) : Bool :=
  c = '\n' || c = '\u2028' || c = '\u2029'

def isSpace (c : Char) : Bool :=
  c = ' ' || c = '\t'

/-- The characters that may stand in a text. -/
def isPrintable (c : Char) : Bool :=
  let n := c.toNat
  n = 0x09 || n = 0x0A || n = 0x0D || (0x20 ≤ n && n ≤ 0x7E) || n = 0x85 ||
    (0xA0 ≤ n && n ≤ 0xFFFD) || 0x10000 ≤ n

/-- The text with one line feed for each carriage return, next line and pair of carriage return and
line feed. -/
def unifyBreaks : List Char → List Char
  | [] => []
  | '\r' :: '\n' :: rest => '\n' :: unifyBreaks rest
  | c :: rest => (if c = '\r' || c = '\u0085' then '\n' else c) :: unifyBreaks rest

/-- Whether a word ends here: at a blank, a line break or the end of the text. -/
def endsWord : List Char → Bool
  | [] => true
  | c :: _ => isSpace c || isBreak c

/-- The line and the column of a character, both counted from zero. -/
structure Position where
  line : Nat
  column : Nat
deriving Repr, DecidableEq

/-- The position after a character. -/
def Position.after (position : Position) (c : Char) : Position :=
  if isBreak c then ⟨position.line + 1, 0⟩ else { position with column := position.column + 1 }

/-- Whether a word stands alone at the start of a line. -/
def isMark (word : List Char) (position : Position) (text : List Char) : Bool :=
  position.column = 0 && word.isPrefixOf text && endsWord (text.drop word.length)

/-- The mark before a document. -/
def startMark : List Char := ['-', '-', '-']

/-- The mark after a document. -/
def endMark : List Char := ['.', '.', '.']

/-- Marks are marks wherever they stand, also inside a scalar. -/
def atMark (position : Position) (text : List Char) : Bool :=
  isMark startMark position text || isMark endMark position text

/-- A place in a text and what follows it. -/
structure Cursor where
  position : Position
  /-- An entry of the block form may begin here: nothing but a gap stands before it on its line. -/
  fresh : Bool
  rest : List Char
deriving Repr, DecidableEq

/-- How a mapping is written: an entry to a line, or in braces. -/
inductive Style
  | block
  | flow
deriving Repr, DecidableEq

namespace Cursor

def ofText (text : List Char) : Cursor :=
  ⟨⟨0, 0⟩, true, text⟩

def isAtMark (cursor : Cursor) (mark : List Char) : Bool :=
  isMark mark cursor.position cursor.rest

/-- The cursor after a mark, where no entry may begin before the next line. -/
def afterMark (cursor : Cursor) (mark : List Char) : Cursor :=
  ⟨{ cursor.position with column := cursor.position.column + mark.length }, false,
    cursor.rest.drop mark.length⟩

/-- Nothing more of the document follows. -/
def isAtEnd (cursor : Cursor) : Bool :=
  cursor.rest.isEmpty || atMark cursor.position cursor.rest

/-- The cursor after the gap at the front of a text, or after the rest of a remark.  In the block
form a tab does not indent, and a byte order mark is nothing at the start of a line. -/
def gapFrom (style : Style) (fresh remark : Bool) (position : Position) : List Char → Cursor
  | [] => ⟨position, fresh, []⟩
  | c :: rest =>
      let next := position.after c
      if isBreak c then gapFrom style (fresh || style = .block) false next rest
      else if remark || c = '#' then gapFrom style fresh true next rest
      else if c = ' ' || (c = '\t' && (style = .flow || !fresh)) ||
          (c = '\uFEFF' && position.column = 0) then
        gapFrom style fresh false next rest
      else ⟨position, fresh, c :: rest⟩

def skipGap (style : Style) (cursor : Cursor) : Cursor :=
  gapFrom style cursor.fresh false cursor.position cursor.rest

theorem gapFrom_rest_isSuffix (style : Style) (fresh remark : Bool) (position : Position)
    (text : List Char) : (gapFrom style fresh remark position text).rest <:+ text := by
  induction text generalizing fresh remark position with
  | nil => exact List.suffix_refl _
  | cons c rest ih =>
      rw [gapFrom]
      split
      · exact (ih ..).trans (List.suffix_cons c rest)
      · split
        · exact (ih ..).trans (List.suffix_cons c rest)
        · split
          · exact (ih ..).trans (List.suffix_cons c rest)
          · exact List.suffix_refl _

/-- Skipping a gap drops characters at the front only. -/
theorem skipGap_rest_isSuffix (style : Style) (cursor : Cursor) :
    (cursor.skipGap style).rest <:+ cursor.rest :=
  gapFrom_rest_isSuffix ..

example : ((ofText " # a\n\tb".toList).skipGap .block).rest = ['\t', 'b'] := by decide

example : ((ofText " # a\n\tb".toList).skipGap .flow).rest = ['b'] := by decide

end Cursor

end Remap.Yaml
