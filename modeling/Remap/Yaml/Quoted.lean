import Remap.Yaml.Scalar
import Remap.Yaml.Spacing

/-!
Quoted scalars.  In single quotes only the quote itself is written specially, twice; in double
quotes a backslash begins an escape, or takes a line break away.  A quoted scalar may go on over
lines of any indentation, but not past a mark.
-/

namespace Remap.Yaml

inductive Quotes
  | single
  | double
deriving Repr, DecidableEq

/-- What a character of a quoted scalar means, blanks and breaks aside. -/
inductive Piece
  | close
  /-- A character, for which `more` characters stand after the first. -/
  | char (c : Char) (more : Nat)
  /-- A break that the backslash before it takes away. -/
  | join
  | malformed
deriving Repr, DecidableEq

/-- The character of a one-letter escape. -/
def escape? : Char → Option Char
  | '0' => some '\x00'
  | 'a' => some '\x07'
  | 'b' => some '\x08'
  | 't' | '\t' => some '\t'
  | 'n' => some '\n'
  | 'v' => some '\x0b'
  | 'f' => some '\x0c'
  | 'r' => some '\r'
  | 'e' => some '\x1b'
  | ' ' => some ' '
  | '"' => some '"'
  | '/' => some '/'
  | '\\' => some '\\'
  | 'N' => some '\u0085'
  | '_' => some '\u00a0'
  | 'L' => some '\u2028'
  | 'P' => some '\u2029'
  | _ => none

/-- The number of hexadecimal digits after the letter of a numeric escape. -/
def escapeWidth? : Char → Option Nat
  | 'x' => some 2
  | 'u' => some 4
  | 'U' => some 8
  | _ => none

/-- The character that a code writes in `width` hexadecimal digits at the front of a text. -/
def charOfCode? (width : Nat) (text : List Char) : Option Char :=
  if width ≤ text.length then
    (digitsIn? 16 (text.take width)).bind fun code =>
      if code.isValidChar then some (Char.ofNat code) else none
  else none

/-- The piece after a backslash. -/
def escapedPiece : List Char → Piece
  | [] => .malformed
  | letter :: rest =>
      if isBreak letter then .join
      else
        match escape? letter, escapeWidth? letter with
        | some c, _ => .char c 1
        | none, some width =>
            match charOfCode? width rest with
            | some c => .char c (width + 1)
            | none => .malformed
        | none, none => .malformed

/-- The piece that begins with a character, given what follows it. -/
def Quotes.piece (c : Char) (rest : List Char) : Quotes → Piece
  | .single =>
      if c = '\'' then if rest.head? = some '\'' then .char '\'' 1 else .close
      else .char c 0
  | .double =>
      if c = '"' then .close
      else if c = '\\' then escapedPiece rest
      else .char c 0

/-- The text of a quoted scalar from some place in it on, and the cursor after its closing quote.
The first `more` characters belong to the piece before them. -/
def quotedFrom (quotes : Quotes) (spacing : Spacing) (more : Nat) (position : Position) :
    List Char → Option (List Char × Cursor)
  | [] => none
  | c :: rest =>
      let next := position.after c
      match more with
      | more + 1 => quotedFrom quotes spacing more next rest
      | 0 =>
          if isSpace c || isBreak c then quotedFrom quotes (spacing.push c) 0 next rest
          else if atMark position (c :: rest) then none
          else
            match quotes.piece c rest with
            | .close => some (spacing.text, ⟨next, false, rest⟩)
            | .char found more =>
                (quotedFrom quotes .empty more next rest).map fun (text, stop) =>
                  (spacing.text ++ found :: text, stop)
            | .join =>
                (quotedFrom quotes .joined 1 next rest).map fun (text, stop) =>
                  (spacing.text ++ text, stop)
            | .malformed => none

/-- A quoted scalar after its opening quote. -/
def quoted? (quotes : Quotes) (position : Position) (text : List Char) :
    Option (Scalar × Cursor) :=
  (quotedFrom quotes .empty 0 position text).map fun (text, stop) =>
    (.quoted (String.ofList text), stop)

theorem quotedFrom_rest_isSuffix {quotes : Quotes} {spacing : Spacing} {more : Nat}
    {position : Position} {text found : List Char} {stop : Cursor}
    (h : quotedFrom quotes spacing more position text = some (found, stop)) :
    stop.rest <:+ text := by
  induction text generalizing spacing more position found stop with
  | nil => simp [quotedFrom] at h
  | cons c rest ih =>
      have hstep := List.suffix_cons c rest
      cases more with
      | succ more =>
          rw [quotedFrom] at h
          exact (ih h).trans hstep
      | zero =>
          simp only [quotedFrom] at h
          split at h
          · exact (ih h).trans hstep
          · split at h
            · cases h
            · split at h
              · cases h
                exact hstep
              · obtain ⟨⟨_, _⟩, hrest, heq⟩ := Option.map_eq_some_iff.1 h
                cases heq
                exact (ih hrest).trans hstep
              · obtain ⟨⟨_, _⟩, hrest, heq⟩ := Option.map_eq_some_iff.1 h
                cases heq
                exact (ih hrest).trans hstep
              · cases h

end Remap.Yaml
