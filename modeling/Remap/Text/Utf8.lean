/-!
Bytes and their reading as UTF-8.  One left-to-right pass cuts a byte text into pieces, each a
character or a stretch that is no character, and every reading of the bytes is a view of the
pieces: `decode` wants characters only and names the first fault, `decodeLossy` puts the
replacement character for each stretch that is none.
-/

namespace Remap

/-- Raw content, byte by byte. -/
abbrev Bytes := List UInt8

namespace Utf8

/-- The bytes of a text. -/
def encode (text : List Char) : Bytes :=
  text.flatMap String.utf8EncodeChar

@[simp]
theorem encode_nil : encode [] = [] := rfl

@[simp]
theorem encode_cons (c : Char) (text : List Char) :
    encode (c :: text) = String.utf8EncodeChar c ++ encode text := rfl

theorem encode_append (first second : List Char) :
    encode (first ++ second) = encode first ++ encode second := by
  simp [encode]

/-- A character of which `width` bytes have been read.  The next byte must lie between `low` and
`high`, and `missing` more follow it. -/
structure Begun where
  width : Nat
  missing : Nat
  low : Nat
  high : Nat
  bits : Nat
deriving Repr, DecidableEq

/-- What a byte is at the start of a character. -/
inductive Lead
  | whole (c : Char)
  | begun (front : Begun)
  | stray
deriving Repr, DecidableEq

/-- The bounds on the second byte leave out overlong forms, surrogates and code points above
U+10FFFF. -/
def lead (byte : UInt8) : Lead :=
  let n := byte.toNat
  if n < 0x80 then .whole (Char.ofNat n)
  else if n < 0xC2 then .stray
  else if n < 0xE0 then .begun ⟨1, 0, 0x80, 0xBF, n - 0xC0⟩
  else if n < 0xF0 then
    .begun ⟨1, 1, if n = 0xE0 then 0xA0 else 0x80, if n = 0xED then 0x9F else 0xBF, n - 0xE0⟩
  else if n < 0xF5 then
    .begun ⟨1, 2, if n = 0xF0 then 0x90 else 0x80, if n = 0xF4 then 0x8F else 0xBF, n - 0xF0⟩
  else .stray

/-- Take one continuation byte in. -/
def Begun.extend (front : Begun) (byte : UInt8) : Begun where
  width := front.width + 1
  missing := front.missing - 1
  low := 0x80
  high := 0xBF
  bits := front.bits * 64 + (byte.toNat - 0x80)

/-- A piece of a byte text: a character, `width` bytes that start no character, or a character that
the end of the text cuts off after `width` bytes. -/
inductive Piece
  | char (c : Char)
  | malformed (width : Nat)
  | truncated (width : Nat)
deriving Repr, DecidableEq

/-- The pieces of a byte text, given the character that the bytes before it began. -/
def piecesFrom : Option Begun → Bytes → List Piece
  | none, [] => []
  | some front, [] => [.truncated front.width]
  | none, byte :: rest =>
      match lead byte with
      | .whole c => .char c :: piecesFrom none rest
      | .begun front => piecesFrom (some front) rest
      | .stray => .malformed 1 :: piecesFrom none rest
  | some front, byte :: rest =>
      if front.low ≤ byte.toNat ∧ byte.toNat ≤ front.high then
        if front.missing = 0 then
          .char (Char.ofNat (front.extend byte).bits) :: piecesFrom none rest
        else piecesFrom (some (front.extend byte)) rest
      else
        .malformed front.width ::
          match lead byte with
          | .whole c => .char c :: piecesFrom none rest
          | .begun other => piecesFrom (some other) rest
          | .stray => .malformed 1 :: piecesFrom none rest

/-- The pieces of a byte text. -/
def pieces (bytes : Bytes) : List Piece :=
  piecesFrom none bytes

/-- The first place at which a byte text is not UTF-8. -/
inductive Fault
  | invalid (width : Nat) (index : Nat)
  | incomplete (index : Nat)
deriving Repr, DecidableEq

def Fault.message : Fault → String
  | .invalid width index => s!"invalid utf-8 sequence of {width} bytes from index {index}"
  | .incomplete index => s!"incomplete utf-8 byte sequence from index {index}"

/-- The characters of a run of pieces that starts at byte `index`. -/
def charsFrom (index : Nat) : List Piece → Except Fault (List Char)
  | [] => .ok []
  | .char c :: rest => (charsFrom (index + c.utf8Size) rest).map (c :: ·)
  | .malformed width :: _ => .error (.invalid width index)
  | .truncated _ :: _ => .error (.incomplete index)

/-- The text that the bytes write, or where they stop being UTF-8. -/
def decode (bytes : Bytes) : Except Fault (List Char) :=
  charsFrom 0 (pieces bytes)

/-- The text that the bytes write, if they are UTF-8. -/
def decode? (bytes : Bytes) : Option (List Char) :=
  (decode bytes).toOption

/-- The character that stands for bytes that are none. -/
def replacement : Char := '\uFFFD'

def Piece.toChar : Piece → Char
  | .char c => c
  | .malformed _ => replacement
  | .truncated _ => replacement

/-- The text with one replacement character for each stretch that is not UTF-8. -/
def decodeLossy (bytes : Bytes) : List Char :=
  (pieces bytes).map Piece.toChar

theorem charsFrom_eq_ok {index : Nat} {run : List Piece} {text : List Char}
    (h : charsFrom index run = .ok text) : run = text.map .char := by
  induction run generalizing index text with
  | nil => cases h; rfl
  | cons piece rest ih =>
      cases piece with
      | char c =>
          rw [charsFrom] at h
          cases hrest : charsFrom (index + c.utf8Size) rest with
          | error fault => rw [hrest] at h; cases h
          | ok tail =>
              rw [hrest] at h
              cases h
              rw [ih hrest, List.map_cons]
      | malformed width => cases h
      | truncated width => cases h

/-- Where the bytes are UTF-8, the lossy reading loses nothing. -/
theorem decodeLossy_eq_of_decode {bytes : Bytes} {text : List Char}
    (h : decode bytes = .ok text) : decodeLossy bytes = text := by
  rw [decodeLossy, charsFrom_eq_ok h, List.map_map]
  exact List.map_id text

end Utf8

end Remap
