/-!
Dot paths.  A path is a list of keys; its text joins them with dots, and inside a key `~1` stands
for a dot and `~0` for a tilde, so every list of keys but the empty one has a text.
-/

namespace Remap.DotPath

/-- The parts of a text between its separators, one more than there are separators. -/
def split (separator : Char) : List Char → List (List Char)
  | [] => [[]]
  | c :: rest =>
      if c = separator then [] :: split separator rest
      else
        match split separator rest with
        | [] => [[c]]
        | part :: parts => (c :: part) :: parts

theorem split_ne_nil (separator : Char) (text : List Char) : split separator text ≠ [] := by
  cases text with
  | nil => simp [split]
  | cons c rest =>
      rw [split]
      split
      · simp
      · split <;> simp

theorem length_split (separator : Char) (text : List Char) :
    (split separator text).length = text.count separator + 1 := by
  induction text with
  | nil => rfl
  | cons c rest ih =>
      by_cases hc : c = separator
      · simp [split, hc, ih]
      · rw [split, if_neg hc, List.count_cons_of_ne hc, ← ih]
        cases hsplit : split separator rest with
        | nil => exact absurd hsplit (split_ne_nil separator rest)
        | cons part parts => rfl

/-- A tilde that starts no escape stands for itself. -/
def unescape : List Char → List Char
  | '~' :: '1' :: rest => '.' :: unescape rest
  | '~' :: '0' :: rest => '~' :: unescape rest
  | c :: rest => c :: unescape rest
  | [] => []

/-- The written form of a key. -/
def escape (key : List Char) : List Char :=
  key.flatMap fun c => if c = '~' then ['~', '0'] else if c = '.' then ['~', '1'] else [c]

/-- The keys that a path text names.  An empty part is an empty key; whoever forbids those checks
`firstEmptyPart`. -/
def keys (text : String) : List String :=
  (split '.' text.toList).map fun part => String.ofList (unescape part)

/-- The text that names a list of keys. -/
def ofKeys (path : List String) : String :=
  String.ofList (['.'].intercalate (path.map fun key => escape key.toList))

/-- The offset of the first empty part of a path text. -/
def firstEmptyPart (text : List Char) : Option Nat :=
  go 0 (split '.' text)
where
  go (offset : Nat) : List (List Char) → Option Nat
    | [] => none
    | part :: parts => if part.isEmpty then some offset else go (offset + part.length + 1) parts

theorem unescape_escape (key : List Char) : unescape (escape key) = key := by
  induction key with
  | nil => rfl
  | cons c rest ih =>
      rw [escape] at ih
      by_cases htilde : c = '~'
      · simp [escape, htilde, unescape, ih]
      · by_cases hdot : c = '.'
        · simp [escape, hdot, unescape, ih]
        · simp [escape, htilde, hdot, unescape, ih]

example : keys "a~1b.c~0d" = ["a.b", "c~d"] := by decide +kernel

example : keys "~01" = ["~1"] := by decide +kernel

end Remap.DotPath
