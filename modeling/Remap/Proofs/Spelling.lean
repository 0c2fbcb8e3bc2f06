import Remap.Proofs.Spacing

/-!
Names as they are written.  A name in quotes may be any string; without quotes it is one or more of
the characters of a bare name.
-/

namespace Remap

open Remap.Parser

namespace Spelling

/-- A character of a string as it stands between the quotes. -/
def escape (c : Char) : List Char :=
  if c = '"' then ['\\', '"']
  else if c = '\\' then ['\\', '\\']
  else if c = '\n' then ['\\', 'n']
  else if c = '\r' then ['\\', 'r']
  else if c = '\t' then ['\\', 't']
  else [c]

/-- A string in quotes. -/
def quote (text : String) : List Char :=
  '"' :: (text.toList.flatMap escape ++ ['"'])

end Spelling

/-- A character of a string as it may stand between quotes: by itself or as an escape. -/
inductive WrittenChar
  | plain (c : Char) (h : c ≠ '"' ∧ c ≠ '\\')
  | escaped (letter c : Char) (h : escaped? letter = some c)

namespace WrittenChar

def char : WrittenChar → Char
  | .plain c _ => c
  | .escaped _ c _ => c

def text : WrittenChar → List Char
  | .plain c _ => [c]
  | .escaped letter _ _ => ['\\', letter]

theorem quotedChars_append (written : WrittenChar) (text : List Char) :
    quotedChars (written.text ++ text) =
      (quotedChars text).map fun (chars, rest) => (written.char :: chars, rest) := by
  cases written with
  | plain c h =>
      rw [WrittenChar.text, List.singleton_append, quotedChars]
      · rfl
      · exact h.1
      · exact fun hbackslash _ => h.2 hbackslash
      · exact fun _ _ hbackslash _ => h.2 hbackslash
  | escaped letter c h =>
      rw [WrittenChar.text, List.cons_append, List.singleton_append, quotedChars, h]
      rfl

theorem quotedChars_flatMap (written : List WrittenChar) (rest : List Char) :
    quotedChars (written.flatMap text ++ '"' :: rest) = .ok (written.map char, rest) := by
  induction written with
  | nil => rfl
  | cons first written ih =>
      rw [List.flatMap_cons, List.append_assoc, quotedChars_append, ih]
      rfl

theorem quoted_append (written : List WrittenChar) (rest : List Char) :
    Parser.quoted ('"' :: (written.flatMap text ++ '"' :: rest)) =
      .ok (String.ofList (written.map char), rest) := by
  rw [Parser.quoted, quotedChars_flatMap]

end WrittenChar

namespace Spelling

/-- A character is written as an escape or as itself. -/
theorem exists_written (c : Char) : ∃ written : WrittenChar,
    written.text = escape c ∧ written.char = c := by
  by_cases hquote : c = '"'
  · exact ⟨.escaped '"' c (by simp [hquote, escaped?]), by simp [escape, hquote, WrittenChar.text],
      rfl⟩
  · by_cases hbackslash : c = '\\'
    · exact ⟨.escaped '\\' c (by simp [hbackslash, escaped?]),
        by simp [escape, hbackslash, WrittenChar.text], rfl⟩
    · by_cases hfeed : c = '\n'
      · exact ⟨.escaped 'n' c (by simp [hfeed, escaped?]),
          by simp [escape, hfeed, WrittenChar.text], rfl⟩
      · by_cases hreturn : c = '\r'
        · exact ⟨.escaped 'r' c (by simp [hreturn, escaped?]),
            by simp [escape, hreturn, WrittenChar.text], rfl⟩
        · by_cases htab : c = '\t'
          · exact ⟨.escaped 't' c (by simp [htab, escaped?]),
              by simp [escape, htab, WrittenChar.text], rfl⟩
          · refine ⟨.plain c ⟨hquote, hbackslash⟩, ?_, rfl⟩
            simp [escape, hquote, hbackslash, hfeed, hreturn, htab, WrittenChar.text]

theorem exists_written_chars (chars : List Char) : ∃ written : List WrittenChar,
    written.flatMap WrittenChar.text = chars.flatMap escape ∧
      written.map WrittenChar.char = chars := by
  induction chars with
  | nil => exact ⟨[], rfl, rfl⟩
  | cons c chars ih =>
      obtain ⟨first, htext, hchar⟩ := exists_written c
      obtain ⟨others, htexts, hchars⟩ := ih
      refine ⟨first :: others, ?_, ?_⟩
      · rw [List.flatMap_cons, List.flatMap_cons, htext, htexts]
      · rw [List.map_cons, hchar, hchars]

theorem quotedChars_flatMap_escape (chars rest : List Char) :
    quotedChars (chars.flatMap escape ++ '"' :: rest) = .ok (chars, rest) := by
  obtain ⟨written, htext, hchars⟩ := exists_written_chars chars
  rw [← htext, WrittenChar.quotedChars_flatMap, hchars]

theorem quoted_quote (text : String) (rest : List Char) :
    quoted (quote text ++ rest) = .ok (text, rest) := by
  rw [quote, List.cons_append, List.append_assoc, List.singleton_append, quoted,
    quotedChars_flatMap_escape]
  simp

theorem quoted_of_opens {text : List Char} (h : Opens (· ≠ '"') text) :
    quoted text = .error ⟨false, text, .missingChar '"'⟩ := by
  cases text with
  | nil => rfl
  | cons c rest =>
      rw [Opens.cons_iff, decide_eq_true_eq] at h
      rw [quoted]
      · rfl
      · simpa using h

theorem quoted_misses {text : List Char} (h : Opens (· ≠ '"') text) : Misses quoted text :=
  ⟨_, quoted_of_opens h, rfl⟩

end Spelling

/-- The characters with which a name may begin. -/
def SpelledName.isStart (c : Char) : Bool :=
  c = '"' || isBareNameChar c

/-- A name as it is written. -/
inductive WrittenName
  | quoted (chars : List WrittenChar)
  | bare (text : TextOf isBareNameChar) (nonempty : text.chars ≠ [])

namespace WrittenName

def name : WrittenName → String
  | .quoted chars => String.ofList (chars.map WrittenChar.char)
  | .bare text _ => String.ofList text.chars

def text : WrittenName → List Char
  | .quoted chars => '"' :: (chars.flatMap WrittenChar.text ++ ['"'])
  | .bare text _ => text.chars

theorem opens_text (written : WrittenName) (rest : List Char) :
    Opens SpelledName.isStart (written.text ++ rest) := by
  cases written with
  | quoted chars => simp [text, SpelledName.isStart]
  | bare text nonempty =>
      refine Opens.append_of_ne_nil (text.opens.mono fun c hc => ?_) nonempty rest
      simp [SpelledName.isStart, hc]

/-- The name ends before this text: a bare one goes on as long as it can. -/
def EndsBefore (rest : List Char) : WrittenName → Prop
  | .quoted _ => True
  | .bare _ _ => Opens (!isBareNameChar ·) rest

theorem endsBefore_of_opens (written : WrittenName) {rest : List Char}
    (h : Opens (!isBareNameChar ·) rest) : written.EndsBefore rest := by
  cases written with
  | quoted chars => trivial
  | bare text nonempty => exact h

theorem name_append_of_ends (written : WrittenName) {rest : List Char}
    (h : written.EndsBefore rest) :
    Parser.name (written.text ++ rest) = .ok (written.name, rest) := by
  cases written with
  | quoted chars =>
      refine orElse_of_ok ?_ bareName
      rw [text, List.cons_append, List.append_assoc, List.singleton_append]
      exact WrittenChar.quoted_append chars rest
  | bare text nonempty =>
      have hmisses : Misses Parser.quoted (text.chars ++ rest) := by
        have hopens := text.opens.append_of_ne_nil nonempty rest
        exact Spelling.quoted_misses (hopens.ne (by decide))
      have htoken := token_append .name text nonempty h
      exact orElse_of_misses hmisses (bind_of_ok htoken _)

/-- A name is read to its end if no character of a bare name follows. -/
theorem name_append (written : WrittenName) {rest : List Char}
    (h : Opens (!isBareNameChar ·) rest) :
    Parser.name (written.text ++ rest) = .ok (written.name, rest) :=
  written.name_append_of_ends (written.endsBefore_of_opens h)

end WrittenName

/-- A name with a fixed spelling: in quotes every character that has an escape is escaped. -/
inductive SpelledName
  | quoted (name : String)
  | bare (text : TextOf isBareNameChar) (nonempty : text.chars ≠ [])

namespace SpelledName

def name : SpelledName → String
  | .quoted name => name
  | .bare text _ => String.ofList text.chars

def text : SpelledName → List Char
  | .quoted name => Spelling.quote name
  | .bare text _ => text.chars

theorem exists_written (spelled : SpelledName) : ∃ written : WrittenName,
    written.text = spelled.text ∧ written.name = spelled.name := by
  cases spelled with
  | bare text nonempty => exact ⟨.bare text nonempty, rfl, rfl⟩
  | quoted name =>
      obtain ⟨chars, htext, hchars⟩ := Spelling.exists_written_chars name.toList
      refine ⟨.quoted chars, ?_, ?_⟩
      · rw [WrittenName.text, htext]
        rfl
      · rw [WrittenName.name, hchars, String.ofList_toList]
        rfl

theorem opens_text (spelled : SpelledName) (rest : List Char) :
    Opens isStart (spelled.text ++ rest) := by
  obtain ⟨written, htext, -⟩ := spelled.exists_written
  rw [← htext]
  exact written.opens_text rest

theorem name_append (spelled : SpelledName) {rest : List Char}
    (h : Opens (!isBareNameChar ·) rest) :
    Parser.name (spelled.text ++ rest) = .ok (spelled.name, rest) := by
  obtain ⟨written, htext, hname⟩ := spelled.exists_written
  rw [← htext, ← hname]
  exact written.name_append h

end SpelledName

theorem name_of_opens {text : List Char} (h : Opens (!SpelledName.isStart ·) text) :
    Parser.name text = .error ⟨false, text, .missingToken .name⟩ := by
  have hbare : Opens (!isBareNameChar ·) text := by
    refine h.mono fun c hc => ?_
    simp only [SpelledName.isStart, Bool.not_eq_true', Bool.or_eq_false_iff] at hc
    simpa using hc.2
  exact orElse_of_missed (Spelling.quoted_of_opens (h.ne (by decide))) rfl
    (bind_of_error (token_of_opens .name hbare) _) rfl rfl

theorem name_misses {text : List Char} (h : Opens (!SpelledName.isStart ·) text) :
    Misses Parser.name text :=
  ⟨_, name_of_opens h, rfl⟩

end Remap
