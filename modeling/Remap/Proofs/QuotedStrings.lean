import Remap.Proofs.Spelling

/-!
Strings in quotes.  The text after an opening quote is in exactly one way a run of written
characters and what ends it: a closing quote, a backslash that starts no escape, or the end of the
text.  The first makes a string of the characters, and the other two are the ways to fail.
-/

namespace Remap

open Remap.Parser

/-- The escapes: the letter after the backslash, and the character that is meant. -/
def escapes : List (Char × Char) :=
  [('"', '"'), ('\\', '\\'), ('/', '/'), ('n', '\n'), ('r', '\r'), ('t', '\t')]

theorem escaped?_eq_some_iff {letter c : Char} :
    escaped? letter = some c ↔ (letter, c) ∈ escapes := by
  constructor
  · intro h
    unfold escaped? at h
    split at h <;> cases h <;> decide
  · intro h
    simp only [escapes, List.mem_cons, Prod.mk.injEq, List.not_mem_nil, or_false] at h
    rcases h with ⟨rfl, rfl⟩ | ⟨rfl, rfl⟩ | ⟨rfl, rfl⟩ | ⟨rfl, rfl⟩ | ⟨rfl, rfl⟩ | ⟨rfl, rfl⟩ <;> rfl

/-- The text begins with a backslash that starts no escape: the text ends after it, or a character
follows that is the letter of no escape. -/
def BeginsNoEscape (text : List Char) : Prop :=
  ∃ more, text = '\\' :: more ∧ Opens (fun letter => (escaped? letter).isNone) more

/-- What ends the written characters of a string. -/
inductive QuoteEnd
  /-- The closing quote, and the text after it. -/
  | closed (rest : List Char)
  /-- A backslash that starts no escape; the place is the text from it on. -/
  | badEscape (place : List Char) (h : BeginsNoEscape place)
  /-- The end of the text. -/
  | unclosed

namespace QuoteEnd

def text : QuoteEnd → List Char
  | .closed rest => '"' :: rest
  | .badEscape place _ => place
  | .unclosed => []

/-- The character that tells the ends apart. -/
def mark : QuoteEnd → Option Char
  | .closed _ => some '"'
  | .badEscape _ _ => some '\\'
  | .unclosed => none

theorem head?_text (ending : QuoteEnd) : ending.text.head? = ending.mark := by
  cases ending with
  | closed rest => rfl
  | badEscape place hplace =>
      obtain ⟨more, rfl, -⟩ := hplace
      rfl
  | unclosed => rfl

theorem text_inj {first second : QuoteEnd} (h : first.text = second.text) : first = second := by
  have hmark : first.mark = second.mark := by rw [← head?_text, h, head?_text]
  cases first with
  | closed rest =>
      cases second with
      | closed left => exact congrArg closed (List.cons.inj h).2
      | _ => simp [mark] at hmark
  | badEscape place hplace =>
      cases second with
      | badEscape other hother =>
          obtain rfl : place = other := h
          rfl
      | _ => simp [mark] at hmark
  | unclosed =>
      cases second with
      | unclosed => rfl
      | _ => simp [mark] at hmark

end QuoteEnd

namespace WrittenChar

variable {first second : WrittenChar} {rest left : List Char}

/-- A written character tells where it ends. -/
theorem text_append_inj (h : first.text ++ rest = second.text ++ left) :
    first = second ∧ rest = left := by
  cases first with
  | plain c hc =>
      cases second with
      | plain d hd =>
          simp only [text, List.singleton_append, List.cons.injEq] at h
          obtain ⟨rfl, rfl⟩ := h
          exact ⟨rfl, rfl⟩
      | escaped letter d hletter =>
          simp only [text, List.cons_append, List.nil_append, List.cons.injEq] at h
          exact absurd h.1 hc.2
  | escaped letter c hletter =>
      cases second with
      | plain d hd =>
          simp only [text, List.cons_append, List.nil_append, List.cons.injEq] at h
          exact absurd h.1.symm hd.2
      | escaped other d hother =>
          simp only [text, List.cons_append, List.nil_append, List.cons.injEq, true_and] at h
          obtain ⟨rfl, rfl⟩ := h
          obtain rfl : c = d := Option.some.inj (hletter.symm.trans hother)
          exact ⟨rfl, rfl⟩

/-- Where the written characters end none is written. -/
theorem text_append_ne (written : WrittenChar) (rest : List Char) (ending : QuoteEnd) :
    written.text ++ rest ≠ ending.text := by
  intro h
  cases ending with
  | closed left =>
      cases written with
      | plain c hc => exact hc.1 (List.cons.inj h).1
      | escaped letter c hletter => simp [text, QuoteEnd.text] at h
  | badEscape place hplace =>
      obtain ⟨more, rfl, hmore⟩ := hplace
      cases written with
      | plain c hc => exact hc.2 (List.cons.inj h).1
      | escaped letter c hletter =>
          have hrest : letter :: rest = more := (List.cons.inj h).2
          subst hrest
          simp [hletter] at hmore
  | unclosed => cases written <;> simp [text, QuoteEnd.text] at h

end WrittenChar

/-- The text after an opening quote: the written characters and what ends them. -/
structure QuotedBody where
  chars : List WrittenChar
  ending : QuoteEnd

namespace QuotedBody

def text (body : QuotedBody) : List Char :=
  body.chars.flatMap WrittenChar.text ++ body.ending.text

def cons (first : WrittenChar) (body : QuotedBody) : QuotedBody :=
  ⟨first :: body.chars, body.ending⟩

theorem text_cons (first : WrittenChar) (body : QuotedBody) :
    (cons first body).text = first.text ++ body.text := by
  rw [text, cons, List.flatMap_cons, List.append_assoc, text]

/-- Every text can stand after an opening quote. -/
theorem exists_text (text : List Char) : ∃ body : QuotedBody, body.text = text := by
  induction text using quotedChars.induct with
  | case1 => exact ⟨⟨[], .unclosed⟩, rfl⟩
  | case2 rest => exact ⟨⟨[], .closed rest⟩, rfl⟩
  | case3 => exact ⟨⟨[], .badEscape ['\\'] ⟨[], rfl, .nil⟩⟩, rfl⟩
  | case4 letter rest hletter =>
      have hplace : BeginsNoEscape ('\\' :: letter :: rest) := ⟨_, rfl, by simp [hletter]⟩
      exact ⟨⟨[], .badEscape _ hplace⟩, rfl⟩
  | case5 letter rest c hletter ih =>
      obtain ⟨body, rfl⟩ := ih
      exact ⟨cons (.escaped letter c hletter) body, text_cons _ body⟩
  | case6 c rest hquote hlast hbackslash ih =>
      -- The cases before this one have every backslash, the last character or not.
      have hplain : c ≠ '\\' := by
        rintro rfl
        cases rest with
        | nil => exact hlast rfl rfl
        | cons letter rest => exact hbackslash letter rest rfl rfl
      obtain ⟨body, rfl⟩ := ih
      exact ⟨cons (.plain c ⟨hquote, hplain⟩) body, text_cons _ body⟩

/-- A text can stand after an opening quote in one way only. -/
theorem text_inj {body other : QuotedBody} (h : body.text = other.text) : body = other := by
  obtain ⟨chars, ending⟩ := body
  obtain ⟨others, otherEnding⟩ := other
  -- The characters agree one by one, and no run of them goes on where the other has ended.
  induction chars generalizing others with
  | nil =>
      cases others with
      | nil =>
          obtain rfl : ending = otherEnding := QuoteEnd.text_inj h
          rfl
      | cons second others =>
          have hsecond := (text_cons second ⟨others, otherEnding⟩).symm.trans h.symm
          exact absurd hsecond (second.text_append_ne _ ending)
  | cons first chars ih =>
      have hfirst := (text_cons first ⟨chars, ending⟩).symm.trans h
      cases others with
      | nil => exact absurd hfirst (first.text_append_ne _ otherEnding)
      | cons second others =>
          have hboth := hfirst.trans (text_cons second ⟨others, otherEnding⟩)
          obtain ⟨rfl, hrest⟩ := WrittenChar.text_append_inj hboth
          cases ih others hrest
          rfl

/-- What is read from the body: the characters up to the closing quote, or the fault. -/
def outcome (body : QuotedBody) : Except QuoteFault (List Char × List Char) :=
  match body.ending with
  | .closed rest => .ok (body.chars.map WrittenChar.char, rest)
  | .badEscape place _ => .error (.badEscape place)
  | .unclosed => .error .unclosed

theorem quotedChars_ending (ending : QuoteEnd) :
    quotedChars ending.text = outcome ⟨[], ending⟩ := by
  cases ending with
  | closed rest => rfl
  | badEscape place hplace =>
      obtain ⟨more, rfl, hmore⟩ := hplace
      cases more with
      | nil => rfl
      | cons letter more =>
          have hletter : escaped? letter = none := by simpa using hmore
          simp only [QuoteEnd.text, quotedChars, hletter, outcome]
  | unclosed => rfl

theorem quotedChars_text (body : QuotedBody) : quotedChars body.text = body.outcome := by
  obtain ⟨chars, ending⟩ := body
  induction chars with
  | nil => exact quotedChars_ending ending
  | cons first chars ih =>
      have hfirst := text_cons first ⟨chars, ending⟩
      rw [cons] at hfirst
      rw [hfirst, first.quotedChars_append, ih]
      cases ending <;> rfl

/-- A string is read from a body that is closed; otherwise the parse fails for good, at the
backslash that starts no escape or at the opening quote. -/
theorem quoted_text (body : QuotedBody) :
    quoted ('"' :: body.text) =
      match body.ending with
      | .closed rest => .ok (String.ofList (body.chars.map WrittenChar.char), rest)
      | .badEscape place _ => .error ⟨true, place, .invalidEscape⟩
      | .unclosed => .error ⟨true, '"' :: body.text, .expected "closing quote of string"⟩ := by
  rw [quoted, quotedChars_text, outcome]
  cases body.ending <;> rfl

/-- A text does not begin with a quote, or it is a quote and a body. -/
theorem exists_of_text (text : List Char) :
    Opens (· ≠ '"') text ∨ ∃ body : QuotedBody, text = '"' :: body.text := by
  cases text with
  | nil => exact .inl .nil
  | cons c rest =>
      by_cases hquote : c = '"'
      · obtain ⟨body, rfl⟩ := exists_text rest
        exact .inr ⟨body, by rw [hquote]⟩
      · exact .inl (by simpa using hquote)

end QuotedBody

namespace Parser

variable {text rest : List Char}

/-- A string in quotes, as it was written. -/
theorem quoted_eq_ok {string : String} (h : quoted text = .ok (string, rest)) :
    ∃ written : List WrittenChar,
      text = '"' :: (written.flatMap WrittenChar.text ++ '"' :: rest) ∧
      string = String.ofList (written.map WrittenChar.char) := by
  rcases QuotedBody.exists_of_text text with hopens | ⟨⟨written, ending⟩, rfl⟩
  · rw [Spelling.quoted_of_opens hopens] at h
    cases h
  · rw [QuotedBody.quoted_text] at h
    cases ending with
    | closed after =>
        cases h
        exact ⟨written, rfl, rfl⟩
    | badEscape place hplace => cases h
    | unclosed => cases h

/-- A string in quotes fails for good at a backslash that starts no escape, the characters before
it being written as they should, or at its opening quote, where the text ends with such characters. -/
theorem quoted_eq_error_iff {body : List Char} {failure : Failure} :
    quoted ('"' :: body) = .error failure ↔
      (∃ (written : List WrittenChar) (place : List Char),
        body = written.flatMap WrittenChar.text ++ place ∧ BeginsNoEscape place ∧
        failure = ⟨true, place, .invalidEscape⟩) ∨
      ∃ written : List WrittenChar, body = written.flatMap WrittenChar.text ∧
        failure = ⟨true, '"' :: body, .expected "closing quote of string"⟩ := by
  constructor
  · intro h
    obtain ⟨⟨written, ending⟩, rfl⟩ := QuotedBody.exists_text body
    rw [QuotedBody.quoted_text] at h
    cases ending with
    | closed rest => cases h
    | badEscape place hplace =>
        cases h
        exact .inl ⟨written, place, rfl, hplace, rfl⟩
    | unclosed =>
        cases h
        exact .inr ⟨written, List.append_nil _, rfl⟩
  · rintro (⟨written, place, rfl, hplace, rfl⟩ | ⟨written, rfl, rfl⟩)
    · exact QuotedBody.quoted_text ⟨written, .badEscape place hplace⟩
    · have hread := QuotedBody.quoted_text ⟨written, .unclosed⟩
      simpa only [QuotedBody.text, QuoteEnd.text, List.append_nil] using hread

/-- A text is read as a string in quotes exactly if it is a quote, written characters, a quote and
the text that is left, and the string is then what those characters stand for: each by itself, but
for the six escapes.  The written characters and what is left are the only ones.  Without a quote at
the beginning the parse fails there and other forms may be tried.  With one every failure is final:
at the first backslash that starts no escape if no quote closes the string before it, and at the
opening quote if the text ends first. -/
theorem quoted_law (text : List Char) :
    (∀ letter c, escaped? letter = some c ↔ (letter, c) ∈ escapes) ∧
    (∀ string rest, quoted text = .ok (string, rest) ↔
      ∃ written : List WrittenChar,
        text = '"' :: (written.flatMap WrittenChar.text ++ '"' :: rest) ∧
        string = String.ofList (written.map WrittenChar.char)) ∧
    (∀ (written other : List WrittenChar) (rest left : List Char),
      text = '"' :: (written.flatMap WrittenChar.text ++ '"' :: rest) →
      text = '"' :: (other.flatMap WrittenChar.text ++ '"' :: left) →
      written = other ∧ rest = left) ∧
    (Opens (· ≠ '"') text → quoted text = .error ⟨false, text, .missingChar '"'⟩) ∧
    ∀ body, text = '"' :: body → ∀ failure, quoted text = .error failure ↔
      (∃ (written : List WrittenChar) (place : List Char),
        body = written.flatMap WrittenChar.text ++ place ∧ BeginsNoEscape place ∧
        failure = ⟨true, place, .invalidEscape⟩) ∨
      ∃ written : List WrittenChar, body = written.flatMap WrittenChar.text ∧
        failure = ⟨true, text, .expected "closing quote of string"⟩ := by
  refine ⟨fun _ _ => escaped?_eq_some_iff, ?_, ?_, Spelling.quoted_of_opens, ?_⟩
  · intro string rest
    constructor
    · exact quoted_eq_ok
    · rintro ⟨written, rfl, rfl⟩
      exact WrittenChar.quoted_append written rest
  · intro written other rest left hwritten hother
    have htexts := (List.cons.inj (hwritten.symm.trans hother)).2
    have hbodies : (⟨written, .closed rest⟩ : QuotedBody) = ⟨other, .closed left⟩ :=
      QuotedBody.text_inj htexts
    cases hbodies
    exact ⟨rfl, rfl⟩
  · rintro body rfl failure
    exact quoted_eq_error_iff

/-- An escaped backslash before the closing quote, a backslash before the last quote, an escape that
the end of the text cuts off, and a text that begins with another character. -/
theorem quoted_law_of_backslashes :
    (quoted ['"', '\\', '\\', '"', '/'] = .ok ("\\", ['/']) ∧
      ∀ (written : List WrittenChar) (rest : List Char),
        ['"', '\\', '\\', '"', '/'] =
          '"' :: (written.flatMap WrittenChar.text ++ '"' :: rest) →
        written = [.escaped '\\' '\\' rfl] ∧ rest = ['/']) ∧
    quoted ['"', 'a', '\\', '"'] =
      .error ⟨true, ['"', 'a', '\\', '"'], .expected "closing quote of string"⟩ ∧
    quoted ['"', 'a', '\\'] = .error ⟨true, ['\\'], .invalidEscape⟩ ∧
    Opens (· ≠ '"') ['a', '"'] ∧
    quoted ['a', '"'] = .error ⟨false, ['a', '"'], .missingChar '"'⟩ := by
  obtain ⟨-, hread, hunique, -⟩ := quoted_law ['"', '\\', '\\', '"', '/']
  have hstart : Opens (· ≠ '"') ['a', '"'] := by simp
  have hplain : 'a' ≠ '"' ∧ 'a' ≠ '\\' := by decide
  refine ⟨⟨?_, ?_⟩, ?_, ?_, hstart, (quoted_law ['a', '"']).2.2.2.1 hstart⟩
  · exact (hread _ _).mpr ⟨[.escaped '\\' '\\' rfl], rfl, rfl⟩
  · exact fun written rest h => hunique written [.escaped '\\' '\\' rfl] rest ['/'] h rfl
  · refine ((quoted_law _).2.2.2.2 _ rfl _).mpr (.inr ?_)
    exact ⟨[.plain 'a' hplain, .escaped '"' '"' rfl], rfl, rfl⟩
  · refine ((quoted_law _).2.2.2.2 _ rfl _).mpr (.inl ?_)
    exact ⟨[.plain 'a' hplain], ['\\'], rfl, ⟨[], rfl, .nil⟩, rfl⟩

end Parser

end Remap
