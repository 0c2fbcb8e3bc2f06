import Remap.Proofs.Bracketed
import Remap.Proofs.DotPaths

/-!
The forms of an expression, each on a text of its own.  The first character tells which form a text
has, and every form is read up to a delimiter.
-/

namespace Remap.Expr.Grammar

open Remap.Parser

variable {source rest : List Char} {bound : Nat} {result : Expr × List Char}

/-- The characters with which a number begins. -/
def isNumberStart (c : Char) : Bool :=
  c = '-' || c.isDigit

theorem string_misses (h : Opens (· ≠ '"') source) : Misses string source :=
  (Spelling.quoted_misses h).bind _

theorem number_misses (h : Opens (!isNumberStart ·) source) : Misses number source := by
  have hsign : optional (char '-') source = .ok (none, source) :=
    optional_of_misses (char_misses (h.ne (by decide)))
  have hdigits : Misses (token .digits Char.isDigit) source := by
    refine token_misses .digits (h.mono fun c hc => ?_)
    simp only [isNumberStart, Bool.not_eq_true', Bool.or_eq_false_iff] at hc
    simpa using hc.2
  have hnumeral : Misses numeral source := by
    rw [Misses, numeral, bind_of_ok hsign]
    exact hdigits.bind _
  obtain ⟨failure, herror, hfree⟩ := hnumeral
  exact ⟨failure, by simp only [number, herror], hfree⟩

theorem array_misses (item : Parser Expr) (h : Opens (· ≠ '[') source) :
    Misses (array item) source :=
  ((char_misses h).bind _).bind _

theorem object_misses (item : Parser Expr) (h : Opens (· ≠ '{') source) :
    Misses (object item) source :=
  ((char_misses h).bind _).bind _

theorem expression_of_string (h : string source = .ok result) :
    expression (bound + 1) source = .ok result :=
  expect_of_ok (orElse_of_ok h _) _

theorem expression_of_number (hopens : Opens isNumberStart source)
    (h : number source = .ok result) : expression (bound + 1) source = .ok result := by
  have hstring : Misses string source := string_misses (hopens.ne (by decide))
  exact expect_of_ok (orElse_of_misses hstring (orElse_of_ok h _)) _

/-- Where a number begins that cannot be held, no other form is tried. -/
theorem expression_of_failed_number (hopens : Opens isNumberStart source) {failure : Failure}
    (h : number source = .error failure) (hcommitted : failure.committed = true) :
    expression (bound + 1) source = .error failure := by
  have hstring : Misses string source := string_misses (hopens.ne (by decide))
  refine expect_of_committed ?_ hcommitted _
  exact orElse_of_misses_committed hstring (orElse_of_committed h hcommitted _) hcommitted

theorem expression_of_array (h : array (expression bound) ('[' :: source) = .ok result) :
    expression (bound + 1) ('[' :: source) = .ok result := by
  have hstring : Misses string ('[' :: source) := string_misses (by simp)
  have hnumber : Misses number ('[' :: source) := number_misses (by rw [Opens.cons_iff]; decide)
  exact expect_of_ok (orElse_of_misses hstring (orElse_of_misses hnumber (orElse_of_ok h _))) _

theorem expression_of_object (h : object (expression bound) ('{' :: source) = .ok result) :
    expression (bound + 1) ('{' :: source) = .ok result := by
  have hstring : Misses string ('{' :: source) := string_misses (by simp)
  have hnumber : Misses number ('{' :: source) := number_misses (by rw [Opens.cons_iff]; decide)
  have harray : Misses (array (expression bound)) ('{' :: source) := array_misses _ (by simp)
  exact expect_of_ok (orElse_of_misses hstring
    (orElse_of_misses hnumber (orElse_of_misses harray (orElse_of_ok h _)))) _

/-- The letters come after the digits. -/
theorem nine_lt_of_isAlpha {c : Char} (h : c.isAlpha = true) : 57 < c.val.toNat := by
  have hcases : c.isUpper = true ∨ c.isLower = true := Bool.or_eq_true_iff.mp h
  rcases hcases with hupper | hlower
  · have hbounds : 'A'.val ≤ c.val ∧ c.val ≤ 'Z'.val := of_decide_eq_true hupper
    exact Nat.lt_of_lt_of_le (by decide : 57 < 'A'.val.toNat) (UInt32.le_iff_toNat_le.mp hbounds.1)
  · have hbound : 'a'.val ≤ c.val := of_decide_eq_true (Bool.and_eq_true_iff.mp hlower).1
    exact Nat.lt_of_lt_of_le (by decide : 57 < 'a'.val.toNat) (UInt32.le_iff_toNat_le.mp hbound)

theorem not_isNumberStart_of_isAlpha {c : Char} (h : c.isAlpha = true) :
    isNumberStart c = false := by
  rw [isNumberStart, Bool.or_eq_false_iff, decide_eq_false_iff_not]
  constructor
  · rintro rfl
    revert h
    decide
  · cases hdigit : c.isDigit with
    | false => rfl
    | true =>
        have hbound : c.val ≤ '9'.val := of_decide_eq_true (Bool.and_eq_true_iff.mp hdigit).2
        have hnine : c.val.toNat ≤ 57 := UInt32.le_iff_toNat_le.mp hbound
        exact absurd (nine_lt_of_isAlpha h) (Nat.not_lt.mpr hnine)

theorem expression_of_word (hopens : Opens Char.isAlpha source) (h : word source = .ok result) :
    expression (bound + 1) source = .ok result := by
  have hstring : Misses string source := string_misses (hopens.ne (by decide))
  have hnumber : Misses number source :=
    number_misses (hopens.apart fun _ => not_isNumberStart_of_isAlpha)
  have harray : Misses (array (expression bound)) source := array_misses _ (hopens.ne (by decide))
  have hobject : Misses (object (expression bound)) source :=
    object_misses _ (hopens.ne (by decide))
  exact expect_of_ok (orElse_of_misses hstring (orElse_of_misses hnumber
    (orElse_of_misses harray (orElse_of_misses hobject h)))) _

/-- No expression begins with the bracket that closes an array. -/
theorem expression_misses_of_closing (bound : Nat) (rest : List Char) :
    Misses (expression bound) (']' :: rest) := by
  cases bound with
  | zero => exact misses_miss _ _
  | succ bound =>
      have hstring : Misses string (']' :: rest) := string_misses (by simp)
      have hnumber : Misses number (']' :: rest) := number_misses (by rw [Opens.cons_iff]; decide)
      have harray : Misses (array (expression bound)) (']' :: rest) := array_misses _ (by simp)
      have hobject : Misses (object (expression bound)) (']' :: rest) := object_misses _ (by simp)
      have hletters : Misses (token .name isWordChar) (']' :: rest) :=
        token_misses .name (by rw [Opens.cons_iff]; decide)
      have hword : Misses word (']' :: rest) := by
        obtain ⟨failure, herror, hfree⟩ := hletters
        exact ⟨failure, by simp only [word, herror], hfree⟩
      exact Misses.expect (hstring.orElse (hnumber.orElse (harray.orElse (hobject.orElse hword)))) _

theorem isWordChar_of_isDelimiter (c : Char) (h : isDelimiter c = true) : isWordChar c = false := by
  simp only [isDelimiter, isSegmentChar, Bool.and_eq_true, Bool.not_eq_true',
    Bool.or_eq_false_iff] at h
  simp [isWordChar, h]

theorem isDigit_of_isDelimiter (c : Char) (h : isDelimiter c = true) : c.isDigit = false := by
  simp only [isDelimiter, isSegmentChar, isAsciiAlphanum, Bool.and_eq_true, Bool.not_eq_true',
    Bool.or_eq_false_iff] at h
  exact h.1.1.1.1.1.2

/-- An integer in decimal digits. -/
def integerText (value : Int) : List Char :=
  (if value < 0 then ['-'] else []) ++ Nat.toDigits 10 value.natAbs

def digitsOf (n : Nat) : TextOf Char.isDigit where
  chars := Nat.toDigits 10 n
  all := List.all_eq_true.mpr fun _ hc =>
    Nat.isDigit_of_mem_toDigits (by decide) (by decide) hc

/-- A numeral as the grammar writes it: digits, and digits again after a point. -/
structure Numeral.WellFormed (numeral : Numeral) : Prop where
  whole_ne_nil : numeral.whole ≠ []
  whole_all : numeral.whole.all Char.isDigit = true
  fraction : ∀ digits ∈ numeral.fraction, digits ≠ [] ∧ digits.all Char.isDigit = true

theorem Numeral.WellFormed.opens_text {value : Numeral} (h : value.WellFormed) :
    value.text ≠ [] ∧ Opens isNumberStart value.text := by
  obtain ⟨negative, whole, fraction⟩ := value
  cases negative with
  | true => simp [Numeral.text, isNumberStart]
  | false =>
      let digits : TextOf Char.isDigit := ⟨whole, h.whole_all⟩
      have hopens : Opens isNumberStart whole := digits.opens.mono fun c hc => by
        simp [isNumberStart, hc]
      refine ⟨by simp [Numeral.text, h.whole_ne_nil], ?_⟩
      simp only [Numeral.text, Bool.false_eq_true, ↓reduceIte, List.nil_append]
      exact hopens.append_of_ne_nil h.whole_ne_nil _

/-- The numeral ends before this text: no digit goes on with it, and if it has no fraction none
begins here.  A point without a digit after it begins no fraction. -/
structure Numeral.EndsBefore (numeral : Numeral) (rest : List Char) : Prop where
  digit : Opens (!Char.isDigit ·) rest
  point : numeral.fraction = none → ∀ more, rest = '.' :: more → Opens (!Char.isDigit ·) more

/-- Every numeral ends before a delimiter, as no delimiter is a point. -/
theorem Numeral.endsBefore_of_delimiter (numeral : Numeral) (h : Opens isDelimiter rest) :
    numeral.EndsBefore rest where
  digit := h.apart isDigit_of_isDelimiter
  point := by
    rintro - more rfl
    exact absurd (Opens.cons_iff.mp h) (by decide)

/-- A point and the digits after it. -/
def pointDigits : Parser (List Char) := do
  char '.'
  token .digits Char.isDigit

theorem pointDigits_misses (h : ∀ more, rest = '.' :: more → Opens (!Char.isDigit ·) more) :
    Misses pointDigits rest := by
  cases rest with
  | nil => exact (char_misses .nil).bind _
  | cons c more =>
      by_cases hpoint : c = '.'
      · subst hpoint
        rw [Misses, pointDigits, bind_of_ok (char_cons '.' more)]
        exact token_misses .digits (h more rfl)
      · exact (char_misses (by simpa using hpoint)).bind _

/-- A numeral is read to its end. -/
theorem numeral_text {value : Numeral} (hvalue : value.WellFormed) (h : value.EndsBefore rest) :
    numeral (value.text ++ rest) = .ok (value, rest) := by
  obtain ⟨negative, whole, decimals⟩ := value
  obtain ⟨hne, hall, hdecimals⟩ := hvalue
  let digits : TextOf Char.isDigit := ⟨whole, hall⟩
  have hsign (more : List Char) : optional (char '-') ((if negative then ['-'] else []) ++
      (whole ++ more)) = .ok (if negative then some () else none, whole ++ more) := by
    cases negative with
    | true => exact optional_of_ok (char_cons '-' _)
    | false =>
        have hopens := digits.opens.append_of_ne_nil hne more
        exact optional_of_misses (char_misses (hopens.ne (by decide)))
  have hnegative : (if negative then some () else none).isSome = negative := by
    cases negative <;> rfl
  simp only [Numeral.text, List.append_assoc]
  rw [numeral, bind_of_ok (hsign _)]
  cases decimals with
  | none =>
      have hfraction := optional_of_misses (pointDigits_misses (h.point rfl))
      rw [List.nil_append, bind_of_ok (token_append .digits digits hne h.digit)]
      refine (bind_of_ok hfraction _).trans ?_
      rw [hnegative]
      rfl
  | some decimals =>
      obtain ⟨hne', hall'⟩ := hdecimals decimals rfl
      have htoken := token_append .digits ⟨decimals, hall'⟩ hne' h.digit
      have hfraction : pointDigits ('.' :: (decimals ++ rest)) = .ok (decimals, rest) :=
        (bind_of_ok (char_cons '.' _) _).trans htoken
      have hwhole : Opens (!Char.isDigit ·) ('.' :: (decimals ++ rest)) := by
        rw [Opens.cons_iff]
        decide
      rw [List.cons_append, bind_of_ok (token_append .digits digits hne hwhole)]
      refine (bind_of_ok (optional_of_ok hfraction) _).trans ?_
      rw [hnegative]
      rfl

/-- The integer that the sign and the whole digits write. -/
def Numeral.integer (numeral : Numeral) : Int :=
  if numeral.negative then -(Nat.ofDigitChars 10 numeral.whole 0 : Int)
  else Nat.ofDigitChars 10 numeral.whole 0

theorem Numeral.number?_eq {numeral : Numeral} (hfraction : numeral.fraction = none) :
    numeral.number? =
      if numeral.integer < signBound then Number.ofInt? numeral.integer else none := by
  simp only [Numeral.number?, hfraction]
  rfl

/-- A numeral is a number if it can be held as one, and otherwise it is refused where it begins. -/
theorem number_text {value : Numeral} (hvalue : value.WellFormed) (h : value.EndsBefore rest) :
    number (value.text ++ rest) =
      match value.number? with
      | some n => .ok (.literal (.number n), rest)
      | none =>
          .error ⟨true, value.text ++ rest, .numberOutOfRange (String.ofList value.text)⟩ := by
  simp only [number, numeral_text hvalue h]
  cases value.number? <;> rfl

/-- A numeral without a fraction is the integer that it writes. -/
theorem number_of_fits {value : Numeral} (hvalue : value.WellFormed) (h : value.EndsBefore rest)
    (hfraction : value.fraction = none) (lower : -(signBound : Int) ≤ value.integer)
    (upper : value.integer < signBound) :
    number (value.text ++ rest) = .ok (.literal
      (.number (.integer value.integer lower (Int.lt_trans upper (by decide)))), rest) := by
  have hword : value.integer < wordBound := Int.lt_trans upper (by decide)
  rw [number_text hvalue h, Numeral.number?_eq hfraction, if_pos upper,
    Number.ofInt?_eq_some lower hword]

theorem number_of_not_fits {value : Numeral} (hvalue : value.WellFormed)
    (h : value.EndsBefore rest) (hfraction : value.fraction = none)
    (hfits : ¬(-(signBound : Int) ≤ value.integer ∧ value.integer < signBound)) :
    number (value.text ++ rest) =
      .error ⟨true, value.text ++ rest, .numberOutOfRange (String.ofList value.text)⟩ := by
  rw [number_text hvalue h, Numeral.number?_eq hfraction]
  by_cases upper : value.integer < signBound
  · have lower : ¬-(signBound : Int) ≤ value.integer := fun lower => hfits ⟨lower, upper⟩
    rw [if_pos upper, Number.ofInt?, dif_neg lower]
  · rw [if_neg upper]

namespace Numeral

/-- The numeral of an integer, without needless zeros. -/
def ofInt (value : Int) : Numeral :=
  ⟨decide (value < 0), Nat.toDigits 10 value.natAbs, none⟩

theorem text_ofInt (value : Int) : (ofInt value).text = integerText value := by
  simp [text, ofInt, integerText]

theorem wellFormed_ofInt (value : Int) : (ofInt value).WellFormed :=
  ⟨Nat.toDigits_ne_nil, (digitsOf value.natAbs).all, nofun⟩

theorem integer_ofInt (value : Int) : (ofInt value).integer = value := by
  simp only [integer, ofInt, Nat.ofDigitChars_ten_toDigits, decide_eq_true_eq]
  split <;> omega

end Numeral

theorem number_integerText {value : Int} (lower : -(signBound : Int) ≤ value)
    (upper : value < signBound) (h : Opens isDelimiter rest) :
    number (integerText value ++ rest) =
      .ok (.literal (.number (.integer value lower (Int.lt_trans upper (by decide)))), rest) := by
  have hinteger := Numeral.integer_ofInt value
  have hread := number_of_fits (Numeral.wellFormed_ofInt value)
    ((Numeral.ofInt value).endsBefore_of_delimiter h) rfl (hinteger.symm ▸ lower)
    (hinteger.symm ▸ upper)
  rw [Numeral.text_ofInt] at hread
  simpa only [hinteger] using hread

/-- One segment of a path, after its point. -/
def pathSegment : Parser (List Char) := do
  char '.'
  commit (expect "path segment" (token .name isSegmentChar))

theorem pathSegment_misses (h : Opens (· ≠ '.') source) : Misses pathSegment source :=
  (char_misses h).bind _

theorem char_progresses (c : Char) : Progresses (char c) := by
  intro text value rest h
  rw [char.eq_def] at h
  split at h
  · cases h
  · split at h
    · cases h
      simp
    · cases h

theorem pathSegment_repeatable : Repeatable pathSegment where
  progress := (char_progresses '.').bind fun _ =>
    ((token_progresses .name).expect "path segment").commit
  atEnd := pathSegment_misses .nil

/-- A key that a path in an expression can name; a point in it is written as an escape. -/
structure PathKey where
  name : String
  nonempty : name ≠ ""
  all : name.toList.all (fun c => isSegmentChar c || c = '.') = true

namespace PathKey

theorem isSegmentChar_of_mem_escape (key : PathKey) {c : Char}
    (h : c ∈ DotPath.escape key.name.toList) : isSegmentChar c = true := by
  obtain ⟨d, hd, hc⟩ := List.mem_flatMap.mp h
  split at hc
  · simp only [List.mem_cons, List.not_mem_nil, or_false] at hc
    rcases hc with rfl | rfl <;> decide
  · split at hc
    · simp only [List.mem_cons, List.not_mem_nil, or_false] at hc
      rcases hc with rfl | rfl <;> decide
    · rename_i hdot
      rw [List.mem_singleton.mp hc]
      have hkey := List.all_eq_true.mp key.all d hd
      simpa [hdot] using hkey

def written (key : PathKey) : TextOf isSegmentChar where
  chars := DotPath.escape key.name.toList
  all := List.all_eq_true.mpr fun _ hc => key.isSegmentChar_of_mem_escape hc

theorem written_ne_nil (key : PathKey) : key.written.chars ≠ [] := by
  refine DotPath.escape_ne_nil fun hnil => key.nonempty ?_
  simpa using hnil

end PathKey

/-- Segments that are written with a point before each. -/
def segmentsText (segments : List (TextOf isSegmentChar)) : List Char :=
  segments.flatMap fun segment => '.' :: segment.chars

/-- After a segment there is a delimiter or the point of the next one. -/
theorem opens_segmentsText (segments : List (TextOf isSegmentChar)) (h : Opens isDelimiter rest) :
    Opens (fun c => !isSegmentChar c && c ≠ '(') (segmentsText segments ++ rest) := by
  cases segments with
  | nil =>
      refine h.mono fun c hc => ?_
      simp only [isDelimiter, Bool.and_eq_true] at hc ⊢
      exact ⟨hc.1.1, hc.2⟩
  | cons segment segments =>
      rw [segmentsText, List.flatMap_cons, List.cons_append, List.cons_append, Opens.cons_iff]
      decide

theorem many_segmentsText {segments : List (TextOf isSegmentChar)}
    (hne : ∀ segment ∈ segments, segment.chars ≠ []) (h : Opens isDelimiter rest) :
    many pathSegment (segmentsText segments ++ rest) = .ok (segments.map TextOf.chars, rest) := by
  induction segments with
  | nil => exact many_of_misses (pathSegment_misses (h.ne (by decide)))
  | cons segment segments ih =>
      rw [List.forall_mem_cons] at hne
      have hopens : Opens (!isSegmentChar ·) (segmentsText segments ++ rest) :=
        (opens_segmentsText segments h).mono fun c hc => by
          simp only [Bool.and_eq_true] at hc
          exact hc.1
      have htoken := token_append .name segment hne.1 hopens
      have hsegment : pathSegment ('.' :: (segment.chars ++ (segmentsText segments ++ rest))) =
          .ok (segment.chars, segmentsText segments ++ rest) := by
        rw [pathSegment, bind_of_ok (char_cons '.' _)]
        exact commit_of_ok (expect_of_ok htoken _)
      have htext : segmentsText (segment :: segments) ++ rest =
          '.' :: (segment.chars ++ (segmentsText segments ++ rest)) := by
        simp [segmentsText]
      rw [htext]
      exact many_of_ok pathSegment_repeatable hsegment (ih hne.2)

def pathText (path : List PathKey) : List Char :=
  segmentsText (path.map PathKey.written)

theorem many_pathSegment (path : List PathKey) (h : Opens isDelimiter rest) :
    many pathSegment (pathText path ++ rest) =
      .ok (path.map fun key => key.written.chars, rest) := by
  have hne : ∀ segment ∈ path.map PathKey.written, segment.chars ≠ [] :=
    List.forall_mem_map.mpr fun key _ => key.written_ne_nil
  have hread := many_segmentsText hne h
  rwa [List.map_map] at hread

theorem documentPath_pathText (path : List PathKey) (h : Opens isDelimiter rest) :
    documentPath (pathText path ++ rest) = .ok (.document (path.map PathKey.name), rest) := by
  have hkeys : (path.map fun key => key.written.chars).flatMap
      (fun segment => DotPath.keys (String.ofList segment)) = path.map PathKey.name := by
    induction path with
    | nil => rfl
    | cons key path ih =>
        rw [List.map_cons, List.flatMap_cons, ih, List.map_cons, PathKey.written,
          DotPath.keys_escape, List.singleton_append]
  refine (bind_of_ok (many_pathSegment path h) _).trans ?_
  rw [hkeys]
  rfl

/-- The calls of the language. -/
inductive Call
  | var (name : String)
  | metadata (key : Option String)
  | content
  | apply (map : String)
  | throw (message : String)

namespace Call

def function : Call → String
  | .var _ => "var"
  | .metadata _ => "meta"
  | .content => "content"
  | .apply _ => "apply"
  | .throw _ => "throw"

def arguments : Call → List String
  | .var name => [name]
  | .metadata key => key.toList
  | .content => []
  | .apply map => [map]
  | .throw message => [message]

def expr : Call → Expr
  | .var name => .var name
  | .metadata key => .metadata key
  | .content => .content
  | .apply map => .apply map
  | .throw message => .throw message

theorem ofCall_eq_ok (call : Call) : ofCall call.function call.arguments = .ok call.expr := by
  rcases call with _ | (_ | _) | _ | _ | _ <;> rfl

/-- The arguments of a call, each with this white space around it. -/
def pieces (call : Call) (around : Around) : List (Piece String) :=
  call.arguments.map fun argument => ⟨around, Spelling.quote argument, argument⟩

def text (call : Call) (gap : Padding) (around : Around) : List Char :=
  call.function.toList ++ ('(' :: (Piece.listText gap (call.pieces around) ++ [')']))

end Call

theorem quote_readBy (around : Around) (argument : String) :
    Piece.ReadBy ⟨around, Spelling.quote argument, argument⟩ quoted where
  opens := fun rest => by simp [Spelling.quote, isSpaceTabOrBreak]
  reads := fun _ => Spelling.quoted_quote argument _

/-- The arguments of a call are read up to its closing parenthesis. -/
theorem call_listText (start : List Char) {function : String} {pieces : List (Piece String)}
    (hread : ∀ piece ∈ pieces, piece.ReadBy quoted) {expr : Expr}
    (hcall : ofCall function (pieces.map Piece.value) = .ok expr) (gap : Padding)
    (rest : List Char) :
    Grammar.call start function ('(' :: (Piece.listText gap pieces ++ ')' :: rest)) =
      .ok (expr, rest) := by
  have hmisses : Misses quoted (')' :: rest) := Spelling.quoted_misses (by simp)
  rw [Grammar.call, bind_of_ok (bracketed_listText hread '(' rfl hmisses gap), hcall]
  rfl

theorem head_ne_of_isDelimiter (h : Opens isDelimiter rest) : rest.head? ≠ some '(' := by
  intro hhead
  have hparen := h '(' (by rw [hhead]; rfl)
  revert hparen
  decide

/-- A word is read to its end, and then a parenthesis would make it a call. -/
theorem token_name (name : String) (hall : name.toList.all isWordChar = true) (hne : name ≠ "")
    (h : Opens (!isWordChar ·) rest) :
    token .name isWordChar (name.toList ++ rest) = .ok (name.toList, rest) :=
  token_append .name ⟨name.toList, hall⟩ (by simpa using hne) h

/-- A word and a list in parentheses are a call. -/
theorem word_listText (letters : TextOf isWordChar) (hne : letters.chars ≠ [])
    {pieces : List (Piece String)} (hread : ∀ piece ∈ pieces, piece.ReadBy quoted) {expr : Expr}
    (hcall : ofCall (String.ofList letters.chars) (pieces.map Piece.value) = .ok expr)
    (gap : Padding) (rest : List Char) :
    word (letters.chars ++ '(' :: (Piece.listText gap pieces ++ ')' :: rest)) =
      .ok (expr, rest) := by
  have hopens : Opens (!isWordChar ·) ('(' :: (Piece.listText gap pieces ++ ')' :: rest)) := by
    rw [Opens.cons_iff]
    decide
  simp only [word, token_append .name letters hne hopens, List.head?_cons, ↓reduceIte]
  exact call_listText _ hread hcall gap rest

theorem word_call (call : Call) (gap : Padding) (around : Around) (rest : List Char) :
    word (call.text gap around ++ rest) = .ok (call.expr, rest) := by
  have hall : call.function.toList.all isWordChar = true := by
    rcases call with _ | _ | _ | _ | _ <;> simp only [Call.function] <;> decide
  have hne : call.function.toList ≠ [] := by
    rcases call with _ | _ | _ | _ | _ <;> simp [Call.function]
  have hread : ∀ piece ∈ call.pieces around, piece.ReadBy quoted := by
    intro piece hpiece
    obtain ⟨argument, -, rfl⟩ := List.mem_map.mp hpiece
    exact quote_readBy around argument
  have hcall : ofCall (String.ofList call.function.toList)
      ((call.pieces around).map Piece.value) = .ok call.expr := by
    have hvalues : (call.pieces around).map Piece.value = call.arguments := by
      rw [Call.pieces, List.map_map]
      exact List.map_id call.arguments
    rw [hvalues, String.ofList_toList, call.ofCall_eq_ok]
  have hword := word_listText ⟨call.function.toList, hall⟩ hne hread hcall gap rest
  simpa only [Call.text, List.append_assoc, List.cons_append, List.nil_append] using hword

def boolName (value : Bool) : String :=
  if value then "true" else "false"

theorem word_bool (value : Bool) (h : Opens isDelimiter rest) :
    word ((boolName value).toList ++ rest) = .ok (.literal (.bool value), rest) := by
  have hopens := h.apart isWordChar_of_isDelimiter
  have hparen := head_ne_of_isDelimiter h
  cases value with
  | true =>
      have htoken := token_name "true" (by decide) (by decide) hopens
      simp only [boolName, ↓reduceIte, word, htoken, hparen, String.ofList_toList]
  | false =>
      have htoken := token_name "false" (by decide) (by decide) hopens
      simp only [boolName, Bool.false_eq_true, ↓reduceIte, word, htoken, hparen,
        String.ofList_toList]

theorem word_null (h : Opens isDelimiter rest) :
    word ("null".toList ++ rest) = .ok (.literal .null, rest) := by
  have hopens := h.apart isWordChar_of_isDelimiter
  have htoken := token_name "null" (by decide) (by decide) hopens
  simp only [word, htoken, head_ne_of_isDelimiter h, ↓reduceIte, String.ofList_toList]

/-- `this` goes on with a path. -/
theorem word_this {source : List Char} (hopens : Opens (fun c => !isSegmentChar c && c ≠ '(') source)
    (h : documentPath source = .ok result) : word ("this".toList ++ source) = .ok result := by
  have hletters : Opens (!isWordChar ·) source := by
    refine hopens.mono fun c hc => ?_
    simp only [isSegmentChar, Bool.and_eq_true, Bool.not_eq_true', Bool.or_eq_false_iff] at hc
    simp [isWordChar, hc]
  have hparen : source.head? ≠ some '(' := by
    intro hhead
    simpa using hopens '(' (by rw [hhead]; rfl)
  have htoken := token_name "this" (by decide) (by decide) hletters
  simp only [word, htoken, hparen, ↓reduceIte, String.ofList_toList]
  exact h

theorem word_document (path : List PathKey) (h : Opens isDelimiter rest) :
    word ("this".toList ++ (pathText path ++ rest)) =
      .ok (.document (path.map PathKey.name), rest) :=
  word_this (opens_segmentsText _ h) (documentPath_pathText path h)

end Remap.Expr.Grammar
