import Remap.Expression.Parser
import Remap.Proofs.QuotedStrings

/-!
Regions of a text.  A parser never goes back behind the beginning of its text, and a failure is
reported at a place that bears its cause out.  Both are laws of every token, combinator and form,
stated once for any promise about places and failures that they keep.
-/

namespace Remap

open Remap.Parser

/-- A cause that says nothing about the text at which it is reported. -/
def Cause.IsPlain : Cause → Prop
  | .missingChar _ | .mapCollision _ | .emptyPathSegment _ => False
  | _ => True

/-- What is promised of the places that a parse reaches and of the failures that it reports. -/
structure Region where
  Place : List Char → Prop
  Fault : List Char → Cause → Prop
  place_of_suffix {text rest : List Char} : Place text → rest <:+ text → Place rest
  missing {place : List Char} {c : Char} : Place place → place.head? ≠ some c →
    Fault place (.missingChar c)
  plain {place : List Char} {cause : Cause} : Place place → cause.IsPlain → Fault place cause

namespace Region

variable {α β : Type} {p q : Parser α} {P P' : α → Prop} {Q : β → Prop} {region : Region}

/-- The promise is kept at the end of a parse, and what was taken has a property. -/
def Ends (region : Region) (P : α → Prop) : Except Failure (α × List Char) → Prop
  | .ok (value, rest) => region.Place rest ∧ P value
  | .error failure => region.Fault failure.rest failure.cause

/-- From the places of a region the parser keeps its promise. -/
def Keeps (region : Region) (p : Parser α) (P : α → Prop) : Prop :=
  ∀ text, region.Place text → region.Ends P (p text)

namespace Keeps

theorem place {text rest : List Char} {value : α} (h : region.Keeps p P)
    (htext : region.Place text) (hok : p text = .ok (value, rest)) : region.Place rest := by
  have hends := h text htext
  rw [hok] at hends
  exact hends.1

theorem fault {text : List Char} {failure : Failure} (h : region.Keeps p P)
    (htext : region.Place text) (herror : p text = .error failure) :
    region.Fault failure.rest failure.cause := by
  have hends := h text htext
  rwa [herror] at hends

theorem mono (h : region.Keeps p P) (himp : ∀ value, P value → P' value) : region.Keeps p P' := by
  intro text htext
  have hends := h text htext
  cases hresult : p text with
  | ok result =>
      rw [hresult] at hends
      exact ⟨hends.1, himp _ hends.2⟩
  | error failure =>
      rw [hresult] at hends
      exact hends

theorem pure {value : α} (h : P value) : region.Keeps (pure value) P :=
  fun _ htext => ⟨htext, h⟩

theorem miss {cause : Cause} (h : cause.IsPlain) : region.Keeps (miss cause : Parser α) P :=
  fun _ htext => region.plain htext h

theorem abort {place : List Char} {cause : Cause} (h : region.Fault place cause) :
    region.Keeps (abort place cause : Parser α) P :=
  fun _ _ => h

theorem here : region.Keeps here region.Place :=
  fun _ htext => ⟨htext, htext⟩

theorem bind {next : α → Parser β} (hp : region.Keeps p P)
    (hnext : ∀ value, P value → region.Keeps (next value) Q) : region.Keeps (p >>= next) Q := by
  intro text htext
  have hends := hp text htext
  rw [bind_apply]
  cases hresult : p text with
  | ok result =>
      rw [hresult] at hends
      exact hnext result.1 hends.2 result.2 hends.1
  | error failure =>
      rw [hresult] at hends
      exact hends

theorem orElse (hp : region.Keeps p P) (hq : region.Keeps q P) : region.Keeps (p <|> q) P := by
  intro text htext
  have hfirst := hp text htext
  have hsecond := hq text htext
  change region.Ends P (Parser.orElse p q text)
  rw [Parser.orElse]
  cases hp' : p text with
  | ok result =>
      rw [hp'] at hfirst
      exact hfirst
  | error first =>
      rw [hp'] at hfirst
      cases hq' : q text with
      | ok result =>
          rw [hq'] at hsecond
          simp only
          split <;> assumption
      | error second =>
          rw [hq'] at hsecond
          simp only [Failure.furthest]
          repeat' split
          all_goals assumption

theorem commit (hp : region.Keeps p P) : region.Keeps (commit p) P := by
  intro text htext
  have hends := hp text htext
  rw [Parser.commit]
  cases hresult : p text with
  | ok result =>
      rw [hresult] at hends
      exact hends
  | error failure =>
      rw [hresult] at hends
      exact hends

theorem expect (hp : region.Keeps p P) (label : String) : region.Keeps (expect label p) P := by
  intro text htext
  have hends := hp text htext
  rw [Parser.expect]
  cases hresult : p text with
  | ok result =>
      rw [hresult] at hends
      exact hends
  | error failure =>
      rw [hresult] at hends
      simp only
      split
      · exact region.plain htext trivial
      · exact hends

theorem peek (hp : region.Keeps p P) : region.Keeps (peek p) P := by
  intro text htext
  have hends := hp text htext
  rw [Parser.peek]
  cases hresult : p text with
  | ok result =>
      rw [hresult] at hends
      exact ⟨htext, hends.2⟩
  | error failure =>
      rw [hresult] at hends
      exact hends

theorem optional (hp : region.Keeps p P) :
    region.Keeps (optional p) fun found => ∀ value ∈ found, P value := by
  intro text htext
  have hends := hp text htext
  rw [Parser.optional]
  cases hresult : p text with
  | ok result =>
      rw [hresult] at hends
      refine ⟨hends.1, ?_⟩
      rintro _ ⟨⟩
      exact hends.2
  | error failure =>
      rw [hresult] at hends
      simp only
      split
      · exact hends
      · exact ⟨htext, fun _ hmem => absurd hmem (Option.not_mem_none _)⟩

theorem manyUpTo (hp : region.Keeps p P) (bound : Nat) :
    region.Keeps (manyUpTo p bound) fun _ => True := by
  induction bound with
  | zero => exact .pure trivial
  | succ bound ih =>
      rw [manyUpTo_succ]
      refine hp.optional.bind fun found _ => ?_
      cases found with
      | none => exact .pure trivial
      | some value => exact ih.bind fun _ _ => .pure trivial

theorem many (hp : region.Keeps p P) : region.Keeps (many p) fun _ => True :=
  fun text htext => hp.manyUpTo text.length text htext

theorem separatedUpTo {separator : Parser β} (hseparator : region.Keeps separator Q)
    (hp : region.Keeps p P) (bound : Nat) :
    region.Keeps (separatedUpTo separator p bound) fun _ => True := by
  induction bound with
  | zero => exact .pure trivial
  | succ bound ih =>
      rw [separatedUpTo_succ]
      refine (hseparator.bind fun _ _ => hp).optional.bind fun found _ => ?_
      cases found with
      | none => exact .pure trivial
      | some value => exact ih.bind fun _ _ => .pure trivial

theorem separated {separator : Parser β} (hseparator : region.Keeps separator Q)
    (hp : region.Keeps p P) : region.Keeps (separated separator p) fun _ => True := by
  intro text
  rw [separated_apply]
  revert text
  refine hp.optional.bind fun found _ => ?_
  cases found with
  | none => exact .pure trivial
  | some value =>
      exact here.bind fun rest _ =>
        (hseparator.separatedUpTo hp rest.length).bind fun _ _ => .pure trivial

end Keeps

/-- The parser keeps the promise of a region, whatever it takes. -/
abbrev Admits (region : Region) (p : Parser α) : Prop :=
  region.Keeps p fun _ => True

theorem admits_pure (value : α) : region.Admits (pure value) :=
  .pure trivial

section

variable (region)

theorem keyword_admitted (word : String) : region.Admits (keyword word) := by
  intro text htext
  rw [keyword]
  split
  · rename_i rest hrest
    rw [after?_eq_some] at hrest
    exact ⟨region.place_of_suffix htext ⟨word.toList, hrest.symm⟩, trivial⟩
  · exact region.plain htext trivial

theorem char_admitted (c : Char) : region.Admits (char c) := by
  intro text htext
  cases text with
  | nil => exact region.missing htext nofun
  | cons d rest =>
      rw [char]
      split
      · exact ⟨region.place_of_suffix htext (List.suffix_cons d rest), trivial⟩
      · rename_i hne
        exact region.missing htext fun heq => hne (Option.some.inj heq)

theorem run_admitted (inClass : Char → Bool) : region.Admits (run inClass) :=
  fun _ htext => ⟨region.place_of_suffix htext (List.dropWhile_suffix inClass), trivial⟩

theorem token_admitted (kind : TokenClass) (inClass : Char → Bool) :
    region.Admits (token kind inClass) := by
  intro text htext
  rw [token]
  split
  · exact region.plain htext trivial
  · exact ⟨region.place_of_suffix htext (List.dropWhile_suffix inClass), trivial⟩

theorem lineEnd_admitted : region.Admits lineEnd := by
  intro text htext
  rw [lineEnd.eq_def]
  split
  · rename_i rest
    exact ⟨region.place_of_suffix htext (List.suffix_cons _ rest), trivial⟩
  · rename_i rest
    exact ⟨region.place_of_suffix htext ⟨['\r', '\n'], rfl⟩, trivial⟩
  · exact region.plain htext trivial

theorem comment_admitted : region.Admits comment := by
  intro text htext
  rw [comment.eq_def]
  split
  · rename_i body
    have hbody : region.Place body := region.place_of_suffix htext (List.suffix_cons '#' body)
    have hdrop : body.dropWhile isLineText <:+ body := List.dropWhile_suffix isLineText
    simp only
    split
    · exact ⟨region.place_of_suffix htext List.nil_suffix, trivial⟩
    · rename_i rest hrest
      have hsuffix : rest <:+ body := ((List.suffix_cons '\n' rest).trans (hrest ▸ hdrop))
      exact ⟨region.place_of_suffix hbody hsuffix, trivial⟩
    · rename_i rest hrest
      have hend : rest <:+ '\r' :: '\n' :: rest := ⟨['\r', '\n'], rfl⟩
      exact ⟨region.place_of_suffix hbody (hend.trans (hrest ▸ hdrop)), trivial⟩
    · exact region.plain hbody trivial
  · rename_i hno
    refine region.missing htext fun hhead => ?_
    obtain ⟨rest, rfl⟩ : ∃ rest, text = '#' :: rest := by
      cases text with
      | nil => cases hhead
      | cons c rest => exact ⟨rest, by rw [Option.some.inj hhead]⟩
    exact hno rest rfl

theorem lineBreak_admitted : region.Admits lineBreak :=
  (comment_admitted region).orElse (lineEnd_admitted region)

theorem blankLines_admitted : region.Admits blankLines :=
  ((token_admitted region .blanks isSpaceOrTab).orElse (lineBreak_admitted region)).many.bind
    fun _ _ => .pure trivial

end

section

variable (region)

theorem quoted_admitted : region.Admits quoted := by
  intro text htext
  rcases QuotedBody.exists_of_text text with hopens | ⟨⟨written, ending⟩, rfl⟩
  · rw [Spelling.quoted_of_opens hopens]
    exact region.missing htext fun hhead => absurd (hopens _ hhead) (by decide)
  · have hending : ending.text <:+ '"' :: QuotedBody.text ⟨written, ending⟩ :=
      (List.suffix_append _ _).trans (List.suffix_cons _ _)
    have hplace := region.place_of_suffix htext hending
    rw [QuotedBody.quoted_text]
    cases ending with
    | closed rest => exact ⟨region.place_of_suffix hplace (List.suffix_cons '"' rest), trivial⟩
    | badEscape place _ => exact region.plain hplace trivial
    | unclosed => exact region.plain htext trivial

theorem name_admitted : region.Admits name :=
  (quoted_admitted region).orElse
    ((token_admitted region .name isBareNameChar).bind fun _ _ => .pure trivial)

end

end Region

namespace Expr.Grammar

variable {α : Type} {item : Parser α} {region : Region}

theorem numeral_admitted (region : Region) : region.Admits numeral :=
  (region.char_admitted '-').optional.bind fun _ _ =>
    (region.token_admitted .digits Char.isDigit).bind fun _ _ =>
      ((region.char_admitted '.').bind fun _ _ =>
        region.token_admitted .digits Char.isDigit).optional.bind fun _ _ => .pure trivial

theorem number_admitted (region : Region) : region.Admits number := by
  intro text htext
  have hends := numeral_admitted region text htext
  rw [number]
  cases hnumeral : numeral text with
  | error failure =>
      rw [hnumeral] at hends
      exact hends
  | ok result =>
      rw [hnumeral] at hends
      cases hnumber : result.1.number? with
      | none =>
          simp only [hnumber]
          exact region.plain htext trivial
      | some n =>
          simp only [hnumber]
          exact hends

theorem string_admitted (region : Region) : region.Admits string :=
  region.quoted_admitted.bind fun _ _ => .pure trivial

theorem comma_admitted (region : Region) : region.Admits comma :=
  (region.run_admitted isSpaceTabOrBreak).bind fun _ _ => (region.char_admitted ',').bind fun _ _ =>
    (region.run_admitted isSpaceTabOrBreak).bind fun _ _ => .pure trivial

theorem bracketed_admitted (opening closing : Char) (h : region.Admits item) :
    region.Admits (bracketed opening closing item) :=
  (region.char_admitted opening).bind fun _ _ =>
    (region.run_admitted isSpaceTabOrBreak).bind fun _ _ =>
      ((comma_admitted region).separated h).bind fun _ _ =>
        (region.run_admitted isSpaceTabOrBreak).bind fun _ _ =>
          (region.char_admitted closing).commit.bind fun _ _ => .pure trivial

theorem array_admitted {item : Parser Expr} (h : region.Admits item) :
    region.Admits (array item) :=
  (bracketed_admitted '[' ']' h).bind fun _ _ => .pure trivial

theorem field_admitted {item : Parser Expr} (h : region.Admits item) :
    region.Admits (field item) :=
  region.quoted_admitted.bind fun _ _ =>
    ((region.run_admitted isSpaceTabOrBreak).bind fun _ _ => (region.char_admitted ':').bind
      fun _ _ => (region.run_admitted isSpaceTabOrBreak).bind fun _ _ =>
        Region.admits_pure ()).commit.bind fun _ _ => h.commit.bind fun _ _ => .pure trivial

theorem object_admitted {item : Parser Expr} (h : region.Admits item) :
    region.Admits (object item) :=
  (bracketed_admitted '{' '}' (field_admitted h)).bind fun _ _ => .pure trivial

theorem documentPath_admitted (region : Region) : region.Admits documentPath :=
  ((region.char_admitted '.').bind fun _ _ =>
    ((region.token_admitted .name isSegmentChar).expect "path segment").commit).many.bind
      fun _ _ => .pure trivial

/-- A call is at fault for its function or for the number of its arguments. -/
theorem isPlain_of_ofCall {function : String} {arguments : List String} {cause : Cause}
    (h : ofCall function arguments = .error cause) : cause.IsPlain := by
  rw [ofCall.eq_def] at h
  split at h <;> cases h <;> trivial

theorem call_admitted {start : List Char} (h : region.Place start) (function : String) :
    region.Admits (call start function) := by
  refine (bracketed_admitted '(' ')' region.quoted_admitted).bind fun arguments _ => ?_
  cases hcall : ofCall function arguments with
  | ok expr => exact .pure trivial
  | error cause => exact .abort (region.plain h (isPlain_of_ofCall hcall))

theorem word_admitted (region : Region) : region.Admits word := by
  intro text htext
  have hends := region.token_admitted .name isWordChar text htext
  simp only [word]
  cases hletters : token .name isWordChar text with
  | error failure =>
      rw [hletters] at hends
      exact hends
  | ok result =>
      rw [hletters] at hends
      simp only
      split
      · exact call_admitted htext _ result.2 hends.1
      · split
        · exact hends
        · exact hends
        · exact hends
        · exact documentPath_admitted region result.2 hends.1
        · exact region.plain htext trivial

theorem expression_admitted (region : Region) (bound : Nat) : region.Admits (expression bound) := by
  induction bound with
  | zero => exact .miss trivial
  | succ bound ih =>
      exact ((string_admitted region).orElse ((number_admitted region).orElse
        ((array_admitted ih).orElse ((object_admitted ih).orElse
          (word_admitted region))))).expect "expression"

end Expr.Grammar

/-- Expressions keep every promise. -/
theorem Expr.parse_admitted (region : Region) : region.Admits Expr.parse :=
  fun text htext => Grammar.expression_admitted region text.length text htext

end Remap
